/- module: TaskerRT/Daemon/Ordered
   source: crates/taskerd/src/engine.rs (tick, push_dispatch), crates/taskerd/src/outbox.rs
   digest: When dispatches enter the outbox in the order in which they were posted. -/

import TaskerRT.Daemon.Posting

set_option autoImplicit false

namespace TaskerRT.Daemon

open Library Domain Cluster Policy Scheduling Wal

namespace Outbox

variable {o : Outbox} {d : Dispatch}

def Refuses (o : Outbox) : Prop := o.capacity ≤ o.drained.queue.length

instance (o : Outbox) : Decidable o.Refuses := inferInstanceAs (Decidable (_ ≤ _))

def after (o : Outbox) (ds : List Dispatch) : Outbox := ds.foldl (fun o d => (o.push d).1) o

/-- From its first refusal on, the ring refuses: the dispatcher takes nothing from a full ring
before the turn is over. -/
def Steady (o : Outbox) : Prop := ∀ ds d, (o.after ds).Refuses → ((o.after ds).push d).1.Refuses

private theorem Steady.push (h : o.Steady) (d : Dispatch) : (o.push d).1.Steady :=
  fun ds => h (d :: ds)

private theorem Steady.refuses (h : o.Steady) (hfull : o.Refuses) (d : Dispatch) :
    (o.push d).1.Refuses := h [] d hfull

private theorem push_of_refuses (h : o.Refuses) (d : Dispatch) : o.push d = (o.drained, false) := by
  have hfull : ¬ o.drained.queue.length < o.drained.capacity := Nat.not_lt.mpr h
  simp only [Outbox.push, if_neg hfull]

private theorem push_of_room (h : ¬ o.Refuses) (d : Dispatch) :
    (o.push d).2 = true ∧ (o.push d).1.entered = o.entered ++ [d] := by
  have hroom : o.drained.queue.length < o.drained.capacity := Nat.not_le.mp h
  simp only [Outbox.push, if_pos hroom, true_and]
  rfl

private theorem due_push (h : o.due = []) (d : Dispatch) : (o.push d).1.due = [] := by
  unfold Outbox.push drained
  dsimp only
  split <;> rw [h] <;> rfl

private theorem steady_of_idle (h : o.due = []) : o.Steady := by
  intro ds d hfull
  have hidle : (o.after ds).due = [] := by
    clear hfull
    induction ds generalizing o with
    | nil => exact h
    | cons d ds ih => exact ih (due_push h d)
  have hsame : (o.after ds).drained = o.after ds := by
    generalize o.after ds = o at hidle
    obtain ⟨capacity, queue, due, entered⟩ := o
    obtain rfl : due = [] := hidle
    rfl
  rw [push_of_refuses hfull, hsame]
  exact hfull

end Outbox

namespace Port

variable {p : Port}

/-- Everything posted so far, when nothing was overtaken. -/
def line (p : Port) : List Dispatch := p.outbox.entered ++ p.overflow

/-- The port is about to keep its order: the ring is steady, and has no room while dispatches
wait. -/
structure Settled (p : Port) : Prop where
  steady : p.outbox.Steady
  waits : p.overflow = [] ∨ p.outbox.Refuses

private theorem Settled.push (h : p.Settled) (d : Dispatch) :
    (p.push d).Settled ∧ (p.push d).line = p.line ++ [d] := by
  by_cases hfull : p.outbox.Refuses
  · have hnext := h.steady.refuses hfull d
    have hsteady := h.steady.push d
    have hpush := Outbox.push_of_refuses hfull d
    rw [hpush] at hnext hsteady
    have hport : p.push d = ⟨p.outbox.drained, p.overflow ++ [d]⟩ := by
      simp only [Port.push, hpush]
    rw [hport]
    exact ⟨⟨hsteady, .inr hnext⟩, (List.append_assoc _ _ _).symm⟩
  · obtain ⟨htaken, hentered⟩ := Outbox.push_of_room hfull d
    have hempty : p.overflow = [] := h.waits.resolve_right hfull
    have hport : p.push d = ⟨(p.outbox.push d).1, p.overflow⟩ := by
      unfold Port.push
      generalize p.outbox.push d = out at htaken ⊢
      obtain ⟨outbox, _ | _⟩ := out
      · cases htaken
      · rfl
    rw [hport]
    refine ⟨⟨h.steady.push d, .inl hempty⟩, ?_⟩
    simp only [line, hentered, hempty, List.append_nil]

private theorem Settled.pushAll (ds : List Dispatch) : ∀ {p : Port}, p.Settled →
    (p.pushAll ds).line = p.line ++ ds := by
  induction ds with
  | nil => exact fun {p} _ => (List.append_nil _).symm
  | cons d ds ih =>
    intro p h
    obtain ⟨hsettled, hline⟩ := h.push d
    rw [pushAll_cons, ih hsettled, hline, List.append_assoc]
    rfl

private theorem flush_settled (hsteady : p.outbox.Steady)
    (h : p.overflow.length ≤ 1 ∨ p.outbox.Refuses) : p.flush.Settled ∧ p.flush.line = p.line := by
  obtain ⟨outbox, overflow⟩ := p
  obtain ⟨back, rfl⟩ : ∃ back, overflow = back.reverse := ⟨overflow.reverse, by simp⟩
  have hflush : flush ⟨outbox, back.reverse⟩ = flushFrom back outbox :=
    congrArg (flushFrom · outbox) (List.reverse_reverse back)
  rw [hflush]
  rcases back with - | ⟨d, back⟩
  · exact ⟨⟨hsteady, .inl rfl⟩, rfl⟩
  · by_cases hfull : outbox.Refuses
    · have hpush := Outbox.push_of_refuses hfull d
      have hnext := hsteady.refuses hfull d
      have hkept := hsteady.push d
      rw [hpush] at hnext hkept
      have hdone : flushFrom (d :: back) outbox = ⟨outbox.drained, (d :: back).reverse⟩ := by
        simp only [flushFrom, hpush]
      rw [hdone]
      exact ⟨⟨hkept, .inr hnext⟩, rfl⟩
    · have hshort := h.resolve_right hfull
      obtain rfl : back = [] := by
        rw [List.length_reverse, List.length_cons] at hshort
        exact List.length_eq_zero_iff.mp (by omega)
      obtain ⟨htaken, hentered⟩ := Outbox.push_of_room hfull d
      have hdone : flushFrom [d] outbox = ⟨(outbox.push d).1, []⟩ := by
        unfold flushFrom
        generalize outbox.push d = out at htaken ⊢
        obtain ⟨outbox, _ | _⟩ := out
        · cases htaken
        · rfl
      rw [hdone]
      refine ⟨⟨hsteady.push d, .inl rfl⟩, ?_⟩
      simp only [line, hentered, List.append_nil]
      rfl

end Port

/-- One turn of the scheduler thread, with what the dispatcher takes before each push of the turn;
or the dispatcher takes one dispatch between two turns. -/
inductive Turn where
  | command (command : Command) (now : VirtualTime) (due : List Nat)
  | tick (now : VirtualTime) (due : List Nat) (room : Bool)
  | taken
  | quiesce (leaving : Bool)

namespace Host

variable [Crc32] {h h' : Host}

/-- The host with a dispatcher that will take so much before each push to come. -/
def awaiting (h : Host) (due : List Nat) : Host := { h with outbox := { h.outbox with due := due } }

def turn (h : Host) : Turn → Option Host
  | .command command now due => (h.awaiting due).handle command now
  | .tick now due room => ((h.awaiting due).tick now room).map (·.1)
  | .taken => some { h with outbox := h.outbox.pop.elim h.outbox (·.2) }
  | .quiesce leaving => some { h with engine := { h.engine with quiescing := leaving } }

/-- What a turn posts: all that is left over when nothing gets through. -/
def posted (h : Host) (turn : Turn) : List Dispatch :=
  ((h.withPort Port.closed).turn turn).elim [] (·.engine.overflow)

theorem port_command {command : Command} {now : VirtualTime} {due : List Nat}
    (hturn : h.turn (.command command now due) = some h') :
    h'.port = (h.awaiting due).port.pushAll (h.posted (.command command now due)) := by
  obtain ⟨r, hr⟩ := relays_handle command now h
  have hreal : r.map (fun x => x.1.withPort ((h.awaiting due).port.pushAll x.2)) = some h' :=
    (hr (h.awaiting due).port).symm.trans hturn
  obtain ⟨x, rfl, rfl⟩ := Option.map_eq_some_iff.mp hreal
  let shut : Port := ⟨{ Outbox.new 0 with due := due }, []⟩
  have hshut : (h.withPort Port.closed).turn (.command command now due) =
      some (x.1.withPort (shut.pushAll x.2)) := hr shut
  have hposted : h.posted (.command command now due) = x.2 := by
    rw [posted, hshut]
    exact Port.overflow_pushAll_shut x.2 rfl
  rw [hposted]
  rfl

theorem port_tick {now : VirtualTime} {due : List Nat} {room : Bool}
    (hturn : h.turn (.tick now due room) = some h') :
    h'.port = (h.awaiting due).port.flush.pushAll (h.posted (.tick now due room)) := by
  obtain ⟨r, hr⟩ := tick_relays h now room
  have hreal : r.map (fun x => x.1.withPort ((h.awaiting due).port.flush.pushAll x.2)) = some h' :=
    (hr (h.awaiting due).port).symm.trans hturn
  obtain ⟨x, rfl, rfl⟩ := Option.map_eq_some_iff.mp hreal
  let shut : Port := ⟨{ Outbox.new 0 with due := due }, []⟩
  have hshut : (h.withPort Port.closed).turn (.tick now due room) =
      some (x.1.withPort (shut.pushAll x.2)) := hr shut
  have hposted : h.posted (.tick now due room) = x.2 := by
    rw [posted, hshut]
    exact Port.overflow_pushAll_shut x.2 rfl
  rw [hposted]
  rfl

/-- A turn that cannot overtake: once the ring was full it stays full for the turn; a command
finds nothing waiting or a full ring; a tick finds at most one dispatch waiting, or a full ring. -/
def Orderly (h : Host) : Turn → Prop
  | .command _ _ due => (h.awaiting due).outbox.Steady ∧
      (h.engine.overflow = [] ∨ (h.awaiting due).outbox.Refuses)
  | .tick _ due _ => (h.awaiting due).outbox.Steady ∧
      (h.engine.overflow.length ≤ 1 ∨ (h.awaiting due).outbox.Refuses)
  | .taken => True
  | .quiesce _ => True

private theorem line_turn {turn : Turn} (hturn : h.turn turn = some h') (horder : h.Orderly turn) :
    h'.port.line = h.port.line ++ h.posted turn := by
  cases turn with
  | command command now due =>
    have hsettled : (h.awaiting due).port.Settled := ⟨horder.1, horder.2⟩
    rw [port_command hturn, hsettled.pushAll]
    rfl
  | tick now due room =>
    obtain ⟨hsettled, hline⟩ := Port.flush_settled (p := (h.awaiting due).port) horder.1 horder.2
    rw [port_tick hturn, hsettled.pushAll, hline]
    rfl
  | taken =>
    obtain rfl := Option.some.inj hturn
    have hsame : (h.outbox.pop.elim h.outbox (·.2)).entered = h.outbox.entered := by
      unfold Outbox.pop
      cases h.outbox.queue <;> rfl
    show (h.outbox.pop.elim h.outbox (·.2)).entered ++ h.engine.overflow = _
    rw [hsame]
    exact (List.append_nil _).symm
  | quiesce leaving =>
    obtain rfl := Option.some.inj hturn
    exact (List.append_nil _).symm

end Host

/-- A host, and everything it posted so far. -/
structure Line where
  host : Host
  produced : List Dispatch

namespace Line

section

variable [Crc32]

def start (config : DaemonConfig) (capacity : Nat) : Line :=
  ⟨⟨Engine.new config, Outbox.new capacity, []⟩, []⟩

def step (l : Line) (turn : Turn) : Option Line :=
  (l.host.turn turn).map fun h => ⟨h, l.produced ++ l.host.posted turn⟩

def Steps (l : Line) (turn : Turn) (l' : Line) : Prop := l.step turn = some l'

def OrderlySteps (l : Line) (turn : Turn) (l' : Line) : Prop :=
  l.Steps turn l' ∧ l.host.Orderly turn

/-- As long as no turn can overtake, dispatches enter the ring in the order they were posted, and
so do those for each slot. -/
theorem dispatches_enter_in_order {config : DaemonConfig} {capacity : Nat} {turns : List Turn}
    {l : Line} (hrun : Chain OrderlySteps (start config capacity) turns l) :
    l.host.outbox.entered <+: l.produced ∧ ∀ slot : SlotIndex,
      l.host.outbox.entered.filter (·.slot = slot) <+: l.produced.filter (·.slot = slot) := by
  have hline : l.produced = l.host.port.line := by
    refine hrun.keeps (P := fun l => l.produced = l.host.port.line) (fun l turn l' hstep hl => ?_)
      rfl
    obtain ⟨h', hturn, rfl⟩ := Option.map_eq_some_iff.mp hstep.1
    rw [Host.line_turn hturn hstep.2, ← hl]
  have hentered : l.host.outbox.entered <+: l.produced := by
    rw [hline]
    exact List.prefix_append _ _
  exact ⟨hentered, fun slot => hentered.filter _⟩

end

/-- The dispatcher sleeps for the turn; a command finds nothing waiting, a tick at most one. -/
def Calm (l : Line) : Turn → Prop
  | .command _ _ due => due = [] ∧ l.host.engine.overflow = []
  | .tick _ due _ => due = [] ∧ l.host.engine.overflow.length ≤ 1
  | .taken => True
  | .quiesce _ => True

instance (l : Line) (turn : Turn) : Decidable (l.Calm turn) :=
  match turn with
  | .command _ _ _ => inferInstanceAs (Decidable (_ ∧ _))
  | .tick _ _ _ => inferInstanceAs (Decidable (_ ∧ _))
  | .taken => isTrue trivial
  | .quiesce _ => isTrue trivial

private theorem Calm.orderly {l : Line} {turn : Turn} (h : l.Calm turn) : l.host.Orderly turn := by
  cases turn with
  | command command now due =>
    obtain ⟨rfl, hempty⟩ := h
    exact ⟨Outbox.steady_of_idle rfl, .inl hempty⟩
  | tick now due room =>
    obtain ⟨rfl, hfew⟩ := h
    exact ⟨Outbox.steady_of_idle rfl, .inl hfew⟩
  | taken => trivial
  | quiesce leaving => trivial

/-- A worker with room for three, three jobs, a tick, an assignment taken and another tick. -/
def threeJobs : List Turn :=
  [.command (sampleJoin 3) 0 [], .command (sampleSubmit .normal 1 []) 0 [],
    .command (sampleSubmit .normal 1 []) 0 [], .command (sampleSubmit .normal 1 []) 0 [],
    .tick 0 [] true, .taken, .tick 1 [] true]

attribute [local instance] Crc32.ieee

/-- With a ring of two, the third assignment waits, and the second tick sends it. -/
theorem dispatches_enter_in_order_sample : ∃ l,
    Chain OrderlySteps (start sampleDaemon 2) threeJobs l ∧
      l.host.outbox.entered <+: l.produced ∧ l.host.outbox.entered.length = 3 := by
  have hrun : ((threeJobs.foldlM (guarded Calm step) (start sampleDaemon 2)).any
      fun l => decide (l.host.outbox.entered.length = 3)) = true := by decide +kernel
  obtain ⟨l, hl, hlength⟩ := (Option.any_eq_true _ _).mp hrun
  have hchain : Chain OrderlySteps (start sampleDaemon 2) threeJobs l :=
    (Chain.of_guarded hl).imp fun _ _ _ _ h => ⟨h.1, h.2.orderly⟩
  exact ⟨l, hchain, (dispatches_enter_in_order hchain).1,
    of_decide_eq_true hlength⟩

/-- With a ring of one, the second and third assignment wait; the next flush sends the third
first. -/
theorem newest_waiting_overtakes : ∃ turns l,
    Chain Steps (start sampleDaemon 1) turns l ∧
      ¬ l.host.outbox.entered <+: l.produced := by
  have hrun : ((threeJobs.foldlM step (start sampleDaemon 1)).any fun l =>
      decide (¬ l.host.outbox.entered <+: l.produced)) = true := by decide +kernel
  obtain ⟨l, hl, hbad⟩ := (Option.any_eq_true _ _).mp hrun
  exact ⟨_, l, Chain.of_foldlM hl, of_decide_eq_true hbad⟩

end Line

end TaskerRT.Daemon
