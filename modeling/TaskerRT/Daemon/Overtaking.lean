/- module: TaskerRT/Daemon/Overtaking
   source: crates/taskerd/src/engine.rs, crates/taskerd/src/journal.rs (hold, commit, run_writer)
   digest: Kills go straight to the outbox; when they cannot overtake the assignments they revoke. -/

import TaskerRT.Daemon.Handover
import TaskerRT.Daemon.Ordered

set_option autoImplicit false

namespace TaskerRT.Daemon

open Library Domain Cluster Policy Scheduling Wal

def Dispatch.assigns (id : JobId) : Dispatch → Bool
  | assign _ x _ _ => x = id
  | _ => false

namespace Outbox

private theorem entered_push (o : Outbox) (d : Dispatch) : (o.push d).1.entered =
    if (o.push d).2 then o.entered ++ [d] else o.entered := by
  unfold push
  dsimp only
  split <;> rfl

private theorem entered_le_push (o : Outbox) (d : Dispatch) : o.entered <+:
    (o.push d).1.entered := by
  rw [entered_push]
  split
  · exact List.prefix_append _ _
  · exact List.prefix_rfl

end Outbox

namespace Port

private theorem entered_le_port_push (p : Port) (d : Dispatch) :
    p.outbox.entered <+: (p.push d).outbox.entered := by
  have hle := p.outbox.entered_le_push d
  unfold push
  generalize p.outbox.push d = out at hle
  obtain ⟨outbox, _ | _⟩ := out
  · exact hle
  · exact hle

private theorem entered_le_pushAll (ds : List Dispatch) : ∀ p : Port,
    p.outbox.entered <+: (p.pushAll ds).outbox.entered := by
  induction ds with
  | nil => exact fun _ => List.prefix_rfl
  | cons d ds ih => exact fun p => (p.entered_le_port_push d).trans (ih (p.push d))

private theorem entered_le_flushFrom (ds : List Dispatch) : ∀ o : Outbox,
    o.entered <+: (flushFrom ds o).outbox.entered := by
  induction ds with
  | nil => exact fun _ => List.prefix_rfl
  | cons d ds ih =>
    intro o
    have hle := o.entered_le_push d
    unfold flushFrom
    generalize o.push d = out at hle
    obtain ⟨outbox, _ | _⟩ := out
    · exact hle
    · exact hle.trans (ih outbox)

end Port

namespace Journal

def held (j : Journal) : List Dispatch := (j.sent ++ [j.pending]).flatMap (·.dispatches)

private theorem held_eq (j : Journal) : j.held = j.sent.flatMap
    (·.dispatches) ++ j.pending.dispatches := by
  simp [held]

end Journal

/-- What was handed to the writer and what was held stays so. -/
structure Grows (log log' : Option Journal) : Prop where
  sent : log.elim [] (·.sent) <+: log'.elim [] (·.sent)
  held : log.elim [] (·.held) <+: log'.elim [] (·.held)

namespace Grows

variable {log log' log'' : Option Journal}

private theorem refl (log : Option Journal) : Grows log log := ⟨List.prefix_rfl, List.prefix_rfl⟩

private theorem trans (h : Grows log log') (h' : Grows log' log'') : Grows log log'' :=
  ⟨h.sent.trans h'.sent, h.held.trans h'.held⟩

private theorem of_same {j j' : Journal} (hsent : j'.sent = j.sent)
    (hheld : j'.pending.dispatches = j.pending.dispatches) : Grows (some j) (some j') := by
  refine ⟨?_, ?_⟩
  · show j.sent <+: j'.sent
    rw [hsent]
  · show j.held <+: j'.held
    rw [Journal.held_eq, Journal.held_eq, hsent, hheld]

private theorem hold (j : Journal) (d : Dispatch) : Grows (some j) (some (j.hold d)) := by
  refine ⟨List.prefix_rfl, ⟨[d], ?_⟩⟩
  show j.held ++ [d] = (j.hold d).held
  rw [Journal.held_eq, Journal.held_eq, List.append_assoc]
  rfl

private theorem commit (j : Journal) (room : Bool) : Grows (some j) (some (j.commit room)) := by
  unfold Journal.commit
  split
  · exact .refl _
  · split
    · refine ⟨⟨[j.pending], rfl⟩, ?_⟩
      show j.held <+: Journal.held _
      rw [Journal.held_eq, Journal.held_eq]
      simp [Commit.empty]
    · exact .refl _

end Grows

namespace Engine

/-- A part of a handler that takes nothing back from the writer. -/
def Piles (f : Engine → Option Engine) : Prop :=
  ∀ e e', f e = some e' → Grows e.journal e'.journal

private theorem Piles.bind {f g : Engine → Option Engine} (hf : Piles f) (hg : Piles g) :
    Piles fun e => (f e).bind g := by
  intro e e' h
  obtain ⟨e₁, h₁, h₂⟩ := Option.bind_eq_some_iff.mp h
  exact (hf e e₁ h₁).trans (hg e₁ e' h₂)

private theorem piles_pure {f : Engine → Engine} (hf : ∀ e, (f e).journal = e.journal) :
    Piles fun e => some (f e) := by
  intro e e' h
  obtain rfl := Option.some.inj h
  rw [hf]
  exact .refl _

private theorem piles_commit (room : Bool) : Piles fun e => some (e.commit room) := by
  intro e e' h
  obtain rfl := Option.some.inj h
  show Grows e.journal (e.journal.map (·.commit room))
  cases e.journal with
  | none => exact .refl _
  | some j => exact .commit j room

variable [Crc32]

private theorem piles_record (r : Record) : Piles (·.record r) := by
  intro e e' h
  cases hj : e.journal with
  | none =>
    simp only [record, hj] at h
    obtain rfl := Option.some.inj h
    rw [hj]
    exact .refl _
  | some j =>
    simp only [record, hj] at h
    obtain ⟨j', hrec, hdone⟩ := Option.bind_eq_some_iff.mp h
    obtain ⟨bytes, -, hgrown⟩ := Option.bind_eq_some_iff.mp hrec
    obtain rfl := Option.some.inj hgrown
    obtain rfl := Option.some.inj hdone
    exact .of_same rfl rfl

private theorem piles_recordSubmitted (id : JobId) : Piles (Host.recordSubmitted · id) := by
  intro e e' h
  cases hj : e.journal with
  | none =>
    simp only [Host.recordSubmitted, hj] at h
    obtain rfl := Option.some.inj h
    rw [hj]
    exact .refl _
  | some j =>
    cases hget : e.jobs.get id with
    | none =>
      simp only [Host.recordSubmitted, hj, hget] at h
      obtain rfl := Option.some.inj h
      rw [hj]
      exact .refl _
    | some job =>
      simp only [Host.recordSubmitted, hj, hget] at h
      rw [Journal.recordSubmitted, encodeSubmitted_eq] at h
      rw [← hj]
      exact piles_record (.submitted id job) e e' (by simp only [record, hj]; exact h)

private theorem piles_requeueLogged (id : JobId) (now : VirtualTime) :
    Piles (·.requeueLogged id now) := by
  intro e e' h
  unfold requeueLogged at h
  dsimp only at h
  split at h
  · exact piles_record (.requeued id now)
      (e.withRoster (e.adoptStep (e.scheduler.requeue id e.jobs now e.cycle))) e' h
  · obtain rfl := Option.some.inj h
    exact .refl _

omit [Crc32] in
private theorem piles_report {α : Type} (id : JobId) (call : Core → CycleConfig → Step α)
    {finish : α → Engine → Option Engine} (hfinish : ∀ a, Piles (finish a)) :
    Piles (report id call finish) := by
  intro e e' h
  unfold report at h
  split at h
  · obtain rfl := Option.some.inj h
    exact .refl _
  · rename_i c _
    split at h
    · obtain rfl := Option.some.inj h
      exact .refl _
    · rename_i a _
      exact hfinish a (e.withCore (c.withRoster (c.adoptStep (call c e.cycle)))) e' h

private theorem piles_completed (id : JobId) (now : VirtualTime) : Piles
    (·.onCompletedReport id now) := by
  simp only [completed_eq_report]
  exact piles_report id _ fun _ =>
    (piles_record (.completed id now)).bind (piles_pure fun _ => rfl)

private theorem piles_failed (id : JobId) (now : VirtualTime) : Piles
    (·.onFailedReport id now) := by
  simp only [failed_eq_report]
  exact piles_report id _ fun cascade =>
    (piles_record (.failed id now)).bind (piles_pure fun _ => rfl)

private theorem piles_preempted (id : JobId) (now : VirtualTime) :
    Piles (·.onPreemptedReport id now) := by
  simp only [preempted_eq_report]
  exact piles_report id _ fun _ => piles_record (.requeued id now)

private theorem piles_requeueEach (now : VirtualTime) (ids : List JobId) : Piles
    (requeueEach now ids) := by
  induction ids with
  | nil => exact piles_pure fun _ => rfl
  | cons id rest ih => exact Piles.bind (piles_requeueLogged id now) ih

private theorem piles_evictSlot (slot : SlotIndex) (now : VirtualTime) : Piles
    (·.evictSlot slot now) := by
  intro e e' h
  unfold evictSlot at h
  obtain ⟨e₁, hreq, hdone⟩ := Option.bind_eq_some_iff.mp h
  obtain rfl := Option.some.inj hdone
  split at hreq
  · obtain rfl := Option.some.inj hreq
    exact .refl _
  · exact piles_requeueEach now _ (e.withCore (e.unbindSlot slot)) e₁ hreq

private theorem piles_forgetLoop (now : VirtualTime) (entries : List (VirtualTime × JobId)) :
    Piles (forgetLoop now entries) := by
  induction entries with
  | nil => exact piles_pure fun _ => rfl
  | cons entry rest ih =>
    intro e e' h
    obtain ⟨time, id⟩ := entry
    unfold forgetLoop at h
    split at h
    · obtain rfl := Option.some.inj h
      exact .refl _
    · split at h
      · rename_i jobs job _
        exact (Piles.bind (piles_record (.forgotten id)) ih)
          (e.withRoster { e.toRoster with jobs := jobs, terminal := rest }) e' h
      · exact ih (e.withRoster { e.toRoster with terminal := rest }) e' h

private theorem piles_requeueHeld (now : VirtualTime) (ids : List JobId) : Piles
    (requeueHeld now ids) := by
  induction ids with
  | nil => exact piles_pure fun _ => rfl
  | cons id rest ih =>
    refine Piles.bind (fun e e' h => ?_) ih
    split at h
    · exact piles_requeueLogged id now e e' h
    · obtain rfl := Option.some.inj h
      exact .refl _

private theorem piles_expireReconcile (now : VirtualTime) : Piles (·.expireReconcile now) := by
  intro e e' h
  unfold expireReconcile at h
  dsimp only at h
  split at h
  · obtain rfl := Option.some.inj h
    exact .refl _
  · split at h
    · obtain rfl := Option.some.inj h
      exact .refl _
    · obtain ⟨e₁, hreq, hdone⟩ := Option.bind_eq_some_iff.mp h
      obtain rfl := Option.some.inj hdone
      exact piles_requeueHeld now e.reconciling
        (e.withCore { e.toCore with reconciling := [] }) e₁ hreq

private theorem piles_rotateIfDue (now : VirtualTime) : Piles (·.rotateIfDue now) := by
  intro e e' h
  cases hj : e.journal with
  | none =>
    simp only [rotateIfDue, hj] at h
    obtain rfl := Option.some.inj h
    rw [hj]
    exact .refl _
  | some j =>
    simp only [rotateIfDue, hj] at h
    split at h
    · obtain ⟨bytes, -, hdone⟩ := Option.bind_eq_some_iff.mp h
      obtain rfl := Option.some.inj hdone
      exact .of_same rfl rfl
    · obtain rfl := Option.some.inj h
      rw [hj]
      exact .refl _

private theorem piles_housekeep (now : VirtualTime) (room : Bool) : Piles
    (Host.housekeep now room) := by
  have hcount : Piles fun e => some { e with cycles := e.cycles + 1 }.refreshDemand :=
    piles_pure fun _ => rfl
  have hforget : Piles (·.forgetExpired now) := fun e => piles_forgetLoop now e.terminal e
  exact hcount.bind (hforget.bind ((piles_expireReconcile now).bind
    ((piles_rotateIfDue now).bind (piles_commit room))))

end Engine

namespace Host

def Piles (f : Host → Option Host) : Prop :=
  ∀ h h', f h = some h' → Grows h.engine.journal h'.engine.journal

private theorem Piles.bind {f g : Host → Option Host} (hf : Piles f) (hg : Piles g) :
    Piles fun h => (f h).bind g := by
  intro h h' hdone
  obtain ⟨h₁, hfirst, hrest⟩ := Option.bind_eq_some_iff.mp hdone
  exact (hf h h₁ hfirst).trans (hg h₁ h' hrest)

private theorem piles_onEngine {f : Engine → Option Engine} (hf : Engine.Piles f) :
    Piles (·.onEngine f) := fun _ _ hdone => hf _ _ (onEngine_eq hdone)

private theorem journal_flushLoop (ds : List Dispatch) : ∀ h : Host,
    (flushLoop ds h).engine.journal = h.engine.journal := by
  induction ds with
  | nil => exact fun _ => rfl
  | cons d rest ih =>
    intro h
    unfold flushLoop
    split
    · rename_i outbox _
      exact ih { h with outbox := outbox }
    · rfl

private theorem grows_pushDispatch (h : Host) (d : Dispatch) :
    Grows h.engine.journal (h.pushDispatch d).engine.journal := by
  rw [journal_pushDispatch]
  exact .refl _

private theorem grows_replyDurably (h : Host) (token : Token) (answer : Answer) :
    Grows h.engine.journal (h.replyDurably token answer).engine.journal := by
  cases hj : h.engine.journal with
  | none =>
    simp only [replyDurably, hj]
    exact hj ▸ .refl _
  | some j =>
    simp only [replyDurably, hj]
    exact .of_same rfl rfl

private theorem grows_pushDurably (h : Host) (d : Dispatch) :
    Grows h.engine.journal (h.pushDurably d).engine.journal := by
  cases hj : h.engine.journal with
  | none =>
    simp only [pushDurably, hj, journal_pushDispatch]
    exact .refl _
  | some j =>
    simp only [pushDurably, hj]
    exact .hold j d

variable [Crc32]

private theorem piles_onSubmit (job : Job) (token : Token) (now : VirtualTime) :
    Piles (·.onSubmit job token now) := by
  intro h h' hdone
  obtain ⟨id, -, hdone⟩ := Option.bind_eq_some_iff.mp hdone
  split at hdone
  · obtain rfl := Option.some.inj hdone
    exact .refl _
  · obtain ⟨inserted, -, hdone⟩ := Option.bind_eq_some_iff.mp hdone
    obtain ⟨e, hrecord, hdone⟩ := Option.bind_eq_some_iff.mp hdone
    obtain rfl := Option.some.inj hdone
    have hclass := journal_classifyNew e id now
    have hfirst := Engine.piles_recordSubmitted id _ e hrecord
    rw [← hclass] at hfirst
    exact hfirst.trans
      (grows_replyDurably { h with engine := (e.classifyNew id now).1 } token _)

private theorem piles_onCancel (id : JobId) (token : Token) (now : VirtualTime) :
    Piles (·.onCancel id token now) := by
  intro h h' hdone
  obtain ⟨h₁, hmid, hdone⟩ := Option.bind_eq_some_iff.mp hdone
  obtain rfl := Option.some.inj hdone
  refine Grows.trans ?_ (grows_replyDurably h₁ token _)
  dsimp only at hmid
  split at hmid
  · obtain rfl := Option.some.inj hmid
    exact .refl _
  · obtain ⟨e, hrecord, hret⟩ := Option.bind_eq_some_iff.mp hmid
    obtain rfl := Option.some.inj hret
    have hfirst := Engine.piles_record (.cancelled id now) _ e hrecord
    split
    · rw [journal_pushDispatch]
      exact hfirst
    · exact hfirst

private theorem piles_giveUp (id : JobId) (slot : SlotIndex) (now : VirtualTime) : Piles fun h =>
    (h.onEngine (·.requeueLogged id now)).bind fun h => some (h.pushDispatch (.kill slot id)) := by
  refine (piles_onEngine (Engine.piles_requeueLogged id now)).bind fun h h' hdone => ?_
  obtain rfl := Option.some.inj hdone
  exact grows_pushDispatch h _

private theorem piles_claim (id : JobId) (slot : SlotIndex) (now : VirtualTime) :
    Piles (·.claim id slot now) := by
  intro h h' hclaim
  have hdone : h.claim id slot now = some h' := hclaim
  unfold claim at hdone
  split at hdone
  · rename_i c _
    unfold adoptRunning at hdone
    dsimp only at hdone
    split at hdone
    · obtain rfl := Option.some.inj hdone
      exact .refl _
    · split at hdone
      · obtain rfl := Option.some.inj hdone
        exact .refl _
      · split at hdone
        · obtain rfl := Option.some.inj hdone
          exact .refl _
        · exact piles_giveUp id slot now { h with engine := h.engine.withCore c } h' hdone
  · split at hdone
    · rename_i r _
      let c : Core := { h.engine.toCore with
        inventory := h.engine.freed r
        running := swapRemove h.engine.running (h.engine.running.findIdx (·.job = id)) }
      unfold rebind at hdone
      dsimp only at hdone
      split at hdone
      · obtain rfl := Option.some.inj hdone
        exact .refl _
      · exact piles_giveUp id slot now { h with engine := h.engine.withCore c } h' hdone
    · obtain rfl := Option.some.inj hdone
      exact grows_pushDispatch h _

private theorem piles_claimEach (slot : SlotIndex) (now : VirtualTime) (ids : List JobId) :
    Piles (claimEach slot now ids) := by
  induction ids with
  | nil =>
    intro h h' hdone
    obtain rfl := Option.some.inj hdone
    exact .refl _
  | cons id rest ih => exact (piles_claim id slot now).bind ih

private theorem piles_handle (command : Command) (now : VirtualTime) : Piles
    (·.handle command now) := by
  cases command with
  | submit job reply => exact piles_onSubmit job.job reply now
  | cancel id reply => exact piles_onCancel id reply now
  | completed id => exact piles_onEngine (Engine.piles_completed id now)
  | failed id => exact piles_onEngine (Engine.piles_failed id now)
  | preempted id => exact piles_onEngine (Engine.piles_preempted id now)
  | workerJoined name capacity inFlight reply =>
    intro h h' hdone
    obtain ⟨h₁, hclaims, hdone⟩ := Option.bind_eq_some_iff.mp hdone
    obtain rfl := Option.some.inj hdone
    exact piles_claimEach _ now inFlight
      { h with engine := h.engine.withCore (h.engine.attach name capacity).1 } h₁ hclaims
  | workerLeft slot => exact piles_onEngine (Engine.piles_evictSlot slot now)
  | workerDraining slot =>
    intro h h' hdone
    obtain rfl := Option.some.inj hdone
    exact .refl _
  | query query reply =>
    intro h h' hdone
    obtain rfl := Option.some.inj hdone
    exact .refl _

private theorem piles_onDispatchedEach (now : VirtualTime) (ds : List DispatchDecision) :
    Piles (onDispatchedEach now ds) := by
  induction ds with
  | nil =>
    intro h h' hdone
    obtain rfl := Option.some.inj hdone
    exact .refl _
  | cons d rest ih =>
    refine Piles.bind (fun h h' hdone => ?_) ih
    unfold onDispatched at hdone
    split at hdone
    · obtain rfl := Option.some.inj hdone
      exact .refl _
    · obtain ⟨h₁, hrecord, hdone⟩ := Option.bind_eq_some_iff.mp hdone
      obtain rfl := Option.some.inj hdone
      exact (piles_onEngine (Engine.piles_record _) _ h₁ hrecord).trans (grows_pushDurably h₁ _)

private theorem piles_evictEach (now : VirtualTime) (vs : List Eviction) : Piles
    (evictEach now vs) := by
  induction vs with
  | nil =>
    intro h h' hdone
    obtain rfl := Option.some.inj hdone
    exact .refl _
  | cons v rest ih =>
    refine Piles.bind (fun h h' hdone => ?_) ih
    unfold evict at hdone
    dsimp only at hdone
    split at hdone
    · obtain rfl := Option.some.inj hdone
      exact .refl _
    · obtain ⟨h₁, hrecord, hdone⟩ := Option.bind_eq_some_iff.mp hdone
      obtain rfl := Option.some.inj hdone
      exact (piles_onEngine (Engine.piles_record _) _ h₁ hrecord).trans (grows_pushDurably h₁ _)

private theorem piles_evictFor (now : VirtualTime) (head : Option JobId) : Piles
    (evictFor now head) := by
  intro h h' hdone
  cases head with
  | none =>
    obtain rfl := Option.some.inj hdone
    exact .refl _
  | some head =>
    have hplan : h.planEvictions head now = some h' := hdone
    unfold planEvictions at hplan
    split at hplan
    · obtain rfl := Option.some.inj hplan
      exact .refl _
    · split at hplan
      · obtain rfl := Option.some.inj hplan
        exact .refl _
      · exact piles_evictEach now _ h h' hplan

private theorem grows_turn {h h' : Host} {turn : Turn} (hturn : h.turn turn = some h') :
    Grows h.engine.journal h'.engine.journal := by
  cases turn with
  | command command now due => exact piles_handle command now (h.awaiting due) h' hturn
  | tick now due room =>
    have hflush : (h.awaiting due).flushOverflow.engine.journal = h.engine.journal :=
      journal_flushLoop _ _
    have hparts : ((h.awaiting due).tick now room).map (·.1) = some h' := hturn
    rw [tick_eq] at hparts
    obtain ⟨cycle, -, hparts⟩ := Option.bind_eq_some_iff.mp hparts
    obtain ⟨h₂, hplaced, hkept⟩ := Option.bind_eq_some_iff.mp hparts
    have hfirst := ((piles_onDispatchedEach now cycle.decisions).bind
      (piles_evictFor now cycle.outcome.head)) _ h₂ hplaced
    rw [← hflush]
    exact Grows.trans hfirst (piles_onEngine (Engine.piles_housekeep now room) h₂ h' hkept)
  | taken =>
    obtain rfl := Option.some.inj hturn
    exact .refl _
  | quiesce leaving =>
    obtain rfl := Option.some.inj hturn
    exact .refl _

end Host

namespace Host

private theorem entered_le_turn [Crc32] {h h' : Host} {turn : Turn}
    (hturn : h.turn turn = some h') :
    h.outbox.entered <+: h'.outbox.entered := by
  cases turn with
  | command command now due =>
    have hport := congrArg (·.outbox.entered) (port_command hturn)
    have hle := Port.entered_le_pushAll (h.posted (.command command now due)) (h.awaiting due).port
    exact hport ▸ hle
  | tick now due room =>
    have hport := congrArg (·.outbox.entered) (port_tick hturn)
    have hle := (Port.entered_le_flushFrom _ (h.awaiting due).outbox).trans
      (Port.entered_le_pushAll (h.posted (.tick now due room)) (h.awaiting due).port.flush)
    exact hport ▸ hle
  | taken =>
    obtain rfl := Option.some.inj hturn
    show h.outbox.entered <+: (h.outbox.pop.elim h.outbox (·.2)).entered
    unfold Outbox.pop
    cases h.outbox.queue <;> exact List.prefix_rfl
  | quiesce leaving =>
    obtain rfl := Option.some.inj hturn
    exact List.prefix_rfl

end Host

/-- Where an entry of the outbox comes from: the place of a held dispatch among all ever held, or
`none` for one the engine pushed itself. -/
abbrev Origin := Option Nat

/-- The engine and the writer thread between two of their actions: how many batches the writer
received, what it still has to push of the newest, and the origin of everything that entered the
outbox. The source keeps no origins. -/
structure Plant where
  host : Host
  taken : Nat
  hand : List (Nat × Dispatch)
  origins : List Origin

/-- One action: a turn of the engine (or a pop of the dispatcher), the receipt of a batch whose
`persist` succeeds or fails, or one attempt to push a dispatch, before which the dispatcher takes
so many. -/
inductive PlantStep where
  | turn (turn : Turn)
  | receive (persisted : Bool)
  | push (due : Nat)

namespace Plant

def sent (p : Plant) : List Commit := p.host.engine.journal.elim [] (·.sent)

def held (p : Plant) : List Dispatch := p.host.engine.journal.elim [] (·.held)

def entered (p : Plant) : List Dispatch := p.host.outbox.entered

/-- How many dispatches the batches received so far held. -/
def reached (p : Plant) : Nat := ((p.sent.take p.taken).flatMap (·.dispatches)).length

/-- A writer that has received nothing yet, beside any engine. -/
def start (h : Host) : Plant := ⟨h, 0, [], h.outbox.entered.map fun _ => none⟩

/-- The writer receives the next batch, persists it, and has its dispatches in hand unless that
failed. -/
def receive (p : Plant) (persisted : Bool) : Option Plant :=
  match p.hand, p.sent[p.taken]? with
  | [], some c => some { p with
      taken := p.taken + 1
      hand := if persisted then (c.dispatches.zipIdx p.reached).map Prod.swap else [] }
  | _, _ => none

/-- The writer tries to push the next dispatch; a full ring only delays it. -/
def push (p : Plant) (due : Nat) : Option Plant :=
  match p.hand with
  | [] => none
  | (place, d) :: rest =>
    match { p.host.outbox with due := [due] }.push d with
    | (outbox, true) => some { p with
        host := { p.host with outbox := outbox }
        hand := rest
        origins := p.origins ++ [some place] }
    | (outbox, false) => some { p with host := { p.host with outbox := outbox } }

section

variable [Crc32]

/-- What one action leaves. `none`: it panics, or is not possible now. -/
def act (p : Plant) : PlantStep → Option Plant
  | .turn turn => (p.host.turn turn).map fun h => { p with
      host := h
      origins := p.origins ++ (h.outbox.entered.drop p.entered.length).map fun _ => none }
  | .receive persisted => p.receive persisted
  | .push due => p.push due

def Acts (p : Plant) (step : PlantStep) (p' : Plant) : Prop := p.act step = some p'

end

/-- The place is one of a dispatch the writer has not pushed yet. -/
def Coming (p : Plant) (place : Nat) : Prop := place ∈ p.hand.map (·.1) ∨ p.reached ≤ place

/-- Places and entries tell the truth about what was held. -/
structure Faithful (p : Plant) : Prop where
  taken : p.taken ≤ p.sent.length
  hand : ∀ (place : Nat) (d : Dispatch), (place, d) ∈ p.hand → p.held[place]? = some d
  origins : p.origins.length = p.entered.length
  entries : ∀ (k place : Nat) (d : Dispatch), p.origins[k]? = some (some place) →
    p.entered[k]? = some d → p.held[place]? = some d

/-- What one action, or a run, leaves in place: what had entered or was held, and nothing new is
to come from what was held before. -/
structure Follows (p p' : Plant) : Prop where
  entered : p.entered <+: p'.entered
  origins : p.origins <+: p'.origins
  held : p.held <+: p'.held
  coming : ∀ place, p'.Coming place → p.Coming place
  fresh : ∀ k place : Nat, p.entered.length ≤ k → p'.origins[k]? = some (some place) →
    p.Coming place

variable {p p' p'' : Plant}

private theorem Follows.refl (h : p.Faithful) : Follows p p where
  entered := List.prefix_rfl
  origins := List.prefix_rfl
  held := List.prefix_rfl
  coming _ hc := hc
  fresh k place hk ho := by
    rw [← h.origins] at hk
    rw [List.getElem?_eq_none hk] at ho
    cases ho

private theorem Follows.trans (h : Follows p p') (hp' : p'.Faithful) (h' : Follows p' p'') :
    Follows p p'' where
  entered := h.entered.trans h'.entered
  origins := h.origins.trans h'.origins
  held := h.held.trans h'.held
  coming place hc := h.coming place (h'.coming place hc)
  fresh k place hk ho := by
    by_cases hlate : p'.entered.length ≤ k
    · exact h.coming place (h'.fresh k place hlate ho)
    · have hlt : k < p'.origins.length := by
        rw [hp'.origins]
        omega
      obtain ⟨later, hlater⟩ := h'.origins
      rw [← hlater, List.getElem?_append_left hlt] at ho
      exact h.fresh k place hk ho

private theorem getElem?_of_prefix {α : Type} {xs ys : List α} (h : xs <+: ys) {k : Nat} {x : α}
    (hx : xs[k]? = some x) : ys[k]? = some x := by
  obtain ⟨zs, rfl⟩ := h
  rw [List.getElem?_append_left (List.getElem?_eq_some_iff.mp hx).1]
  exact hx

private theorem held_of_batch (p : Plant) {c : Commit} (hc : p.sent[p.taken]? = some c) {i : Nat}
    {d : Dispatch} (hd : c.dispatches[i]? = some d) : p.held[p.reached + i]? = some d := by
  unfold reached held
  unfold sent at hc ⊢
  cases hj : p.host.engine.journal with
  | none =>
    rw [hj] at hc
    cases hc
  | some j =>
    rw [hj] at hc
    have hc' : j.sent[p.taken]? = some c := hc
    obtain ⟨hlt, hget⟩ := List.getElem?_eq_some_iff.mp hc'
    have hsplit : j.sent = j.sent.take p.taken ++ c :: j.sent.drop (p.taken + 1) := by
      rw [← hget, ← List.drop_eq_getElem_cons hlt, List.take_append_drop]
    have hheld : j.held = (j.sent.take p.taken).flatMap (·.dispatches) ++ (c.dispatches ++
        ((j.sent.drop (p.taken + 1)).flatMap (·.dispatches) ++ j.pending.dispatches)) := by
      rw [Journal.held_eq]
      nth_rewrite 1 [hsplit]
      simp only [List.flatMap_append, List.flatMap_cons, List.append_assoc]
    show j.held[((j.sent.take p.taken).flatMap (·.dispatches)).length + i]? = some d
    rw [hheld, List.getElem?_append_right (Nat.le_add_right _ _), Nat.add_sub_cancel_left,
      List.getElem?_append_left (List.getElem?_eq_some_iff.mp hd).1]
    exact hd

private theorem reached_of_batch (p : Plant) {c : Commit} (hc : p.sent[p.taken]? = some c) :
    ((p.sent.take (p.taken + 1)).flatMap (·.dispatches)).length =
      p.reached + c.dispatches.length := by
  rw [List.take_add_one, hc, reached]
  simp

private theorem receive_follows {persisted : Bool} (h : p.Faithful)
    (hact : p.receive persisted = some p') : p'.Faithful ∧ Follows p p' := by
  unfold receive at hact
  split at hact
  · rename_i c hhand hc
    obtain rfl := Option.some.inj hact
    have hlt : p.taken < p.sent.length := (List.getElem?_eq_some_iff.mp hc).1
    have hreached := reached_of_batch p hc
    have hplaces : ∀ (place : Nat) (d : Dispatch), (place, d) ∈
        (if persisted then (c.dispatches.zipIdx p.reached).map Prod.swap else []) →
        p.reached ≤ place ∧ p.held[place]? = some d := by
      intro place d hmem
      cases persisted with
      | false => cases hmem
      | true =>
        obtain ⟨⟨d', place'⟩, hzip, hswap⟩ := List.mem_map.mp hmem
        obtain ⟨rfl, rfl⟩ := Prod.mk.inj hswap
        obtain ⟨hle, hi⟩ := List.mk_mem_zipIdx_iff_le_and_getElem?_sub.mp hzip
        have hat := held_of_batch p hc hi
        rw [Nat.add_sub_cancel' hle] at hat
        exact ⟨hle, hat⟩
    refine ⟨⟨hlt, fun place d hmem => (hplaces place d hmem).2, h.origins, h.entries⟩,
      List.prefix_rfl, List.prefix_rfl, List.prefix_rfl, ?_, ?_⟩
    · rintro place (hmem | hle)
      · obtain ⟨⟨place', d⟩, hd, rfl⟩ := List.mem_map.mp hmem
        exact .inr (hplaces place' d hd).1
      · have hmore : ((p.sent.take (p.taken + 1)).flatMap (·.dispatches)).length ≤ place := hle
        exact .inr (by omega)
    · exact (Follows.refl h).fresh
  · cases hact

private theorem push_follows {due : Nat} (h : p.Faithful) (hact : p.push due = some p') :
    p'.Faithful ∧ Follows p p' := by
  unfold push at hact
  split at hact
  · cases hact
  · rename_i place d rest hhand
    have hplace : p.Coming place := .inl (by rw [hhand]; exact List.mem_cons_self)
    have hheld := h.hand place d (by rw [hhand]; exact List.mem_cons_self)
    have hlog := Outbox.entered_push { p.host.outbox with due := [due] } d
    split at hact
    · rename_i outbox hpush
      obtain rfl := Option.some.inj hact
      rw [hpush] at hlog
      have hentered : outbox.entered = p.entered ++ [d] := hlog
      have hlast : ∀ (k place' : Nat), p.origins.length ≤ k →
          (p.origins ++ [some place])[k]? = some (some place') →
            k = p.origins.length ∧ place' = place := by
        intro k place' hk ho
        rw [List.getElem?_append_right hk] at ho
        rw [List.getElem?_singleton] at ho
        obtain ⟨hzero, hsame⟩ := Option.ite_none_right_eq_some.mp ho
        exact ⟨by omega, (Option.some.inj (Option.some.inj hsame)).symm⟩
      refine ⟨⟨h.taken, fun place' d' hd => h.hand place' d' ?_, ?_, fun k place' d' ho hd => ?_⟩,
        ⟨[d], hentered.symm⟩, ⟨[some place], rfl⟩, List.prefix_rfl, ?_, fun k place' hk ho => ?_⟩
      · rw [hhand]
        exact List.mem_cons_of_mem _ hd
      · show (p.origins ++ [some place]).length = outbox.entered.length
        rw [hentered, List.length_append, List.length_append, h.origins]
        rfl
      · have hd' : (p.entered ++ [d])[k]? = some d' := by
          rw [← hentered]
          exact hd
        by_cases hk : p.origins.length ≤ k
        · obtain ⟨rfl, rfl⟩ := hlast k place' hk ho
          rw [h.origins, List.getElem?_concat_length] at hd'
          obtain rfl := Option.some.inj hd'
          exact hheld
        · have hko : k < p.origins.length := Nat.lt_of_not_le hk
          have hke : k < p.entered.length := h.origins ▸ hko
          have ho' : (p.origins ++ [some place])[k]? = some (some place') := ho
          rw [List.getElem?_append_left hko] at ho'
          rw [List.getElem?_append_left hke] at hd'
          exact h.entries k place' d' ho' hd'
      · rintro place' (hmem | hle)
        · refine .inl ?_
          rw [hhand]
          exact List.mem_cons_of_mem _ hmem
        · exact .inr hle
      · rw [← h.origins] at hk
        obtain ⟨-, rfl⟩ := hlast k place' hk ho
        exact hplace
    · rename_i outbox hpush
      obtain rfl := Option.some.inj hact
      rw [hpush] at hlog
      have hentered : outbox.entered = p.entered := hlog
      refine ⟨⟨h.taken, h.hand, ?_, fun k place' d' ho hd => ?_⟩, ?_, List.prefix_rfl,
        List.prefix_rfl, fun _ hc => hc, (Follows.refl h).fresh⟩
      · show p.origins.length = outbox.entered.length
        rw [hentered]
        exact h.origins
      · refine h.entries k place' d' ho ?_
        rw [← hentered]
        exact hd
      · show p.entered <+: outbox.entered
        rw [hentered]

private theorem faithful_start (h : Host) : (start h).Faithful where
  taken := Nat.zero_le _
  hand place d hd := by cases hd
  origins := List.length_map _
  entries k place d ho _ := by
    have hnone : (h.outbox.entered.map fun _ => (none : Origin))[k]? = some (some place) := ho
    rw [List.getElem?_map] at hnone
    cases hd : h.outbox.entered[k]? with
    | none =>
      rw [hd] at hnone
      cases hnone
    | some d =>
      rw [hd] at hnone
      cases hnone

section

variable [Crc32]

private theorem turn_follows {turn : Turn} (h : p.Faithful) (hact : p.act (.turn turn) = some p') :
    p'.Faithful ∧ Follows p p' := by
  obtain ⟨host, hturn, rfl⟩ := Option.map_eq_some_iff.mp hact
  have hgrows := Host.grows_turn hturn
  have hentered : p.entered <+: host.outbox.entered := Host.entered_le_turn hturn
  let new := (host.outbox.entered.drop p.entered.length).map fun _ => (none : Origin)
  have hold : ∀ (k place : Nat), (p.origins ++ new)[k]? = some (some place) →
      k < p.origins.length ∧ p.origins[k]? = some (some place) := by
    intro k place ho
    by_cases hk : k < p.origins.length
    · rw [List.getElem?_append_left hk] at ho
      exact ⟨hk, ho⟩
    · rw [List.getElem?_append_right (Nat.le_of_not_lt hk), List.getElem?_map] at ho
      cases hd : (host.outbox.entered.drop p.entered.length)[k - p.origins.length]? with
      | none =>
        rw [hd] at ho
        cases ho
      | some d =>
        rw [hd] at ho
        cases ho
  have hreached (hand : List (Nat × Dispatch)) (origins : List Origin) :
      reached ⟨host, p.taken, hand, origins⟩ = p.reached := by
    obtain ⟨more, hmore⟩ := hgrows.sent
    have hsent : p.sent ++ more = host.engine.journal.elim [] (·.sent) := hmore
    show ((List.take p.taken (host.engine.journal.elim [] (·.sent))).flatMap _).length = _
    rw [← hsent, List.take_append_of_le_length h.taken]
    rfl
  refine ⟨⟨h.taken.trans hgrows.sent.length_le,
    fun place d hd => getElem?_of_prefix hgrows.held (h.hand place d hd), ?_,
    fun k place d ho hd => ?_⟩, hentered, ⟨new, rfl⟩, hgrows.held, ?_, fun k place hk ho => ?_⟩
  · show (p.origins ++ new).length = host.outbox.entered.length
    have hle := hentered.length_le
    rw [List.length_append, List.length_map, List.length_drop, h.origins]
    omega
  · obtain ⟨hk, ho⟩ := hold k place ho
    refine getElem?_of_prefix hgrows.held (h.entries k place d ho ?_)
    rw [h.origins] at hk
    obtain ⟨later, hlater⟩ := hentered
    have hd' : host.outbox.entered[k]? = some d := hd
    rwa [← hlater, List.getElem?_append_left hk] at hd'
  · rintro place (hmem | hle)
    · exact .inl hmem
    · refine .inr ?_
      rwa [hreached] at hle
  · have hlt := (hold k place ho).1
    rw [h.origins] at hlt
    omega

private theorem Acts.follows {step : PlantStep} (h : p.Faithful) (hact : p.Acts step p') :
    p'.Faithful ∧ Follows p p' := by
  cases step with
  | turn turn => exact turn_follows h hact
  | receive persisted => exact receive_follows h hact
  | push due => exact push_follows h hact

private theorem run_follows {steps : List PlantStep} (hrun : Chain Acts p steps p') : p.Faithful →
    p'.Faithful ∧ Follows p p' := by
  induction hrun with
  | nil p => exact fun h => ⟨h, .refl h⟩
  | cons head _ ih =>
    intro h
    obtain ⟨hmid, hfirst⟩ := head.follows h
    obtain ⟨hend, hrest⟩ := ih hmid
    exact ⟨hend, hfirst.trans hmid hrest⟩

/-- What is still on its way from the journal to the outbox. -/
def awaited (p : Plant) : List Dispatch := p.hand.map (·.2) ++ p.held.drop p.reached

omit [Crc32] in
private theorem Coming.awaited {place : Nat} {d : Dispatch} (h : p.Faithful) (hc : p.Coming place)
    (hd : p.held[place]? = some d) : d ∈ p.awaited := by
  rcases hc with hmem | hle
  · obtain ⟨⟨place', d'⟩, hhand, rfl⟩ := List.mem_map.mp hmem
    have hsame := h.hand place' d' hhand
    obtain rfl := Option.some.inj (hsame.symm.trans hd)
    exact List.mem_append_left _ (List.mem_map_of_mem hhand)
  · refine List.mem_append_right _ (List.mem_of_getElem? (i := place - p.reached) ?_)
    rw [List.getElem?_drop, Nat.add_sub_cancel' hle]
    exact hd

/-- A cancellation finds no assignment of its job still on its way to the outbox. -/
def Careful (p : Plant) : PlantStep → Prop
  | .turn (.command (.cancel id _) _ _) => ∀ d ∈ p.awaited, d.assigns id = false
  | _ => True

/-- An action that meets this condition. -/
def CarefulActs (p : Plant) (step : PlantStep) (p' : Plant) : Prop :=
  p.Acts step p' ∧ p.Careful step

/-- After a cancellation in the first state, a kill of the job entered the outbox, and after it
the assignment of a placement that was made before. -/
def Overtaken (p p' : Plant) (id : JobId) : Prop :=
  ∃ (kill assign place : Nat) (slot : SlotIndex) (payload : Bytes) (walltime : VirtualDuration),
    p.entered.length ≤ kill ∧ kill < assign ∧
    p'.entered[kill]? = some (.kill slot id) ∧
    p'.entered[assign]? = some (.assign slot id payload walltime) ∧
    p'.origins[assign]? = some (some place) ∧ place < p.held.length

/-- In a run whose cancellations are all careful, none is overtaken by an assignment it revokes. -/
theorem kills_follow_assignments {h : Host} {before after : List PlantStep} {p p' p'' : Plant}
    {id : JobId} {token : Token} {now : VirtualTime} {due : List Nat}
    (hbefore : Chain CarefulActs (start h) before p)
    (hcancel : p.CarefulActs (.turn (.command (.cancel id token) now due)) p')
    (hafter : Chain CarefulActs p' after p'') : ¬ Overtaken p p'' id := by
  rintro ⟨kill, assign, place, slot, payload, walltime, hlate, hlt, -, hassign, horigin, hplace⟩
  have hacts {p p' : Plant} {steps : List PlantStep} (hrun : Chain CarefulActs p steps p') :
      Chain Acts p steps p' := hrun.imp fun _ _ _ _ hstep => hstep.1
  obtain ⟨hfaithful, -⟩ := run_follows (hacts hbefore) (faithful_start h)
  obtain ⟨hend, hfollows⟩ :=
    run_follows (Chain.cons hcancel.1 (hacts hafter)) hfaithful
  have hcoming := hfollows.fresh assign place (by omega) horigin
  have hheld := hend.entries assign place _ horigin hassign
  obtain ⟨more, hmore⟩ := hfollows.held
  rw [← hmore, List.getElem?_append_left hplace] at hheld
  have hfree := hcancel.2 _ (hcoming.awaited hfaithful hheld)
  simp [Dispatch.assigns] at hfree

end

/-- A durable engine with an empty log and a ring of eight. -/
def durableHost : Host :=
  ⟨Engine.withJournal sampleDaemon (Journal.new (2 ^ 20)), Outbox.new 8, []⟩

/-- A job is submitted and placed on the worker that joined. -/
def placing : List PlantStep :=
  [.turn (.command (sampleJoin 1) 0 []), .turn (.command (sampleSubmit .normal 1 []) 0 []),
    .turn (.tick 0 [] true)]

def cancelling : PlantStep := .turn (.command (.cancel (JobId.new 0 0) 1) 0 [])

/-- The writer persists the batch and pushes what it held. -/
def writing : List PlantStep := [.receive true, .push 0]

attribute [local instance] Crc32.ieee

/-- Once the writer has pushed the assignment, the cancellation is careful. -/
theorem kills_follow_assignments_sample : ∃ p p', Chain CarefulActs
    (start durableHost) (placing ++ writing) p ∧ CarefulActs p cancelling p' ∧
      p'.entered.length = 2 ∧ ¬ Overtaken p p' (JobId.new 0 0) := by
  have hrun : (((placing ++ writing).foldlM act (start durableHost)).any fun p =>
      (p.awaited.all fun d => !d.assigns (JobId.new 0 0)) &&
        (act p cancelling).any fun p' => decide (p'.entered.length = 2)) = true := by
    decide +kernel
  obtain ⟨p, hp, hrest⟩ := (Option.any_eq_true _ _).mp hrun
  obtain ⟨hfree, hrest⟩ := Bool.and_eq_true_iff.mp hrest
  obtain ⟨p', hp', hlength⟩ := (Option.any_eq_true _ _).mp hrest
  have hcareful : p.Careful cancelling := fun d hd =>
    (Bool.not_eq_true' _).mp (List.all_eq_true.mp hfree d hd)
  have hbefore : Chain CarefulActs (start durableHost) (placing ++ writing) p := by
    refine (Chain.of_foldlM hp).imp fun q step q' hstep hact => ⟨hact, ?_⟩
    simp only [placing, writing, List.cons_append, List.nil_append, List.mem_cons,
      List.not_mem_nil, or_false] at hstep
    rcases hstep with rfl | rfl | rfl | rfl | rfl <;> trivial
  exact ⟨p, p', hbefore, ⟨hp', hcareful⟩, of_decide_eq_true hlength,
    kills_follow_assignments hbefore ⟨hp', hcareful⟩ (.nil p')⟩

/-- Cancelled before the writer was done, the job is assigned after it was killed. -/
theorem kill_overtakes_assignment : ∃ p p' p'', Chain Acts (start durableHost)
    placing p ∧ Acts p cancelling p' ∧ Chain Acts p' writing p'' ∧
      Overtaken p p'' (JobId.new 0 0) ∧
      (p''.host.engine.jobs.get (JobId.new 0 0)).map (·.state) = some .cancelled := by
  let job := sampleJob .normal 1 10
  have hrun : ((placing.foldlM act (start durableHost)).any fun p =>
      (act p cancelling).any fun p' =>
        (writing.foldlM act p').any fun p'' =>
          decide ((p.entered.length = 0 ∧ p''.entered[0]? = some (.kill 0 (JobId.new 0 0)) ∧
            p''.entered[1]? = some (.assign 0 (JobId.new 0 0) job.payload job.walltimeLimit) ∧
            p''.origins[1]? = some (some 0) ∧ 0 < p.held.length) ∧
            (p''.host.engine.jobs.get (JobId.new 0 0)).map (·.state) = some .cancelled)) = true := by
    decide +kernel
  obtain ⟨p, hp, hrest⟩ := (Option.any_eq_true _ _).mp hrun
  obtain ⟨p', hp', hrest⟩ := (Option.any_eq_true _ _).mp hrest
  obtain ⟨p'', hp'', hbad⟩ := (Option.any_eq_true _ _).mp hrest
  obtain ⟨⟨hnone, hkill, hassign, horigin, hheld⟩, hstate⟩ := of_decide_eq_true hbad
  exact ⟨p, p', p'', Chain.of_foldlM hp, hp', Chain.of_foldlM hp'',
    ⟨0, 1, 0, 0, _, _, Nat.le_of_eq hnone, Nat.zero_lt_one, hkill, hassign, horigin, hheld⟩, hstate⟩

end Plant

end TaskerRT.Daemon
