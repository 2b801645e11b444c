/- module: TaskerRT/Daemon/Posting
   source: crates/taskerd/src/engine.rs (push_dispatch, tick), crates/taskerd/src/outbox.rs
   digest: What the engine posts does not depend on the ring it posts to. -/

import TaskerRT.Daemon.Run

set_option autoImplicit false

namespace TaskerRT.Daemon

open Library Domain Cluster Policy Scheduling Wal

/-- Where dispatches go: the ring, and the engine's buffer for what the ring refused. -/
structure Port where
  outbox : Outbox
  overflow : List Dispatch
  deriving DecidableEq, Repr

namespace Port

def push (p : Port) (d : Dispatch) : Port :=
  match p.outbox.push d with
  | (outbox, true) => { p with outbox := outbox }
  | (outbox, false) => ⟨outbox, p.overflow ++ [d]⟩

def pushAll (p : Port) (ds : List Dispatch) : Port := ds.foldl push p

/-- A port that lets nothing through, so that all that was posted is left in its buffer. -/
def closed : Port := ⟨Outbox.new 0, []⟩

/-- What a tick starts with, on what the buffer holds from its end. -/
def flushFrom : List Dispatch → Outbox → Port
  | [], outbox => ⟨outbox, []⟩
  | d :: rest, outbox =>
    match outbox.push d with
    | (outbox, true) => flushFrom rest outbox
    | (outbox, false) => ⟨outbox, (d :: rest).reverse⟩

def flush (p : Port) : Port := flushFrom p.overflow.reverse p.outbox

theorem pushAll_cons (p : Port) (d : Dispatch) (ds : List Dispatch) :
    p.pushAll (d :: ds) = (p.push d).pushAll ds := rfl

private theorem pushAll_append (p : Port) (ds ds' : List Dispatch) :
    p.pushAll (ds ++ ds') = (p.pushAll ds).pushAll ds' := List.foldl_append

theorem overflow_pushAll_shut (ds : List Dispatch) : ∀ {p : Port}, p.outbox.capacity = 0 →
    (p.pushAll ds).overflow = p.overflow ++ ds := by
  induction ds with
  | nil =>
    intro p _
    exact (List.append_nil _).symm
  | cons d ds ih =>
    intro p hshut
    have hfull : ¬ p.outbox.drained.queue.length < p.outbox.drained.capacity := by
      have hsame : p.outbox.drained.capacity = 0 := hshut
      omega
    have hpush : p.push d = ⟨p.outbox.drained, p.overflow ++ [d]⟩ := by
      simp only [push, Outbox.push, if_neg hfull]
    have hrest := ih (p := ⟨p.outbox.drained, p.overflow ++ [d]⟩) hshut
    rw [pushAll_cons, hpush, hrest, List.append_assoc]
    rfl

end Port

namespace Engine

def withOverflow (e : Engine) (overflow : List Dispatch) : Engine := { e with overflow := overflow }

/-- A part of a handler that neither reads nor writes the buffer. -/
def Silent (f : Engine → Option Engine) : Prop :=
  ∀ e overflow, f (e.withOverflow overflow) = (f e).map (·.withOverflow overflow)

private theorem Silent.bind {f g : Engine → Option Engine} (hf : Silent f) (hg : Silent g) :
    Silent fun e => (f e).bind g := by
  intro e overflow
  show (f (e.withOverflow overflow)).bind g = ((f e).bind g).map _
  rw [hf]
  cases f e with
  | none => rfl
  | some e' => exact hg e' overflow

variable [Crc32]

private theorem silent_record (r : Record) : Silent (·.record r) := by
  intro e overflow
  cases hj : e.journal with
  | none =>
    have hj' : (e.withOverflow overflow).journal = none := hj
    simp only [record, hj, hj', Option.map_some]
  | some j =>
    have hj' : (e.withOverflow overflow).journal = some j := hj
    simp only [record, hj, hj']
    cases j.record r <;> rfl

private theorem silent_recordSubmitted (id : JobId) : Silent (Host.recordSubmitted · id) := by
  intro e overflow
  have hjobs : (e.withOverflow overflow).jobs = e.jobs := rfl
  cases hj : e.journal with
  | none =>
    have hj' : (e.withOverflow overflow).journal = none := hj
    simp only [Host.recordSubmitted, hj, hj', Option.map_some]
  | some j =>
    have hj' : (e.withOverflow overflow).journal = some j := hj
    cases hget : e.jobs.get id with
    | none => simp only [Host.recordSubmitted, hj, hj', hjobs, hget, Option.map_some]
    | some job =>
      simp only [Host.recordSubmitted, hj, hj', hjobs, hget]
      cases j.recordSubmitted id job <;> rfl

private theorem silent_requeueLogged (id : JobId) (now : VirtualTime) : Silent
    (·.requeueLogged id now) := by
  intro e overflow
  have hsame : (e.withOverflow overflow).scheduler.requeue id (e.withOverflow overflow).jobs now
      (e.withOverflow overflow).cycle = e.scheduler.requeue id e.jobs now e.cycle := rfl
  simp only [requeueLogged, hsame]
  cases (e.scheduler.requeue id e.jobs now e.cycle).result with
  | error err => rfl
  | ok u =>
    exact silent_record (.requeued id now)
      (e.withRoster (e.adoptStep (e.scheduler.requeue id e.jobs now e.cycle))) overflow

/-- A report lets go of the job and asks the scheduler; the rest is up to the kind of report. -/
def report {α : Type} (id : JobId) (call : Core → CycleConfig → Step α)
    (finish : α → Engine → Option Engine) (e : Engine) : Option Engine :=
  match e.letGo id with
  | (_, false) => some e
  | (c, true) =>
    match (call c e.cycle).result with
    | .error _ => some (e.withCore (c.withRoster (c.adoptStep (call c e.cycle))))
    | .ok a => finish a (e.withCore (c.withRoster (c.adoptStep (call c e.cycle))))

omit [Crc32] in
private theorem silent_report {α : Type} (id : JobId) (call : Core → CycleConfig → Step α)
    {finish : α → Engine → Option Engine} (hfinish : ∀ a, Silent (finish a)) :
    Silent (report id call finish) := by
  intro e overflow
  have hsame : (e.withOverflow overflow).letGo id = e.letGo id := rfl
  have hcycle : (e.withOverflow overflow).cycle = e.cycle := rfl
  simp only [report, hsame, hcycle]
  rcases e.letGo id with ⟨c, _ | _⟩
  · rfl
  · simp only
    cases (call c e.cycle).result with
    | error err => rfl
    | ok a => exact hfinish a (e.withCore (c.withRoster (c.adoptStep (call c e.cycle)))) overflow

theorem completed_eq_report (e : Engine) (id : JobId) (now : VirtualTime) :
    e.onCompletedReport id now =
      report id (fun c cycle => c.scheduler.onCompleted id c.jobs now cycle)
        (fun _ e => (e.record (.completed id now)).bind fun e =>
          some (e.withRoster (e.noteTerminal id now))) e := by
  unfold onCompletedReport report
  rcases e.letGo id with ⟨c, _ | _⟩
  · rfl
  · dsimp only
    cases (c.scheduler.onCompleted id c.jobs now e.cycle).result <;> rfl

theorem failed_eq_report (e : Engine) (id : JobId) (now : VirtualTime) :
    e.onFailedReport id now =
      report id (fun c cycle => c.scheduler.onFailed id c.jobs now cycle)
        (fun cascade e => (e.record (.failed id now)).bind fun e =>
          some (e.withRoster ((e.noteTerminal id now).noteAll cascade now))) e := by
  unfold onFailedReport report
  rcases e.letGo id with ⟨c, _ | _⟩
  · rfl
  · dsimp only
    cases (c.scheduler.onFailed id c.jobs now e.cycle).result <;> rfl

theorem preempted_eq_report (e : Engine) (id : JobId) (now : VirtualTime) :
    e.onPreemptedReport id now =
      report id (fun c cycle => c.scheduler.onPreempted id c.jobs now cycle)
        (fun _ e => e.record (.requeued id now)) e := by
  unfold onPreemptedReport report
  rcases e.letGo id with ⟨c, _ | _⟩
  · rfl
  · dsimp only
    cases (c.scheduler.onPreempted id c.jobs now e.cycle).result <;> rfl

private theorem silent_completed (id : JobId) (now : VirtualTime) :
    Silent (·.onCompletedReport id now) := by
  have hnote : Silent fun e => some (e.withRoster (e.noteTerminal id now)) :=
    fun e overflow => rfl
  simp only [completed_eq_report]
  exact silent_report id _ fun _ => (silent_record (.completed id now)).bind hnote

private theorem silent_failed (id : JobId) (now : VirtualTime) : Silent
    (·.onFailedReport id now) := by
  have hnote (cascade : List JobId) : Silent fun e =>
      some (e.withRoster ((e.noteTerminal id now).noteAll cascade now)) := fun e overflow => rfl
  simp only [failed_eq_report]
  exact silent_report id _ fun cascade => (silent_record (.failed id now)).bind (hnote cascade)

private theorem silent_preempted (id : JobId) (now : VirtualTime) :
    Silent (·.onPreemptedReport id now) := by
  simp only [preempted_eq_report]
  exact silent_report id _ fun _ => silent_record (.requeued id now)

private theorem silent_requeueEach (now : VirtualTime) (ids : List JobId) :
    Silent (requeueEach now ids) := by
  induction ids with
  | nil => exact fun e overflow => rfl
  | cons id rest ih => exact Silent.bind (silent_requeueLogged id now) ih

private theorem silent_evictSlot (slot : SlotIndex) (now : VirtualTime) :
    Silent (·.evictSlot slot now) := by
  intro e overflow
  have hvacate : Silent fun e => some (e.withCore (e.vacate slot)) := fun e overflow => rfl
  have hbound : (e.withOverflow overflow).boundTo slot = e.boundTo slot := rfl
  unfold evictSlot
  simp only [hbound]
  cases hq : e.quiescing with
  | true =>
    have hq' : ((e.withOverflow overflow).withCore
      ((e.withOverflow overflow).unbindSlot slot)).quiescing = true := hq
    have hq'' : (e.withCore (e.unbindSlot slot)).quiescing = true := hq
    simp only [hq', hq'']
    rfl
  | false =>
    have hq' : ((e.withOverflow overflow).withCore
      ((e.withOverflow overflow).unbindSlot slot)).quiescing = false := hq
    have hq'' : (e.withCore (e.unbindSlot slot)).quiescing = false := hq
    simp only [hq', hq'']
    exact Silent.bind (silent_requeueEach now (e.boundTo slot)) hvacate
      (e.withCore (e.unbindSlot slot)) overflow

private theorem silent_forgetLoop (now : VirtualTime) (entries : List (VirtualTime × JobId)) :
    Silent (forgetLoop now entries) := by
  induction entries with
  | nil => exact fun e overflow => rfl
  | cons entry rest ih =>
    intro e overflow
    obtain ⟨time, id⟩ := entry
    have hretain : (e.withOverflow overflow).retain = e.retain := rfl
    have hjobs : (e.withOverflow overflow).jobs = e.jobs := rfl
    simp only [forgetLoop, hretain, hjobs]
    split
    · rfl
    · rcases e.jobs.remove id with ⟨jobs, _ | job⟩
      · exact ih (e.withRoster { e.toRoster with terminal := rest }) overflow
      · exact Silent.bind (silent_record (.forgotten id)) ih
          (e.withRoster { e.toRoster with jobs := jobs, terminal := rest }) overflow

private theorem silent_requeueHeld (now : VirtualTime) (ids : List JobId) :
    Silent (requeueHeld now ids) := by
  induction ids with
  | nil => exact fun e overflow => rfl
  | cons id rest ih =>
    refine Silent.bind (fun e overflow => ?_) ih
    have hjobs : (e.withOverflow overflow).jobs = e.jobs := rfl
    rw [hjobs]
    split
    · exact silent_requeueLogged id now e overflow
    · rfl

private theorem silent_expireReconcile (now : VirtualTime) : Silent (·.expireReconcile now) := by
  intro e overflow
  have hheld : (e.withOverflow overflow).reconciling = e.reconciling := rfl
  have hwhen : (e.withOverflow overflow).reconcileUntil = e.reconcileUntil := rfl
  have hwindow : (e.withOverflow overflow).reconcileWindow = e.reconcileWindow := rfl
  have hdone : Silent fun e => some { e with reconcileUntil := none } := fun e overflow => rfl
  simp only [expireReconcile, hheld, hwhen, hwindow]
  split
  · rfl
  · split
    · rfl
    · exact (silent_requeueHeld now e.reconciling).bind hdone
        (e.withCore { e.toCore with reconciling := [] }) overflow

private theorem silent_rotateIfDue (now : VirtualTime) : Silent (·.rotateIfDue now) := by
  intro e overflow
  have hbytes : (e.withOverflow overflow).encodeSnapshot now = e.encodeSnapshot now := rfl
  cases hj : e.journal with
  | none =>
    have hj' : (e.withOverflow overflow).journal = none := hj
    simp only [rotateIfDue, hj, hj', Option.map_some]
  | some j =>
    have hj' : (e.withOverflow overflow).journal = some j := hj
    simp only [rotateIfDue, hj, hj', hbytes]
    split
    · cases e.encodeSnapshot now <;> rfl
    · rfl

end Engine

namespace Host

def port (h : Host) : Port := ⟨h.outbox, h.engine.overflow⟩

def withPort (h : Host) (p : Port) : Host :=
  { h with outbox := p.outbox, engine := h.engine.withOverflow p.overflow }

/-- A handler that reaches the port only to post, and posts the same whatever the port is. -/
def Relays (f : Host → Option Host) : Prop :=
  ∀ h : Host, ∃ r : Option (Host × List Dispatch), ∀ p : Port,
    f (h.withPort p) = r.map fun x => x.1.withPort (p.pushAll x.2)

def Still (f : Host → Option Host) : Prop :=
  ∀ h p, f (h.withPort p) = (f h).map (·.withPort p)

private theorem Still.relays {f : Host → Option Host} (hf : Still f) : Relays f := by
  intro h
  refine ⟨(f h).map fun h => (h, []), fun p => ?_⟩
  rw [hf, Option.map_map]
  rfl

private theorem Relays.bind {f g : Host → Option Host} (hf : Relays f) (hg : Relays g) :
    Relays fun h => (f h).bind g := by
  intro h
  obtain ⟨r, hr⟩ := hf h
  cases r with
  | none =>
    refine ⟨none, fun p => ?_⟩
    dsimp only
    rw [hr]
    rfl
  | some x =>
    obtain ⟨r', hr'⟩ := hg x.1
    refine ⟨r'.map fun y => (y.1, x.2 ++ y.2), fun p => ?_⟩
    dsimp only
    rw [hr, Option.map_some, Option.bind_some, hr', Option.map_map]
    congr 1
    funext y
    exact congrArg y.1.withPort (Port.pushAll_append p x.2 y.2).symm

private theorem relays_of_eq {f : Host → Option Host}
    (hf : ∀ h : Host, ∃ g, Relays g ∧ ∃ h₀ : Host, ∀ p, f (h.withPort p) = g (h₀.withPort p)) :
    Relays f := by
  intro h
  obtain ⟨g, hg, h₀, heq⟩ := hf h
  obtain ⟨r, hr⟩ := hg h₀
  exact ⟨r, fun p => (heq p).trans (hr p)⟩

private theorem relays_pushDispatch (d : Dispatch) : Relays fun h => some (h.pushDispatch d) := by
  intro h
  refine ⟨some (h, [d]), fun p => congrArg some ?_⟩
  show (h.withPort p).pushDispatch d = h.withPort (p.push d)
  unfold pushDispatch Port.push
  have hsame : (h.withPort p).outbox = p.outbox := rfl
  rw [hsame]
  rcases p.outbox.push d with ⟨outbox, _ | _⟩ <;> rfl

private theorem still_reply (token : Token) (answer : Answer) :
    Still fun h => some (h.reply token answer) := fun _ _ => rfl

private theorem still_replyDurably (token : Token) (answer : Answer) :
    Still fun h => some (h.replyDurably token answer) := by
  intro h p
  cases hj : h.engine.journal with
  | none =>
    have hj' : (h.withPort p).engine.journal = none := hj
    simp only [replyDurably, hj, hj']
    rfl
  | some j =>
    have hj' : (h.withPort p).engine.journal = some j := hj
    simp only [replyDurably, hj, hj']
    rfl

private theorem relays_pushDurably (d : Dispatch) : Relays fun h => some (h.pushDurably d) := by
  refine relays_of_eq fun h => ?_
  cases hj : h.engine.journal with
  | none =>
    refine ⟨_, relays_pushDispatch d, h, fun p => ?_⟩
    have hj' : (h.withPort p).engine.journal = none := hj
    simp only [pushDurably, hj']
  | some j =>
    have hstill : Still fun h => some { h with engine := h.engine.withLog (some (j.hold d)) } :=
      fun _ _ => rfl
    refine ⟨_, hstill.relays, h, fun p => ?_⟩
    have hj' : (h.withPort p).engine.journal = some j := hj
    simp only [pushDurably, hj']

private theorem still_onEngine {f : Engine → Option Engine} (hf : Engine.Silent f) :
    Still (·.onEngine f) := by
  intro h p
  have hsame : f (h.withPort p).engine = (f h.engine).map (·.withOverflow p.overflow) :=
    hf h.engine p.overflow
  simp only [onEngine, hsame]
  cases f h.engine <;> rfl

private theorem classifyNew_withOverflow (e : Engine) (overflow : List Dispatch) (id : JobId)
    (now : VirtualTime) : (e.withOverflow overflow).classifyNew id now =
      ((e.classifyNew id now).1.withOverflow overflow, (e.classifyNew id now).2) := by
  have hsame : (e.withOverflow overflow).scheduler.submit id (e.withOverflow overflow).jobs now
      (e.withOverflow overflow).cycle = e.scheduler.submit id e.jobs now e.cycle := rfl
  simp only [Engine.classifyNew, hsame]
  cases (e.scheduler.submit id e.jobs now e.cycle).result <;> rfl

private theorem flushLoop_withPort (ds : List Dispatch) : ∀ (h : Host) (p : Port),
    flushLoop ds (h.withPort p) = h.withPort (Port.flushFrom ds p.outbox) := by
  induction ds with
  | nil => exact fun h p => rfl
  | cons d rest ih =>
    intro h p
    have hsame : (h.withPort p).outbox = p.outbox := rfl
    unfold flushLoop Port.flushFrom
    rw [hsame]
    rcases p.outbox.push d with ⟨outbox, _ | _⟩
    · rfl
    · exact ih h ⟨outbox, p.overflow⟩

private theorem flushOverflow_withPort (h : Host) (p : Port) :
    (h.withPort p).flushOverflow = h.withPort p.flush := flushLoop_withPort _ h p

variable [Crc32]

private theorem still_onSubmit (job : Job) (token : Token) (now : VirtualTime) :
    Still (·.onSubmit job token now) := by
  intro h p
  have hjobs : (h.withPort p).engine.jobs = h.engine.jobs := rfl
  have hsched : (h.withPort p).engine.scheduler = h.engine.scheduler := rfl
  simp only [onSubmit, hjobs, hsched]
  cases h.engine.jobs.nextId with
  | none => rfl
  | some id =>
    simp only [Option.bind_eq_bind, Option.bind_some]
    cases h.engine.scheduler.checkSubmit id job h.engine.jobs with
    | error e => rfl
    | ok readiness =>
      cases h.engine.jobs.insert job with
      | none => rfl
      | some inserted =>
        let e₀ := h.engine.withRoster { h.engine.toRoster with jobs := inserted.1 }
        have hrecord : recordSubmitted (e₀.withOverflow p.overflow) id =
            (recordSubmitted e₀ id).map (·.withOverflow p.overflow) :=
          Engine.silent_recordSubmitted id e₀ p.overflow
        simp only [Option.bind_some]
        refine (congrArg (Option.bind · _) hrecord).trans ?_
        show _ = ((recordSubmitted e₀ id).bind _).map _
        cases recordSubmitted e₀ id with
        | none => rfl
        | some e =>
          simp only [Option.map_some, Option.bind_some, classifyNew_withOverflow]
          exact still_replyDurably token _ { h with engine := (e.classifyNew id now).1 } p

/-- The kill order a cancelled job's worker is sent, if the job was bound. -/
def killReleased (h : Host) (id : JobId) : Option SlotIndex → Host
  | some slot => h.pushDispatch (.kill slot id)
  | none => h

private theorem relays_onCancel (id : JobId) (token : Token) (now : VirtualTime) :
    Relays (·.onCancel id token now) := by
  refine relays_of_eq fun h => ?_
  let c := h.engine.unbind id
  let step := c.scheduler.cancel id c.jobs now h.engine.cycle
  let e := h.engine.withCore (c.withRoster (c.adoptStep step))
  have hanswer : Relays fun h => some (h.replyDurably token (.cancel step.result)) :=
    (still_replyDurably token _).relays
  cases hresult : step.result with
  | error err =>
    refine ⟨_, hanswer, { h with engine := e }, fun p => ?_⟩
    have hresult' : ((h.withPort p).engine.unbind id).scheduler.cancel id
        ((h.withPort p).engine.unbind id).jobs now (h.withPort p).engine.cycle = step := rfl
    simp only [onCancel, hresult', hresult]
    rfl
  | ok cascade =>
    have hrecord : Relays (·.onEngine (·.record (.cancelled id now))) :=
      (still_onEngine (Engine.silent_record _)).relays
    have hnote : Still fun h => some { h with
        engine := h.engine.withRoster ((h.engine.noteTerminal id now).noteAll cascade now) } :=
      fun _ _ => rfl
    have hkill : Relays fun h' => some (h'.killReleased id (h.engine.release id).2) := by
      cases (h.engine.release id).2 with
      | none => exact Still.relays fun _ _ => rfl
      | some slot => exact relays_pushDispatch (.kill slot id)
    refine ⟨_, ((hrecord.bind hnote.relays).bind hkill).bind hanswer, { h with engine := e },
      fun p => ?_⟩
    have hresult' : ((h.withPort p).engine.unbind id).scheduler.cancel id
        ((h.withPort p).engine.unbind id).jobs now (h.withPort p).engine.cycle = step := rfl
    have hreleased : ((h.withPort p).engine.release id).2 = (h.engine.release id).2 := rfl
    simp only [onCancel, hresult', hresult, hreleased, onEngine]
    show (Option.bind (Option.bind ((e.withOverflow p.overflow).record _) _) _) = _
    show _ = Option.bind (Option.bind (Option.bind (Option.bind
      ((e.withOverflow p.overflow).record _) _) _) _) _
    generalize (h.engine.release id).2 = released
    cases (e.withOverflow p.overflow).record (.cancelled id now) <;> cases released <;> rfl

private theorem relays_adoptRunning (id : JobId) (slot : SlotIndex) (now : VirtualTime) :
    Relays (·.adoptRunning id slot now) := by
  refine relays_of_eq fun h => ?_
  have hrest : Relays fun h => some h := Still.relays fun _ _ => rfl
  cases hget : h.engine.jobs.get id with
  | none =>
    refine ⟨_, hrest, h, fun p => ?_⟩
    have hget' : (h.withPort p).engine.jobs.get id = none := hget
    simp only [adoptRunning, hget']
  | some job =>
    have hget' (p : Port) : (h.withPort p).engine.jobs.get id = some job := hget
    by_cases hstate : job.state = .running
    · cases halloc : h.engine.inventory.tryAllocate slot job.request with
      | ok inventory =>
        let c := { h.engine.toCore with inventory := inventory }
        refine ⟨_, hrest, { h with engine := h.engine.withCore (c.bind id job slot now) },
          fun p => ?_⟩
        have halloc' : (h.withPort p).engine.inventory.tryAllocate slot job.request =
          .ok inventory := halloc
        simp only [adoptRunning, hget', hstate, halloc']
        rfl
      | error err =>
        have hrequeue : Relays (·.onEngine (·.requeueLogged id now)) :=
          (still_onEngine (Engine.silent_requeueLogged id now)).relays
        refine ⟨_, hrequeue.bind (relays_pushDispatch (.kill slot id)), h, fun p => ?_⟩
        have halloc' : (h.withPort p).engine.inventory.tryAllocate slot job.request =
          .error err := halloc
        simp only [adoptRunning, hget', hstate, halloc']
        rfl
    · refine ⟨_, hrest, h, fun p => ?_⟩
      simp only [adoptRunning, hget', ne_eq, hstate, not_false_eq_true, if_true]

private theorem relays_rebind (id : JobId) (slot : SlotIndex) (now : VirtualTime) (r : RunningJob) :
    Relays (·.rebind id slot now r) := by
  refine relays_of_eq fun h => ?_
  cases halloc : (h.engine.freed r).tryAllocate slot r.resources with
  | ok inventory =>
    let c : Core := { h.engine.toCore with
      inventory := inventory
      running := h.engine.running.set (h.engine.running.findIdx (·.job = id))
        { r with slot := slot } }
    refine ⟨some, Still.relays fun _ _ => rfl, { h with engine := h.engine.withCore c },
      fun p => ?_⟩
    have halloc' : ((h.withPort p).engine.freed r).tryAllocate slot r.resources =
      .ok inventory := halloc
    simp only [rebind, halloc']
    rfl
  | error err =>
    have hrequeue : Relays (·.onEngine (·.requeueLogged id now)) :=
      (still_onEngine (Engine.silent_requeueLogged id now)).relays
    let c : Core := { h.engine.toCore with
      inventory := h.engine.freed r
      running := swapRemove h.engine.running (h.engine.running.findIdx (·.job = id)) }
    refine ⟨_, hrequeue.bind (relays_pushDispatch (.kill slot id)),
      { h with engine := h.engine.withCore c }, fun p => ?_⟩
    have halloc' : ((h.withPort p).engine.freed r).tryAllocate slot r.resources =
      .error err := halloc
    simp only [rebind, halloc']
    rfl

private theorem relays_claim (id : JobId) (slot : SlotIndex) (now : VirtualTime) :
    Relays (·.claim id slot now) := by
  refine relays_of_eq fun h => ?_
  rcases hhold : h.engine.unhold id with ⟨c, _ | _⟩
  · have hhold' (p : Port) : (h.withPort p).engine.unhold id = (c, false) := hhold
    cases hfind : h.engine.running.find? (·.job = id) with
    | none =>
      refine ⟨_, relays_pushDispatch (.kill slot id), h, fun p => ?_⟩
      have hfind' : (h.withPort p).engine.running.find? (·.job = id) = none := hfind
      simp only [claim, hhold', hfind']
    | some r =>
      refine ⟨_, relays_rebind id slot now r, h, fun p => ?_⟩
      have hfind' : (h.withPort p).engine.running.find? (·.job = id) = some r := hfind
      simp only [claim, hhold', hfind']
  · refine ⟨_, relays_adoptRunning id slot now, { h with engine := h.engine.withCore c },
      fun p => ?_⟩
    have hhold' : (h.withPort p).engine.unhold id = (c, true) := hhold
    simp only [claim, hhold']
    rfl

private theorem relays_claimEach (slot : SlotIndex) (now : VirtualTime) (ids : List JobId) :
    Relays (claimEach slot now ids) := by
  induction ids with
  | nil => exact Still.relays fun _ _ => rfl
  | cons id rest ih => exact (relays_claim id slot now).bind ih

private theorem relays_onWorkerJoined (name : String) (capacity : Capacity) (inFlight : List JobId)
    (token : Token) (now : VirtualTime) :
    Relays (·.onWorkerJoined name capacity inFlight token now) := by
  refine relays_of_eq fun h => ?_
  refine ⟨_, (relays_claimEach (h.engine.attach name capacity).2 now inFlight).bind
    (still_reply token (.joined (h.engine.attach name capacity).2)).relays,
    { h with engine := h.engine.withCore (h.engine.attach name capacity).1 }, fun p => rfl⟩

theorem relays_handle (command : Command) (now : VirtualTime) :
    Relays (·.handle command now) := by
  cases command with
  | submit job reply => exact (still_onSubmit job.job reply now).relays
  | cancel id reply => exact relays_onCancel id reply now
  | completed id => exact (still_onEngine (Engine.silent_completed id now)).relays
  | failed id => exact (still_onEngine (Engine.silent_failed id now)).relays
  | preempted id => exact (still_onEngine (Engine.silent_preempted id now)).relays
  | workerJoined name capacity inFlight reply =>
    exact relays_onWorkerJoined name capacity inFlight reply now
  | workerLeft slot => exact (still_onEngine (Engine.silent_evictSlot slot now)).relays
  | workerDraining slot => exact Still.relays fun _ _ => rfl
  | query query reply => exact Still.relays fun _ _ => rfl

private theorem relays_onDispatched (now : VirtualTime) (d : DispatchDecision) :
    Relays (·.onDispatched now d) := by
  refine relays_of_eq fun h => ?_
  cases hget : h.engine.jobs.get d.job with
  | none =>
    refine ⟨some, Still.relays fun _ _ => rfl, h, fun p => ?_⟩
    have hget' : (h.withPort p).engine.jobs.get d.job = none := hget
    simp only [onDispatched, hget']
  | some job =>
    have hrecord : Relays (·.onEngine (·.record (.dispatched d.job now))) :=
      (still_onEngine (Engine.silent_record _)).relays
    let e := h.engine.withCore (h.engine.bind d.job job d.slot now)
    refine ⟨_, hrecord.bind (relays_pushDurably (.assign d.slot d.job job.payload
      job.walltimeLimit)), { h with engine := e }, fun p => ?_⟩
    have hget' : (h.withPort p).engine.jobs.get d.job = some job := hget
    simp only [onDispatched, hget']
    rfl

private theorem relays_onDispatchedEach (now : VirtualTime) (ds : List DispatchDecision) :
    Relays (onDispatchedEach now ds) := by
  induction ds with
  | nil => exact Still.relays fun _ _ => rfl
  | cons d rest ih => exact (relays_onDispatched now d).bind ih

private theorem relays_evict (now : VirtualTime) (v : Eviction) : Relays (·.evict now v) := by
  refine relays_of_eq fun h => ?_
  let step := h.engine.scheduler.preempt v.job h.engine.jobs
  have hstep (p : Port) :
    (h.withPort p).engine.scheduler.preempt v.job (h.withPort p).engine.jobs = step := rfl
  cases hresult : step.result with
  | error err =>
    refine ⟨some, Still.relays fun _ _ => rfl, h, fun p => ?_⟩
    simp only [evict, hstep, hresult]
  | ok u =>
    have hrecord : Relays (·.onEngine (·.record (.preempted v.job now))) :=
      (still_onEngine (Engine.silent_record _)).relays
    have hnotice : Relays fun h => some
        (h.pushDurably (.preempt v.slot v.job h.engine.cycle.preempt.grace)) :=
      relays_of_eq fun h => ⟨_, relays_pushDurably
        (.preempt v.slot v.job h.engine.cycle.preempt.grace), h, fun _ => rfl⟩
    refine ⟨_, hrecord.bind hnotice,
      { h with engine := h.engine.withRoster (h.engine.adoptStep step) }, fun p => ?_⟩
    simp only [evict, hstep, hresult]
    rfl

private theorem relays_evictEach (now : VirtualTime) (vs : List Eviction) : Relays
    (evictEach now vs) := by
  induction vs with
  | nil => exact Still.relays fun _ _ => rfl
  | cons v rest ih => exact (relays_evict now v).bind ih

private theorem relays_planEvictions (head : JobId) (now : VirtualTime) :
    Relays (·.planEvictions head now) := by
  refine relays_of_eq fun h => ?_
  have hrest : Relays some := Still.relays fun _ _ => rfl
  cases hget : h.engine.jobs.get head with
  | none =>
    refine ⟨some, hrest, h, fun p => ?_⟩
    have hget' : (h.withPort p).engine.jobs.get head = none := hget
    simp only [planEvictions, hget']
  | some job =>
    have hget' (p : Port) : (h.withPort p).engine.jobs.get head = some job := hget
    cases hplan : planPreemption job h.engine.running h.engine.jobs h.engine.inventory now
        h.engine.cycle.preempt with
    | none =>
      refine ⟨some, hrest, h, fun p => ?_⟩
      have hplan' : planPreemption job (h.withPort p).engine.running (h.withPort p).engine.jobs
        (h.withPort p).engine.inventory now (h.withPort p).engine.cycle.preempt = none := hplan
      simp only [planEvictions, hget', hplan']
    | some plan =>
      refine ⟨_, relays_evictEach now plan.2, h, fun p => ?_⟩
      have hplan' : planPreemption job (h.withPort p).engine.running (h.withPort p).engine.jobs
        (h.withPort p).engine.inventory now (h.withPort p).engine.cycle.preempt = some plan := hplan
      simp only [planEvictions, hget', hplan']

/-- What a tick does after its decisions are carried out. -/
def housekeep (now : VirtualTime) (room : Bool) (e : Engine) : Option Engine :=
  ({ e with cycles := e.cycles + 1 }.refreshDemand.forgetExpired now).bind fun e =>
    (e.expireReconcile now).bind fun e => (e.rotateIfDue now).bind fun e => some (e.commit room)

private theorem silent_housekeep (now : VirtualTime) (room : Bool) :
    Engine.Silent (housekeep now room) := by
  have hcount : Engine.Silent fun e => some { e with cycles := e.cycles + 1 }.refreshDemand :=
    fun _ _ => rfl
  have hforget : Engine.Silent (·.forgetExpired now) := fun e overflow =>
    Engine.silent_forgetLoop now e.terminal e overflow
  have hcommit : Engine.Silent fun e => some (e.commit room) := fun _ _ => rfl
  exact hcount.bind (hforget.bind ((Engine.silent_expireReconcile now).bind
    ((Engine.silent_rotateIfDue now).bind hcommit)))

/-- The evictions of a tick whose cycle may have left a head waiting. -/
def evictFor (now : VirtualTime) : Option JobId → Host → Option Host
  | none, h => some h
  | some head, h => h.planEvictions head now

private theorem relays_evictFor (now : VirtualTime) (head : Option JobId) : Relays
    (evictFor now head) := by
  cases head with
  | none => exact Still.relays fun _ _ => rfl
  | some head => exact relays_planEvictions head now

theorem tick_eq (h : Host) (now : VirtualTime) (room : Bool) : (h.tick now room).map (·.1) =
    (h.flushOverflow.engine.scheduler.runCycle h.flushOverflow.engine.jobs
      h.flushOverflow.engine.inventory h.flushOverflow.engine.running now
      h.flushOverflow.engine.cycle []).bind fun cycle =>
        ((onDispatchedEach now cycle.decisions { h.flushOverflow with
            engine := h.flushOverflow.engine.withCore { h.flushOverflow.engine.toCore with
              scheduler := cycle.scheduler
              jobs := cycle.jobs
              inventory := cycle.inventory } }).bind (evictFor now cycle.outcome.head)).bind
          (·.onEngine (housekeep now room)) := by
  unfold tick
  generalize h.flushOverflow = h
  have htail (h₃ : Host) (outcome : CycleOutcome) : Option.map (·.1) (do
      let e ← { h₃.engine with cycles := h₃.engine.cycles + 1 }.refreshDemand.forgetExpired now
      let e ← e.expireReconcile now
      let e ← e.rotateIfDue now
      return ({ h₃ with engine := e.commit room }, outcome)) =
        h₃.onEngine (housekeep now room) := by
    simp only [onEngine, housekeep, Option.bind_eq_bind]
    cases { h₃.engine with cycles := h₃.engine.cycles + 1 }.refreshDemand.forgetExpired now with
    | none => rfl
    | some e₁ =>
      simp only [Option.bind_some]
      cases e₁.expireReconcile now with
      | none => rfl
      | some e₂ =>
        simp only [Option.bind_some]
        cases e₂.rotateIfDue now <;> rfl
  dsimp only
  cases h.engine.scheduler.runCycle h.engine.jobs h.engine.inventory h.engine.running now
      h.engine.cycle [] with
  | none => rfl
  | some cycle =>
    simp only [Option.bind_eq_bind, Option.bind_some]
    cases onDispatchedEach now cycle.decisions { h with
        engine := h.engine.withCore { h.engine.toCore with
          scheduler := cycle.scheduler
          jobs := cycle.jobs
          inventory := cycle.inventory } } with
    | none => rfl
    | some h₂ =>
      simp only [Option.bind_some]
      cases hhead : cycle.outcome.head with
      | none => exact htail h₂ cycle.outcome
      | some head =>
        simp only [evictFor]
        cases h₂.planEvictions head now with
        | none => rfl
        | some h₃ => exact htail h₃ cycle.outcome

theorem tick_relays (h : Host) (now : VirtualTime) (room : Bool) :
    ∃ r : Option (Host × List Dispatch), ∀ p : Port, ((h.withPort p).tick now room).map (·.1) =
      r.map fun x => x.1.withPort (p.flush.pushAll x.2) := by
  have hkeep : Relays (·.onEngine (housekeep now room)) :=
    (still_onEngine (silent_housekeep now room)).relays
  have hcycle (p : Port) : (h.withPort p).engine.scheduler.runCycle (h.withPort p).engine.jobs
      (h.withPort p).engine.inventory (h.withPort p).engine.running now
      (h.withPort p).engine.cycle [] = h.engine.scheduler.runCycle h.engine.jobs
        h.engine.inventory h.engine.running now h.engine.cycle [] := rfl
  cases hc : h.engine.scheduler.runCycle h.engine.jobs h.engine.inventory h.engine.running now
      h.engine.cycle [] with
  | none =>
    refine ⟨none, fun p => ?_⟩
    rw [tick_eq, flushOverflow_withPort, hcycle, hc]
    rfl
  | some cycle =>
    obtain ⟨r, hr⟩ := (((relays_onDispatchedEach now cycle.decisions).bind
      (relays_evictFor now cycle.outcome.head)).bind hkeep) { h with
        engine := h.engine.withCore { h.engine.toCore with
          scheduler := cycle.scheduler
          jobs := cycle.jobs
          inventory := cycle.inventory } }
    refine ⟨r, fun p => ?_⟩
    rw [tick_eq, flushOverflow_withPort, hcycle, hc]
    exact hr p.flush

end Host

end TaskerRT.Daemon
