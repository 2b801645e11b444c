/- module: TaskerRT/Daemon/Wrapped
   source: crates/tasker-core/src/domain/arena.rs (remove), crates/taskerd/src/engine.rs
   digest: A slot forgotten 2^32 times issues an old handle again. -/

import TaskerRT.Daemon.Sane

set_option autoImplicit false

namespace TaskerRT

open Library Domain Cluster Policy Scheduling Wal

namespace Policy

def ReadySet.IsEmpty (r : ReadySet) : Prop :=
  ∀ c, (r.buckets c).ids = [] ∧ (r.buckets c).scores = []

private theorem ReadySet.IsEmpty.drainOrdered {r : ReadySet} (h : r.IsEmpty) (limit : Nat) :
    ReadySet.drainOrdered limit r = ([], r) := by
  have hpop : ∀ classes, r.popFrom classes = none := by
    intro classes
    induction classes with
    | nil => rfl
    | cons c classes ih => simp [popFrom, IndexedHeap.popMax, (h c).1, ih]
  cases limit with
  | zero => rfl
  | succ limit => simp only [ReadySet.drainOrdered, popNext, hpop]

private theorem ReadySet.IsEmpty.remove_insert {r : ReadySet} (h : r.IsEmpty) {c : PriorityClass}
    {id : JobId} (score : Score) (hrow : (r.buckets c).positions[id.slot]? = some none) :
    ((r.insert c id score).remove c id).1 = r := by
  have hbucket : r.buckets c = ⟨[], [], (r.buckets c).positions⟩ := by
    rw [← (h c).1, ← (h c).2]
  have hback : (((r.buckets c).push id score).remove id).1 = r.buckets c := by
    rw [hbucket]
    exact IndexedHeap.remove_push_of_empty score hrow
  obtain ⟨buckets⟩ := r
  simp only [ReadySet.remove, ReadySet.insert, setBucket, if_true, mk.injEq]
  funext d
  by_cases hd : d = c
  · simp only [hd, if_true]
    exact hback
  · simp only [hd, if_false]

namespace DependencyTracker

/-- A job without dependencies that comes and goes leaves a table that already covers its row as
it was. -/
private theorem register_leaf {t : DependencyTracker} {id : JobId} {job : Job} (jobs : Arena Job)
    (hdeps : job.deps = []) (hrow : t.rows[id.slot]? = some TrackerRow.vacant) :
    t.register id job jobs = .ok (t.setRow id.slot ⟨some id, 0, []⟩, .ready) := by
  obtain ⟨hlt, _⟩ := List.getElem?_eq_some_iff.mp hrow
  have hreserve : t.reserveSlots (id.slot + 1) = t := by
    rw [reserveSlots, Table.reserve, Nat.sub_eq_zero_of_le hlt, List.replicate_zero,
      List.append_nil]
  simp [register, classify, classifyLoop, hdeps, linkDeps, hreserve, clearIndex, setRow, rowAt,
    Table.read, hlt, TrackerRow.vacant]

private theorem onTerminated_leaf {t : DependencyTracker} {id : JobId}
    (hrow : t.rows[id.slot]? = some TrackerRow.vacant) :
    (t.setRow id.slot ⟨some id, 0, []⟩).onTerminated id = (t, []) := by
  obtain ⟨hlt, hvacant⟩ := List.getElem?_eq_some_iff.mp hrow
  have hloop : ∀ fuel t cascade, cascadeLoop id fuel t [] cascade = (t, cascade) := by
    intro fuel t cascade
    cases fuel <;> rfl
  have hback : (t.rows.set id.slot ⟨some id, 0, []⟩).set id.slot TrackerRow.vacant = t.rows := by
    rw [List.set_set, ← hvacant, List.set_getElem_self]
  simp [onTerminated, cascadeLoop, rowAt, Table.read, setRow, hlt, clearIndex, hloop, hback]

end DependencyTracker

end Policy

namespace Daemon

/-- The job that is submitted and cancelled over and over. -/
def passerby : NewJob := ⟨sampleJob .normal 1 10, rfl, rfl⟩

/-- Two slots, the second free at generation `g` and next to be issued. -/
def twoSlots (first : Slot Job) (next : Option (Word 32)) (len : Nat) (g : Word 32) : Arena Job :=
  ⟨[first, .vacant g next], some 1, len⟩

def twoTaken (first : Slot Job) (next : Option (Word 32)) (len : Nat) (g : Word 32) (job : Job) :
    Arena Job :=
  ⟨[first, .occupied g job], next, len + 1⟩

def second (g : Word 32) : JobId := JobId.new 1 g

section

variable {first : Slot Job} {next : Option (Word 32)} {len : Nat} {g : Word 32} {job : Job}

private theorem slot_second : (second g).slot = 1 := JobId.slot_new 1 g

private theorem generation_second : (second g).generation = g := JobId.generation_new 1 g

private theorem nextId_twoSlots : (twoSlots first next len g).nextId = some (second g) := rfl

private theorem insert_twoSlots :
    (twoSlots first next len g).insert job = some (twoTaken first next len g job, second g) := rfl

private theorem get_twoTaken : (twoTaken first next len g job).get (second g) = some job := by
  rw [Arena.get_eq_some, slot_second, generation_second]
  rfl

private theorem modify_twoTaken (job' : Job) : (twoTaken first next len g job).modify (second g)
    (fun _ => job') = twoTaken first next len g job' := by
  rw [Arena.modify_of_get _ get_twoTaken, slot_second, generation_second]
  rfl

private theorem iter_twoTaken : (twoTaken first next len g job).iter =
    (⟨[first], none, 0⟩ : Arena Job).iter ++ [(second g, job)] := by
  have hsecond : JobId.new (Word.ofNat 32 1) g = second g := rfl
  simp only [Arena.iter, twoTaken, List.zipIdx_cons, List.zipIdx_nil, List.filterMap_cons,
    List.filterMap_nil, Arena.entry, hsecond]
  cases first <;> rfl

private theorem remove_twoTaken : (twoTaken first next len g job).remove (second g) =
    (twoSlots first next len (g + 1), some job) := by
  rw [Arena.remove_of_get get_twoTaken, slot_second, generation_second, second, JobId.index_new]
  rfl

end

namespace Engine

section Memory

variable [Crc32] {e : Engine} {id : JobId} {job : Job} {now : VirtualTime}

/-! Handlers of an engine that logs nothing. -/

private theorem record_of_none (h : e.journal = none) (r : Record) : e.record r = some e := by
  rw [record, h]

private theorem recordSubmitted_of_none (h : e.journal = none) (id : JobId) :
    Host.recordSubmitted e id = some e := by
  rw [Host.recordSubmitted, h]

omit [Crc32] in
private theorem engine_replyDurably_of_none {h : Host} (hj : h.engine.journal = none)
    (token : Token)
    (answer : Answer) : (h.replyDurably token answer).engine = h.engine := by
  rw [Host.replyDurably, hj]
  rfl

private theorem engine_onSubmit_of_none {jobs jobs' : Arena Job} {s' : Scheduler} {state : JobState}
    {readiness : Readiness} (outbox : Outbox) (token : Token) (hj : e.journal = none)
    (hnext : e.jobs.nextId = some id) (hcheck : e.scheduler.checkSubmit id job e.jobs = .ok readiness)
    (hinsert : e.jobs.insert job = some (jobs, id))
    (hstep : e.scheduler.submit id jobs now e.cycle = ⟨s', jobs', .ok state⟩)
    (hopen : state.isTerminal = false) :
    (Host.onSubmit ⟨e, outbox, []⟩ job token now).map (·.engine) =
      some (e.withRoster ⟨jobs', s', e.terminal⟩) := by
  have hrecord : Host.recordSubmitted (e.withRoster { e.toRoster with jobs := jobs }) id =
      some (e.withRoster { e.toRoster with jobs := jobs }) := by
    apply recordSubmitted_of_none
    exact hj
  have hclassify : (e.withRoster { e.toRoster with jobs := jobs }).classifyNew id now =
      (e.withRoster ⟨jobs', s', e.terminal⟩, .ok state) := by
    have hsame : (e.withRoster { e.toRoster with jobs := jobs }).scheduler.submit id
        (e.withRoster { e.toRoster with jobs := jobs }).jobs now
        (e.withRoster { e.toRoster with jobs := jobs }).cycle = ⟨s', jobs', .ok state⟩ := hstep
    simp only [classifyNew, hsame, Roster.noteIf, hopen, Bool.false_eq_true, if_false]
    rfl
  simp only [Host.onSubmit, hnext, Option.bind_eq_bind, Option.bind_some, hcheck, hinsert, hrecord,
    hclassify, Option.pure_def, Option.map_some]
  rw [engine_replyDurably_of_none]
  exact hj

private theorem engine_onCancel_of_none {jobs' : Arena Job} {s' : Scheduler} (outbox : Outbox)
    (token : Token) (hj : e.journal = none) (hbound : e.running.find? (·.job = id) = none)
    (hheld : id ∉ e.reconciling)
    (hstep : e.scheduler.cancel id e.jobs now e.cycle = ⟨s', jobs', .ok []⟩) :
    (Host.onCancel ⟨e, outbox, []⟩ id token now).map (·.engine) =
      some (e.withRoster ⟨jobs', s', e.terminal ++ [(now, id)]⟩) := by
  have hrelease : e.toCore.release id = (e.toCore, none) := by rw [Core.release, hbound]
  have hunbind : e.toCore.unbind id = e.toCore := by
    rw [Core.unbind, hrelease, Core.unhold, if_neg hheld]
  have hrecord : ∀ r : Record, (e.withCore (e.toCore.withRoster (e.toRoster.adoptStep
      ⟨s', jobs', (.ok [] : Except LifecycleError (List JobId))⟩))).record r =
        some (e.withCore (e.toCore.withRoster (e.toRoster.adoptStep
          ⟨s', jobs', (.ok [] : Except LifecycleError (List JobId))⟩))) := by
    intro r
    apply record_of_none
    exact hj
  simp only [Host.onCancel, hunbind, hrelease, hstep, hrecord, Option.bind_eq_bind,
    Option.bind_some, Option.pure_def, Option.map_some]
  rw [engine_replyDurably_of_none]
  · simp only [Roster.noteAll, Roster.noteTerminal, List.map_nil, List.append_nil]
    rfl
  · exact hj

private theorem forgetExpired_of_none {jobs' : Arena Job} (hj : e.journal = none)
    (hretain : e.retain = 0)
    (hterminal : e.terminal = [(now, id)]) (hremove : e.jobs.remove id = (jobs', some job)) :
    e.forgetExpired now = some (e.withRoster ⟨jobs', e.scheduler, []⟩) := by
  have hrecord : (e.withRoster { e.toRoster with jobs := jobs', terminal := [] }).record
      (.forgotten id) = some (e.withRoster { e.toRoster with jobs := jobs', terminal := [] }) := by
    apply record_of_none
    exact hj
  have hdue : ¬ Word.saturatingSub now now < e.retain := by
    rw [hretain]
    exact Fin.not_lt_zero _
  rw [forgetExpired, hterminal, forgetLoop, if_neg hdue]
  simp only [hremove, hrecord, Option.bind_eq_bind, Option.bind_some, forgetLoop]
  rfl

private theorem engine_tick_of_none {e₁ : Engine} {outcome : CycleOutcome} (outbox : Outbox)
    (hover : e.overflow = []) (hcycle : e.scheduler.runCycle e.jobs e.inventory e.running now
      e.cycle [] = some ⟨e.scheduler, e.jobs, e.inventory, [], outcome⟩)
    (hhead : outcome.head = none)
    (hforget : ({ e with cycles := e.cycles + 1 } : Engine).refreshDemand.forgetExpired now =
      some e₁) (hheld : e₁.reconciling = []) (hj₁ : e₁.journal = none) :
    (Host.tick ⟨e, outbox, []⟩ now true).map (·.1.engine) =
      some { e₁ with reconcileUntil := none } := by
  have hflush : Host.flushOverflow ⟨e, outbox, []⟩ = ⟨{ e with overflow := [] }, outbox, []⟩ := by
    simp only [Host.flushOverflow, hover, List.reverse_nil, Host.flushLoop]
  have hsame : ({ e with overflow := [] } : Engine) = e := by rw [← hover]
  have hexpire : e₁.expireReconcile now = some { e₁ with reconcileUntil := none } := by
    rw [expireReconcile, hheld]
    rfl
  have hrotate : ({ e₁ with reconcileUntil := none } : Engine).rotateIfDue now =
      some { e₁ with reconcileUntil := none } := by
    simp only [rotateIfDue, hj₁]
  have hcommit : ({ e₁ with reconcileUntil := none } : Engine).commit true =
      { e₁ with reconcileUntil := none } := by
    simp only [commit, withLog, hj₁, Option.map_none]
  simp only [Host.tick, hflush, hsame, hcycle, hhead, Option.bind_eq_bind, Option.bind_some,
    Host.onDispatchedEach]
  show Option.map _ ((({ e with cycles := e.cycles + 1 } : Engine).refreshDemand.forgetExpired
    now).bind _) = _
  rw [hforget]
  simp only [Option.bind_some, hexpire, hrotate, Option.pure_def, Option.map_some, hcommit]

end Memory

/-- The engine `b` with slot 1 free at generation `g`, after `k` cycles. -/
def spun (b : Engine) (first : Slot Job) (next : Option (Word 32)) (g : Word 32) (k : Nat) :
    Engine :=
  { b.withRoster ⟨twoSlots first next b.jobs.len g, b.scheduler, []⟩ with cycles := k }

def hosting (b : Engine) (now : VirtualTime) (id : JobId) : Scheduler :=
  { b.scheduler with deps := b.scheduler.deps.setRow id.slot ⟨some id, 0, []⟩ }.enqueue id
    (passerby.job.withState .ready) now b.cycle

/-- An in-memory engine that forgets at once and has nothing to do. -/
structure Idle (b : Engine) (first : Slot Job) (now : VirtualTime) : Prop where
  waiting : b.scheduler.ready.IsEmpty
  filed : (b.scheduler.ready.buckets .normal).positions[1]? = some none
  row : b.scheduler.deps.rows[1]? = some TrackerRow.vacant
  ensured : b.scheduler.fairshare.ensure passerby.job.account = .ok b.scheduler.fairshare
  refreshed : b.scheduler.fairshare.refresh now b.cycle.fairshare = b.scheduler.fairshare
  demand : (b.withRoster ⟨⟨[first], none, 0⟩, b.scheduler, []⟩).refreshDemand.demand = b.demand
  journal : b.journal = none
  overflow : b.overflow = []
  reconciling : b.reconciling = []
  reconcileUntil : b.reconcileUntil = none
  retain : b.retain = 0

section Spin

variable {b : Engine} {first : Slot Job} {next : Option (Word 32)} {now : VirtualTime}
  {g : Word 32} {k : Nat}

-- The handle stays a variable here: its bits are a large product, which is not to be unfolded.
private theorem Idle.submits (h : Idle b first now) {id : JobId} {jobs jobs' : Arena Job}
    (hslot : id.slot = 1) (hget : jobs.get id = some passerby.job)
    (hjobs : (jobs.modify id fun _ => passerby.job.withState .ready) = jobs') :
    b.scheduler.submit id jobs now b.cycle = ⟨b.hosting now id, jobs', .ok .ready⟩ := by
  have hrow : b.scheduler.deps.rows[id.slot]? = some TrackerRow.vacant := by
    rw [hslot]
    exact h.row
  have hregister := @DependencyTracker.register_leaf b.scheduler.deps id passerby.job jobs rfl hrow
  rw [Scheduler.submit_ok hget rfl h.ensured hregister, ← hjobs]
  rfl

private theorem checkSubmit_passerby (s : Scheduler) (jobs : Arena Job) (id : JobId) :
    s.checkSubmit id passerby.job jobs = .ok .ready := by
  rw [Scheduler.checkSubmit, if_neg (by decide)]
  rfl

private theorem Idle.cancels (h : Idle b first now) {id : JobId} {jobs jobs' : Arena Job}
    (hslot : id.slot = 1) (hget : jobs.get id = some (passerby.job.withState .ready))
    (hjobs : (jobs.modify id fun _ => passerby.job.withState .cancelled) = jobs') :
    (b.hosting now id).cancel id jobs now b.cycle = ⟨b.scheduler, jobs', .ok []⟩ := by
  have hleaf : (b.scheduler.deps.setRow id.slot ⟨some id, 0, []⟩).onTerminated id =
      (b.scheduler.deps, []) := by
    apply DependencyTracker.onTerminated_leaf
    rw [hslot]
    exact h.row
  have hready : ((b.hosting now id).ready.remove .normal id).1 = b.scheduler.ready := by
    apply h.waiting.remove_insert
    rw [hslot]
    exact h.filed
  have hdequeue : (b.hosting now id).dequeue id (passerby.job.withState .ready) =
      { b.scheduler with deps := b.scheduler.deps.setRow id.slot ⟨some id, 0, []⟩ } := by
    rw [Scheduler.dequeue, show (passerby.job.withState .ready).priorityClass = .normal from rfl,
      hready]
    rfl
  have htransition : (passerby.job.withState .ready).tryTransition .cancelled =
      .ok (passerby.job.withState .cancelled) := rfl
  have hstate : (passerby.job.withState .ready).state = .ready := rfl
  simp only [Scheduler.cancel, hget, hstate, if_true, hdequeue, htransition,
    JobState.onWorker, Bool.false_eq_true, if_false, hjobs, Scheduler.terminate, hleaf,
    List.foldl_nil]

variable [Crc32]

private theorem Idle.submit (h : Idle b first now) (token : Token) :
    (spun b first next g k).step ((Command.submit passerby token).sent now) =
      some ((spun b first next g k).withRoster
        ⟨twoTaken first next b.jobs.len g (passerby.job.withState .ready),
          b.hosting now (second g), []⟩) :=
  engine_onSubmit_of_none (e := spun b first next g k) (Outbox.new 8) token h.journal
    nextId_twoSlots (checkSubmit_passerby _ _ _) insert_twoSlots
    (h.submits slot_second get_twoTaken (modify_twoTaken _)) rfl

private theorem Idle.cancel (h : Idle b first now) (token : Token)
    (hfree : ∀ r ∈ b.running, r.job ≠ second g) :
    ((spun b first next g k).withRoster
        ⟨twoTaken first next b.jobs.len g (passerby.job.withState .ready),
          b.hosting now (second g), []⟩).step
        ((Command.cancel (second g) token).sent now) =
      some ((spun b first next g k).withRoster
        ⟨twoTaken first next b.jobs.len g (passerby.job.withState .cancelled), b.scheduler,
          [(now, second g)]⟩) := by
  have hnone : b.running.find? (·.job = second g) = none := by
    rw [List.find?_eq_none]
    intro r hr
    simpa using hfree r hr
  have hheld : second g ∉ b.reconciling := by
    rw [h.reconciling]
    exact List.not_mem_nil
  exact engine_onCancel_of_none (e := (spun b first next g k).withRoster
    ⟨twoTaken first next b.jobs.len g (passerby.job.withState .ready), b.hosting now (second g), []⟩)
    (Outbox.new 8) token h.journal hnone hheld
    (h.cancels slot_second get_twoTaken (modify_twoTaken _))

omit [Crc32] in
private theorem Idle.cycles (h : Idle b first now) (jobs : Arena Job) :
    b.scheduler.runCycle jobs b.inventory b.running now b.cycle [] =
      some ⟨b.scheduler, jobs, b.inventory, [], .idle⟩ := by
  have horder : b.scheduler.order jobs now b.cycle = ([], b.scheduler) := by
    simp only [Scheduler.order, h.refreshed, h.waiting.drainOrdered, List.map_nil,
      List.insertionSort_nil]
  rw [Scheduler.runCycle, horder]
  rfl

omit [Crc32] in
private theorem Idle.demands (h : Idle b first now) :
    ({ (spun b first next g k).withRoster
        ⟨twoTaken first next b.jobs.len g (passerby.job.withState .cancelled), b.scheduler,
          [(now, second g)]⟩ with cycles := k + 1 } : Engine).refreshDemand =
      (spun b first next g (k + 1)).withRoster
        ⟨twoTaken first next b.jobs.len g (passerby.job.withState .cancelled), b.scheduler,
          [(now, second g)]⟩ := by
  have hcpu : ∀ state, state ≠ .cancelled →
      (twoTaken first next b.jobs.len g (passerby.job.withState .cancelled)).iter.filter
          (·.2.state = state) =
        (⟨[first], none, 0⟩ : Arena Job).iter.filter (·.2.state = state) := by
    intro state hstate
    rw [iter_twoTaken, List.filter_append, List.filter_singleton]
    have hover : decide ((passerby.job.withState .cancelled).state = state) = false :=
      decide_eq_false (Ne.symm hstate)
    rw [hover, cond_false, List.append_nil]
  have hdemand := h.demand
  simp only [refreshDemand, withRoster, withCore, Core.withRoster] at hdemand ⊢
  rw [hcpu .ready (by decide), hcpu .running (by decide)]
  simp only [spun, withRoster, withCore, Core.withRoster]
  rw [hdemand]

private theorem Idle.tick (h : Idle b first now) :
    ((spun b first next g k).withRoster
        ⟨twoTaken first next b.jobs.len g (passerby.job.withState .cancelled), b.scheduler,
          [(now, second g)]⟩).step (tickAt now) = some (spun b first next (g + 1) (k + 1)) := by
  have hforget : (({ (spun b first next g k).withRoster
      ⟨twoTaken first next b.jobs.len g (passerby.job.withState .cancelled), b.scheduler,
        [(now, second g)]⟩ with cycles := k + 1 } : Engine).refreshDemand).forgetExpired now =
      some (spun b first next (g + 1) (k + 1)) := by
    rw [h.demands]
    exact forgetExpired_of_none h.journal h.retain rfl remove_twoTaken
  have hsame : ({ spun b first next (g + 1) (k + 1) with reconcileUntil := none } : Engine) =
      spun b first next (g + 1) (k + 1) := by
    simp only [spun, withRoster, withCore, h.reconcileUntil]
  rw [← hsame]
  exact engine_tick_of_none (Outbox.new 8) h.overflow (h.cycles _) rfl hforget h.reconciling
    h.journal

omit [Crc32] in
private theorem spun_self (hjobs : b.jobs = twoSlots first next b.jobs.len g)
    (hterminal : b.terminal = []) :
    spun b first next g b.cycles = b := by
  unfold spun
  rw [← hjobs, ← hterminal]
  rfl

/-- The passerby comes and goes `n` times, from generation `m` on. -/
def rounds (now : VirtualTime) : Nat → Nat → List Input
  | 0, _ => []
  | n + 1, m => (Command.submit passerby 0).sent now ::
      (Command.cancel (second (Word.ofNat 32 m)) 0).sent now :: tickAt now :: rounds now n (m + 1)

private theorem Idle.spin (h : Idle b first now) {n : Nat} : ∀ {m k : Nat},
    (∀ i, m ≤ i → i < m + n → ∀ r ∈ b.running, r.job ≠ second (Word.ofNat 32 i)) →
      (spun b first next (Word.ofNat 32 m) k).run (rounds now n m) =
        some (spun b first next (Word.ofNat 32 (m + n)) (k + n)) := by
  induction n with
  | zero => exact fun _ => rfl
  | succ n ih =>
    intro m k hfree
    have hnext : Word.ofNat 32 m + 1 = Word.ofNat 32 (m + 1) := by
      apply Fin.ext
      simp [Word.ofNat, Fin.val_add]
    have hround := ih (m := m + 1) (k := k + 1) fun i hi hlt => hfree i (by omega) (by omega)
    rw [show m + (n + 1) = m + 1 + n by omega, show k + (n + 1) = k + 1 + n by omega]
    simp only [rounds, run, List.foldlM_cons, h.submit, Option.bind_eq_bind, Option.bind_some,
      h.cancel 0 (hfree m le_rfl (by omega)), h.tick, hnext]
    exact hround

end Spin

/-- A job runs on slot 0, and one that waited for it was cancelled and forgotten, so that its
handle stays behind in the running job's reverse edges. -/
def staleEdgeInputs : List Input :=
  [(sampleJoin 4).sent 0, (sampleSubmit .normal 1 []).sent 0, tickAt 0,
    (sampleSubmit .normal 1 [⟨0⟩]).sent 0, (Command.cancel ⟨1⟩ 0).sent 0, tickAt 0,
    (Command.submit passerby 0).sent 0, (Command.cancel (JobId.new 1 1) 0).sent 0, tickAt 0]

attribute [local instance] Crc32.ieee

def staleEdge : Engine := (run (Engine.new sampleDaemon) staleEdgeInputs).get (by decide +kernel)

def longRunning : Slot Job := .occupied 0 ((sampleJob .normal 1 10).withState .running)

private theorem idle_staleEdge : Idle staleEdge longRunning 0 where
  waiting c := by cases c <;> decide +kernel
  filed := by decide +kernel
  row := by decide +kernel
  ensured := by decide +kernel
  refreshed := by decide +kernel
  demand := by decide +kernel
  journal := Option.isNone_iff_eq_none.mp (by decide +kernel)
  overflow := by decide +kernel
  reconciling := by decide +kernel
  reconcileUntil := by decide +kernel
  retain := by decide +kernel

private theorem chain_staleEdge : Chain Steps (Engine.new sampleDaemon) staleEdgeInputs staleEdge :=
  chain_of_run (Option.some_get _).symm

private theorem spun_staleEdge :
    spun staleEdge longRunning none (Word.ofNat 32 2) staleEdge.cycles = staleEdge := by
  apply spun_self
  · decide +kernel
  · decide +kernel

/-- The same once slot 1 has been through all its generations. -/
def reissued : Engine := spun staleEdge longRunning none 0 (staleEdge.cycles + (2 ^ 32 - 2))

private theorem chain_reissued : Chain Steps (Engine.new sampleDaemon)
    (staleEdgeInputs ++ rounds 0 (2 ^ 32 - 2) 2) reissued := by
  refine chain_staleEdge.append (chain_of_run ?_)
  have hfree : ∀ r ∈ staleEdge.running, r.job.slot ≠ 1 := by decide +kernel
  have hspin := @Idle.spin staleEdge longRunning none 0 Crc32.ieee idle_staleEdge (2 ^ 32 - 2) 2
    staleEdge.cycles fun i _ _ r hr he => hfree r hr (he ▸ slot_second)
  rw [spun_staleEdge] at hspin
  exact hspin

/-- Whoever comes now gets the handle of the job that was cancelled, and runs. The end of the job
on slot 0 then cancels it, although it never waited for anything. -/
def cutOff : Engine := (run reissued
    [(Command.submit passerby 0).sent 0, tickAt 0, (Command.failed ⟨0⟩).sent 0]).get
  (by decide +kernel)

theorem chain_cutOff : Chain Steps (Engine.new sampleDaemon)
    (staleEdgeInputs ++ rounds 0 (2 ^ 32 - 2) 2 ++
      [(Command.submit passerby 0).sent 0, tickAt 0, (Command.failed ⟨0⟩).sent 0]) cutOff :=
  chain_reissued.append (chain_of_run (Option.some_get _).symm)

/-- The same with both jobs forgotten. The slot of the worker is still taken by one of them. -/
def leftover : Engine := (run cutOff [tickAt 0]).get (by decide +kernel)

private theorem idle_leftover : Idle leftover (.vacant 1 none) 0 where
  waiting c := by cases c <;> decide +kernel
  filed := by decide +kernel
  row := by decide +kernel
  ensured := by decide +kernel
  refreshed := by decide +kernel
  demand := by decide +kernel
  journal := Option.isNone_iff_eq_none.mp (by decide +kernel)
  overflow := by decide +kernel
  reconciling := by decide +kernel
  reconcileUntil := by decide +kernel
  retain := by decide +kernel

private theorem spun_leftover :
    spun leftover (.vacant 1 none) (some 0) (Word.ofNat 32 1) leftover.cycles = leftover := by
  apply spun_self
  · decide +kernel
  · decide +kernel

/-- The same once slot 1 has been through all its generations again. -/
def reissuedAgain : Engine :=
  spun leftover (.vacant 1 none) (some 0) 0 (leftover.cycles + (2 ^ 32 - 1))

/-- The third holder of the handle runs next to what the second one left. -/
def boundTwice : Engine :=
  (run reissuedAgain [(Command.submit passerby 0).sent 0, tickAt 0]).get
    (by decide +kernel)

theorem chain_boundTwice : ∃ inputs,
    Chain Steps (Engine.new sampleDaemon) inputs boundTwice := by
  have hfirst : ∀ r ∈ leftover.running, r.job.generation.val = 0 := by decide +kernel
  have hspin := @Idle.spin leftover (.vacant 1 none) (some 0) 0 Crc32.ieee idle_leftover
    (2 ^ 32 - 1) 1 leftover.cycles fun i hi hlt r hr he => by
      have hzero := hfirst r hr
      rw [he, generation_second, Word.val_ofNat_of_lt (by omega)] at hzero
      omega
  rw [spun_leftover] at hspin
  exact ⟨_, ((chain_cutOff.append (chain_of_run (Option.some_get _).symm)).append
    (show Chain Steps leftover _ reissuedAgain from chain_of_run hspin)).append
      (chain_of_run (Option.some_get _).symm)⟩

end Engine

end Daemon

end TaskerRT
