/- module: TaskerRT/Scheduler/Cycle
   source: crates/tasker-core/src/engine/cycle.rs
   digest: The scheduling cycle and the job lifecycle calls that feed it. -/

import TaskerRT.Policy.Preempt

set_option autoImplicit false

namespace TaskerRT.Scheduling

open Library Domain Cluster Policy

/-- Everything a cycle needs that is not per-job state. -/
structure CycleConfig where
  priority : PriorityConfig
  fairshare : FairShareConfig
  preempt : PreemptConfig
  budget : PackBudget
  maxCandidates : Nat
  deriving DecidableEq, Repr

structure CycleOutcome where
  candidates : Nat
  dispatched : Nat
  backfilled : Nat
  head : Option JobId
  reservation : Option VirtualTime
  budgetExhausted : Bool
  deriving DecidableEq, Repr

def CycleOutcome.idle : CycleOutcome := ⟨0, 0, 0, none, none, false⟩

/-- A lifecycle call could not be applied. -/
inductive LifecycleError where
  | unknownJob (id : JobId)
  | notSubmitted (job : JobId) (state : JobState)
  | dependency (error : DependencyError)
  | account (error : AccountError)
  | transition (error : TransitionError)
  deriving DecidableEq, Repr

/-- Owns the ready set, the dependency tracker and the fair-share ledgers. The candidate and
disposition buffers are rebuilt by every cycle and are local to it. -/
structure Scheduler where
  ready : ReadySet
  deps : DependencyTracker
  fairshare : FairShare
  backfillScratch : BackfillScratch

/-- What a lifecycle call leaves behind, on success and on failure alike. -/
structure Step (α : Type) where
  scheduler : Scheduler
  jobs : Arena Job
  result : Except LifecycleError α

namespace Scheduler

def new : Scheduler := ⟨ReadySet.new, DependencyTracker.new, FairShare.new, BackfillScratch.new⟩

/-- Puts a job into its class bucket at its current score. -/
def enqueue (s : Scheduler) (id : JobId) (job : Job) (now : VirtualTime) (config : CycleConfig) :
    Scheduler :=
  let current := score job now config.priority (s.fairshare.factor job.account)
  { s with ready := s.ready.insert job.priorityClass id current }

def dequeue (s : Scheduler) (id : JobId) (job : Job) : Scheduler :=
  { s with ready := (s.ready.remove job.priorityClass id).1 }

def charge (s : Scheduler) (job : Job) (now : VirtualTime) (config : CycleConfig) : Scheduler :=
  { s with fairshare :=
      s.fairshare.onDispatch job.account job.request.cpuMillis now config.fairshare }

def discharge (s : Scheduler) (job : Job) (now : VirtualTime) (config : CycleConfig) :
    Scheduler :=
  { s with fairshare :=
      s.fairshare.onRelease job.account job.request.cpuMillis now config.fairshare }

/-- Validates a submit for the job that `id` will become, touching nothing. -/
def checkSubmit (_s : Scheduler) (id : JobId) (job : Job) (jobs : Arena Job) :
    Except LifecycleError Readiness :=
  if job.account.val ≥ maxAccounts then .error (.account ⟨job.account⟩)
  else
    match DependencyTracker.classify id job jobs with
    | .error e => .error (.dependency e)
    | .ok readiness => .ok readiness

/-- Replays a dispatch: `ready` to `running` without a cycle. The removal from the ready set
happens before the transition is checked. -/
def restoreRunning (s : Scheduler) (id : JobId) (jobs : Arena Job) (now : VirtualTime)
    (config : CycleConfig) : Step Unit :=
  match jobs.get id with
  | none => ⟨s, jobs, .error (.unknownJob id)⟩
  | some job =>
    let s := s.dequeue id job
    match job.tryTransition .running with
    | .error e => ⟨s, jobs, .error (.transition e)⟩
    | .ok job => ⟨s.charge job now config, jobs.modify id fun _ => job, .ok ()⟩

def preempt (s : Scheduler) (id : JobId) (jobs : Arena Job) : Step Unit :=
  match jobs.get id with
  | none => ⟨s, jobs, .error (.unknownJob id)⟩
  | some job =>
    match job.tryTransition .preempted with
    | .error e => ⟨s, jobs, .error (.transition e)⟩
    | .ok job => ⟨s, jobs.modify id fun _ => job, .ok ()⟩

/-- Returns a `running` or `preempted` job to the ready set through `preempted`. -/
def requeue (s : Scheduler) (id : JobId) (jobs : Arena Job) (now : VirtualTime)
    (config : CycleConfig) : Step Unit :=
  match jobs.get id with
  | none => ⟨s, jobs, .error (.unknownJob id)⟩
  | some job =>
    let job := if job.state = .running then job.withState .preempted else job
    match job.tryTransition .ready with
    | .error e => ⟨s, jobs, .error (.transition e)⟩
    | .ok job =>
      ⟨(s.discharge job now config).enqueue id job now config, jobs.modify id fun _ => job, .ok ()⟩

/-- The worker confirmed the eviction: count it and requeue. -/
def onPreempted (s : Scheduler) (id : JobId) (jobs : Arena Job) (now : VirtualTime)
    (config : CycleConfig) : Step Unit :=
  match jobs.get id with
  | none => ⟨s, jobs, .error (.unknownJob id)⟩
  | some job =>
    if job.state ≠ .preempted then ⟨s, jobs, .error (.transition ⟨job.state, .ready⟩)⟩
    else
      let counted := { job with preemptions := Word.saturatingAdd job.preemptions 1 }
      s.requeue id (jobs.modify id fun _ => counted) now config

def setShares (s : Scheduler) (account : AccountId) (shares : Word 32) :
    Except LifecycleError Scheduler :=
  match s.fairshare.setShares account shares with
  | .error e => .error (.account e)
  | .ok fairshare => .ok { s with fairshare }

def pending (s : Scheduler) : Nat := s.ready.len

def restoreLedgers (s : Scheduler) (ledgers : List Ledger) :
    Except LifecycleError Scheduler :=
  match s.fairshare.restore ledgers with
  | .error e => .error (.account e)
  | .ok fairshare => .ok { s with fairshare }

def stateOf : Readiness → JobState
  | .ready => .ready
  | .blocked => .blocked
  | .cancelled => .cancelled

/-- Classifies a `submitted` job from its dependencies, applies the transition, and enqueues
it if `ready`. -/
def submit (s : Scheduler) (id : JobId) (jobs : Arena Job) (now : VirtualTime)
    (config : CycleConfig) : Step JobState :=
  match jobs.get id with
  | none => ⟨s, jobs, .error (.unknownJob id)⟩
  | some job =>
    if job.state ≠ .submitted then ⟨s, jobs, .error (.notSubmitted id job.state)⟩
    else
      match s.fairshare.ensure job.account with
      | .error e => ⟨s, jobs, .error (.account e)⟩
      | .ok fairshare =>
        let s := { s with fairshare }
        match s.deps.register id job jobs with
        | .error e => ⟨s, jobs, .error (.dependency e)⟩
        | .ok (deps, readiness) =>
          let s := { s with deps }
          let next := stateOf readiness
          match job.tryTransition next with
          | .error e => ⟨s, jobs, .error (.transition e)⟩
          | .ok job =>
            let jobs := jobs.modify id fun _ => job
            if next = .ready then ⟨s.enqueue id job now config, jobs, .ok next⟩
            else ⟨s, jobs, .ok next⟩

/-- Moves one promoted dependent to `ready`; anything but a blocked job is left alone. -/
def promoteOne (now : VirtualTime) (config : CycleConfig) (out : Scheduler × Arena Job)
    (dependent : JobId) : Scheduler × Arena Job :=
  match out.2.get dependent with
  | none => out
  | some job =>
    match job.tryTransition .ready with
    | .error _ => out
    | .ok job => (out.1.enqueue dependent job now config, out.2.modify dependent fun _ => job)

/-- Marks `id` completed and promotes every dependent whose last dependency this was. -/
def onCompleted (s : Scheduler) (id : JobId) (jobs : Arena Job) (now : VirtualTime)
    (config : CycleConfig) : Step (List JobId) :=
  match jobs.get id with
  | none => ⟨s, jobs, .error (.unknownJob id)⟩
  | some job =>
    match job.tryTransition .completed with
    | .error e => ⟨s, jobs, .error (.transition e)⟩
    | .ok job =>
      let jobs := jobs.modify id fun _ => job
      let s := s.discharge job now config
      let tracked := s.deps.onCompleted id
      let out := tracked.2.foldl (promoteOne now config) ({ s with deps := tracked.1 }, jobs)
      ⟨out.1, out.2, .ok tracked.2⟩

/-- Cancels one cascaded job, pulling it from the ready set first if it was there. -/
def cascadeOne (out : Scheduler × Arena Job) (dependent : JobId) : Scheduler × Arena Job :=
  match out.2.get dependent with
  | none => out
  | some job =>
    let s := if job.state = .ready then out.1.dequeue dependent job else out.1
    match job.tryTransition .cancelled with
    | .error _ => (s, out.2)
    | .ok job => (s, out.2.modify dependent fun _ => job)

/-- Cancels every transitive dependent of a job that just terminated badly. -/
def terminate (s : Scheduler) (id : JobId) (jobs : Arena Job) : Step (List JobId) :=
  let tracked := s.deps.onTerminated id
  let out := tracked.2.foldl cascadeOne ({ s with deps := tracked.1 }, jobs)
  ⟨out.1, out.2, .ok tracked.2⟩

/-- Marks `id` failed and cancels every transitive dependent. -/
def onFailed (s : Scheduler) (id : JobId) (jobs : Arena Job) (now : VirtualTime)
    (config : CycleConfig) : Step (List JobId) :=
  match jobs.get id with
  | none => ⟨s, jobs, .error (.unknownJob id)⟩
  | some job =>
    match job.tryTransition .failed with
    | .error e => ⟨s, jobs, .error (.transition e)⟩
    | .ok job => (s.discharge job now config).terminate id (jobs.modify id fun _ => job)

/-- Cancels `id` from any non-terminal state and cascades. -/
def cancel (s : Scheduler) (id : JobId) (jobs : Arena Job) (now : VirtualTime)
    (config : CycleConfig) : Step (List JobId) :=
  match jobs.get id with
  | none => ⟨s, jobs, .error (.unknownJob id)⟩
  | some job =>
    let s := if job.state = .ready then s.dequeue id job else s
    let wasRunning := job.state.onWorker
    match job.tryTransition .cancelled with
    | .error e => ⟨s, jobs, .error (.transition e)⟩
    | .ok job =>
      let s := if wasRunning then s.discharge job now config else s
      s.terminate id (jobs.modify id fun _ => job)

def rescore (fairshare : FairShare) (jobs : Arena Job) (now : VirtualTime) (config : CycleConfig)
    (entry : ReadyEntry) : ReadyEntry :=
  match jobs.get entry.job with
  | none => entry
  | some job => { entry with
      score := score job now config.priority (fairshare.factor job.account) }

/-- Descending order: class first, then the total order key. -/
def ranksBefore (a b : ReadyEntry) : Bool :=
  decide (b.priorityClass.ordinal < a.priorityClass.ordinal) ||
    (a.priorityClass == b.priorityClass &&
      !(OrderKey.new a.score a.job).lt (OrderKey.new b.score b.job))

/-- The ordered candidates of a cycle and the scheduler they were drained from. -/
def order (s : Scheduler) (jobs : Arena Job) (now : VirtualTime) (config : CycleConfig) :
    List ReadyEntry × Scheduler :=
  let s := { s with fairshare := s.fairshare.refresh now config.fairshare }
  let drained := ReadySet.drainOrdered config.maxCandidates s.ready
  ((drained.1.map (rescore s.fairshare jobs now config)).insertionSort fun a b => ranksBefore a b,
    { s with ready := drained.2 })

/-- Applies one disposition. `none` is the panic of a dispatched job that was not ready. -/
def emitOne (now : VirtualTime) (config : CycleConfig) (out : Scheduler × Arena Job)
    (entry : ReadyEntry) : Disposition → Option (Scheduler × Arena Job)
  | .dispatched =>
    match out.2.get entry.job with
    | none => some out
    | some job =>
      match job.tryTransition .running with
      | .error _ => none
      | .ok job => some (out.1.charge job now config, out.2.modify entry.job fun _ => job)
  | .pending => some ({ out.1 with ready := out.1.ready.reinsert entry }, out.2)
  | .dropped => some out

/-- Applies state changes and returns the untouched entries. -/
def emit (now : VirtualTime) (config : CycleConfig) :
    List (ReadyEntry × Disposition) → Scheduler × Arena Job → Option (Scheduler × Arena Job)
  | [], out => some out
  | (entry, disposition) :: rest, out =>
    match emitOne now config out entry disposition with
    | none => none
    | some out => emit now config rest out

structure CycleResult where
  scheduler : Scheduler
  jobs : Arena Job
  inventory : SlotInventory
  decisions : List DispatchDecision
  outcome : CycleOutcome

def backfillStage (candidates : List ReadyEntry) (jobs : Arena Job) (running : List RunningJob)
    (now : VirtualTime) (config : CycleConfig) (packed : PackState) (scratch : BackfillScratch) :
    Option BackfillState :=
  match packed.outcome.head with
  | none => some ⟨⟨0, 0, none⟩, packed.inventory, packed.disposition, packed.decisions, scratch⟩
  | some headIndex => easyBackfill candidates headIndex jobs packed.inventory running now
      config.budget packed.disposition packed.decisions scratch

/-- Runs one cycle, appending dispatch decisions to `decisions`. `none` is a panic. -/
def runCycle (s : Scheduler) (jobs : Arena Job) (inventory : SlotInventory)
    (running : List RunningJob) (now : VirtualTime) (config : CycleConfig)
    (decisions : List DispatchDecision) : Option CycleResult :=
  let ordered := s.order jobs now config
  let candidates := ordered.1
  let s := ordered.2
  if candidates.isEmpty then some ⟨s, jobs, inventory, decisions, .idle⟩
  else
    match pack candidates jobs inventory config.budget
        (List.replicate candidates.length .pending) decisions with
    | none => none
    | some packed =>
      match backfillStage candidates jobs running now config packed s.backfillScratch with
      | none => none
      | some filled =>
        match emit now config (candidates.zip filled.disposition)
            ({ s with backfillScratch := filled.scratch }, jobs) with
        | none => none
        | some out => some
            ⟨out.1, out.2, filled.inventory, filled.decisions,
              { candidates := candidates.length
                dispatched := packed.outcome.dispatched
                backfilled := filled.outcome.backfilled
                head := packed.outcome.head.bind fun i => candidates[i]?.map (·.job)
                reservation := filled.outcome.reservation
                budgetExhausted := packed.outcome.budgetExhausted }⟩

/-- A cycle that returns has run its stages, on an empty candidate list too. -/
theorem runCycle_stages {s : Scheduler} {jobs : Arena Job} {inventory : SlotInventory}
    {running : List RunningJob} {now : VirtualTime} {config : CycleConfig}
    {decisions : List DispatchDecision} {result : CycleResult}
    (h : s.runCycle jobs inventory running now config decisions = some result) :
    ∃ packed filled out, pack (s.order jobs now config).1 jobs inventory config.budget
        (List.replicate (s.order jobs now config).1.length .pending) decisions = some packed ∧
      backfillStage (s.order jobs now config).1 jobs running now config packed
        (s.order jobs now config).2.backfillScratch = some filled ∧
      emit now config ((s.order jobs now config).1.zip filled.disposition)
        ({ (s.order jobs now config).2 with backfillScratch := filled.scratch }, jobs) = some out ∧
      result.scheduler = out.1 ∧ result.jobs = out.2 ∧ result.inventory = filled.inventory ∧
      result.decisions = filled.decisions ∧
      result.outcome.dispatched = packed.outcome.dispatched ∧
      result.outcome.backfilled = filled.outcome.backfilled := by
  unfold runCycle at h
  generalize s.order jobs now config = ordered at h ⊢
  obtain ⟨candidates, s⟩ := ordered
  dsimp only at h
  split at h
  · rename_i hempty
    obtain rfl := List.isEmpty_iff.mp hempty
    obtain rfl := Option.some.inj h
    exact ⟨_, _, _, rfl, rfl, rfl, rfl, rfl, rfl, rfl, rfl, rfl⟩
  split at h
  · cases h
  rename_i packed hpack
  split at h
  · cases h
  rename_i filled hfill
  split at h
  · cases h
  rename_i out hout
  obtain rfl := Option.some.inj h
  exact ⟨packed, filled, out, hpack, hfill, hout, rfl, rfl, rfl, rfl, rfl, rfl⟩

end Scheduler

end TaskerRT.Scheduling
