/- module: TaskerRT/Sim/Simulation
   source: crates/tasker-sim/src/sim.rs, crates/tasker-sim/src/event.rs,
     crates/tasker-sim/src/outcome.rs, crates/tasker-sim/src/invariants.rs
   digest: The simulation driver, its event queue and the invariant checker it runs. -/

import TaskerRT.Scheduler.Cycle

set_option autoImplicit false

namespace TaskerRT.Sim

open Library Domain Cluster Policy Scheduling

/-- Scripted fate of a dispatched job, relative to its dispatch time. -/
inductive Outcome where
  | completes (after : VirtualDuration)
  | fails (after : VirtualDuration)
  deriving DecidableEq, Repr

/-- Something that happens to the simulated system. A submit names its dependencies by submit
index. -/
inductive Event where
  | submit (job : Job) (deps : List Nat) (outcome : Outcome)
  | cancel (submitIndex : Nat)
  | complete (job : JobId) (run : Word 32)
  | fail (job : JobId) (run : Word 32)
  | preempted (job : JobId) (run : Word 32)
  deriving DecidableEq, Repr

structure Entry where
  at_ : VirtualTime
  seq : Nat
  event : Event
  deriving DecidableEq, Repr

def Entry.le (a b : Entry) : Bool :=
  decide (a.at_ < b.at_) || (a.at_ == b.at_ && decide (a.seq ≤ b.seq))

/-- A min-heap of events keyed by time, with insertion order as the tiebreak, as the list of its
entries in the order it delivers them. -/
structure EventQueue where
  entries : List Entry
  nextSeq : Nat
  deriving DecidableEq, Repr

namespace EventQueue

def new : EventQueue := ⟨[], 0⟩

def len (q : EventQueue) : Nat := q.entries.length

def push (q : EventQueue) (at_ : VirtualTime) (event : Event) : EventQueue :=
  ⟨q.entries.orderedInsert (fun a b => a.le b) ⟨at_, q.nextSeq, event⟩, q.nextSeq + 1⟩

/-- Removes and returns the earliest event if it is due at or before `limit`. -/
def popDue (q : EventQueue) (limit : VirtualTime) : Option (Event × EventQueue) :=
  match q.entries with
  | [] => none
  | entry :: rest => if limit < entry.at_ then none else some (entry.event, { q with entries := rest })

end EventQueue

inductive Violation where
  | runningWithUnsatisfiedDependency (job dependency : JobId)
  | overCapacity (slot : SlotIndex)
  | stuckBlocked (job : JobId)
  | runningSetMismatch (runningSet runningJobs : Nat)
  | readySetMismatch (readySet readyJobs : Nat)
  deriving DecidableEq, Repr

inductive SimError where
  | forwardDependency (index : Nat)
  | lifecycle (error : LifecycleError)
  | invariant (violation : Violation)
  deriving DecidableEq, Repr

/-- Where the simulation can panic: an arena out of handles, a release on a slot that does not
exist, or inside the scheduling cycle. -/
inductive Panic where
  | arenaFull
  | noSuchSlot
  | cycle
  deriving DecidableEq, Repr

inductive Halt where
  | error (error : SimError)
  | panic (site : Panic)
  deriving DecidableEq, Repr

structure StepReport where
  at_ : VirtualTime
  eventsApplied : Nat
  dispatched : Nat
  backfilled : Nat
  preempted : Nat
  deriving DecidableEq, Repr

/-- A complete simulated system, without its trace and its buffers. `outcomes` and `runs` are
indexed by `JobId::index`. -/
structure Simulation where
  clock : VirtualTime
  queue : EventQueue
  jobs : Arena Job
  inventory : SlotInventory
  running : List RunningJob
  scheduler : Scheduler
  config : CycleConfig
  tick : VirtualDuration
  handles : List JobId
  outcomes : List (Option Outcome)
  runs : List (Word 32)
  checkInvariants : Bool

namespace Simulation

def new (inventory : SlotInventory) (config : CycleConfig) (tick : VirtualDuration) : Simulation where
  clock := 0
  queue := EventQueue.new
  jobs := Arena.new
  inventory := inventory
  running := []
  scheduler := Scheduler.new
  config := config
  tick := tick
  handles := []
  outcomes := []
  runs := []
  checkInvariants := false

def schedule (sim : Simulation) (at_ : VirtualTime) (event : Event) : Simulation :=
  { sim with queue := sim.queue.push at_ event }

def isDone (sim : Simulation) (dep : JobId) : Bool :=
  (sim.jobs.get dep).any fun d => d.state = .completed

/-- Missing dependencies count as terminal: they can never complete now. -/
def isOver (sim : Simulation) (dep : JobId) : Bool :=
  (sim.jobs.get dep).all fun d => d.state.isTerminal

def isOnSlot (sim : Simulation) (id : JobId) : Bool :=
  (sim.jobs.get id).any fun j => j.state.onWorker

def checkJob (sim : Simulation) (entry : JobId × Job) : Except Violation Unit :=
  match entry.2.state with
  | .running | .preempted =>
    match entry.2.deps.find? fun dep => !sim.isDone dep with
    | some dep => .error (.runningWithUnsatisfiedDependency entry.1 dep)
    | none => .ok ()
  | .blocked => if entry.2.deps.all sim.isOver then .error (.stuckBlocked entry.1) else .ok ()
  | _ => .ok ()

def checkSlot (slot : WorkerSlot × SlotIndex) : Except Violation Unit :=
  if slot.1.allocated.fitsWithin slot.1.capacity then .ok () else .error (.overCapacity slot.2)

/-- Checks all five invariants and reports the first violation found. -/
def check (sim : Simulation) : Except Violation Unit := do
  sim.jobs.iter.forM sim.checkJob
  sim.inventory.slots.zipIdx.forM checkSlot
  let runningJobs := sim.jobs.iter.countP fun entry => entry.2.state.onWorker
  if sim.running.length ≠ runningJobs ∨ !sim.running.all (fun r => sim.isOnSlot r.job) then
    .error (.runningSetMismatch sim.running.length runningJobs)
  else
    let readyJobs := sim.jobs.iter.countP fun entry => entry.2.state = .ready
    if sim.scheduler.pending ≠ readyJobs then
      .error (.readySetMismatch sim.scheduler.pending readyJobs)
    else .ok ()

def checked (sim : Simulation) : Except Halt Simulation :=
  if sim.checkInvariants then
    match sim.check with
    | .error violation => .error (.error (.invariant violation))
    | .ok () => .ok sim
  else .ok sim

/-- Adopts what a lifecycle call leaves, or reports its error. -/
def adopt {α : Type} (sim : Simulation) (step : Step α) : Except Halt Simulation :=
  match step.result with
  | .error e => .error (.error (.lifecycle e))
  | .ok _ => .ok { sim with scheduler := step.scheduler, jobs := step.jobs }

/-- True when `run` is the job's latest dispatch and it still occupies a slot. -/
def currentRun (sim : Simulation) (id : JobId) (run : Word 32) : Bool :=
  sim.isOnSlot id && sim.runs[id.slot]? == some run

/-- Returns a running job's capacity to its slot and drops it from the set. -/
def release (sim : Simulation) (id : JobId) : Except Halt Simulation :=
  match sim.running.find? (·.job = id) with
  | none => .ok sim
  | some r =>
    match sim.inventory.release r.slot r.resources with
    | .error _ => .error (.panic .noSuchSlot)
    | .ok inventory => .ok { sim with
        running := swapRemove sim.running (sim.running.findIdx (·.job = id))
        inventory := inventory }

/-- The event that ends a run, and when. Past the walltime the worker kills the job: a failure at
the limit. -/
def fate (job : JobId) (run : Word 32) (walltime : VirtualDuration) :
    Outcome → Event × VirtualDuration
  | .completes after =>
    if after ≤ walltime then (.complete job run, after) else (.fail job run, walltime)
  | .fails after => (.fail job run, min after walltime)

/-- Binds a dispatched job to its slot and schedules its fate. -/
def onDispatched (sim : Simulation) (at_ : VirtualTime) (d : DispatchDecision) : Simulation :=
  match sim.jobs.get d.job with
  | none => sim
  | some job =>
    let outcome := (Table.read none sim.outcomes d.job.slot).getD (.completes job.walltimeLimit)
    let runs := Table.reserve 0 (d.job.slot + 1) sim.runs
    let run := Table.read 0 runs d.job.slot + 1
    let next := fate d.job run job.walltimeLimit outcome
    { sim with
      running := sim.running ++
        [⟨d.job, d.slot, job.request, Word.saturatingAdd at_ job.walltimeLimit⟩]
      runs := runs.set d.job.slot run
      queue := sim.queue.push (Word.saturatingAdd at_ next.2) next.1 }

/-- The handles of some submit indices, or the first index that has none yet. -/
def resolve (sim : Simulation) : List Nat → Except Halt (List JobId)
  | [] => .ok []
  | index :: deps =>
    match sim.handles[index]? with
    | none => .error (.error (.forwardDependency index))
    | some handle => do
      let handles ← sim.resolve deps
      return handle :: handles

def apply (sim : Simulation) : Event → Except Halt Simulation
  | .submit job deps outcome => do
    let deps ← sim.resolve deps
    match sim.jobs.insert { job with deps := deps } with
    | none => .error (.panic .arenaFull)
    | some (jobs, id) =>
      let sim := { sim with
        jobs := jobs
        handles := sim.handles ++ [id]
        outcomes := (Table.reserve none (id.slot + 1) sim.outcomes).set id.slot (some outcome) }
      sim.adopt (sim.scheduler.submit id sim.jobs sim.clock sim.config)
  | .complete id run =>
    if sim.currentRun id run then do
      let sim ← sim.release id
      sim.adopt (sim.scheduler.onCompleted id sim.jobs sim.clock sim.config)
    else .ok sim
  | .fail id run =>
    if sim.currentRun id run then do
      let sim ← sim.release id
      sim.adopt (sim.scheduler.onFailed id sim.jobs sim.clock sim.config)
    else .ok sim
  | .preempted id run =>
    if (sim.jobs.get id).any (fun j => j.state = .preempted) && sim.currentRun id run then do
      let sim ← sim.release id
      sim.adopt (sim.scheduler.onPreempted id sim.jobs sim.clock sim.config)
    else .ok sim
  | .cancel submitIndex =>
    match sim.handles[submitIndex]? with
    | none => .error (.error (.forwardDependency submitIndex))
    | some id =>
      match sim.jobs.get id with
      | none => .ok sim
      | some job =>
        if job.state.isTerminal then .ok sim
        else do
          -- A job in its eviction grace is not released here.
          let sim ← if job.state = .running then sim.release id else .ok sim
          sim.adopt (sim.scheduler.cancel id sim.jobs sim.clock sim.config)

/-- Delivers what is due, checking after each event. A delivery queues nothing, so as many rounds
as there are entries are enough. -/
def deliver : Nat → VirtualTime → Simulation → Except Halt (Simulation × Nat)
  | 0, _, sim => .ok (sim, 0)
  | fuel + 1, at_, sim =>
    match sim.queue.popDue at_ with
    | none => .ok (sim, 0)
    | some (event, queue) => do
      let sim ← { sim with queue := queue }.apply event
      let sim ← sim.checked
      let out ← deliver fuel at_ sim
      return (out.1, out.2 + 1)

/-- Marks each victim and queues the confirmation of its eviction. -/
def evictEach (at_ : VirtualTime) : List Eviction → Simulation → Simulation × Nat
  | [], sim => (sim, 0)
  | e :: evictions, sim =>
    let step := sim.scheduler.preempt e.job sim.jobs
    match step.result with
    | .error _ => evictEach at_ evictions sim
    | .ok _ =>
      let run := Table.read 0 sim.runs e.job.slot
      let out := evictEach at_ evictions { sim with
        scheduler := step.scheduler
        jobs := step.jobs
        queue := sim.queue.push (Word.saturatingAdd at_ sim.config.preempt.grace)
          (.preempted e.job run) }
      (out.1, out.2 + 1)

/-- Preempts for the head job that a cycle left unplaced. -/
def preemptFor (sim : Simulation) (at_ : VirtualTime) (head : Option JobId) : Simulation × Nat :=
  match head.bind sim.jobs.get with
  | none => (sim, 0)
  | some job =>
    match planPreemption job sim.running sim.jobs sim.inventory at_ sim.config.preempt with
    | none => (sim, 0)
    | some (_, evictions) => evictEach at_ evictions sim

/-- Runs one cycle, schedules the fates of what was dispatched and preempts for the head. -/
def cycle (sim : Simulation) (at_ : VirtualTime) : Except Halt (Simulation × StepReport) :=
  match sim.scheduler.runCycle sim.jobs sim.inventory sim.running at_ sim.config [] with
  | none => .error (.panic .cycle)
  | some result =>
    let sim := { sim with
      scheduler := result.scheduler
      jobs := result.jobs
      inventory := result.inventory }
    let sim := result.decisions.foldl (fun sim d => sim.onDispatched at_ d) sim
    let out := sim.preemptFor at_ result.outcome.head
    .ok (out.1, ⟨at_, 0, result.outcome.dispatched, result.outcome.backfilled, out.2⟩)

/-- Advances one tick: deliver due events, run one cycle, schedule fates. -/
def step (sim : Simulation) : Except Halt (Simulation × StepReport) := do
  let at_ := Word.saturatingAdd sim.clock sim.tick
  let delivered ← deliver sim.queue.len at_ { sim with clock := at_ }
  let out ← delivered.1.cycle at_
  let sim ← out.1.checked
  return (sim, { out.2 with eventsApplied := delivered.2 })

def isQuiescent (sim : Simulation) : Bool :=
  sim.queue.entries.isEmpty && sim.scheduler.pending == 0 && sim.running.isEmpty

/-- Steps until quiescent or `maxTicks` elapse. True if quiescent. -/
def runToQuiescence : Nat → Simulation → Except Halt (Simulation × Bool)
  | 0, sim => .ok (sim, sim.isQuiescent)
  | maxTicks + 1, sim =>
    if sim.isQuiescent then .ok (sim, true)
    else do
      let out ← sim.step
      runToQuiescence maxTicks out.1

end Simulation

end TaskerRT.Sim
