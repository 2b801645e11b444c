/- module: TaskerRT/Daemon/Engine
   source: crates/taskerd/src/engine.rs, crates/taskerd/src/config.rs
   digest: The scheduler thread: its state, its command handlers and its tick. -/

import TaskerRT.Daemon.Journal

set_option autoImplicit false

namespace TaskerRT.Daemon

open Library Domain Cluster Policy Scheduling Wal

/-- The configuration the engine reads. Durations given by the operator are in nanoseconds. -/
structure DaemonConfig where
  drainBudget : Nat
  heartbeatTimeout : Nat
  workerCpuMillis : Word 32
  minWorkers : Word 32
  maxWorkers : Word 32
  shares : List (Word 32 × Word 32)
  retain : Nat
  cycle : CycleConfig

/-- The jobs, the scheduler over them, and (terminal time, id) in order for retention: what the
log is about. -/
structure Roster where
  jobs : Arena Job
  scheduler : Scheduler
  terminal : List (VirtualTime × JobId)

/-- The scheduling state proper: the roster, the slots and who holds them. -/
structure Core extends Roster where
  inventory : SlotInventory
  running : List RunningJob
  reconciling : List JobId
  names : List (Option String)

/-- All scheduling state, owned by one thread. -/
structure Engine extends Core where
  cycle : CycleConfig
  drainBudget : Nat
  overflow : List Dispatch
  cycles : Nat
  demand : Demand
  workerCpu : Nat
  minWorkers : Word 32
  maxWorkers : Word 32
  journal : Option Journal
  retain : VirtualDuration
  reconcileUntil : Option VirtualTime
  reconcileWindow : VirtualDuration
  quiescing : Bool

/-- The engine with the two things a handler writes outside it: the outbox and the replies. -/
structure Host where
  engine : Engine
  outbox : Outbox
  replies : List Reply

namespace Roster

/-- Remembers when `id` turned terminal so retention can forget it later. -/
def noteTerminal (r : Roster) (id : JobId) (at_ : VirtualTime) : Roster :=
  { r with terminal := r.terminal ++ [(at_, id)] }

def noteAll (r : Roster) (ids : List JobId) (at_ : VirtualTime) : Roster :=
  { r with terminal := r.terminal ++ ids.map fun id => (at_, id) }

def noteIf (r : Roster) (state : JobState) (id : JobId) (at_ : VirtualTime) : Roster :=
  if state.isTerminal then r.noteTerminal id at_ else r

def adoptStep {α : Type} (r : Roster) (step : Step α) : Roster :=
  { r with scheduler := step.scheduler, jobs := step.jobs }

end Roster

namespace Core

def withRoster (c : Core) (r : Roster) : Core := { c with toRoster := r }

def orSame (inventory : SlotInventory) : Except CapacityError SlotInventory → SlotInventory
  | .ok inventory => inventory
  | .error _ => inventory

/-- The inventory once a binding has given its capacity back. -/
def freed (c : Core) (r : RunningJob) : SlotInventory :=
  orSame c.inventory (c.inventory.release r.slot r.resources)

/-- Drops `id` from the running set and returns its capacity. `none` if it was not running. -/
def release (c : Core) (id : JobId) : Core × Option SlotIndex :=
  match c.running.find? (·.job = id) with
  | none => (c, none)
  | some r =>
    ({ c with
        running := swapRemove c.running (c.running.findIdx (·.job = id))
        inventory := c.freed r }, some r.slot)

/-- Drops `id` from the reconcile list. True if it was there. -/
def unhold (c : Core) (id : JobId) : Core × Bool :=
  if id ∈ c.reconciling then
    ({ c with reconciling := swapRemove c.reconciling (c.reconciling.idxOf id) }, true)
  else (c, false)

/-- `release`, or else `unhold`: true if the job was on a worker. -/
def letGo (c : Core) (id : JobId) : Core × Bool :=
  match c.release id with
  | (c, some _) => (c, true)
  | (c, none) => c.unhold id

def unbind (c : Core) (id : JobId) : Core := ((c.release id).1.unhold id).1

/-- The first slot with no worker and no capacity. A draining worker still owns its zeroed slot
until its stream closes. -/
def vacantSlot (c : Core) : Option SlotIndex :=
  c.names.zipIdx.findSome? fun entry =>
    match c.inventory.slot entry.2 with
    | none => none
    | some s => if entry.1.isNone ∧ s.capacity = Resources.zero then some entry.2 else none

def attach (c : Core) (name : String) (capacity : Capacity) : Core × SlotIndex :=
  let placed := match c.vacantSlot with
    | some slot => (orSame c.inventory (c.inventory.setCapacity slot capacity), slot)
    | none => c.inventory.pushSlot capacity
  ({ c with
      inventory := placed.1
      names := (Table.reserve none (placed.2 + 1) c.names).set placed.2 (some name) }, placed.2)

/-- No new work; whatever is running stays and completes normally. -/
def drain (c : Core) (slot : SlotIndex) : Core :=
  { c with inventory := orSame c.inventory (c.inventory.setCapacity slot Resources.zero) }

def boundTo (c : Core) (slot : SlotIndex) : List JobId :=
  (c.running.filter (·.slot = slot)).map (·.job)

def unbindSlot (c : Core) (slot : SlotIndex) : Core :=
  { c with running := c.running.filter (·.slot ≠ slot) }

def vacate (c : Core) (slot : SlotIndex) : Core :=
  let inventory := orSame c.inventory (c.inventory.clearAllocation slot)
  { c with
    inventory := orSame inventory (inventory.setCapacity slot Resources.zero)
    names := c.names.set slot none }

def bind (c : Core) (id : JobId) (job : Job) (slot : SlotIndex) (now : VirtualTime) : Core :=
  { c with running := c.running ++
      [⟨id, slot, job.request, Word.saturatingAdd now job.walltimeLimit⟩] }

end Core

namespace Engine

/-- Applies the configured shares; one for an invalid account is ignored. -/
def withShares (s : Scheduler) (shares : List (Word 32 × Word 32)) : Scheduler :=
  shares.foldl (fun s entry =>
    match s.setShares entry.1 entry.2 with
    | .ok s => s
    | .error _ => s) s

def build (config : DaemonConfig) (journal : Option Journal) : Engine where
  cycle := config.cycle
  drainBudget := config.drainBudget
  jobs := Arena.new
  inventory := SlotInventory.fromCapacities []
  scheduler := withShares Scheduler.new config.shares
  running := []
  names := []
  overflow := []
  cycles := 0
  demand := ⟨0, 0, 0, 0⟩
  workerCpu := max config.workerCpuMillis.val 1
  minWorkers := config.minWorkers
  maxWorkers := max config.maxWorkers config.minWorkers
  journal := journal
  terminal := []
  retain := Word.clamp 64 config.retain
  reconciling := []
  reconcileUntil := none
  -- Twice the heartbeat timeout: enough for a reconnect with backoff.
  reconcileWindow := Word.clamp 64 ((Word.clamp 64 config.heartbeatTimeout).val * 2)
  quiescing := false

def new (config : DaemonConfig) : Engine := build config none

/-- An engine that records every transition into `journal`. -/
def withJournal (config : DaemonConfig) (journal : Journal) : Engine :=
  build config (some journal)

def withCore (e : Engine) (c : Core) : Engine := { e with toCore := c }

def withRoster (e : Engine) (r : Roster) : Engine := e.withCore (e.toCore.withRoster r)

def withLog (e : Engine) (journal : Option Journal) : Engine := { e with journal := journal }

/-- Schedules a job that was just inserted and notes it if it is already over. -/
def classifyNew (e : Engine) (id : JobId) (now : VirtualTime) :
    Engine × Except LifecycleError JobState :=
  let step := e.scheduler.submit id e.jobs now e.cycle
  match step.result with
  | .ok state => (e.withRoster ((e.adoptStep step).noteIf state id now), .ok state)
  | .error err => (e.withRoster (e.adoptStep step), .error err)

section

variable [Crc32]

def record (e : Engine) (r : Record) : Option Engine :=
  match e.journal with
  | none => some e
  | some journal => do
    let journal ← journal.record r
    return e.withLog (some journal)

/-- Requeues and logs, warning instead of failing on an illegal transition. -/
def requeueLogged (e : Engine) (id : JobId) (now : VirtualTime) : Option Engine :=
  let step := e.scheduler.requeue id e.jobs now e.cycle
  let e := e.withRoster (e.adoptStep step)
  match step.result with
  | .ok _ => e.record (.requeued id now)
  | .error _ => some e

/-- A worker says `id` finished. Dropped if the job was not on a worker. -/
def onCompletedReport (e : Engine) (id : JobId) (now : VirtualTime) : Option Engine :=
  match e.letGo id with
  | (_, false) => some e
  | (c, true) =>
    let step := c.scheduler.onCompleted id c.jobs now e.cycle
    let e := e.withCore (c.withRoster (c.adoptStep step))
    match step.result with
    | .error _ => some e
    | .ok _ => do
      let e ← e.record (.completed id now)
      return e.withRoster (e.noteTerminal id now)

def onFailedReport (e : Engine) (id : JobId) (now : VirtualTime) : Option Engine :=
  match e.letGo id with
  | (_, false) => some e
  | (c, true) =>
    let step := c.scheduler.onFailed id c.jobs now e.cycle
    let e := e.withCore (c.withRoster (c.adoptStep step))
    match step.result with
    | .error _ => some e
    | .ok cascade => do
      let e ← e.record (.failed id now)
      return e.withRoster ((e.noteTerminal id now).noteAll cascade now)

/-- A worker says it stopped the evicted `id`: its capacity is free. -/
def onPreemptedReport (e : Engine) (id : JobId) (now : VirtualTime) : Option Engine :=
  match e.letGo id with
  | (_, false) => some e
  | (c, true) =>
    let step := c.scheduler.onPreempted id c.jobs now e.cycle
    let e := e.withCore (c.withRoster (c.adoptStep step))
    match step.result with
    | .error _ => some e
    | .ok _ => e.record (.requeued id now)

def requeueEach (now : VirtualTime) : List JobId → Engine → Option Engine
  | [], e => some e
  | id :: rest, e => do
    let e ← e.requeueLogged id now
    requeueEach now rest e

def evictSlot (e : Engine) (slot : SlotIndex) (now : VirtualTime) : Option Engine := do
  let evicted := e.boundTo slot
  let e := e.withCore (e.unbindSlot slot)
  -- While the daemon is leaving, the jobs stay running in the log.
  let e ← (if e.quiescing then some e else requeueEach now evicted e)
  return e.withCore (e.vacate slot)

/-- Forgets terminal jobs older than the retention window. -/
def forgetLoop (now : VirtualTime) : List (VirtualTime × JobId) → Engine → Option Engine
  | [], e => some (e.withRoster { e.toRoster with terminal := [] })
  | (at_, id) :: rest, e =>
    if Word.saturatingSub now at_ < e.retain then
      some (e.withRoster { e.toRoster with terminal := (at_, id) :: rest })
    else
      match e.jobs.remove id with
      | (jobs, some _) => do
        let e ← (e.withRoster { e.toRoster with jobs := jobs, terminal := rest }).record
          (.forgotten id)
        forgetLoop now rest e
      | (_, none) => forgetLoop now rest (e.withRoster { e.toRoster with terminal := rest })

def forgetExpired (e : Engine) (now : VirtualTime) : Option Engine :=
  forgetLoop now e.terminal e

def requeueHeld (now : VirtualTime) : List JobId → Engine → Option Engine
  | [], e => some e
  | id :: rest, e => do
    let e ← (if (e.jobs.get id).any (·.state = .running) then e.requeueLogged id now else some e)
    requeueHeld now rest e

/-- Arms the reconcile deadline on the first tick after recovery and, once it passes, requeues
whatever no worker claimed. -/
def expireReconcile (e : Engine) (now : VirtualTime) : Option Engine :=
  if e.reconciling.isEmpty then some { e with reconcileUntil := none }
  else
    let until_ := e.reconcileUntil.getD (Word.saturatingAdd now e.reconcileWindow)
    if now < until_ then some { e with reconcileUntil := some until_ }
    else do
      let e ← requeueHeld now e.reconciling (e.withCore { e.toCore with reconciling := [] })
      return { e with reconcileUntil := none }

/-- The jobs a snapshot lists as running: from their state, not from slot bindings. -/
def runningIds (jobs : Arena Job) : List JobId :=
  (jobs.iter.filter (·.2.state = .running)).map (·.1)

def snapshot (e : Engine) (now : VirtualTime) : Snapshot where
  takenAt := now
  slots := e.jobs.slots
  freeHead := e.jobs.freeHead
  running := runningIds e.jobs
  ledgers := e.scheduler.fairshare.ledgers

def encodeSnapshot (e : Engine) (now : VirtualTime) : Option Bytes :=
  Wal.encodeSnapshot (e.snapshot now)

/-- Encodes and queues a snapshot when the log has outgrown its threshold. -/
def rotateIfDue (e : Engine) (now : VirtualTime) : Option Engine :=
  match e.journal with
  | none => some e
  | some journal =>
    if journal.wantsSnapshot then do
      let bytes ← e.encodeSnapshot now
      return e.withLog (some (journal.attachSnapshot bytes))
    else some e

def commit (e : Engine) (room : Bool) : Engine :=
  e.withLog (e.journal.map (·.commit room))

/-- What the pool would need to run everything ready and running at once. -/
def refreshDemand (e : Engine) : Engine :=
  let cpu (state : JobState) : Nat :=
    ((e.jobs.iter.filter (·.2.state = state)).map (·.2.request.cpuMillis.val)).sum
  let needed := (cpu .ready + cpu .running + e.workerCpu - 1) / e.workerCpu
  { e with demand :=
      { desired := min (max (min needed (2 ^ 32 - 1)) e.minWorkers.val) e.maxWorkers.val
        attached := min (e.names.countP (·.isSome)) (2 ^ 32 - 1)
        cpuReady := cpu .ready
        cpuRunning := cpu .running } }

def queueSummary (e : Engine) : QueueSummary where
  ready := e.scheduler.pending
  blocked := e.jobs.iter.countP (·.2.state = .blocked)
  running := e.running.length
  cycles := e.cycles

def nodes (e : Engine) : List NodeSummary :=
  e.inventory.slots.zipIdx.map fun entry =>
    let name := (e.names[entry.2]?).join
    ⟨entry.2, name.getD "", entry.1.capacity, entry.1.allocated, name.isSome⟩

def accounts (e : Engine) : List AccountSummary :=
  (e.scheduler.fairshare.ledgers.zip e.scheduler.fairshare.factors).zipIdx.map fun row =>
    ⟨row.2, row.1.1.shares, row.1.1.usage, row.1.1.runningCpu, row.1.2⟩

def answer (e : Engine) : Query → Answer
  | .status id => .status ((e.jobs.get id).map (·.state))
  | .queue => .queue e.queueSummary
  | .nodes => .nodes e.nodes
  | .demand => .demand e.demand
  | .accounts => .accounts e.accounts

end

end Engine

namespace Host

/-- Sends a dispatch, or keeps it for the next tick when the outbox is full. -/
def pushDispatch (h : Host) (d : Dispatch) : Host :=
  match h.outbox.push d with
  | (outbox, true) => { h with outbox := outbox }
  | (outbox, false) =>
    { h with outbox := outbox, engine.overflow := h.engine.overflow ++ [d] }

def reply (h : Host) (token : Token) (answer : Answer) : Host :=
  { h with replies := h.replies ++ [⟨token, answer⟩] }

def replyDurably (h : Host) (token : Token) (answer : Answer) : Host :=
  match h.engine.journal with
  | none => h.reply token answer
  | some journal =>
    { h with engine := h.engine.withLog (some (journal.defer ⟨token, answer⟩)) }

def pushDurably (h : Host) (d : Dispatch) : Host :=
  match h.engine.journal with
  | none => h.pushDispatch d
  | some journal => { h with engine := h.engine.withLog (some (journal.hold d)) }

section

variable [Crc32]

/-- Runs a handler that touches neither the outbox nor the replies. -/
def onEngine (h : Host) (f : Engine → Option Engine) : Option Host := do
  let engine ← f h.engine
  return { h with engine := engine }

def recordSubmitted (e : Engine) (id : JobId) : Option Engine :=
  match e.journal, e.jobs.get id with
  | some journal, some job => do
    let journal ← journal.recordSubmitted id job
    return e.withLog (some journal)
  | _, _ => some e

def onSubmit (h : Host) (job : Job) (token : Token) (now : VirtualTime) : Option Host := do
  let id ← h.engine.jobs.nextId
  -- Only accepted jobs enter the arena, so replaying the log reproduces every id exactly.
  match h.engine.scheduler.checkSubmit id job h.engine.jobs with
  | .error e => return h.reply token (.submit (.error e))
  | .ok _ =>
    let inserted ← h.engine.jobs.insert job
    let e ← recordSubmitted
      (h.engine.withRoster { h.engine.toRoster with jobs := inserted.1 }) id
    let classified := e.classifyNew id now
    return { h with engine := classified.1 }.replyDurably token
      (.submit (classified.2.map fun s => (id, s)))

/-- Cancels `id` and its dependents, logging the root; dependents are implied. -/
def onCancel (h : Host) (id : JobId) (token : Token) (now : VirtualTime) : Option Host := do
  -- A held job being cancelled must not be adopted later.
  let c := h.engine.unbind id
  let released := (h.engine.release id).2
  let step := c.scheduler.cancel id c.jobs now h.engine.cycle
  let e := h.engine.withCore (c.withRoster (c.adoptStep step))
  let h ← (match step.result with
    | .error _ => some { h with engine := e }
    | .ok cascade => do
      let e ← e.record (.cancelled id now)
      let h := { h with engine := e.withRoster ((e.noteTerminal id now).noteAll cascade now) }
      return match released with
        | some slot => h.pushDispatch (.kill slot id)
        | none => h)
  return h.replyDurably token (.cancel step.result)

/-- Binds a held running job to `slot` without a dispatch. -/
def adoptRunning (h : Host) (id : JobId) (slot : SlotIndex) (now : VirtualTime) :
    Option Host :=
  match h.engine.jobs.get id with
  | none => some h
  | some job =>
    if job.state ≠ .running then some h
    else
      match h.engine.inventory.tryAllocate slot job.request with
      | .ok inventory =>
        let c := { h.engine.toCore with inventory := inventory }
        some { h with engine := h.engine.withCore (c.bind id job slot now) }
      | .error _ => do
        let h ← h.onEngine (·.requeueLogged id now)
        return h.pushDispatch (.kill slot id)

/-- Moves a binding from the stream it came in on to `slot`, or requeues the job. -/
def rebind (h : Host) (id : JobId) (slot : SlotIndex) (now : VirtualTime) (r : RunningJob) :
    Option Host :=
  let pos := h.engine.running.findIdx (·.job = id)
  let freed := h.engine.freed r
  match freed.tryAllocate slot r.resources with
  | .ok inventory => some { h with engine := h.engine.withCore { h.engine.toCore with
      inventory := inventory
      running := h.engine.running.set pos { r with slot := slot } } }
  | .error _ => do
    let h ← { h with engine := h.engine.withCore { h.engine.toCore with
      inventory := freed
      running := swapRemove h.engine.running pos } }.onEngine (·.requeueLogged id now)
    return h.pushDispatch (.kill slot id)

/-- A reconnecting worker says it still runs `id`. Held after recovery: adopt it onto this
slot. Still bound to an older stream: move the binding. Anything else is stale, and the worker
is told to stop it. -/
def claim (h : Host) (id : JobId) (slot : SlotIndex) (now : VirtualTime) : Option Host :=
  match h.engine.unhold id with
  | (c, true) => { h with engine := h.engine.withCore c }.adoptRunning id slot now
  | (_, false) =>
    match h.engine.running.find? (·.job = id) with
    | some r => h.rebind id slot now r
    | none => some (h.pushDispatch (.kill slot id))

def claimEach (slot : SlotIndex) (now : VirtualTime) : List JobId → Host → Option Host
  | [], h => some h
  | id :: rest, h => do
    let h ← h.claim id slot now
    claimEach slot now rest h

def onWorkerJoined (h : Host) (name : String) (capacity : Capacity) (inFlight : List JobId)
    (token : Token) (now : VirtualTime) : Option Host := do
  let attached := h.engine.attach name capacity
  let h ← claimEach attached.2 now inFlight { h with engine := h.engine.withCore attached.1 }
  return h.reply token (.joined attached.2)

def handle (h : Host) (command : Command) (now : VirtualTime) : Option Host :=
  match command with
  | .submit job reply => h.onSubmit job.job reply now
  | .cancel id reply => h.onCancel id reply now
  | .completed id => h.onEngine (·.onCompletedReport id now)
  | .failed id => h.onEngine (·.onFailedReport id now)
  | .preempted id => h.onEngine (·.onPreemptedReport id now)
  | .workerJoined name capacity inFlight reply => h.onWorkerJoined name capacity inFlight reply now
  | .workerLeft slot => h.onEngine (·.evictSlot slot now)
  | .workerDraining slot => 
    some { h with engine := h.engine.withCore (h.engine.drain slot) }
  | .query query reply => some (h.reply reply (h.engine.answer query))

/-- Sends what the outbox could not take before, newest first. -/
def flushLoop : List Dispatch → Host → Host
  | [], h => { h with engine.overflow := [] }
  | d :: rest, h =>
    match h.outbox.push d with
    | (outbox, true) => flushLoop rest { h with outbox := outbox }
    | (outbox, false) =>
      { h with outbox := outbox, engine.overflow := (d :: rest).reverse }

def flushOverflow (h : Host) : Host := flushLoop h.engine.overflow.reverse h

def onDispatched (h : Host) (now : VirtualTime) (d : DispatchDecision) : Option Host :=
  match h.engine.jobs.get d.job with
  | none => some h
  | some job => do
    let h := { h with engine := h.engine.withCore (h.engine.bind d.job job d.slot now) }
    -- Write-ahead: the worker sees this only after the record is on disk.
    let h ← h.onEngine (·.record (.dispatched d.job now))
    return h.pushDurably (.assign d.slot d.job job.payload job.walltimeLimit)

def onDispatchedEach (now : VirtualTime) : List DispatchDecision → Host → Option Host
  | [], h => some h
  | d :: rest, h => do
    let h ← h.onDispatched now d
    onDispatchedEach now rest h

/-- Marks one planned victim and tells its worker; an illegal one is skipped. -/
def evict (h : Host) (now : VirtualTime) (v : Eviction) : Option Host :=
  let step := h.engine.scheduler.preempt v.job h.engine.jobs
  match step.result with
  | .error _ => some h
  | .ok _ => do
    let h ← { h with engine := h.engine.withRoster (h.engine.adoptStep step) }.onEngine
      (·.record (.preempted v.job now))
    return h.pushDurably (.preempt v.slot v.job h.engine.cycle.preempt.grace)

def evictEach (now : VirtualTime) : List Eviction → Host → Option Host
  | [], h => some h
  | v :: rest, h => do
    let h ← h.evict now v
    evictEach now rest h

/-- Evicts lower-class work for a head that could not be placed. -/
def planEvictions (h : Host) (head : JobId) (now : VirtualTime) : Option Host :=
  match h.engine.jobs.get head with
  | none => some h
  | some job =>
    match planPreemption job h.engine.running h.engine.jobs h.engine.inventory now
        h.engine.cycle.preempt with
    | none => some h
    | some plan => evictEach now plan.2 h

/-- One scheduling cycle. `room` says whether the writer's channel can take a batch. -/
def tick (h : Host) (now : VirtualTime) (room : Bool) : Option (Host × CycleOutcome) := do
  let h := h.flushOverflow
  let cycle ← h.engine.scheduler.runCycle h.engine.jobs h.engine.inventory h.engine.running now
    h.engine.cycle []
  let h := { h with engine := h.engine.withCore { h.engine.toCore with
    scheduler := cycle.scheduler
    jobs := cycle.jobs
    inventory := cycle.inventory } }
  let h ← onDispatchedEach now cycle.decisions h
  let h ← (match cycle.outcome.head with
    | some head => h.planEvictions head now
    | none => some h)
  let e := { h.engine with cycles := h.engine.cycles + 1 }.refreshDemand
  let e ← e.forgetExpired now
  let e ← e.expireReconcile now
  let e ← e.rotateIfDue now
  return ({ h with engine := e.commit room }, cycle.outcome)

end

end Host

end TaskerRT.Daemon
