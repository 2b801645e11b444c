/- module: TaskerRT/Daemon/Command
   source: crates/taskerd/src/command.rs, crates/taskerd/src/outbox.rs
   digest: Messages into and out of the scheduler thread. -/

import TaskerRT.Scheduler.Cycle

set_option autoImplicit false

namespace TaskerRT.Daemon

open Library Domain Cluster Policy Scheduling

/-- Which caller waits for an answer. -/
abbrev Token := Nat

structure QueueSummary where
  ready : Nat
  blocked : Nat
  running : Nat
  cycles : Nat
  deriving DecidableEq, Repr

structure NodeSummary where
  slot : SlotIndex
  name : String
  capacity : Capacity
  allocated : Resources
  attached : Bool
  deriving DecidableEq, Repr

structure AccountSummary where
  account : Nat
  shares : Word 32
  usage : Word 64
  runningCpu : Word 64
  fairshare : Word 64
  deriving DecidableEq, Repr

structure Demand where
  desired : Nat
  attached : Nat
  cpuReady : Nat
  cpuRunning : Nat
  deriving DecidableEq, Repr

inductive Answer where
  | submit (result : Except LifecycleError (JobId × JobState))
  | cancel (result : Except LifecycleError (List JobId))
  | joined (slot : SlotIndex)
  | status (state : Option JobState)
  | queue (summary : QueueSummary)
  | nodes (nodes : List NodeSummary)
  | demand (demand : Demand)
  | accounts (accounts : List AccountSummary)
  deriving DecidableEq

/-- An answer on its way to the caller that waits for it. -/
structure Reply where
  token : Token
  answer : Answer
  deriving DecidableEq

inductive Query where
  | status (id : JobId)
  | queue
  | nodes
  | demand
  | accounts
  deriving DecidableEq, Repr

/-- A job as the control API builds it: `submitted`, never evicted. -/
structure NewJob where
  job : Job
  submitted : job.state = .submitted
  fresh : job.preemptions = 0

/-- One request to the scheduler thread. -/
inductive Command where
  | submit (job : NewJob) (reply : Token)
  | cancel (id : JobId) (reply : Token)
  | completed (id : JobId)
  | failed (id : JobId)
  | preempted (id : JobId)
  | workerJoined (name : String) (capacity : Capacity) (inFlight : List JobId) (reply : Token)
  | workerLeft (slot : SlotIndex)
  | workerDraining (slot : SlotIndex)
  | query (query : Query) (reply : Token)

inductive Dispatch where
  | assign (slot : SlotIndex) (id : JobId) (payload : Bytes) (walltime : VirtualDuration)
  | kill (slot : SlotIndex) (id : JobId)
  | preempt (slot : SlotIndex) (id : JobId) (grace : VirtualDuration)
  deriving DecidableEq, Repr

def Dispatch.slot : Dispatch → SlotIndex
  | assign slot _ _ _ => slot
  | kill slot _ => slot
  | preempt slot _ _ => slot

/-- Bounded ring of dispatches towards the dispatcher, which drains it while others push: `due`
says how many entries it takes before each push to come. `entered` is everything that ever got
in; the source keeps neither. The list stands for the `ArrayQueue` of a third-party crate, taken
at its word: first in, first out, and a push fails only while the ring is full. -/
structure Outbox where
  capacity : Nat
  queue : List Dispatch
  due : List Nat
  entered : List Dispatch
  deriving DecidableEq, Repr

namespace Outbox

def new (capacity : Nat) : Outbox := ⟨capacity, [], [], []⟩

/-- The ring at the next push, after what the dispatcher took in the meantime. -/
def drained (o : Outbox) : Outbox :=
  { o with queue := o.queue.drop (o.due.headD 0), due := o.due.tail }

def push (o : Outbox) (d : Dispatch) : Outbox × Bool :=
  let o := o.drained
  if o.queue.length < o.capacity then
    ({ o with queue := o.queue ++ [d], entered := o.entered ++ [d] }, true)
  else (o, false)

def pop (o : Outbox) : Option (Dispatch × Outbox) :=
  match o.queue with
  | [] => none
  | d :: rest => some (d, { o with queue := rest })

end Outbox

end TaskerRT.Daemon
