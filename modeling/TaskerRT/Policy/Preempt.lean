/- module: TaskerRT/Policy/Preempt
   source: crates/tasker-core/src/policy/preempt.rs
   digest: Choosing lower-class victims on one slot so that the head job fits. -/

import TaskerRT.Policy.Backfill

set_option autoImplicit false

namespace TaskerRT.Policy

open Library Domain Cluster

/-- Who may evict whom, and how long a victim gets to stop. -/
structure PreemptConfig where
  minClass : Option PriorityClass
  maxPreemptions : Word 8
  grace : VirtualDuration
  deriving DecidableEq, Repr

/-- Preemption off, three evictions to immunity, five seconds of grace. -/
def PreemptConfig.default : PreemptConfig := ⟨none, 3, VirtualDuration.fromSecs 5⟩

/-- One running job to evict from one slot. -/
structure Eviction where
  job : JobId
  slot : SlotIndex
  deriving DecidableEq, Repr

/-- A candidate victim: sorted by class, then youngest first. -/
structure Victim where
  priorityClass : PriorityClass
  started : VirtualTime
  job : JobId
  resources : Resources
  deriving DecidableEq, Repr

def Victim.eligible? (head : Job) (jobs : Arena Job) (config : PreemptConfig) (r : RunningJob) :
    Option Victim :=
  match jobs.get r.job with
  | none => none
  | some job =>
    if job.state = .running ∧ job.priorityClass.ordinal < head.priorityClass.ordinal ∧
        job.preemptions < config.maxPreemptions then
      some ⟨job.priorityClass, Word.saturatingSub r.endsAt job.walltimeLimit, r.job, r.resources⟩
    else none

/-- The stable sort key: class ascending, then start descending. -/
def Victim.before (a b : Victim) : Bool :=
  decide (a.priorityClass.ordinal < b.priorityClass.ordinal) ||
    (a.priorityClass == b.priorityClass && decide (b.started ≤ a.started))

/-- Counts how many victims it takes, in order, until the head fits. -/
def countVictims (request : ResourceRequest) (now : VirtualTime) :
    List Victim → Resources → Word 64 → Nat → Resources × Word 64 × Nat
  | [], freed, lost, count => (freed, lost, count)
  | v :: rest, freed, lost, count =>
    if request.fitsWithin freed then (freed, lost, count)
    else countVictims request now rest (freed.saturatingAdd v.resources)
      (Word.saturatingAdd lost (Word.saturatingSub now v.started)) (count + 1)

/-- The best plan so far: its slot, victim count, lost runtime and victims. -/
structure Plan where
  slot : SlotIndex
  count : Nat
  lost : Word 64
  chosen : List Victim
  deriving DecidableEq, Repr

def considerSlot (head : Job) (running : List RunningJob) (jobs : Arena Job) (now : VirtualTime)
    (config : PreemptConfig) (best : Option Plan) (slot : WorkerSlot × SlotIndex) :
    Option Plan :=
  if !head.request.fitsWithin slot.1.capacity then best
  else
    let candidates := ((running.filter fun r => r.slot = slot.2).filterMap
      (Victim.eligible? head jobs config)).insertionSort fun a b => a.before b
    let out := countVictims head.request now candidates slot.1.free 0 0
    if out.2.2 = 0 ∨ !head.request.fitsWithin out.1 then best
    else
      let plan : Plan := ⟨slot.2, out.2.2, out.2.1, candidates.take out.2.2⟩
      match best with
      | none => some plan
      | some b =>
        if out.2.2 < b.count ∨ (out.2.2 = b.count ∧ out.2.1 < b.lost) then some plan else some b

/-- Chooses victims for `head` and returns their slot, or `none` when preemption is off, the
head is below `minClass`, an eviction is in flight or no slot can be freed enough. -/
def planPreemption (head : Job) (running : List RunningJob) (jobs : Arena Job)
    (inventory : SlotInventory) (now : VirtualTime) (config : PreemptConfig) :
    Option (SlotIndex × List Eviction) :=
  match config.minClass with
  | none => none
  | some minimum =>
    if head.priorityClass.ordinal < minimum.ordinal then none
    else if running.any fun r => (jobs.get r.job).any fun j => j.state = .preempted then none
    else
      match inventory.slots.zipIdx.foldl (considerSlot head running jobs now config) none with
      | none => none
      | some plan => some (plan.slot, plan.chosen.map fun v => ⟨v.job, plan.slot⟩)

end TaskerRT.Policy
