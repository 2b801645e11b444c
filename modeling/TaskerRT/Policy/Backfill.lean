/- module: TaskerRT/Policy/Backfill
   source: crates/tasker-core/src/policy/backfill.rs
   digest: EASY backfill: lower-priority jobs run ahead of the head's reservation. -/

import TaskerRT.Policy.Pack

set_option autoImplicit false

namespace TaskerRT.Policy

open Library Domain Cluster

/-- A job occupying capacity until its walltime deadline. -/
structure RunningJob where
  job : JobId
  slot : SlotIndex
  resources : Resources
  endsAt : VirtualTime
  deriving DecidableEq, Repr

/-- Buffers reused across backfill passes. -/
structure BackfillScratch where
  completions : List (VirtualTime × Resources)
  runningWithCandidate : List RunningJob
  deriving DecidableEq, Repr

def BackfillScratch.new : BackfillScratch := ⟨[], []⟩

def slotCompletions (running : List RunningJob) (slot : SlotIndex) :
    List (VirtualTime × Resources) :=
  ((running.filter fun r => r.slot = slot).map fun r => (r.endsAt, r.resources)).insertionSort
    fun a b => a.1 ≤ b.1

/-- Replays completions, accumulating freed capacity until the request fits. -/
def replayCompletions (request : ResourceRequest) :
    Resources → List (VirtualTime × Resources) → Option VirtualTime
  | _, [] => none
  | free, (endsAt, resources) :: rest =>
    let free := free.saturatingAdd resources
    if request.fitsWithin free then some endsAt else replayCompletions request free rest

def keepEarliest (earliest : Option VirtualTime) (endsAt : VirtualTime) : Option VirtualTime :=
  match earliest with
  | some current => some (min current endsAt)
  | none => some endsAt

def reservationLoop (request : ResourceRequest) (running : List RunningJob) (now : VirtualTime) :
    List (WorkerSlot × SlotIndex) → Option VirtualTime → BackfillScratch →
      Option VirtualTime × BackfillScratch
  | [], earliest, scratch => (earliest, scratch)
  | (slot, index) :: rest, earliest, scratch =>
    if !request.fitsWithin slot.capacity then
      reservationLoop request running now rest earliest scratch
    else if request.fitsWithin slot.free then (some now, scratch)
    else
      let scratch := { scratch with completions := slotCompletions running index }
      match replayCompletions request slot.free scratch.completions with
      | some endsAt =>
        reservationLoop request running now rest (keepEarliest earliest endsAt) scratch
      | none => reservationLoop request running now rest earliest scratch

/-- Earliest time `request` can start if every running job holds its slot until its
deadline. -/
def reservationTime (request : ResourceRequest) (inventory : SlotInventory)
    (running : List RunningJob) (now : VirtualTime) (scratch : BackfillScratch) :
    Option VirtualTime × BackfillScratch :=
  reservationLoop request running now inventory.slots.zipIdx none scratch

structure BackfillOutcome where
  considered : Nat
  backfilled : Nat
  reservation : Option VirtualTime
  deriving DecidableEq, Repr

/-- The outcome together with what the pass writes through its borrows. -/
structure BackfillState where
  outcome : BackfillOutcome
  inventory : SlotInventory
  disposition : List Disposition
  decisions : List DispatchDecision
  scratch : BackfillScratch
  deriving DecidableEq, Repr

/-- The tentative branch: allocate, recompute the head's reservation, roll back if it
slipped. `none` is a panic. -/
def tryTentatively (headRequest : ResourceRequest) (running : List RunningJob)
    (now reservation : VirtualTime) (candidate : RunningJob) (inventory : SlotInventory)
    (scratch : BackfillScratch) : Option (Bool × SlotInventory × BackfillScratch) :=
  match inventory.tryAllocate candidate.slot candidate.resources with
  | .error _ => none
  | .ok allocated =>
    let simulated := running ++ [candidate]
    let out := reservationTime headRequest allocated simulated now
      { scratch with runningWithCandidate := [] }
    let scratch := { out.2 with runningWithCandidate := simulated }
    let ok := match out.1 with
      | some at_ => decide (at_ ≤ reservation)
      | none => false
    if ok then some (true, allocated, scratch)
    else
      match allocated.release candidate.slot candidate.resources with
      | .error _ => none
      | .ok released => some (false, released, scratch)

/-- Admits or rejects one candidate that fits now. `none` is a panic. -/
def keepOrUndo (headRequest : ResourceRequest) (running : List RunningJob)
    (now reservation : VirtualTime) (candidate : RunningJob) (inventory : SlotInventory)
    (scratch : BackfillScratch) : Option (Bool × SlotInventory × BackfillScratch) :=
  if candidate.endsAt ≤ reservation then
    match inventory.tryAllocate candidate.slot candidate.resources with
    | .error _ => none
    | .ok allocated => some (true, allocated, scratch)
  else tryTentatively headRequest running now reservation candidate inventory scratch

def backfillLoop (jobs : Arena Job) (headRequest : ResourceRequest) (running : List RunningJob)
    (now reservation : VirtualTime) (budget : PackBudget) :
    List ReadyEntry → Nat → BackfillState → Option BackfillState
  | [], _, s => some s
  | entry :: rest, index, s =>
    if s.outcome.backfilled ≥ budget.maxDecisions ∨ s.outcome.considered ≥ budget.maxScanned then
      some s
    else
      match jobs.get entry.job with
      | none => backfillLoop jobs headRequest running now reservation budget rest (index + 1)
          { s with disposition := s.disposition.set index .dropped }
      | some job =>
        let s := { s with
          outcome := { s.outcome with considered := s.outcome.considered + 1 } }
        match s.inventory.firstFit job.request with
        | none => backfillLoop jobs headRequest running now reservation budget rest (index + 1) s
        | some slot =>
          let endsAt := Word.saturatingAdd now job.walltimeLimit
          match keepOrUndo headRequest running now reservation ⟨entry.job, slot, job.request, endsAt⟩
              s.inventory s.scratch with
          | none => none
          | some (false, inventory, scratch) =>
            backfillLoop jobs headRequest running now reservation budget rest (index + 1)
              { s with inventory, scratch }
          | some (true, inventory, scratch) =>
            backfillLoop jobs headRequest running now reservation budget rest (index + 1)
              { outcome := { s.outcome with backfilled := s.outcome.backfilled + 1 }
                inventory
                disposition := s.disposition.set index .dispatched
                decisions := s.decisions ++ [⟨entry.job, slot⟩]
                scratch }

/-- Runs lower-priority jobs into the gap ahead of the head job's reservation. `none` is a
panic. -/
def easyBackfill (candidates : List ReadyEntry) (headIndex : Nat) (jobs : Arena Job)
    (inventory : SlotInventory) (running : List RunningJob) (now : VirtualTime)
    (budget : PackBudget) (disposition : List Disposition) (decisions : List DispatchDecision)
    (scratch : BackfillScratch) : Option BackfillState :=
  if disposition.length < candidates.length then none
  else
    match candidates[headIndex]? with
    | none => none
    | some head =>
      match jobs.get head.job with
      | none => some ⟨⟨0, 0, none⟩, inventory, disposition, decisions, scratch⟩
      | some headJob =>
        let out := reservationTime headJob.request inventory running now scratch
        match out.1 with
        | none => some ⟨⟨0, 0, none⟩, inventory, disposition, decisions, out.2⟩
        | some reservation =>
          backfillLoop jobs headJob.request running now reservation budget
            (candidates.drop (headIndex + 1)) (headIndex + 1)
            ⟨⟨0, 0, some reservation⟩, inventory, disposition, decisions, out.2⟩

end TaskerRT.Policy
