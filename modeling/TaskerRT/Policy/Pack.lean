/- module: TaskerRT/Policy/Pack
   source: crates/tasker-core/src/policy/pack.rs
   digest: Greedy resource-aware packing up to the first job that fits nowhere. -/

import TaskerRT.Policy.Cascade

set_option autoImplicit false

namespace TaskerRT.Policy

open Library Domain Cluster

structure DispatchDecision where
  job : JobId
  slot : SlotIndex
  deriving DecidableEq, Repr

/-- What the scheduler decided about a candidate this cycle. -/
inductive Disposition where
  | pending
  | dispatched
  | dropped
  deriving DecidableEq, Repr

structure PackBudget where
  maxDecisions : Nat
  maxScanned : Nat
  deriving DecidableEq, Repr

structure PackOutcome where
  scanned : Nat
  dispatched : Nat
  head : Option Nat
  budgetExhausted : Bool
  deriving DecidableEq, Repr

/-- The outcome together with what the pass writes through its borrows. -/
structure PackState where
  outcome : PackOutcome
  inventory : SlotInventory
  disposition : List Disposition
  decisions : List DispatchDecision
  deriving DecidableEq, Repr

/-- The candidate loop of `pack`. `none` is the panic of its `expect`. -/
def packLoop (jobs : Arena Job) (budget : PackBudget) :
    List ReadyEntry → Nat → PackState → Option PackState
  | [], _, s => some s
  | entry :: rest, index, s =>
    if s.outcome.dispatched ≥ budget.maxDecisions ∨ s.outcome.scanned ≥ budget.maxScanned then
      some { s with outcome := { s.outcome with budgetExhausted := true } }
    else
      match jobs.get entry.job with
      | none => packLoop jobs budget rest (index + 1)
          { s with disposition := s.disposition.set index .dropped }
      | some job =>
        let scanned := s.outcome.scanned + 1
        match s.inventory.firstFit job.request with
        | none => some { s with outcome := { s.outcome with scanned, head := some index } }
        | some slot =>
          match s.inventory.tryAllocate slot job.request with
          | .error _ => none
          | .ok inventory => packLoop jobs budget rest (index + 1)
              { outcome := { s.outcome with scanned, dispatched := s.outcome.dispatched + 1 }
                inventory
                disposition := s.disposition.set index .dispatched
                decisions := s.decisions ++ [⟨entry.job, slot⟩] }

/-- Walks `candidates` in order, allocating each job that fits, and stops at the first that
does not. `none` is a panic. -/
def pack (candidates : List ReadyEntry) (jobs : Arena Job) (inventory : SlotInventory)
    (budget : PackBudget) (disposition : List Disposition)
    (decisions : List DispatchDecision) : Option PackState :=
  if disposition.length < candidates.length then none
  else packLoop jobs budget candidates 0 ⟨⟨0, 0, none, false⟩, inventory, disposition, decisions⟩

end TaskerRT.Policy
