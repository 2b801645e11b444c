/- module: TaskerRT/Scheduler/Budgeted
   source: crates/tasker-core/src/engine/cycle.rs (run_cycle), policy/pack.rs, policy/backfill.rs
   digest: What the two stages of a cycle decide and examine together, against one budget. -/

import TaskerRT.Policy.Backfilled
import TaskerRT.Scheduler.Accounting

set_option autoImplicit false

namespace TaskerRT.Scheduling

open Library Domain Cluster Policy

/-- What the candidates that are still jobs ask for, in order. -/
def requests (jobs : Arena Job) (candidates : List ReadyEntry) : List ResourceRequest :=
  candidates.filterMap fun entry => (jobs.get entry.job).map (·.request)

def canHold (inventory : SlotInventory) (request : ResourceRequest) : Bool :=
  inventory.slots.any fun s => request.fitsWithin s.capacity

/-- One slot has room for all the requests together, up to the first that no slot can hold. -/
def Ample (inventory : SlotInventory) (requests : List ResourceRequest) : Prop :=
  ∃ s ∈ inventory.slots, ∀ d,
    ((requests.takeWhile (canHold inventory)).map (·.amount d)).sum ≤ s.free.amount d

section Requests

variable {jobs : Arena Job} {entry : ReadyEntry} {entries : List ReadyEntry}

private theorem requests_stale (h : jobs.get entry.job = none) :
    requests jobs (entry :: entries) = requests jobs entries := by
  simp [requests, h]

private theorem requests_live {job : Job} (h : jobs.get entry.job = some job) :
    requests jobs (entry :: entries) = job.request :: requests jobs entries := by
  simp [requests, h]

end Requests

section Stages

variable {jobs : Arena Job} {headRequest : ResourceRequest} {running : List RunningJob}
  {now reservation : VirtualTime} {budget : PackBudget}

end Stages

section Room

variable {jobs : Arena Job} {inventory inventory' : SlotInventory} {front back : List ReadyEntry}
  {new : List DispatchDecision}

private theorem canHold_allocated {i : SlotIndex} {request : ResourceRequest}
    (h : inventory.tryAllocate i request = .ok inventory') :
    canHold inventory' = canHold inventory := by
  obtain ⟨s, next, hs, -, -, rfl⟩ := SlotInventory.tryAllocate_eq_ok.mp h
  obtain ⟨hlt, rfl⟩ := List.getElem?_eq_some_iff.mp hs
  have hcapacities : (inventory.slots.set i { inventory.slots[i] with allocated := next }).map
      (·.capacity) = inventory.slots.map (·.capacity) := by
    have hset := @List.set_getElem_self _ (inventory.slots.map (·.capacity)) i (by simpa)
    rw [List.getElem_map] at hset
    rw [List.map_set]
    exact hset
  have hany (slots : List WorkerSlot) (request : ResourceRequest) :
      slots.any (fun s => request.fitsWithin s.capacity) =
        (slots.map (·.capacity)).any request.fitsWithin := by
    rw [List.any_map]
    rfl
  funext request
  unfold canHold
  rw [hany, hany, hcapacities]

/-- Where there is ample room, placing the first request leaves ample room for the others. -/
private theorem Ample.allocate {request : ResourceRequest} {rest : List ResourceRequest}
    {i : SlotIndex}
    (h : Ample inventory (request :: rest)) (hfits : canHold inventory request = true)
    (hok : inventory.tryAllocate i request = .ok inventory') : Ample inventory' rest := by
  obtain ⟨t, ht, hroom⟩ := h
  rw [List.takeWhile_cons_of_pos hfits] at hroom
  simp only [List.map_cons, List.sum_cons] at hroom
  unfold Ample
  rw [canHold_allocated hok]
  obtain ⟨s, next, hs, hnext, hwithin, rfl⟩ := SlotInventory.tryAllocate_eq_ok.mp hok
  obtain ⟨k, hk⟩ := List.mem_iff_getElem?.mp ht
  have hlt : i < inventory.slots.length := (List.getElem?_eq_some_iff.mp hs).1
  by_cases hik : i = k
  · subst hik
    obtain rfl := Option.some.inj (hs.symm.trans hk)
    refine ⟨_, List.mem_of_getElem? (List.getElem?_set_self hlt), fun d => ?_⟩
    have hd := hroom d
    have hsum := Resources.amount_of_checkedAdd hnext d
    have hcap := Resources.fitsWithin_iff_amount.mp hwithin d
    rw [WorkerSlot.free, Resources.amount_saturatingSub] at hd ⊢
    dsimp only
    omega
  · refine ⟨t, List.mem_of_getElem? ((List.getElem?_set_ne hik).trans hk), fun d => ?_⟩
    have hd := hroom d
    omega

private theorem canHold_of_firstFit {request : ResourceRequest} {i : SlotIndex}
    (h : inventory.firstFit request = some i) : canHold inventory request = true := by
  obtain ⟨s, hs, hfits, -⟩ := SlotInventory.firstFit_eq_some h
  exact List.any_eq_true.mpr ⟨s, List.mem_of_getElem? hs, fitsWithin_capacity hfits⟩

private theorem Ample.packs (h : Packs jobs inventory front new inventory')
    (hample : Ample inventory (requests jobs (front ++ back))) :
    Ample inventory' (requests jobs back) := by
  induction h with
  | done _ => exact hample
  | stale hstale _ ih =>
    rw [List.cons_append, requests_stale hstale] at hample
    exact ih hample
  | placed hlive hfit hallocate _ ih =>
    rw [List.cons_append, requests_live hlive] at hample
    exact ih (hample.allocate (canHold_of_firstFit hfit) hallocate)

end Room

section Cycle

variable {s : Scheduler} {jobs : Arena Job} {inventory : SlotInventory}
  {running : List RunningJob} {now : VirtualTime} {config : CycleConfig}
  {decisions : List DispatchDecision} {result : Scheduler.CycleResult}

end Cycle

end TaskerRT.Scheduling
