/- module: TaskerRT/Policy/NoDelay
   source: crates/tasker-core/src/policy/backfill.rs (easy_backfill)
   digest: Backfilling keeps room for the head by the reservation it was computed with. -/

import TaskerRT.Policy.Reservation

set_option autoImplicit false

namespace TaskerRT.Policy

open Library Domain Cluster Resources

section Allocation

variable {inventory allocated : SlotInventory} {slot : SlotIndex} {resources : Resources}

/-- An allocation takes its resources from one slot's free capacity and touches no other. -/
private theorem tryAllocate_free (h : inventory.tryAllocate slot resources = .ok allocated) :
    ∃ s s', inventory.slots[slot]? = some s ∧ allocated.slots = inventory.slots.set slot s' ∧
      s'.capacity = s.capacity ∧
      ∀ d, s'.free.amount d + resources.amount d = s.free.amount d := by
  obtain ⟨s, next, hslot, hnext, hfits, rfl⟩ := SlotInventory.tryAllocate_eq_ok.mp h
  refine ⟨s, { s with allocated := next }, hslot, rfl, rfl, ?_⟩
  intro d
  have hsum := amount_of_checkedAdd hnext d
  have hle := fitsWithin_iff_amount.mp hfits d
  simp only [WorkerSlot.free, amount_saturatingSub]
  omega

theorem HasRoomBy.allocate {request : ResourceRequest} {running : List RunningJob}
    {deadline : VirtualTime} {candidate : RunningJob}
    (hroom : HasRoomBy request inventory running deadline)
    (h : inventory.tryAllocate candidate.slot candidate.resources = .ok allocated)
    (hends : candidate.endsAt ≤ deadline) :
    HasRoomBy request allocated (running ++ [candidate]) deadline := by
  obtain ⟨s, s', hslot, hslots, hcapacity, hfree⟩ := tryAllocate_free h
  obtain ⟨room, i, hi, hcap, hcover⟩ := hroom
  have hlt : candidate.slot < inventory.slots.length := (List.getElem?_eq_some_iff.mp hslot).1
  by_cases heq : candidate.slot = i
  · subst heq
    obtain rfl := Option.some.inj (hi.symm.trans hslot)
    refine ⟨s', candidate.slot, ?_, hcapacity ▸ hcap, ?_⟩
    · rw [hslots, List.getElem?_set_self hlt]
    intro d
    have hd := hcover d
    have hf := hfree d
    rw [freedBy_append, List.map_append, List.sum_append]
    simp only [freedBy, hends, and_self, decide_true, List.filter_cons_of_pos, List.filter_nil,
      List.map_cons, List.map_nil, List.sum_cons, List.sum_nil] at hd ⊢
    omega
  · refine ⟨room, i, ?_, hcap, hcover.mono ?_⟩
    · rw [hslots, List.getElem?_set_ne heq, hi]
    · exact freedBy_sublist (List.sublist_append_left _ _) i deadline

private theorem release_tryAllocate (h : inventory.tryAllocate slot resources = .ok allocated) :
    allocated.release slot resources = .ok inventory := by
  obtain ⟨s, next, hslot, hnext, _, rfl⟩ := SlotInventory.tryAllocate_eq_ok.mp h
  obtain ⟨hlt, hget⟩ := List.getElem?_eq_some_iff.mp hslot
  have hback : next.saturatingSub resources = s.allocated := by
    apply eq_of_amount
    intro d
    rw [amount_saturatingSub, amount_of_checkedAdd hnext d]
    omega
  have hself : inventory.slots.set slot s = inventory.slots := by
    rw [← hget]
    exact List.set_getElem_self hlt
  refine SlotInventory.updateSlot_eq_ok.mpr ⟨_, List.getElem?_set_self hlt, ?_⟩
  simp only [List.set_set, hback]
  rw [hself]

end Allocation

/-- A decision as the running job it becomes: it ends its walltime after `now`. -/
def placed (jobs : Arena Job) (now : VirtualTime) (decisions : List DispatchDecision) :
    List RunningJob :=
  decisions.filterMap fun d => (jobs.get d.job).map fun job =>
    ⟨d.job, d.slot, job.request, Word.saturatingAdd now job.walltimeLimit⟩

section Backfill

variable {headRequest : ResourceRequest} {running : List RunningJob} {now reservation : VirtualTime}

/-- A kept candidate is allocated and leaves the head its room; any other leaves no trace. -/
theorem keepOrUndo_spec {candidate : RunningJob} {inventory inventory' : SlotInventory}
    {scratch scratch' : BackfillScratch} {kept : Bool}
    (h : keepOrUndo headRequest running now reservation candidate inventory scratch =
      some (kept, inventory', scratch')) :
    if kept then
      inventory.tryAllocate candidate.slot candidate.resources = .ok inventory' ∧
        (candidate.endsAt ≤ reservation ∨
          HasRoomBy headRequest inventory' (running ++ [candidate]) reservation)
    else inventory' = inventory := by
  unfold keepOrUndo at h
  split at h
  · rename_i hends
    cases hallocate : inventory.tryAllocate candidate.slot candidate.resources with
    | error e =>
      rw [hallocate] at h
      cases h
    | ok allocated =>
      rw [hallocate] at h
      obtain ⟨rfl, rfl, rfl⟩ := Option.some.inj h
      exact ⟨rfl, .inl hends⟩
  · unfold tryTentatively at h
    cases hallocate : inventory.tryAllocate candidate.slot candidate.resources with
    | error e =>
      rw [hallocate] at h
      cases h
    | ok allocated =>
      simp only [hallocate, release_tryAllocate hallocate] at h
      cases htime : (reservationTime headRequest allocated (running ++ [candidate]) now
          { scratch with runningWithCandidate := [] }).1 with
      | none =>
        simp only [htime, Bool.false_eq_true, if_false] at h
        obtain ⟨rfl, rfl, rfl⟩ := Option.some.inj h
        exact rfl
      | some time =>
        simp only [htime, decide_eq_true_eq] at h
        split at h
        · rename_i hle
          obtain ⟨rfl, rfl, rfl⟩ := Option.some.inj h
          exact ⟨rfl, .inr ((hasRoomBy_of_reservationTime htime).mono hle (List.Sublist.refl _))⟩
        · obtain ⟨rfl, rfl, rfl⟩ := Option.some.inj h
          exact rfl

end Backfill

end TaskerRT.Policy
