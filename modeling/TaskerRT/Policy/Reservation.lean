/- module: TaskerRT/Policy/Reservation
   source: crates/tasker-core/src/policy/backfill.rs (reservation_time)
   digest: A reservation is the earliest time at which some slot has freed enough. -/

import TaskerRT.Policy.Backfill

set_option autoImplicit false

namespace TaskerRT.Policy

open Library Domain Cluster Resources

/-- Free capacity together with what is freed covers the request in every dimension. -/
def Covers (request free : Resources) (freed : List Resources) : Prop :=
  ∀ d, request.amount d ≤ free.amount d + (freed.map (amount · d)).sum

theorem covers_nil {request free : Resources} :
    Covers request free [] ↔ request.fitsWithin free = true := by
  rw [fitsWithin_iff_amount]
  rfl

private theorem covers_cons {request free r : Resources} {freed : List Resources} :
    Covers request free (r :: freed) ↔ Covers request (free.saturatingAdd r) freed := by
  apply forall_congr'
  intro d
  rw [le_amount_saturatingAdd, List.map_cons, List.sum_cons, Nat.add_assoc]

theorem Covers.mono {request free : Resources} {freed freed' : List Resources}
    (h : Covers request free freed) (hsub : freed.Sublist freed') : Covers request free freed' := by
  intro d
  have hle : (freed.map (amount · d)).sum ≤ (freed'.map (amount · d)).sum :=
    (hsub.map _).sum_le_sum fun _ _ => Nat.zero_le _
  exact (h d).trans (Nat.add_le_add_left hle _)

theorem Covers.perm {request free : Resources} {freed freed' : List Resources}
    (h : Covers request free freed) (hperm : freed.Perm freed') : Covers request free freed' := by
  intro d
  rw [← (hperm.map (amount · d)).sum_eq]
  exact h d

def finishedBy (deadline : VirtualTime) (completions : List (VirtualTime × Resources)) :
    List Resources :=
  (completions.filter fun c => c.1 ≤ deadline).map Prod.snd

private theorem finished_cons_of_le {deadline : VirtualTime} {c : VirtualTime × Resources}
    {rest : List (VirtualTime × Resources)} (h : c.1 ≤ deadline) :
    finishedBy deadline (c :: rest) = c.2 :: finishedBy deadline rest := by
  rw [finishedBy, List.filter_cons_of_pos (by simpa using h), List.map_cons, finishedBy]

private theorem finished_eq_nil {deadline : VirtualTime}
    {completions : List (VirtualTime × Resources)}
    (h : ∀ c ∈ completions, deadline < c.1) : finishedBy deadline completions = [] := by
  rw [finishedBy, List.map_eq_nil_iff, List.filter_eq_nil_iff]
  intro c hc
  simpa using h c hc

section Replay

variable {request free : Resources} {completions : List (VirtualTime × Resources)}

private theorem mem_of_replayCompletions {t : VirtualTime}
    (h : replayCompletions request free completions = some t) :
    ∃ r, (t, r) ∈ completions := by
  induction completions generalizing free with
  | nil => exact nomatch h
  | cons c rest ih =>
    obtain ⟨endsAt, resources⟩ := c
    rw [replayCompletions] at h
    split at h
    · obtain rfl := Option.some.inj h
      exact ⟨resources, List.mem_cons_self⟩
    · obtain ⟨r, hr⟩ := ih h
      exact ⟨r, List.mem_cons_of_mem _ hr⟩

theorem covers_of_replayCompletions (hsorted : completions.Pairwise fun a b => a.1 ≤ b.1)
    {t : VirtualTime} (h : replayCompletions request free completions = some t) :
    Covers request free (finishedBy t completions) := by
  induction completions generalizing free with
  | nil => exact nomatch h
  | cons c rest ih =>
    obtain ⟨endsAt, resources⟩ := c
    obtain ⟨hfirst, hrest⟩ := List.pairwise_cons.mp hsorted
    rw [replayCompletions] at h
    split at h
    · rename_i hfit
      obtain rfl := Option.some.inj h
      rw [finished_cons_of_le (show (endsAt, resources).1 ≤ endsAt from le_rfl), covers_cons]
      exact (covers_nil.mpr hfit).mono (List.nil_sublist _)
    · obtain ⟨r, hr⟩ := mem_of_replayCompletions h
      rw [finished_cons_of_le (hfirst _ hr), covers_cons]
      exact ih hrest h

theorem replayCompletions_le (hsorted : completions.Pairwise fun a b => a.1 ≤ b.1)
    (hfree : request.fitsWithin free = false) {deadline : VirtualTime}
    (h : Covers request free (finishedBy deadline completions)) :
    ∃ t, replayCompletions request free completions = some t ∧ t ≤ deadline := by
  induction completions generalizing free with
  | nil =>
    rw [covers_nil.mp h] at hfree
    exact nomatch hfree
  | cons c rest ih =>
    obtain ⟨endsAt, resources⟩ := c
    obtain ⟨hfirst, hrest⟩ := List.pairwise_cons.mp hsorted
    have hle : endsAt ≤ deadline := by
      by_contra hlt
      have hnil : finishedBy deadline ((endsAt, resources) :: rest) = [] := by
        apply finished_eq_nil
        intro c hc
        rcases List.mem_cons.mp hc with rfl | hc
        · exact not_le.mp hlt
        · exact lt_of_lt_of_le (not_le.mp hlt) (hfirst c hc)
      rw [hnil, covers_nil] at h
      rw [h] at hfree
      exact nomatch hfree
    rw [finished_cons_of_le hle, covers_cons] at h
    rw [replayCompletions]
    by_cases hfit : request.fitsWithin (free.saturatingAdd resources) = true
    · exact ⟨endsAt, if_pos hfit, hle⟩
    · obtain ⟨t, ht, hbound⟩ := ih hrest (Bool.eq_false_iff.mpr hfit) h
      exact ⟨t, (if_neg hfit).trans ht, hbound⟩

end Replay

def freedBy (running : List RunningJob) (slot : SlotIndex) (deadline : VirtualTime) :
    List Resources :=
  (running.filter fun r => r.slot = slot ∧ r.endsAt ≤ deadline).map RunningJob.resources

theorem sorted_slotCompletions (running : List RunningJob) (slot : SlotIndex) :
    (slotCompletions running slot).Pairwise fun a b => a.1 ≤ b.1 :=
  List.pairwise_insertionSort _ _

private theorem finished_slotCompletions (running : List RunningJob) (slot : SlotIndex)
    (deadline : VirtualTime) :
    (finishedBy deadline (slotCompletions running slot)).Perm (freedBy running slot deadline) := by
  have hperm := (List.perm_insertionSort (fun a b : VirtualTime × Resources => a.1 ≤ b.1)
    ((running.filter fun r => r.slot = slot).map fun r => (r.endsAt, r.resources)))
  have hfinished := (hperm.filter fun c => decide (c.1 ≤ deadline)).map Prod.snd
  apply hfinished.trans
  have hfilter : (fun r : RunningJob => decide (r.endsAt ≤ deadline) && decide (r.slot = slot)) =
      fun r => decide (r.slot = slot ∧ r.endsAt ≤ deadline) := by
    ext r
    simp [Bool.and_comm]
  rw [List.filter_map, List.map_map, List.filter_filter, freedBy, ← hfilter]
  rfl

theorem freedBy_append (running more : List RunningJob) (slot : SlotIndex)
    (deadline : VirtualTime) :
    freedBy (running ++ more) slot deadline =
      freedBy running slot deadline ++ freedBy more slot deadline := by
  rw [freedBy, List.filter_append, List.map_append, freedBy, freedBy]

theorem freedBy_sublist {running more : List RunningJob} (h : running.Sublist more)
    (slot : SlotIndex) (deadline : VirtualTime) :
    (freedBy running slot deadline).Sublist (freedBy more slot deadline) :=
  (h.filter _).map _

section Loop

variable {request : ResourceRequest} {running : List RunningJob} {now : VirtualTime}

/-- A time the slot loop returns is one it was given, or one by which a slot has freed enough. -/
private theorem covers_of_reservationLoop {slots : List (WorkerSlot × SlotIndex)}
    {earliest : Option VirtualTime} {scratch : BackfillScratch} {t : VirtualTime}
    (h : (reservationLoop request running now slots earliest scratch).1 = some t) :
    earliest = some t ∨ ∃ slot i, (slot, i) ∈ slots ∧ request.fitsWithin slot.capacity = true ∧
      Covers request slot.free (freedBy running i t) := by
  induction slots generalizing earliest scratch with
  | nil => exact .inl h
  | cons entry rest ih =>
    obtain ⟨slot, i⟩ := entry
    have hmore : ∀ {earliest : Option VirtualTime} {scratch : BackfillScratch},
        (reservationLoop request running now rest earliest scratch).1 = some t →
        earliest = some t ∨ ∃ slot' i', (slot', i') ∈ (slot, i) :: rest ∧
          request.fitsWithin slot'.capacity = true ∧
            Covers request slot'.free (freedBy running i' t) := by
      intro earliest scratch hloop
      rcases ih hloop with hearliest | ⟨slot', i', hmem, hcover⟩
      · exact .inl hearliest
      · exact .inr ⟨slot', i', List.mem_cons_of_mem _ hmem, hcover⟩
    rw [reservationLoop] at h
    split at h
    · exact hmore h
    rename_i hcapacity
    have hcap : request.fitsWithin slot.capacity = true := by simpa using hcapacity
    split at h
    · rename_i hfree
      exact .inr ⟨slot, i, List.mem_cons_self, hcap,
        (covers_nil.mpr hfree).mono (List.nil_sublist _)⟩
    simp only at h
    split at h
    · rename_i endsAt hreplay
      rcases hmore h with hkept | hfound
      · have hcover : Covers request slot.free (freedBy running i endsAt) :=
          (covers_of_replayCompletions (sorted_slotCompletions running i) hreplay).perm
            (finished_slotCompletions running i endsAt)
        cases earliest with
        | none =>
          obtain rfl := Option.some.inj hkept
          exact .inr ⟨slot, i, List.mem_cons_self, hcap, hcover⟩
        | some current =>
          have hmin : min current endsAt = t := Option.some.inj hkept
          rcases min_choice current endsAt with hcurrent | hends
          · exact .inl (congrArg some (hcurrent.symm.trans hmin))
          · obtain rfl : endsAt = t := hends.symm.trans hmin
            exact .inr ⟨slot, i, List.mem_cons_self, hcap, hcover⟩
      · exact .inr hfound
    · exact hmore h

/-- With no slot free enough right now, every bound the loop meets bounds its result. -/
private theorem reservationLoop_le {slots : List (WorkerSlot × SlotIndex)}
    {earliest : Option VirtualTime} {scratch : BackfillScratch} {deadline : VirtualTime}
    (hbusy : ∀ slot i, (slot, i) ∈ slots → request.fitsWithin slot.free = false)
    (h : (∃ e, earliest = some e ∧ e ≤ deadline) ∨
      ∃ slot i, (slot, i) ∈ slots ∧ request.fitsWithin slot.capacity = true ∧
        Covers request slot.free (freedBy running i deadline)) :
    ∃ t, (reservationLoop request running now slots earliest scratch).1 = some t ∧
      t ≤ deadline := by
  induction slots generalizing earliest scratch with
  | nil =>
    rcases h with h | ⟨_, _, hmem, _⟩
    · exact h
    · exact nomatch hmem
  | cons entry rest ih =>
    obtain ⟨slot, i⟩ := entry
    have hbusy' : ∀ slot i, (slot, i) ∈ rest → request.fitsWithin slot.free = false :=
      fun slot' i' hmem => hbusy slot' i' (List.mem_cons_of_mem _ hmem)
    have hslot := hbusy slot i List.mem_cons_self
    rw [reservationLoop]
    by_cases hcap : request.fitsWithin slot.capacity = true
    · rw [if_neg (by simp [hcap]), if_neg (by simp [hslot])]
      simp only
      cases hreplay : replayCompletions request slot.free (slotCompletions running i) with
      | some endsAt =>
        simp only
        apply ih hbusy'
        rcases h with ⟨e, rfl, he⟩ | ⟨slot', i', hmem, hcap', hcover⟩
        · exact .inl ⟨min e endsAt, rfl, (min_le_left _ _).trans he⟩
        rcases List.mem_cons.mp hmem with heq | hmem
        · obtain ⟨rfl, rfl⟩ := Prod.mk.inj heq
          obtain ⟨t, ht, hle⟩ := replayCompletions_le (sorted_slotCompletions running i') hslot
            (hcover.perm (finished_slotCompletions running i' deadline).symm)
          obtain rfl := Option.some.inj (hreplay.symm.trans ht)
          cases earliest with
          | none => exact .inl ⟨endsAt, rfl, hle⟩
          | some current => exact .inl ⟨min current endsAt, rfl, (min_le_right _ _).trans hle⟩
        · exact .inr ⟨slot', i', hmem, hcap', hcover⟩
      | none =>
        simp only
        apply ih hbusy'
        rcases h with h | ⟨slot', i', hmem, hcap', hcover⟩
        · exact .inl h
        rcases List.mem_cons.mp hmem with heq | hmem
        · obtain ⟨rfl, rfl⟩ := Prod.mk.inj heq
          obtain ⟨t, ht, _⟩ := replayCompletions_le (sorted_slotCompletions running i') hslot
            (hcover.perm (finished_slotCompletions running i' deadline).symm)
          exact nomatch hreplay.symm.trans ht
        · exact .inr ⟨slot', i', hmem, hcap', hcover⟩
    · rw [if_pos (by simp [hcap])]
      apply ih hbusy'
      rcases h with h | ⟨slot', i', hmem, hcap', hcover⟩
      · exact .inl h
      rcases List.mem_cons.mp hmem with heq | hmem
      · obtain ⟨rfl, rfl⟩ := Prod.mk.inj heq
        exact absurd hcap' hcap
      · exact .inr ⟨slot', i', hmem, hcap', hcover⟩

end Loop

/-- Some slot that can hold the request has freed enough by the deadline. -/
def HasRoomBy (request : ResourceRequest) (inventory : SlotInventory) (running : List RunningJob)
    (deadline : VirtualTime) : Prop :=
  ∃ slot i, inventory.slots[i]? = some slot ∧ request.fitsWithin slot.capacity = true ∧
    Covers request slot.free (freedBy running i deadline)

def Busy (request : ResourceRequest) (inventory : SlotInventory) : Prop :=
  ∀ (i : SlotIndex) slot, inventory.slots[i]? = some slot → request.fitsWithin slot.free = false

section Time

variable {request : ResourceRequest} {inventory : SlotInventory} {running : List RunningJob}
  {now : VirtualTime} {scratch : BackfillScratch}

theorem hasRoomBy_of_reservationTime {t : VirtualTime}
    (h : (reservationTime request inventory running now scratch).1 = some t) :
    HasRoomBy request inventory running t := by
  rcases covers_of_reservationLoop h with hnone | ⟨slot, i, hmem, hcap, hcover⟩
  · exact nomatch hnone
  · exact ⟨slot, i, List.mem_zipIdx_iff_getElem?.mp hmem, hcap, hcover⟩

theorem reservationTime_le {deadline : VirtualTime} (hbusy : Busy request inventory)
    (h : HasRoomBy request inventory running deadline) :
    ∃ t, (reservationTime request inventory running now scratch).1 = some t ∧ t ≤ deadline := by
  obtain ⟨slot, i, hslot, hcap, hcover⟩ := h
  apply reservationLoop_le
  · intro slot' i' hmem
    exact hbusy i' slot' (List.mem_zipIdx_iff_getElem?.mp hmem)
  · exact .inr ⟨slot, i, List.mem_zipIdx_iff_getElem?.mpr hslot, hcap, hcover⟩

theorem HasRoomBy.mono {deadline deadline' : VirtualTime} {more : List RunningJob}
    (h : HasRoomBy request inventory running deadline) (hle : deadline ≤ deadline')
    (hsub : running.Sublist more) : HasRoomBy request inventory more deadline' := by
  obtain ⟨slot, i, hslot, hcap, hcover⟩ := h
  refine ⟨slot, i, hslot, hcap, hcover.mono ?_⟩
  apply List.Sublist.trans _ (freedBy_sublist hsub i deadline')
  apply List.Sublist.map
  apply List.monotone_filter_right
  intro r hr
  simp only [decide_eq_true_eq] at hr ⊢
  exact ⟨hr.1, hr.2.trans hle⟩

theorem busy_of_firstFit (h : inventory.firstFit request = none) : Busy request inventory := by
  intro i slot hslot
  have hall := List.findIdx?_eq_none_iff.mp h
  exact hall slot (List.mem_of_getElem? hslot)

end Time

end TaskerRT.Policy
