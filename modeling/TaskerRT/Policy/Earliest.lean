/- module: TaskerRT/Policy/Earliest
   source: crates/tasker-core/src/policy/backfill.rs (reservation_time)
   digest: The reservation is the least deadline that frees enough, and moves as expected. -/

import TaskerRT.Policy.Backfilled

set_option autoImplicit false

namespace TaskerRT.Policy

open Library Domain Cluster Resources

def total (freed : List Resources) : Resources := freed.foldr saturatingAdd Resources.zero

/-- The deadlines on a slot by which the request fits what is free and what has been freed. -/
def fittingDeadlines (request : ResourceRequest) (running : List RunningJob) (slot : WorkerSlot)
    (i : SlotIndex) : Set VirtualTime :=
  {t | (∃ r ∈ running, r.slot = i ∧ r.endsAt = t) ∧
    request.fitsWithin (slot.free.saturatingAdd (total (freedBy running i t))) = true}

/-- The first fitting deadline of every slot whose capacity holds the request. -/
def startTimes (request : ResourceRequest) (inventory : SlotInventory) (running : List RunningJob) :
    Set VirtualTime :=
  {t | ∃ slot i, inventory.slots[i]? = some slot ∧ request.fitsWithin slot.capacity = true ∧
    IsLeast (fittingDeadlines request running slot i) t}

/-- `a` is no later than `b`; no reservation is the latest. -/
def NoLater (a b : Option VirtualTime) : Prop := ∀ t, b = some t → ∃ s, a = some s ∧ s ≤ t

/-- The same slot with at least as much allocated. -/
def Grows (s s' : WorkerSlot) : Prop :=
  s'.capacity = s.capacity ∧ s.allocated.fitsWithin s'.allocated = true

private theorem NoLater.antisymm {a b : Option VirtualTime} (hab : NoLater a b)
    (hba : NoLater b a) :
    a = b := by
  cases b with
  | some t =>
    obtain ⟨s, rfl, hle⟩ := hab t rfl
    obtain ⟨u, hu, hge⟩ := hba s rfl
    obtain rfl := Option.some.inj hu
    exact congrArg some (le_antisymm hle hge)
  | none =>
    cases a with
    | none => rfl
    | some s =>
      obtain ⟨u, hu, -⟩ := hba s rfl
      cases hu

private theorem le_amount_total {request : Resources} {freed : List Resources} {d : Dimension} :
    ∀ {n : Nat}, request.amount d ≤ (total freed).amount d + n ↔
      request.amount d ≤ (freed.map (amount · d)).sum + n := by
  induction freed with
  | nil => cases d <;> exact Iff.rfl
  | cons r freed ih =>
    intro n
    change request.amount d ≤ (r.saturatingAdd (total freed)).amount d + n ↔ _
    rw [le_amount_saturatingAdd, List.map_cons, List.sum_cons, Nat.add_comm (r.amount d),
      Nat.add_assoc, ih]
    omega

private theorem covers_iff_total {request free : Resources} {freed : List Resources} :
    Covers request free freed ↔ request.fitsWithin (free.saturatingAdd (total freed)) = true := by
  rw [fitsWithin_iff_amount]
  apply forall_congr'
  intro d
  have hsum := @le_amount_saturatingAdd request free (total freed) d 0
  rw [Nat.add_zero, Nat.add_zero] at hsum
  rw [hsum, Nat.add_comm (free.amount d) ((total freed).amount d), le_amount_total, Nat.add_comm]

section Least

variable {request : ResourceRequest} {inventory : SlotInventory} {running : List RunningJob}
  {now : VirtualTime} {scratch : BackfillScratch}

private theorem exists_deadline {free : Resources} {i : SlotIndex} {t : VirtualTime}
    (hbusy : request.fitsWithin free = false) (h : Covers request free (freedBy running i t)) :
    ∃ r ∈ running, r.slot = i ∧ r.endsAt ≤ t ∧ Covers request free (freedBy running i r.endsAt) := by
  set finished := running.filter fun r => decide (r.slot = i ∧ r.endsAt ≤ t) with hfinished
  have hne : finished.toFinset.Nonempty := by
    rw [List.toFinset_nonempty_iff]
    intro hnil
    rw [freedBy, ← hfinished, hnil, List.map_nil, covers_nil] at h
    rw [h] at hbusy
    cases hbusy
  obtain ⟨last, hlast, hmax⟩ := finished.toFinset.exists_max_image RunningJob.endsAt hne
  obtain ⟨hmem, hslot, hle⟩ : last ∈ running ∧ last.slot = i ∧ last.endsAt ≤ t := by
    simpa [hfinished] using hlast
  refine ⟨last, hmem, hslot, hle, ?_⟩
  have hsame : freedBy running i last.endsAt = freedBy running i t := by
    unfold freedBy
    congr 1
    apply List.filter_congr
    intro r hr
    have hbound : r.slot = i → r.endsAt ≤ t → r.endsAt ≤ last.endsAt := fun hs ht =>
      hmax r (by simp [hfinished, hr, hs, ht])
    rw [decide_eq_decide]
    exact ⟨fun hd => ⟨hd.1, hd.2.trans hle⟩, fun hd => ⟨hd.1, hbound hd.1 hd.2⟩⟩
  rwa [hsame]

private theorem busy_iff : Busy request inventory ↔
    ∀ s ∈ inventory.slots, request.fitsWithin s.free = false := by
  constructor
  · intro h s hs
    obtain ⟨i, hi⟩ := List.getElem?_of_mem hs
    exact h i s hi
  · intro h i s hs
    exact h s (List.mem_of_getElem? hs)

/-- The reservation is the first fitting deadline of a slot, and no later than any. -/
private theorem isLeast_of_reservationTime (hbusy : Busy request inventory) {t : VirtualTime}
    (h : (reservationTime request inventory running now scratch).1 = some t) :
    IsLeast (startTimes request inventory running) t := by
  have hbound : ∀ deadline, HasRoomBy request inventory running deadline → t ≤ deadline := by
    intro deadline hroom
    obtain ⟨t', ht', hle⟩ := @reservationTime_le request inventory running now scratch _ hbusy hroom
    obtain rfl := Option.some.inj (h.symm.trans ht')
    exact hle
  have hroomBy : ∀ {slot : WorkerSlot} {i : SlotIndex} {deadline : VirtualTime},
      inventory.slots[i]? = some slot → request.fitsWithin slot.capacity = true →
      deadline ∈ fittingDeadlines request running slot i →
        HasRoomBy request inventory running deadline := fun hslot hcap hfits =>
    ⟨_, _, hslot, hcap, covers_iff_total.mpr hfits.2⟩
  obtain ⟨slot, i, hslot, hcap, hcover⟩ := hasRoomBy_of_reservationTime h
  obtain ⟨r, hr, hri, hle, hcover'⟩ := exists_deadline (hbusy i slot hslot) hcover
  have hends : r.endsAt = t := le_antisymm hle (hbound _ ⟨slot, i, hslot, hcap, hcover'⟩)
  refine ⟨⟨slot, i, hslot, hcap, ⟨⟨r, hr, hri, hends⟩, covers_iff_total.mp hcover⟩, ?_⟩, ?_⟩
  · intro deadline hd
    exact hbound deadline (hroomBy hslot hcap hd)
  · rintro deadline ⟨slot', i', hslot', hcap', hleast⟩
    exact hbound deadline (hroomBy hslot' hcap' hleast.1)

private theorem reservationTime_of_mem_starts (hbusy : Busy request inventory) {t : VirtualTime}
    (h : t ∈ startTimes request inventory running) :
    ∃ s, (reservationTime request inventory running now scratch).1 = some s ∧ s ≤ t := by
  obtain ⟨slot, i, hslot, hcap, hleast⟩ := h
  exact reservationTime_le hbusy ⟨slot, i, hslot, hcap, covers_iff_total.mpr hleast.1.2⟩

end Least

section Laws

variable {request : ResourceRequest} {inventory : SlotInventory} {running : List RunningJob}
  {now : VirtualTime}

private theorem HasRoomBy.subperm {more : List RunningJob} {t : VirtualTime}
    (h : HasRoomBy request inventory running t) (hsub : running.Subperm more) :
    HasRoomBy request inventory more t := by
  obtain ⟨kept, hperm, hsublist⟩ := hsub
  obtain ⟨slot, i, hslot, hcap, hcover⟩ := h
  have hkept : HasRoomBy request inventory kept t :=
    ⟨slot, i, hslot, hcap, hcover.perm ((hperm.symm.filter _).map _)⟩
  exact hkept.mono le_rfl hsublist

private theorem noLater_of_subperm {more : List RunningJob} (hsub : running.Subperm more)
    (scratch scratch' : BackfillScratch) :
    NoLater (reservationTime request inventory more now scratch').1
      (reservationTime request inventory running now scratch).1 := by
  intro t ht
  by_cases hbusy : Busy request inventory
  · exact reservationTime_le hbusy ((hasRoomBy_of_reservationTime ht).subperm hsub)
  · rw [reservationTime_eq_now hbusy] at ht
    obtain rfl := Option.some.inj ht
    exact ⟨now, reservationTime_eq_now hbusy scratch', le_rfl⟩

private theorem Grows.free {s s' : WorkerSlot} (h : Grows s s') (d : Dimension) :
    s'.free.amount d ≤ s.free.amount d := by
  have halloc := fitsWithin_iff_amount.mp h.2 d
  unfold WorkerSlot.free
  rw [amount_saturatingSub, amount_saturatingSub, h.1]
  omega

private theorem Grows.covers {s s' : WorkerSlot} (h : Grows s s') {freed : List Resources}
    (hcover : Covers request s'.free freed) : Covers request s.free freed := fun d =>
  (hcover d).trans (Nat.add_le_add_right (h.free d) _)

/-- With no deadline in the past, a larger allocation never brings a reservation forward. -/
private theorem noLater_of_grows {grown : SlotInventory} (hpast : ∀ r ∈ running, now ≤ r.endsAt)
    (hgrows : List.Forall₂ Grows inventory.slots grown.slots) (scratch scratch' : BackfillScratch) :
    NoLater (reservationTime request inventory running now scratch).1
      (reservationTime request grown running now scratch').1 := by
  have hold : ∀ (i : SlotIndex) (s' : WorkerSlot), grown.slots[i]? = some s' →
      ∃ s, inventory.slots[i]? = some s ∧ Grows s s' := by
    intro i s' hs'
    obtain ⟨hlt', rfl⟩ := List.getElem?_eq_some_iff.mp hs'
    have hlt : i < inventory.slots.length := by rwa [hgrows.length_eq]
    exact ⟨inventory.slots[i], List.getElem?_eq_getElem hlt,
      hgrows.get hlt hlt'⟩
  intro t ht
  by_cases hbusy : Busy request inventory
  · obtain ⟨s', i, hs', hcap, hcover⟩ := hasRoomBy_of_reservationTime ht
    obtain ⟨s, hs, hgrow⟩ := hold i s' hs'
    apply reservationTime_le hbusy
    exact ⟨s, i, hs, hgrow.1 ▸ hcap, hgrow.covers hcover⟩
  · refine ⟨now, reservationTime_eq_now hbusy scratch, ?_⟩
    by_cases hbusy' : Busy request grown
    · obtain ⟨⟨s, i, -, -, ⟨⟨r, hr, -, rfl⟩, -⟩, -⟩, -⟩ := isLeast_of_reservationTime hbusy' ht
      exact hpast r hr
    · rw [reservationTime_eq_now hbusy'] at ht
      exact (Option.some.inj ht).le

/-- The replay gives the same for every order that sorts the deadlines, however ties fall. -/
private theorem replayCompletions_congr {free : Resources}
    {completions sorted : List (VirtualTime × Resources)} (hfree : request.fitsWithin free = false)
    (hcompletions : completions.Pairwise fun a b => a.1 ≤ b.1)
    (hsorted : sorted.Pairwise fun a b => a.1 ≤ b.1) (hperm : completions.Perm sorted) :
    replayCompletions request free sorted = replayCompletions request free completions := by
  have hle : ∀ {cs cs' : List (VirtualTime × Resources)},
      (cs.Pairwise fun a b => a.1 ≤ b.1) → (cs'.Pairwise fun a b => a.1 ≤ b.1) → cs.Perm cs' →
        NoLater (replayCompletions request free cs') (replayCompletions request free cs) := by
    intro cs cs' hcs hcs' hp t ht
    apply replayCompletions_le hcs' hfree
    exact (covers_of_replayCompletions hcs ht).perm ((hp.filter _).map _)
  exact (hle hcompletions hsorted hperm).antisymm (hle hsorted hcompletions hperm.symm)

end Laws

/-- `reservationTime` is `now` when the request fits, else the least first fitting deadline over
the slots; it does not depend on orders, ties or old buffers, and obeys its two laws. -/
theorem reservationTime_is_earliest (request : ResourceRequest) (inventory : SlotInventory)
    (running : List RunningJob) (now : VirtualTime) (scratch : BackfillScratch) :
    ((∃ s ∈ inventory.slots, request.fitsWithin s.free = true) →
        (reservationTime request inventory running now scratch).1 = some now) ∧
      ((∀ s ∈ inventory.slots, request.fitsWithin s.free = false) →
        (∀ t, (reservationTime request inventory running now scratch).1 = some t ↔
          IsLeast (startTimes request inventory running) t) ∧
        ((reservationTime request inventory running now scratch).1 = none ↔
          startTimes request inventory running = ∅)) ∧
      (∀ reordered scratch', running.Perm reordered →
        (reservationTime request inventory reordered now scratch').1
          = (reservationTime request inventory running now scratch).1) ∧
      (∀ more scratch', running.Subperm more →
        NoLater (reservationTime request inventory more now scratch').1
          (reservationTime request inventory running now scratch).1) ∧
      ((∀ r ∈ running, now ≤ r.endsAt) → ∀ (grown : SlotInventory) scratch',
        List.Forall₂ Grows inventory.slots grown.slots →
        NoLater (reservationTime request inventory running now scratch).1
          (reservationTime request grown running now scratch').1) ∧
      ∀ (slot : WorkerSlot) (i : SlotIndex) (sorted : List (VirtualTime × Resources)),
        request.fitsWithin slot.free = false → (sorted.Pairwise fun a b => a.1 ≤ b.1) →
        (slotCompletions running i).Perm sorted →
        replayCompletions request slot.free sorted
          = replayCompletions request slot.free (slotCompletions running i) := by
  refine ⟨?_, ?_, ?_, ?_, ?_, ?_⟩
  · rintro ⟨s, hs, hfits⟩
    apply reservationTime_eq_now
    intro hbusy
    rw [busy_iff.mp hbusy s hs] at hfits
    cases hfits
  · intro hfull
    have hbusy := busy_iff.mpr hfull
    refine ⟨fun t => ⟨isLeast_of_reservationTime hbusy, fun hleast => ?_⟩, fun hnone => ?_,
      fun hempty => ?_⟩
    · obtain ⟨s, hs, hle⟩ := @reservationTime_of_mem_starts request inventory running now scratch
        hbusy t hleast.1
      have hge := hleast.2 (isLeast_of_reservationTime hbusy hs).1
      rw [hs, le_antisymm hle hge]
    · rw [Set.eq_empty_iff_forall_notMem]
      intro t ht
      obtain ⟨s, hs, -⟩ := @reservationTime_of_mem_starts request inventory running now scratch
        hbusy t ht
      rw [hnone] at hs
      cases hs
    · cases hsome : (reservationTime request inventory running now scratch).1 with
      | none => rfl
      | some t =>
        have hmem := (isLeast_of_reservationTime hbusy hsome).1
        rw [hempty] at hmem
        exact hmem.elim
  · intro reordered scratch' hperm
    exact (noLater_of_subperm hperm.subperm scratch scratch').antisymm
      (noLater_of_subperm hperm.symm.subperm scratch' scratch)
  · intro more scratch' hsub
    exact noLater_of_subperm hsub scratch scratch'
  · intro hpast grown scratch' hgrows
    exact noLater_of_grows hpast hgrows scratch scratch'
  · intro slot i sorted hfree hsorted hperm
    exact replayCompletions_congr hfree (sorted_slotCompletions running i) hsorted hperm

def heldSlot : SlotInventory := ⟨[⟨⟨4, 0, 0⟩, ⟨4, 0, 0⟩⟩], ⟨4, 0, 0⟩⟩

def heldBy : List RunningJob := [⟨⟨0⟩, 0, ⟨2, 0, 0⟩, 9⟩, ⟨⟨1⟩, 0, ⟨2, 0, 0⟩, 5⟩]

/-- Three cpu are free when the second of the two ends. -/
theorem reservationTime_is_earliest_sample :
    IsLeast (startTimes ⟨3, 0, 0⟩ heldSlot heldBy) 9 :=
  ((reservationTime_is_earliest ⟨3, 0, 0⟩ heldSlot heldBy 0 BackfillScratch.new).2.1
    (by decide)).1 9 |>.mp (by decide)

end TaskerRT.Policy
