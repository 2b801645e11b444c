/- module: TaskerRT/Policy/Backfilled
   source: crates/tasker-core/src/policy/backfill.rs (easy_backfill, reservation_time)
   digest: What a whole backfill pass leaves behind: the head's reservation and the inventory. -/

import TaskerRT.Policy.NoDelay
import TaskerRT.Policy.Placement

set_option autoImplicit false

namespace TaskerRT.Policy

open Library Domain Cluster Resources

section Now

variable {request : ResourceRequest} {running : List RunningJob} {now : VirtualTime}

theorem fitsWithin_capacity {s : WorkerSlot} (h : request.fitsWithin s.free = true) :
    request.fitsWithin s.capacity = true := by
  rw [fitsWithin_iff_amount] at h ⊢
  intro d
  have hd := h d
  simp only [WorkerSlot.free, amount_saturatingSub] at hd
  omega

private theorem reservationLoop_eq_now {slots : List (WorkerSlot × SlotIndex)} {s : WorkerSlot}
    {i : SlotIndex} (hmem : (s, i) ∈ slots) (hfits : request.fitsWithin s.free = true) :
    ∀ {earliest : Option VirtualTime} {scratch : BackfillScratch},
      (reservationLoop request running now slots earliest scratch).1 = some now := by
  induction slots with
  | nil => exact nomatch hmem
  | cons first rest ih =>
    intro earliest scratch
    obtain ⟨slot, index⟩ := first
    rcases List.mem_cons.mp hmem with hfirst | hrest
    · obtain ⟨rfl, rfl⟩ := Prod.mk.inj hfirst
      simp [reservationLoop, hfits, fitsWithin_capacity hfits]
    · rw [reservationLoop]
      split
      · exact ih hrest
      split
      · rfl
      dsimp only
      split
      · exact ih hrest
      · exact ih hrest

theorem reservationTime_eq_now {inventory : SlotInventory} (h : ¬ Busy request inventory)
    (scratch : BackfillScratch) :
    (reservationTime request inventory running now scratch).1 = some now := by
  unfold Busy at h
  push Not at h
  obtain ⟨i, s, hs, hfits⟩ := h
  exact reservationLoop_eq_now (List.mem_zipIdx_iff_getElem?.mpr hs)
    (Bool.not_eq_false _ ▸ hfits)

end Now

theorem Busy.grown {request : ResourceRequest} {jobs : Arena Job}
    {new : List DispatchDecision}
    {inventory inventory' : SlotInventory} (hbusy : Busy request inventory)
    (h : Grown jobs new inventory inventory') : Busy request inventory' := by
  intro i s' hs'
  have hlt : i < inventory.slots.length := h.length ▸ (List.getElem?_eq_some_iff.mp hs').1
  have hs := List.getElem?_eq_getElem hlt
  obtain ⟨t, ht, hcap, halloc, -⟩ := h.slot i _ hs
  obtain rfl := Option.some.inj (hs'.symm.trans ht)
  apply Bool.eq_false_iff.mpr
  intro hfits
  have hbefore : request.fitsWithin inventory.slots[i].free = true := by
    rw [fitsWithin_iff_amount] at hfits ⊢
    intro d
    have hd := hfits d
    have ha := halloc d
    simp only [WorkerSlot.free, amount_saturatingSub, hcap] at hd ⊢
    omega
  rw [hbusy i _ hs] at hbefore
  cases hbefore

section Pass

variable {jobs : Arena Job} {headRequest : ResourceRequest} {running : List RunningJob}
  {now reservation : VirtualTime} {budget : PackBudget}

/-- What the candidate loop adds from entry number `index` on. -/
structure Fills (jobs : Arena Job) (entries : List ReadyEntry) (index : Nat)
    (s out : BackfillState) (new : List DispatchDecision) : Prop where
  decisions : out.decisions = s.decisions ++ new
  grown : Grown jobs new s.inventory out.inventory
  sublist : (new.map (·.job)).Sublist (entries.map (·.job))
  disposition : ∀ k < index, out.disposition[k]? = s.disposition[k]?
  reservation : out.outcome.reservation = s.outcome.reservation

private theorem Fills.stop (entries : List ReadyEntry) (index : Nat) (s : BackfillState) :
    Fills jobs entries index s s [] :=
  ⟨(List.append_nil _).symm, Grown.refl jobs s.inventory, List.nil_sublist _, fun _ _ => rfl, rfl⟩

private theorem Fills.skip {entry : ReadyEntry} {rest : List ReadyEntry} {index : Nat}
    {s s₁ out : BackfillState} {new : List DispatchDecision}
    (h : Fills jobs rest (index + 1) s₁ out new) (hinventory : s₁.inventory = s.inventory)
    (hdecisions : s₁.decisions = s.decisions)
    (hdisposition : ∀ k < index, s₁.disposition[k]? = s.disposition[k]?)
    (hreservation : s₁.outcome.reservation = s.outcome.reservation) :
    Fills jobs (entry :: rest) index s out new :=
  ⟨hdecisions ▸ h.decisions, hinventory ▸ h.grown, h.sublist.cons _,
    fun k hk => (h.disposition k (by omega)).trans (hdisposition k hk),
    h.reservation.trans hreservation⟩

/-- Through the candidate loop the head keeps its room, and the inventory changes by what was
decided. -/
theorem backfillLoop_fills {entries : List ReadyEntry} : ∀ {index : Nat}
    {s out : BackfillState}
    {earlier : List RunningJob},
    HasRoomBy headRequest s.inventory (running ++ earlier) reservation →
    backfillLoop jobs headRequest running now reservation budget entries index s = some out →
    ∃ new, Fills jobs entries index s out new ∧
      HasRoomBy headRequest out.inventory (running ++ (earlier ++ placed jobs now new))
        reservation := by
  induction entries with
  | nil =>
    intro index s out earlier hroom h
    obtain rfl := Option.some.inj h
    exact ⟨[], Fills.stop [] index s, by simpa [placed] using hroom⟩
  | cons entry rest ih =>
    intro index s out earlier hroom h
    have hset : ∀ (mark : Disposition), ∀ k < index,
        (s.disposition.set index mark)[k]? = s.disposition[k]? := fun mark k hk =>
      List.getElem?_set_ne (by omega)
    rw [backfillLoop] at h
    split at h
    · obtain rfl := Option.some.inj h
      exact ⟨[], Fills.stop _ index s, by simpa [placed] using hroom⟩
    cases hjob : jobs.get entry.job with
    | none =>
      simp only [hjob] at h
      obtain ⟨new, hfills, hfinal⟩ := ih (by exact hroom) h
      exact ⟨new, hfills.skip rfl rfl (hset _) rfl, hfinal⟩
    | some job =>
      simp only [hjob] at h
      cases hfit : s.inventory.firstFit job.request with
      | none =>
        simp only [hfit] at h
        obtain ⟨new, hfills, hfinal⟩ := ih (by exact hroom) h
        exact ⟨new, hfills.skip rfl rfl (fun _ _ => rfl) rfl, hfinal⟩
      | some slot =>
        simp only [hfit] at h
        split at h
        · cases h
        · rename_i inventory scratch hkeep
          obtain rfl := keepOrUndo_spec hkeep
          obtain ⟨new, hfills, hfinal⟩ := ih (by exact hroom) h
          exact ⟨new, hfills.skip rfl rfl (fun _ _ => rfl) rfl, hfinal⟩
        · rename_i inventory scratch hkeep
          obtain ⟨hallocate, hends⟩ := keepOrUndo_spec hkeep
          have hroom' : HasRoomBy headRequest inventory (running ++ (earlier ++
              [⟨entry.job, slot, job.request, Word.saturatingAdd now job.walltimeLimit⟩]))
              reservation := by
            rcases hends with hends | hkept
            · rw [← List.append_assoc]
              exact hroom.allocate hallocate hends
            · apply hkept.mono le_rfl
              exact List.Sublist.append_left (List.sublist_append_right _ _) _
          obtain ⟨new, hfills, hfinal⟩ := ih hroom' h
          refine ⟨⟨entry.job, slot⟩ :: new, ⟨?_, ?_, ?_, ?_, hfills.reservation⟩, ?_⟩
          · rw [hfills.decisions, List.append_assoc, List.singleton_append]
          · exact (Grown.allocate hjob hallocate).trans hfills.grown
          · exact hfills.sublist.cons_cons _
          · exact fun k hk => (hfills.disposition k (by omega)).trans (hset _ k hk)
          · rw [List.append_assoc] at hfinal
            simpa [placed, hjob] using hfinal

end Pass

/-- What a backfill pass for the candidate at `headIndex` does: with a reservation `R` for the
head, the head's reservation after the pass exists and is at most `R`; without one nothing is
decided. Only later candidates are decided, each at most once, and the inventory changes by
exactly their requests. -/
theorem backfill_keeps_reservation {candidates : List ReadyEntry} {headIndex : Nat}
    {jobs : Arena Job} {inventory : SlotInventory} {running : List RunningJob} {now : VirtualTime}
    {budget : PackBudget} {disposition : List Disposition} {decisions : List DispatchDecision}
    {scratch : BackfillScratch} {head : ReadyEntry}
    (hwithin : ∀ s ∈ inventory.slots, s.Within)
    (hlength : candidates.length ≤ disposition.length)
    (hhead : candidates[headIndex]? = some head) :
    ∃ out new, easyBackfill candidates headIndex jobs inventory running now budget disposition
        decisions scratch = some out ∧
      out.decisions = decisions ++ new ∧
      (∀ R, out.outcome.reservation = some R → ∃ job, jobs.get head.job = some job ∧
        (reservationTime job.request inventory running now scratch).1 = some R ∧
        ∀ scratch', ∃ t, (reservationTime job.request out.inventory
          (running ++ placed jobs now new) now scratch').1 = some t ∧ t ≤ R) ∧
      (out.outcome.reservation = none → new = []) ∧
      out.disposition[headIndex]? = disposition[headIndex]? ∧
      (new.map (·.job)).Sublist ((candidates.drop (headIndex + 1)).map (·.job)) ∧
      Grown jobs new inventory out.inventory := by
  unfold easyBackfill
  rw [if_neg (by omega), hhead]
  cases hlive : jobs.get head.job with
  | none =>
    simp only [hlive]
    exact ⟨_, [], rfl, (List.append_nil _).symm, (fun R hR => nomatch hR), (fun _ => rfl), rfl,
      List.nil_sublist _, Grown.refl jobs inventory⟩
  | some job =>
    simp only [hlive]
    cases htime : (reservationTime job.request inventory running now scratch).1 with
    | none =>
      exact ⟨_, [], rfl, (List.append_nil _).symm, (fun R hR => nomatch hR), (fun _ => rfl), rfl,
        List.nil_sublist _, Grown.refl jobs inventory⟩
    | some R =>
      obtain ⟨out, hout⟩ : ∃ out, backfillLoop jobs job.request running now R budget
          (candidates.drop (headIndex + 1)) (headIndex + 1)
          ⟨⟨0, 0, some R⟩, inventory, disposition, decisions,
            (reservationTime job.request inventory running now scratch).2⟩ = some out :=
        backfillLoop_isSome (.of_within hwithin)
      have hroom : HasRoomBy job.request inventory (running ++ []) R := by
        rw [List.append_nil]
        exact hasRoomBy_of_reservationTime htime
      obtain ⟨new, hfills, hfinal⟩ := backfillLoop_fills hroom hout
      have hR : out.outcome.reservation = some R := hfills.reservation
      refine ⟨out, new, hout, hfills.decisions, ?_, ?_, hfills.disposition headIndex (by omega),
        hfills.sublist, hfills.grown⟩
      · intro R' hR'
        obtain rfl : R = R' := Option.some.inj (hR.symm.trans hR')
        refine ⟨job, rfl, htime, fun scratch' => ?_⟩
        rw [List.nil_append] at hfinal
        -- A head that fits now is reserved at `now`, before and, if it still fits, after.
        by_cases hbusy : Busy job.request out.inventory
        · exact reservationTime_le hbusy hfinal
        · have hfree : ¬ Busy job.request inventory := fun h => hbusy (h.grown hfills.grown)
          rw [reservationTime_eq_now hfree] at htime
          exact ⟨now, reservationTime_eq_now hbusy scratch', (Option.some.inj htime).le⟩
      · intro hnone
        rw [hR] at hnone
        exact nomatch hnone

/-- A head that needs the whole slot, and a small job behind it. -/
def backfillJobs : Arena Job :=
  ⟨[.occupied 0 (Job.new 0 .normal 0 ⟨4, 0, 0⟩ 10), .occupied 0 (Job.new 0 .normal 0 ⟨1, 0, 0⟩ 10)],
    none, 2⟩

def backfillCandidates : List ReadyEntry := [⟨.normal, ⟨0⟩, 0⟩, ⟨.normal, JobId.new 1 0, 0⟩]

def backfillRunning : List RunningJob := [⟨⟨7⟩, 0, ⟨2, 0, 0⟩, 100⟩]

def backfillSlots : SlotInventory := ⟨[⟨⟨4, 0, 0⟩, ⟨2, 0, 0⟩⟩], ⟨4, 0, 0⟩⟩

theorem backfill_keeps_reservation_sample : ∃ out new,
    easyBackfill backfillCandidates 0 backfillJobs backfillSlots backfillRunning 0 ⟨8, 8⟩
        [.pending, .pending] [] .new = some out ∧
      out.decisions = [⟨JobId.new 1 0, 0⟩] ∧ out.decisions = [] ++ new ∧
      Grown backfillJobs new backfillSlots out.inventory := by
  obtain ⟨out, new, hout, hdecisions, -, -, -, -, hgrown⟩ :=
    @backfill_keeps_reservation backfillCandidates 0 backfillJobs backfillSlots backfillRunning 0
      ⟨8, 8⟩ [.pending, .pending] [] .new ⟨.normal, ⟨0⟩, 0⟩ (by decide) (by decide) rfl
  have hlook : (easyBackfill backfillCandidates 0 backfillJobs backfillSlots backfillRunning 0
      ⟨8, 8⟩ [.pending, .pending] [] .new).map (·.decisions) = some [⟨JobId.new 1 0, 0⟩] := by
    decide +kernel
  rw [hout] at hlook
  exact ⟨out, new, hout, Option.some.inj hlook, hdecisions, hgrown⟩

end TaskerRT.Policy
