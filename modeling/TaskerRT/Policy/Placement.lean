/- module: TaskerRT/Policy/Placement
   source: crates/tasker-core/src/policy/pack.rs, crates/tasker-core/src/policy/backfill.rs
   digest: What packing and backfilling do to every candidate and to every slot. -/

import TaskerRT.Policy.NoDelay

set_option autoImplicit false

namespace TaskerRT.Policy

open Library Domain Cluster Resources

/-- How much of one dimension the decisions ask of one slot. -/
def demand (jobs : Arena Job) (decisions : List DispatchDecision) (i : SlotIndex)
    (d : Dimension) : Nat :=
  ((decisions.filter (·.slot = i)).map fun x =>
    (jobs.get x.job).elim 0 (·.request.amount d)).sum

private theorem demand_append (jobs : Arena Job) (xs ys : List DispatchDecision) (i : SlotIndex)
    (d : Dimension) : demand jobs (xs ++ ys) i d = demand jobs xs i d + demand jobs ys i d := by
  simp [demand]

/-- The inventory after some decisions: every slot keeps its capacity, which holds each job placed
on it, and has what they ask of it allocated on top of what it had. -/
structure Grown (jobs : Arena Job) (decisions : List DispatchDecision)
    (inventory inventory' : SlotInventory) : Prop where
  length : inventory'.slots.length = inventory.slots.length
  maxCapacity : inventory'.maxCapacity = inventory.maxCapacity
  slot : ∀ i s, inventory.slots[i]? = some s → ∃ s', inventory'.slots[i]? = some s' ∧
    s'.capacity = s.capacity ∧
    (∀ d, s'.allocated.amount d = s.allocated.amount d + demand jobs decisions i d) ∧
    (s.Within → s'.Within)
  placed : ∀ x ∈ decisions, x.slot < inventory.slots.length
  holds : ∀ x ∈ decisions, ∀ s job, inventory.slots[x.slot]? = some s →
    jobs.get x.job = some job → job.request.fitsWithin s.capacity = true

namespace Grown

variable {jobs : Arena Job} {inventory : SlotInventory}

theorem refl (jobs : Arena Job) (inventory : SlotInventory) : Grown jobs [] inventory inventory :=
  ⟨rfl, rfl, fun _ s hs => ⟨s, hs, rfl, fun _ => rfl, fun h => h⟩, fun _ h => (nomatch h),
    fun _ h => (nomatch h)⟩

theorem trans {xs ys : List DispatchDecision} {inv₁ inv₂ inv₃ : SlotInventory}
    (h : Grown jobs xs inv₁ inv₂) (h' : Grown jobs ys inv₂ inv₃) :
    Grown jobs (xs ++ ys) inv₁ inv₃ := by
  refine ⟨h'.length.trans h.length, h'.maxCapacity.trans h.maxCapacity, ?_, ?_, ?_⟩
  · intro i s hs
    obtain ⟨s₂, hs₂, hcap₂, halloc₂, hw₂⟩ := h.slot i s hs
    obtain ⟨s₃, hs₃, hcap₃, halloc₃, hw₃⟩ := h'.slot i s₂ hs₂
    refine ⟨s₃, hs₃, hcap₃.trans hcap₂, fun d => ?_, fun hw => hw₃ (hw₂ hw)⟩
    rw [halloc₃ d, halloc₂ d, demand_append]
    omega
  · intro x hx
    rcases List.mem_append.mp hx with hx | hx
    · exact h.placed x hx
    · exact h.length ▸ h'.placed x hx
  · intro x hx s job hs hjob
    rcases List.mem_append.mp hx with hx | hx
    · exact h.holds x hx s job hs hjob
    · obtain ⟨s₂, hs₂, hcap₂, -⟩ := h.slot x.slot s hs
      rw [← hcap₂]
      exact h'.holds x hx s₂ job hs₂ hjob

theorem allocate {id : JobId} {job : Job} {i : SlotIndex} {inventory' : SlotInventory}
    (hid : jobs.get id = some job) (h : inventory.tryAllocate i job.request = .ok inventory') :
    Grown jobs [⟨id, i⟩] inventory inventory' := by
  obtain ⟨s, next, hs, hnext, hfits, rfl⟩ := SlotInventory.tryAllocate_eq_ok.mp h
  have hlt : i < inventory.slots.length := (List.getElem?_eq_some_iff.mp hs).1
  refine ⟨List.length_set, rfl, ?_, ?_, ?_⟩
  · intro k t ht
    by_cases hk : i = k
    · subst hk
      obtain rfl := Option.some.inj (hs.symm.trans ht)
      refine ⟨{ s with allocated := next }, List.getElem?_set_self hlt, rfl, fun d => ?_,
        fun _ => hfits⟩
      have hsum := amount_of_checkedAdd hnext d
      simpa [demand, hid] using hsum
    · refine ⟨t, (List.getElem?_set_ne hk).trans ht, rfl, fun d => ?_, fun hw => hw⟩
      simp [demand, hk]
  · intro x hx
    rw [List.mem_singleton.mp hx]
    exact hlt
  · intro x hx t j ht hj
    rw [List.mem_singleton.mp hx] at ht hj
    obtain rfl := Option.some.inj (hid.symm.trans hj)
    obtain rfl := Option.some.inj (hs.symm.trans ht)
    refine fitsWithin_iff_amount.mpr fun d => ?_
    have hsum := amount_of_checkedAdd hnext d
    have hcap := fitsWithin_iff_amount.mp hfits d
    omega

theorem within {xs : List DispatchDecision} {inventory' : SlotInventory}
    (h : Grown jobs xs inventory inventory') (hw : ∀ s ∈ inventory.slots, s.Within) :
    ∀ s ∈ inventory'.slots, s.Within := by
  intro s' hs'
  obtain ⟨i, hi, rfl⟩ := List.mem_iff_getElem.mp hs'
  have hlt : i < inventory.slots.length := h.length ▸ hi
  obtain ⟨t, ht, -, -, hwithin⟩ := h.slot i _ (List.getElem?_eq_getElem hlt)
  rw [List.getElem?_eq_getElem hi, Option.some.injEq] at ht
  rw [ht]
  exact hwithin (hw _ (List.getElem_mem hlt))

end Grown

/-- The dispositions of a pass against its decisions: a dropped entry is stale, a dispatched one
is live and has its decision, in the order of the candidates. -/
inductive Marked (jobs : Arena Job) :
    List ReadyEntry → List Disposition → List DispatchDecision → Prop where
  | nil : Marked jobs [] [] []
  | pending {e : ReadyEntry} {es : List ReadyEntry} {ms : List Disposition}
      {ds : List DispatchDecision} (rest : Marked jobs es ms ds) :
      Marked jobs (e :: es) (.pending :: ms) ds
  | dropped {e : ReadyEntry} {es : List ReadyEntry} {ms : List Disposition}
      {ds : List DispatchDecision} (stale : jobs.get e.job = none) (rest : Marked jobs es ms ds) :
      Marked jobs (e :: es) (.dropped :: ms) ds
  | dispatched {e : ReadyEntry} {es : List ReadyEntry} {ms : List Disposition}
      {ds : List DispatchDecision} {job : Job} (slot : SlotIndex)
      (live : jobs.get e.job = some job) (rest : Marked jobs es ms ds) :
      Marked jobs (e :: es) (.dispatched :: ms) (⟨e.job, slot⟩ :: ds)

namespace Marked

variable {jobs : Arena Job} {es es' : List ReadyEntry} {ms ms' : List Disposition}
  {ds ds' : List DispatchDecision}

theorem untouched (jobs : Arena Job) (es : List ReadyEntry) :
    Marked jobs es (List.replicate es.length .pending) [] := by
  induction es with
  | nil => exact .nil
  | cons e es ih => exact .pending ih

theorem append (h : Marked jobs es ms ds) (h' : Marked jobs es' ms' ds') :
    Marked jobs (es ++ es') (ms ++ ms') (ds ++ ds') := by
  induction h with
  | nil => exact h'
  | pending _ ih => exact .pending ih
  | dropped stale _ ih => exact .dropped stale ih
  | dispatched slot live _ ih => exact .dispatched slot live ih

theorem sublist (h : Marked jobs es ms ds) : (ds.map (·.job)).Sublist (es.map (·.job)) := by
  induction h with
  | nil => exact .slnil
  | pending _ ih | dropped _ _ ih => exact .cons _ ih
  | dispatched _ _ _ ih => exact .cons_cons _ ih

end Marked

/-- A pass over some entries: those it got to are marked, the others are as they were. -/
structure Passed (jobs : Arena Job) (entries : List ReadyEntry) (settled : List Disposition)
    (inventory inventory' : SlotInventory) (disposition : List Disposition)
    (decisions decisions' : List DispatchDecision) (front back : List ReadyEntry)
    (marks : List Disposition) (new : List DispatchDecision) : Prop where
  split : entries = front ++ back
  marked : Marked jobs front marks new
  disposition : disposition = settled ++ marks ++ List.replicate back.length .pending
  decisions : decisions' = decisions ++ new
  grown : Grown jobs new inventory inventory'

namespace Passed

variable {jobs : Arena Job} {entry : ReadyEntry} {rest front back : List ReadyEntry}
  {settled disposition marks : List Disposition} {inventory inventory' : SlotInventory}
  {decisions decisions' new : List DispatchDecision}

theorem stop (jobs : Arena Job) (entries : List ReadyEntry) (settled : List Disposition)
    (inventory : SlotInventory) (decisions : List DispatchDecision) :
    Passed jobs entries settled inventory inventory
      (settled ++ List.replicate entries.length .pending) decisions decisions [] entries [] [] :=
  ⟨rfl, .nil, by rw [List.append_nil], (List.append_nil _).symm, Grown.refl jobs inventory⟩

private theorem skip (h : Passed jobs rest (settled ++ [.pending]) inventory inventory' disposition
      decisions decisions' front back marks new) :
    Passed jobs (entry :: rest) settled inventory inventory' disposition decisions decisions'
      (entry :: front) back (.pending :: marks) new := by
  refine ⟨by rw [h.split]; rfl, .pending h.marked, ?_, h.decisions, h.grown⟩
  rw [h.disposition, List.append_assoc settled]
  rfl

private theorem drop (hstale : jobs.get entry.job = none)
    (h : Passed jobs rest (settled ++ [.dropped]) inventory inventory' disposition
      decisions decisions' front back marks new) :
    Passed jobs (entry :: rest) settled inventory inventory' disposition decisions decisions'
      (entry :: front) back (.dropped :: marks) new := by
  refine ⟨by rw [h.split]; rfl, .dropped hstale h.marked, ?_, h.decisions, h.grown⟩
  rw [h.disposition, List.append_assoc settled]
  rfl

private theorem dispatch {job : Job} {slot : SlotIndex} {allocated : SlotInventory}
    (hlive : jobs.get entry.job = some job)
    (hallocate : inventory.tryAllocate slot job.request = .ok allocated)
    (h : Passed jobs rest (settled ++ [.dispatched]) allocated inventory' disposition
      (decisions ++ [⟨entry.job, slot⟩]) decisions' front back marks new) :
    Passed jobs (entry :: rest) settled inventory inventory' disposition decisions decisions'
      (entry :: front) back (.dispatched :: marks) (⟨entry.job, slot⟩ :: new) := by
  refine ⟨by rw [h.split]; rfl, .dispatched slot hlive h.marked, ?_, ?_,
    (Grown.allocate hlive hallocate).trans h.grown⟩
  · rw [h.disposition, List.append_assoc settled]
    rfl
  · rw [h.decisions, List.append_assoc]
    rfl

end Passed

private theorem set_settled (settled : List Disposition) (n : Nat) (m : Disposition) :
    (settled ++ List.replicate (n + 1) Disposition.pending).set settled.length m =
      settled ++ [m] ++ List.replicate n Disposition.pending := by
  rw [List.replicate_succ, List.set_append_right _ _ (Nat.le_refl _), Nat.sub_self]
  simp

/-- Candidates taken in order, each placed on the first slot that has room at its turn. Stale ones
are passed over. -/
inductive Packs (jobs : Arena Job) :
    SlotInventory → List ReadyEntry → List DispatchDecision → SlotInventory → Prop where
  | done (inventory : SlotInventory) : Packs jobs inventory [] [] inventory
  | stale {inventory inventory' : SlotInventory} {e : ReadyEntry} {es : List ReadyEntry}
      {ds : List DispatchDecision} (hstale : jobs.get e.job = none)
      (rest : Packs jobs inventory es ds inventory') : Packs jobs inventory (e :: es) ds inventory'
  | placed {inventory allocated inventory' : SlotInventory} {e : ReadyEntry}
      {es : List ReadyEntry} {ds : List DispatchDecision} {job : Job} {slot : SlotIndex}
      (hlive : jobs.get e.job = some job) (hfit : inventory.firstFit job.request = some slot)
      (hallocate : inventory.tryAllocate slot job.request = .ok allocated)
      (rest : Packs jobs allocated es ds inventory') :
      Packs jobs inventory (e :: es) (⟨e.job, slot⟩ :: ds) inventory'

def packMark (jobs : Arena Job) (e : ReadyEntry) : Disposition :=
  if (jobs.get e.job).isSome then .dispatched else .dropped

namespace Packs

variable {jobs : Arena Job} {inventory inventory' : SlotInventory} {es : List ReadyEntry}
  {ds : List DispatchDecision}

theorem marked (h : Packs jobs inventory es ds inventory') :
    Marked jobs es (es.map (packMark jobs)) ds := by
  induction h with
  | done _ => exact .nil
  | @stale _ _ e _ _ hstale _ ih =>
    have hmark : packMark jobs e = .dropped := by simp [packMark, hstale]
    rw [List.map_cons, hmark]
    exact .dropped hstale ih
  | @placed _ _ _ e _ _ _ slot hlive _ _ _ ih =>
    have hmark : packMark jobs e = .dispatched := by simp [packMark, hlive]
    rw [List.map_cons, hmark]
    exact .dispatched slot hlive ih

theorem grown (h : Packs jobs inventory es ds inventory') :
    Grown jobs ds inventory inventory' := by
  induction h with
  | done inventory => exact Grown.refl jobs inventory
  | stale _ _ ih => exact ih
  | placed hlive _ hallocate _ ih => exact (Grown.allocate hlive hallocate).trans ih

end Packs

/-- Why packing ends in front of `back`, with `dispatched` jobs placed and `scanned` looked at:
nothing is left, the budget is spent, or candidate number `index` fits nowhere. -/
inductive PackStop (jobs : Arena Job) (budget : PackBudget) (inventory : SlotInventory)
    (dispatched scanned index : Nat) : List ReadyEntry → Option Nat → Prop where
  | finished : PackStop jobs budget inventory dispatched scanned index [] none
  | exhausted {back : List ReadyEntry}
      (spent : budget.maxDecisions ≤ dispatched ∨ budget.maxScanned ≤ scanned) :
      PackStop jobs budget inventory dispatched scanned index back none
  | misfit {head : ReadyEntry} {later : List ReadyEntry} {job : Job}
      (left : dispatched < budget.maxDecisions ∧ scanned < budget.maxScanned)
      (live : jobs.get head.job = some job) (nowhere : inventory.firstFit job.request = none) :
      PackStop jobs budget inventory dispatched scanned index (head :: later) (some index)

/-- A packing pass over `entries`, from entry number `settled.length` on: it places the live jobs
of `front` and stops in front of `back`. -/
structure PackRun (jobs : Arena Job) (budget : PackBudget) (entries : List ReadyEntry)
    (settled : List Disposition) (s out : PackState) (front back : List ReadyEntry)
    (new : List DispatchDecision) : Prop where
  split : entries = front ++ back
  packs : Packs jobs s.inventory front new out.inventory
  decisions : out.decisions = s.decisions ++ new
  disposition : out.disposition =
    settled ++ front.map (packMark jobs) ++ List.replicate back.length .pending
  dispatched : out.outcome.dispatched = s.outcome.dispatched + new.length
  stop : PackStop jobs budget out.inventory (s.outcome.dispatched + new.length)
    (s.outcome.scanned + new.length) (settled.length + front.length) back out.outcome.head

private theorem PackRun.stale {jobs : Arena Job} {budget : PackBudget} {entry : ReadyEntry}
    {rest front back : List ReadyEntry} {settled : List Disposition} {s s₁ out : PackState}
    {new : List DispatchDecision}
    (h : PackRun jobs budget rest (settled ++ [.dropped]) s₁ out front back new)
    (hstale : jobs.get entry.job = none) (hinventory : s₁.inventory = s.inventory)
    (hdecisions : s₁.decisions = s.decisions) (houtcome : s₁.outcome = s.outcome) :
    PackRun jobs budget (entry :: rest) settled s out (entry :: front) back new := by
  have hmark : packMark jobs entry = .dropped := by simp [packMark, hstale]
  refine ⟨by rw [h.split]; rfl, .stale hstale (hinventory ▸ h.packs), hdecisions ▸ h.decisions, ?_,
    houtcome ▸ h.dispatched, ?_⟩
  · rw [h.disposition, List.map_cons, hmark, List.append_assoc settled]
    rfl
  · have hstop := h.stop
    rw [houtcome, List.length_append, Nat.add_assoc, Nat.add_comm [Disposition.dropped].length]
      at hstop
    exact hstop

private theorem PackRun.placed {jobs : Arena Job} {budget : PackBudget} {entry : ReadyEntry}
    {rest front back : List ReadyEntry} {settled : List Disposition} {s s₁ out : PackState}
    {new : List DispatchDecision} {job : Job} {slot : SlotIndex}
    (h : PackRun jobs budget rest (settled ++ [.dispatched]) s₁ out front back new)
    (hlive : jobs.get entry.job = some job)
    (hfit : s.inventory.firstFit job.request = some slot)
    (hallocate : s.inventory.tryAllocate slot job.request = .ok s₁.inventory)
    (hdecisions : s₁.decisions = s.decisions ++ [⟨entry.job, slot⟩])
    (hdispatched : s₁.outcome.dispatched = s.outcome.dispatched + 1)
    (hscanned : s₁.outcome.scanned = s.outcome.scanned + 1) :
    PackRun jobs budget (entry :: rest) settled s out (entry :: front) back
      (⟨entry.job, slot⟩ :: new) := by
  have hmark : packMark jobs entry = .dispatched := by simp [packMark, hlive]
  refine ⟨by rw [h.split]; rfl, .placed hlive hfit hallocate h.packs, ?_, ?_, ?_, ?_⟩
  · rw [h.decisions, hdecisions, List.append_assoc]
    rfl
  · rw [h.disposition, List.map_cons, hmark, List.append_assoc settled]
    rfl
  · rw [h.dispatched, hdispatched, List.length_cons]
    omega
  · have hstop := h.stop
    rw [hdispatched, hscanned, List.length_append, Nat.add_assoc, Nat.add_assoc, Nat.add_assoc,
      Nat.add_comm 1, Nat.add_comm [Disposition.dispatched].length] at hstop
    exact hstop

private theorem packLoop_run {jobs : Arena Job} {budget : PackBudget} {entries : List ReadyEntry} :
    ∀ {settled : List Disposition} {s out : PackState},
      s.disposition = settled ++ List.replicate entries.length .pending →
      s.outcome.head = none → packLoop jobs budget entries settled.length s = some out →
      ∃ front back new, PackRun jobs budget entries settled s out front back new := by
  induction entries with
  | nil =>
    intro settled s out hdisp hnone h
    obtain rfl := Option.some.inj h
    refine ⟨[], [], [], rfl, .done _, (List.append_nil _).symm, ?_, rfl, hnone ▸ .finished⟩
    rw [hdisp]
    simp
  | cons entry rest ih =>
    intro settled s out hdisp hnone h
    have hlength (m : Disposition) : settled.length + 1 = (settled ++ [m]).length := by simp
    have hsettled (m : Disposition) : s.disposition.set settled.length m =
        settled ++ [m] ++ List.replicate rest.length .pending := by
      rw [hdisp, List.length_cons, set_settled]
    have hstays : s.disposition = settled ++ ([] : List ReadyEntry).map (packMark jobs) ++
        List.replicate (entry :: rest).length .pending := by
      rw [hdisp]
      simp
    rw [packLoop] at h
    split at h
    · rename_i hspent
      obtain rfl := Option.some.inj h
      exact ⟨[], entry :: rest, [], rfl, .done _, (List.append_nil _).symm, hstays, rfl,
        hnone ▸ .exhausted hspent⟩
    rename_i hleft
    cases hjob : jobs.get entry.job with
    | none =>
      simp only [hjob] at h
      rw [hlength .dropped] at h
      obtain ⟨front, back, new, hrun⟩ := ih (hsettled .dropped) (by exact hnone) h
      exact ⟨entry :: front, back, new, hrun.stale hjob rfl rfl rfl⟩
    | some job =>
      simp only [hjob] at h
      cases hfit : s.inventory.firstFit job.request with
      | none =>
        simp only [hfit] at h
        obtain rfl := Option.some.inj h
        have hbudget : s.outcome.dispatched < budget.maxDecisions ∧
            s.outcome.scanned < budget.maxScanned := by omega
        exact ⟨[], entry :: rest, [], rfl, .done _, (List.append_nil _).symm, hstays, rfl,
          .misfit hbudget hjob hfit⟩
      | some slot =>
        simp only [hfit] at h
        split at h
        · cases h
        rename_i allocated hallocate
        rw [hlength .dispatched] at h
        obtain ⟨front, back, new, hrun⟩ := ih (hsettled .dispatched) (by exact hnone) h
        exact ⟨entry :: front, back, _, hrun.placed hjob hfit hallocate rfl rfl rfl⟩

structure Packing (jobs : Arena Job) (budget : PackBudget) (candidates : List ReadyEntry)
    (inventory : SlotInventory) (decisions : List DispatchDecision) (packed : PackState)
    (front back : List ReadyEntry) (new : List DispatchDecision) : Prop where
  split : candidates = front ++ back
  packs : Packs jobs inventory front new packed.inventory
  decisions : packed.decisions = decisions ++ new
  disposition : packed.disposition =
    front.map (packMark jobs) ++ List.replicate back.length .pending
  dispatched : packed.outcome.dispatched = new.length
  stop : PackStop jobs budget packed.inventory new.length new.length front.length back
    packed.outcome.head

theorem pack_packing {jobs : Arena Job} {budget : PackBudget} {candidates : List ReadyEntry}
    {inventory : SlotInventory} {decisions : List DispatchDecision} {packed : PackState}
    (h : pack candidates jobs inventory budget (List.replicate candidates.length .pending)
      decisions = some packed) :
    ∃ front back new,
      Packing jobs budget candidates inventory decisions packed front back new := by
  unfold pack at h
  split at h
  · cases h
  obtain ⟨front, back, new, hrun⟩ := @packLoop_run jobs budget candidates []
    ⟨⟨0, 0, none, false⟩, inventory, List.replicate candidates.length .pending, decisions⟩
    packed rfl rfl h
  have hdispatched := hrun.dispatched
  have hstop := hrun.stop
  simp only [List.length_nil, Nat.zero_add] at hdispatched hstop
  exact ⟨front, back, new, hrun.split, hrun.packs, hrun.decisions, hrun.disposition, hdispatched,
    hstop⟩

private theorem settled_succ (settled : List Disposition) (n : Nat) :
    settled ++ List.replicate (n + 1) Disposition.pending =
      settled ++ [.pending] ++ List.replicate n .pending := by
  rw [List.replicate_succ, List.append_assoc]
  rfl

theorem backfillLoop_passed {jobs : Arena Job} {headRequest : ResourceRequest}
    {running : List RunningJob} {now reservation : VirtualTime} {budget : PackBudget}
    {entries : List ReadyEntry} :
    ∀ {settled : List Disposition} {s out : BackfillState},
      s.disposition = settled ++ List.replicate entries.length .pending →
      backfillLoop jobs headRequest running now reservation budget entries settled.length s =
        some out →
      ∃ front back marks new, Passed jobs entries settled s.inventory out.inventory
          out.disposition s.decisions out.decisions front back marks new ∧
        out.outcome.backfilled = s.outcome.backfilled + new.length := by
  induction entries with
  | nil =>
    intro settled s out hdisp h
    obtain rfl := Option.some.inj h
    refine ⟨[], [], [], [], ?_, rfl⟩
    rw [hdisp]
    exact Passed.stop jobs [] settled s.inventory s.decisions
  | cons entry rest ih =>
    intro settled s out hdisp h
    have hstop := Passed.stop jobs (entry :: rest) settled s.inventory s.decisions
    rw [← hdisp] at hstop
    rw [List.length_cons] at hdisp
    have hlength (m : Disposition) : settled.length + 1 = (settled ++ [m]).length := by simp
    rw [backfillLoop] at h
    split at h
    · obtain rfl := Option.some.inj h
      exact ⟨[], entry :: rest, [], [], hstop, rfl⟩
    cases hjob : jobs.get entry.job with
    | none =>
      simp only [hjob] at h
      rw [hlength .dropped] at h
      obtain ⟨front, back, marks, new, hp, hn⟩ := ih (by
        show s.disposition.set settled.length .dropped = _
        rw [hdisp, set_settled]) h
      exact ⟨entry :: front, back, _, new, hp.drop hjob, hn⟩
    | some job =>
      simp only [hjob] at h
      cases hfit : s.inventory.firstFit job.request with
      | none =>
        simp only [hfit] at h
        rw [hlength .pending] at h
        obtain ⟨front, back, marks, new, hp, hn⟩ := ih (by
          show s.disposition = _
          rw [hdisp, settled_succ]) h
        exact ⟨entry :: front, back, _, new, hp.skip, hn⟩
      | some slot =>
        simp only [hfit] at h
        split at h
        · cases h
        · rename_i inventory scratch hkeep
          obtain rfl := keepOrUndo_spec hkeep
          rw [hlength .pending] at h
          obtain ⟨front, back, marks, new, hp, hn⟩ := ih (by
            show s.disposition = _
            rw [hdisp, settled_succ]) h
          exact ⟨entry :: front, back, _, new, hp.skip, hn⟩
        · rename_i inventory scratch hkeep
          obtain ⟨hallocate, -⟩ := keepOrUndo_spec hkeep
          rw [hlength .dispatched] at h
          obtain ⟨front, back, marks, new, hp, hn⟩ := ih (by
            show s.disposition.set settled.length .dispatched = _
            rw [hdisp, set_settled]) h
          refine ⟨entry :: front, back, _, _, hp.dispatch hjob hallocate, ?_⟩
          simp only [List.length_cons] at hn ⊢
          omega

/-- Wherever the first-fit test lets one of these candidates in, the slot is within its
capacity. -/
def Open (jobs : Arena Job) (entries : List ReadyEntry) (inventory : SlotInventory) : Prop :=
  ∀ s ∈ inventory.slots, s.Within ∨
    ∀ entry ∈ entries, ∀ job, jobs.get entry.job = some job → job.request.fitsWithin s.free = false

namespace Open

variable {jobs : Arena Job} {entry : ReadyEntry} {entries : List ReadyEntry}
  {inventory inventory' : SlotInventory} {slot : SlotIndex} {job : Job}

theorem of_within (h : ∀ s ∈ inventory.slots, s.Within) : Open jobs entries inventory :=
  fun s hs => Or.inl (h s hs)

theorem mono {fewer : List ReadyEntry} (h : Open jobs entries inventory)
    (hsub : fewer ⊆ entries) : Open jobs fewer inventory :=
  fun s hs => (h s hs).imp_right fun hno e he => hno e (hsub he)

private theorem tail (h : Open jobs (entry :: entries) inventory) : Open jobs entries inventory :=
  h.mono (List.subset_cons_self entry entries)

theorem grown {xs : List DispatchDecision} (h : Open jobs entries inventory)
    (hg : Grown jobs xs inventory inventory') : Open jobs entries inventory' := by
  intro s' hs'
  obtain ⟨i, hi, rfl⟩ := List.mem_iff_getElem.mp hs'
  have hlt : i < inventory.slots.length := hg.length ▸ hi
  obtain ⟨s, hs, hcap, halloc, hwithin⟩ := hg.slot i _ (List.getElem?_eq_getElem hlt)
  obtain rfl := Option.some.inj ((List.getElem?_eq_getElem hi).symm.trans hs)
  refine (h _ (List.getElem_mem hlt)).imp hwithin fun hno e he job hjob => ?_
  rw [← Bool.not_eq_true]
  intro hfits
  have hbefore : job.request.fitsWithin inventory.slots[i].free = true := by
    refine fitsWithin_iff_amount.mpr fun d => ?_
    have hd := fitsWithin_iff_amount.mp hfits d
    rw [WorkerSlot.free, amount_saturatingSub] at hd ⊢
    rw [hcap, halloc d] at hd
    omega
  rw [hno e he job hjob] at hbefore
  cases hbefore

private theorem allocate_of_firstFit (h : Open jobs (entry :: entries) inventory)
    (hjob : jobs.get entry.job = some job)
    (hfit : inventory.firstFit job.request = some slot) :
    ∃ inventory', inventory.tryAllocate slot job.request = .ok inventory' := by
  obtain ⟨s, hs, hfits, -⟩ := SlotInventory.firstFit_eq_some hfit
  rcases h s (List.mem_of_getElem? hs) with hwithin | hno
  · exact SlotInventory.tryAllocate_of_fits hs hwithin hfits
  · rw [hno entry List.mem_cons_self job hjob] at hfits
    cases hfits

end Open

theorem packLoop_isSome {jobs : Arena Job} {budget : PackBudget} {entries : List ReadyEntry} :
    ∀ {index : Nat} {s : PackState}, Open jobs entries s.inventory →
      ∃ out, packLoop jobs budget entries index s = some out := by
  induction entries with
  | nil => exact fun _ => ⟨_, rfl⟩
  | cons entry rest ih =>
    intro index s hopen
    rw [packLoop]
    split
    · exact ⟨_, rfl⟩
    cases hjob : jobs.get entry.job with
    | none =>
      simp only
      apply ih
      exact hopen.tail
    | some job =>
      cases hfit : s.inventory.firstFit job.request with
      | none =>
        simp only [hfit]
        exact ⟨_, rfl⟩
      | some slot =>
        obtain ⟨allocated, hallocate⟩ := hopen.allocate_of_firstFit hjob hfit
        simp only [hfit, hallocate]
        apply ih
        exact hopen.tail.grown (.allocate hjob hallocate)

private theorem keepOrUndo_isSome {headRequest : ResourceRequest} {running : List RunningJob}
    {now reservation : VirtualTime} {candidate : RunningJob} {inventory allocated : SlotInventory}
    (scratch : BackfillScratch)
    (h : inventory.tryAllocate candidate.slot candidate.resources = .ok allocated) :
    ∃ out, keepOrUndo headRequest running now reservation candidate inventory scratch =
      some out := by
  unfold keepOrUndo
  split
  · simp only [h]
    exact ⟨_, rfl⟩
  · have hlt : candidate.slot < allocated.slots.length := by
      obtain ⟨s, next, hs, -, -, rfl⟩ := SlotInventory.tryAllocate_eq_ok.mp h
      rw [List.length_set]
      exact (List.getElem?_eq_some_iff.mp hs).1
    obtain ⟨released, hupdate⟩ := SlotInventory.updateSlot_of_lt
      (fun s => { s with allocated := s.allocated.saturatingSub candidate.resources }) hlt
    have hrelease : allocated.release candidate.slot candidate.resources = .ok released := hupdate
    simp only [tryTentatively, h, hrelease]
    repeat' split
    all_goals exact ⟨_, rfl⟩

theorem backfillLoop_isSome {jobs : Arena Job} {headRequest : ResourceRequest}
    {running : List RunningJob} {now reservation : VirtualTime} {budget : PackBudget}
    {entries : List ReadyEntry} :
    ∀ {index : Nat} {s : BackfillState}, Open jobs entries s.inventory →
      ∃ out, backfillLoop jobs headRequest running now reservation budget entries index s =
        some out := by
  induction entries with
  | nil => exact fun _ => ⟨_, rfl⟩
  | cons entry rest ih =>
    intro index s hopen
    rw [backfillLoop]
    split
    · exact ⟨_, rfl⟩
    cases hjob : jobs.get entry.job with
    | none =>
      simp only
      apply ih
      exact hopen.tail
    | some job =>
      cases hfit : s.inventory.firstFit job.request with
      | none =>
        simp only [hfit]
        apply ih
        exact hopen.tail
      | some slot =>
        obtain ⟨allocated, hallocate⟩ := hopen.allocate_of_firstFit hjob hfit
        obtain ⟨⟨kept, inventory, scratch⟩, hkeep⟩ := @keepOrUndo_isSome headRequest running now
          reservation ⟨entry.job, slot, job.request, Word.saturatingAdd now job.walltimeLimit⟩
          s.inventory allocated s.scratch hallocate
        have hspec := keepOrUndo_spec hkeep
        simp only [hfit, hkeep]
        cases kept with
        | false =>
          apply ih
          rw [show inventory = s.inventory from hspec]
          exact hopen.tail
        | true =>
          apply ih
          exact hopen.tail.grown (.allocate hjob hspec.1)

end TaskerRT.Policy
