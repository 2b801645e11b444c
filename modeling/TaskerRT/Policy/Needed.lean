/- module: TaskerRT/Policy/Needed
   source: crates/tasker-core/src/policy/preempt.rs
   digest: When every victim of an eviction plan is needed, and a plan with one that is not. -/

import TaskerRT.Policy.Victims

set_option autoImplicit false

namespace TaskerRT.Policy

open Library Domain Cluster Resources

def held (vs : List Victim) (d : Dimension) : Nat := (vs.map (·.resources.amount d)).sum

@[simp] theorem held_nil (d : Dimension) : held [] d = 0 := rfl

private theorem held_append (vs ws : List Victim) (d : Dimension) :
    held (vs ++ ws) d = held vs d + held ws d := by
  simp [held]

private theorem held_cons (v : Victim) (vs : List Victim) (d : Dimension) :
    held (v :: vs) d = v.resources.amount d + held vs d := by
  simp [held]

section Cheapest

variable (head : Job) (running : List RunningJob) (jobs : Arena Job) (inventory : SlotInventory)
  (now : VirtualTime) (config : PreemptConfig)

/-- Of all slots that can be freed, this one costs least to free. -/
structure Cheapest (slot : SlotIndex) (chosen : List Victim) : Prop where
  plans : Plans head running jobs inventory config slot chosen
  least : ∀ slot' chosen', Plans head running jobs inventory config slot' chosen' →
    planCost now slot chosen ≤ planCost now slot' chosen'

variable {head running jobs inventory now config} {slot slot' : SlotIndex}
  {chosen chosen' : List Victim}

private theorem Cheapest.unique (h : Cheapest head running jobs inventory now config slot chosen)
    (h' : Cheapest head running jobs inventory now config slot' chosen') :
    slot = slot' ∧ chosen = chosen' := by
  have hcost := le_antisymm (h.least slot' chosen' h'.plans) (h'.least slot chosen h.plans)
  have hslot : slot = slot' := (Prod.mk.inj (toLex.injective
    (Prod.mk.inj (toLex.injective hcost)).2)).2
  subst hslot
  exact ⟨rfl, h.plans.unique h'.plans⟩

private theorem planPreemption_eq_some {evictions : List Eviction} :
    planPreemption head running jobs inventory now config = some (slot, evictions) ↔
      MayEvict head running jobs config ∧
        ∃ chosen, Cheapest head running jobs inventory now config slot chosen ∧
          evictions = chosen.map fun v => Eviction.mk v.job slot := by
  by_cases hmay : MayEvict head running jobs config
  · rw [planPreemption_of_mayEvict inventory now hmay]
    cases hscan : (inventory.slots.zipIdx.map (planFor head running jobs now config)).foldl
      (keepBetter Plan.cost) none with
    | none =>
      refine iff_of_false (fun h => by cases h) ?_
      rintro ⟨-, chosen, hcheap, -⟩
      exact not_freeable_of_scan hscan slot hcheap.plans.freeable
    | some plan =>
      obtain ⟨hplans, hleast⟩ := cheapest_of_scan hscan
      rw [Option.map_some, Option.some.injEq, Prod.mk.injEq]
      constructor
      · rintro ⟨rfl, rfl⟩
        exact ⟨hmay, plan.chosen, ⟨hplans, hleast⟩, rfl⟩
      · rintro ⟨-, chosen, hcheap, rfl⟩
        obtain ⟨hslot, hchosen⟩ := hcheap.unique ⟨hplans, hleast⟩
        rw [hslot, hchosen]
        exact ⟨rfl, rfl⟩
  · rw [planPreemption_of_not inventory now hmay]
    exact iff_of_false (fun h => by cases h) fun h => hmay h.1

theorem evictable_of_planPreemption {evictions : List Eviction}
    (h : planPreemption head running jobs inventory now config = some (slot, evictions)) :
    ∀ v ∈ evictions, v.job ∈ running.map (·.job) ∧
      ∃ job, jobs.get v.job = some job ∧ job.preemptions < config.maxPreemptions := by
  obtain ⟨-, chosen, hcheap, rfl⟩ := planPreemption_eq_some.mp h
  obtain ⟨ranked, hchosen, hranked⟩ := hcheap.plans.ranked
  intro v hv
  obtain ⟨victim, hmem, rfl⟩ := List.mem_map.mp hv
  obtain ⟨r, hr, heligible⟩ := List.mem_filterMap.mp (hranked.perm.subset (hchosen.subset hmem))
  unfold Victim.eligible? at heligible
  split at heligible
  · exact nomatch heligible
  · rename_i job hjob
    obtain ⟨⟨-, -, hfew⟩, hvictim⟩ := Option.ite_none_right_eq_some.mp heligible
    obtain rfl := Option.some.inj hvictim
    exact ⟨List.mem_map.mpr ⟨r, (List.mem_filter.mp hr).1, rfl⟩, job, hjob, hfew⟩

variable (head running jobs config) in
/-- Going through the evictable jobs of a slot in eviction order, none holds more than an earlier
one of a dimension that the slot has too little of for the head. -/
def Tapers (slot : SlotIndex) (s : WorkerSlot) : Prop :=
  ∀ ranked, StablySorted Victim.GoesFirst (evictable head running jobs config slot) ranked →
    ranked.Pairwise fun a b => ∀ d, s.free.amount d < head.request.amount d →
      b.resources.amount d ≤ a.resources.amount d

/-- Without the last victim some dimension stays short, and any other victim holds no less of it. -/
private theorem Plans.short {s : WorkerSlot}
    (h : Plans head running jobs inventory config slot chosen)
    (hs : inventory.slots[slot]? = some s) (htapers : Tapers head running jobs config slot s) :
    ∃ d, s.free.amount d < head.request.amount d ∧ ∀ before v after, chosen = before ++ v :: after →
      s.free.amount d + held (before ++ after) d < head.request.amount d := by
  obtain ⟨s', hs', -, htight, hfrees, hshort⟩ := h.room
  obtain rfl := Option.some.inj (hs.symm.trans hs')
  obtain ⟨ranked, hpre, hranked⟩ := h.ranked
  have hsorted := (htapers ranked hranked).sublist hpre.sublist
  rcases List.eq_nil_or_concat chosen with rfl | ⟨init, last, rfl⟩
  · rw [frees_nil, htight] at hfrees
    cases hfrees
  rw [List.concat_eq_append] at hsorted hshort ⊢
  have hnot : ¬ Frees head.request s.free init := by
    intro hfewer
    have heq := congrArg List.length (hshort init (List.prefix_append init [last]) hfewer)
    simp at heq
  obtain ⟨d, hd⟩ : ∃ d, s.free.amount d + held init d < head.request.amount d := by
    simpa [Frees, held] using hnot
  refine ⟨d, by omega, fun before v after hsplit => ?_⟩
  rcases List.eq_nil_or_concat after with rfl | ⟨middle, last', rfl⟩
  · obtain ⟨rfl, -⟩ := List.append_inj' hsplit rfl
    rwa [List.append_nil]
  · rw [List.concat_eq_append, ← List.cons_append, ← List.append_assoc] at hsplit
    obtain ⟨rfl, hlast⟩ := List.append_inj' hsplit rfl
    obtain rfl : last = last' := by simpa using hlast
    have hle : last.resources.amount d ≤ v.resources.amount d :=
      (List.pairwise_append.mp hsorted).2.2 v (by simp) last (by simp) d (by omega)
    simp only [List.concat_eq_append, held_append, held_cons, held_nil] at hd ⊢
    omega

variable (head running jobs inventory now config)

end Cheapest

end TaskerRT.Policy
