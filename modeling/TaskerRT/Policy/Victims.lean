/- module: TaskerRT/Policy/Victims
   source: crates/tasker-core/src/policy/preempt.rs
   digest: There is a preemption plan when evictions can make room, and it is the cheapest one. -/

import TaskerRT.Library.Ranking
import TaskerRT.Policy.Preempt

set_option autoImplicit false

namespace TaskerRT.Policy

open Library Domain Cluster Resources

def Victim.GoesFirst (a b : Victim) : Prop :=
  a.priorityClass.ordinal < b.priorityClass.ordinal ∨
    a.priorityClass = b.priorityClass ∧ b.started ≤ a.started

private theorem Victim.before_iff {a b : Victim} : a.before b = true ↔ a.GoesFirst b := by
  simp [Victim.before, Victim.GoesFirst]

private theorem PriorityClass.eq_of_ordinal {c d : PriorityClass} (h : c.ordinal = d.ordinal) :
    c = d := by
  cases c <;> cases d <;> first | rfl | exact nomatch h

instance : Std.Total Victim.GoesFirst := ⟨fun a b => by
  rcases lt_trichotomy a.priorityClass.ordinal b.priorityClass.ordinal with h | h | h
  · exact Or.inl (Or.inl h)
  · have hclass := PriorityClass.eq_of_ordinal h
    exact (le_total b.started a.started).imp (fun h => Or.inr ⟨hclass, h⟩)
      fun h => Or.inr ⟨hclass.symm, h⟩
  · exact Or.inr (Or.inl h)⟩

instance : IsTrans Victim Victim.GoesFirst := ⟨fun a b c hab hbc => by
  rcases hab with hab | ⟨hab, hab'⟩
  · rcases hbc with hbc | ⟨hbc, -⟩
    · exact Or.inl (lt_trans hab hbc)
    · exact Or.inl (hbc ▸ hab)
  · rcases hbc with hbc | ⟨hbc, hbc'⟩
    · exact Or.inl (hab ▸ hbc)
    · exact Or.inr ⟨hab.trans hbc, le_trans hbc' hab'⟩⟩

section Room

variable {request : ResourceRequest} {free : Resources} {vs ws : List Victim}

/-- What is free and what the victims hold covers the request. -/
def Frees (request : ResourceRequest) (free : Resources) (vs : List Victim) : Prop :=
  ∀ d, request.amount d ≤ free.amount d + (vs.map (·.resources.amount d)).sum

theorem frees_nil : Frees request free [] ↔ request.fitsWithin free = true := by
  rw [fitsWithin_iff_amount]
  simp [Frees]

private theorem frees_cons {v : Victim} :
    Frees request free (v :: vs) ↔ Frees request (free.saturatingAdd v.resources) vs := by
  refine forall_congr' fun d => ?_
  rw [le_amount_saturatingAdd, List.map_cons, List.sum_cons, Nat.add_assoc]

private theorem Frees.perm (h : Frees request free vs) (hp : vs.Perm ws) : Frees request free ws :=
  fun d => (hp.map (·.resources.amount d)).sum_eq ▸ h d

private theorem Frees.mono (h : Frees request free vs) (hp : vs <+: ws) :
    Frees request free ws := by
  obtain ⟨rest, rfl⟩ := hp
  intro d
  have hd := h d
  rw [List.map_append, List.sum_append]
  omega

def lostRuntime (now : VirtualTime) (vs : List Victim) : Nat :=
  (vs.map fun v => now.val - v.started.val).sum

/-- How far `countVictims` gets: to the first prefix that frees enough, or to the end. -/
private theorem countVictims_spec (request : ResourceRequest) (now : VirtualTime)
    (vs : List Victim) :
    ∀ (free : Resources) (lost : Word 64) (count : Nat), ∃ n ≤ vs.length,
      (countVictims request now vs free lost count).2.2 = count + n ∧
      (request.fitsWithin (countVictims request now vs free lost count).1 = true ↔
        Frees request free (vs.take n)) ∧
      (countVictims request now vs free lost count).2.1.val =
        min (lost.val + lostRuntime now (vs.take n)) (2 ^ 64 - 1) ∧
      (∀ m < n, ¬ Frees request free (vs.take m)) ∧
      (Frees request free (vs.take n) ∨ n = vs.length) := by
  induction vs with
  | nil =>
    intro free lost count
    refine ⟨0, Nat.le_refl 0, rfl, frees_nil.symm, ?_, fun m hm => absurd hm (Nat.not_lt_zero m),
      Or.inr rfl⟩
    have hlt := lost.isLt
    show lost.val = min (lost.val + 0) (2 ^ 64 - 1)
    omega
  | cons v vs ih =>
    intro free lost count
    unfold countVictims
    split
    · rename_i hfits
      have hnil : Frees request free ((v :: vs).take 0) := frees_nil.mpr hfits
      refine ⟨0, Nat.zero_le _, rfl, iff_of_true hfits hnil, ?_,
        fun m hm => absurd hm (Nat.not_lt_zero m), Or.inl hnil⟩
      have hlt := lost.isLt
      show lost.val = min (lost.val + 0) (2 ^ 64 - 1)
      omega
    · rename_i hfits
      obtain ⟨n, hn, hcount, hfit, hlost, hshort, hend⟩ := ih (free.saturatingAdd v.resources)
        (Word.saturatingAdd lost (Word.saturatingSub now v.started)) (count + 1)
      refine ⟨n + 1, Nat.succ_le_succ hn, ?_, ?_, ?_, fun m hm => ?_, ?_⟩
      · rw [hcount]
        omega
      · rw [hfit, List.take_succ_cons, frees_cons]
      · rw [hlost, List.take_succ_cons, Word.val_saturatingAdd, Word.val_saturatingSub]
        simp only [lostRuntime, List.map_cons, List.sum_cons]
        omega
      · cases m with
        | zero => exact fun h => hfits (frees_nil.mp h)
        | succ m =>
          rw [List.take_succ_cons, frees_cons]
          exact hshort m (Nat.lt_of_succ_lt_succ hm)
      · rw [List.take_succ_cons, frees_cons]
        exact hend.imp_right (congrArg Nat.succ)

end Room

section Plans

variable (head : Job) (running : List RunningJob) (jobs : Arena Job) (inventory : SlotInventory)
  (now : VirtualTime) (config : PreemptConfig)

/-- The running jobs of a slot that the head may evict, in list order. -/
def evictable (slot : SlotIndex) : List Victim :=
  (running.filter fun r => r.slot = slot).filterMap (Victim.eligible? head jobs config)

/-- The slot could hold the head, does not now, and `chosen` is the shortest prefix of its evictable
jobs, in eviction order, that makes room. -/
structure Plans (slot : SlotIndex) (chosen : List Victim) : Prop where
  room : ∃ s, inventory.slots[slot]? = some s ∧ head.request.fitsWithin s.capacity = true ∧
    head.request.fitsWithin s.free = false ∧ Frees head.request s.free chosen ∧
    ∀ fewer, fewer <+: chosen → Frees head.request s.free fewer → fewer = chosen
  ranked : ∃ ranked, chosen <+: ranked ∧
    StablySorted Victim.GoesFirst (evictable head running jobs config slot) ranked

/-- Some evictions would make room on this slot. -/
def Freeable (slot : SlotIndex) : Prop :=
  ∃ s, inventory.slots[slot]? = some s ∧ head.request.fitsWithin s.capacity = true ∧
    head.request.fitsWithin s.free = false ∧
    Frees head.request s.free (evictable head running jobs config slot)

/-- What a plan costs: victims, then lost runtime up to what 64 bits hold, then the slot. -/
def planCost (slot : SlotIndex) (chosen : List Victim) : Nat ×ₗ Nat ×ₗ Nat :=
  toLex (chosen.length, toLex (min (lostRuntime now chosen) (2 ^ 64 - 1), slot))

def inOrder (slot : SlotIndex) : List Victim :=
  (evictable head running jobs config slot).insertionSort fun a b => a.before b

def planFor (slot : WorkerSlot × SlotIndex) : Option Plan :=
  let candidates := inOrder head running jobs config slot.2
  let out := countVictims head.request now candidates slot.1.free 0 0
  if !head.request.fitsWithin slot.1.capacity then none
  else if out.2.2 = 0 ∨ !head.request.fitsWithin out.1 then none
  else some ⟨slot.2, out.2.2, out.2.1, candidates.take out.2.2⟩

def Plan.cost (plan : Plan) : Nat ×ₗ Word 64 := toLex (plan.count, plan.lost)

private theorem considerSlot_eq (best : Option Plan) (slot : WorkerSlot × SlotIndex) :
    considerSlot head running jobs now config best slot =
      keepBetter Plan.cost best (planFor head running jobs now config slot) := by
  unfold considerSlot planFor inOrder evictable
  dsimp only
  split
  · rfl
  · split
    · rfl
    · cases best with
      | none => rfl
      | some b =>
        simp only [keepBetter, Plan.cost, Prod.Lex.toLex_lt_toLex]

variable {head running jobs inventory now config} {slot : SlotIndex} {chosen chosen' : List Victim}

theorem Plans.unique (h : Plans head running jobs inventory config slot chosen)
    (h' : Plans head running jobs inventory config slot chosen') : chosen = chosen' := by
  obtain ⟨s, hs, -, -, hfrees, hshort⟩ := h.room
  obtain ⟨s', hs', -, -, hfrees', hshort'⟩ := h'.room
  obtain rfl := Option.some.inj (hs.symm.trans hs')
  obtain ⟨ranked, hpre, hsorted⟩ := h.ranked
  obtain ⟨ranked', hpre', hsorted'⟩ := h'.ranked
  obtain rfl := hsorted.unique hsorted'
  rcases List.prefix_or_prefix_of_prefix hpre hpre' with hle | hle
  · exact hshort' chosen hle hfrees
  · exact (hshort chosen' hle hfrees').symm

theorem Plans.freeable (h : Plans head running jobs inventory config slot chosen) :
    Freeable head running jobs inventory config slot := by
  obtain ⟨s, hs, hholds, hneeded, hfrees, -⟩ := h.room
  obtain ⟨ranked, hpre, hsorted⟩ := h.ranked
  exact ⟨s, hs, hholds, hneeded, (hfrees.mono hpre).perm hsorted.perm⟩

private theorem stablySorted_inOrder (slot : SlotIndex) : StablySorted Victim.GoesFirst
    (evictable head running jobs config slot) (inOrder head running jobs config slot) := by
  have hrel : (fun a b : Victim => a.before b = true) = Victim.GoesFirst := by
    ext a b
    exact Victim.before_iff
  have htotal : Std.Total fun a b : Victim => a.before b = true := by
    rw [hrel]
    infer_instance
  have htrans : IsTrans Victim fun a b : Victim => a.before b = true := by
    rw [hrel]
    infer_instance
  have hsorted := stablySorted_insertionSort (r := fun a b : Victim => a.before b = true)
    (evictable head running jobs config slot)
  exact hrel ▸ hsorted

private theorem plans_of_planFor {s : WorkerSlot} {plan : Plan}
    (hs : inventory.slots[slot]? = some s)
    (h : planFor head running jobs now config (s, slot) = some plan) :
    Plans head running jobs inventory config slot plan.chosen ∧ plan.slot = slot ∧
      plan.count = plan.chosen.length ∧
      plan.lost.val = min (lostRuntime now plan.chosen) (2 ^ 64 - 1) := by
  unfold planFor at h
  dsimp only at h
  have hsorted := @stablySorted_inOrder head running jobs config slot
  generalize inOrder head running jobs config slot = ranked at h hsorted
  obtain ⟨n, hn, hcount, hfits, hlost, hshort, -⟩ :=
    countVictims_spec head.request now ranked s.free 0 0
  split at h
  · exact nomatch h
  rename_i hholds
  split at h
  · exact nomatch h
  rename_i hgood
  obtain ⟨hsome, hroom⟩ := not_or.mp hgood
  obtain rfl := Option.some.inj h
  rw [Nat.zero_add] at hcount
  rw [hcount] at hsome ⊢
  have hfrees : Frees head.request s.free (ranked.take n) := hfits.mp (by simpa using hroom)
  have hlen : (ranked.take n).length = n := List.length_take_of_le hn
  refine ⟨⟨⟨s, hs, by simpa using hholds, ?_, hfrees, fun fewer hpre hfewer => ?_⟩, ranked,
    List.take_prefix n ranked, hsorted⟩, rfl, hlen.symm, ?_⟩
  · have hnil := hshort 0 (Nat.pos_of_ne_zero hsome)
    rw [List.take_zero, frees_nil] at hnil
    exact Bool.eq_false_iff.mpr hnil
  · -- A shorter prefix would have stopped the count earlier.
    have htake : fewer = ranked.take fewer.length :=
      List.prefix_iff_eq_take.mp (hpre.trans ( List.take_prefix n ranked))
    have hle := hpre.length_le
    rw [hlen] at hle
    rcases Nat.lt_or_eq_of_le hle with hlt | heq
    · rw [htake] at hfewer
      exact absurd hfewer (hshort _ hlt)
    · rw [htake, heq]
  · rw [hlost]
    simp

private theorem planFor_of_freeable {s : WorkerSlot} (hs : inventory.slots[slot]? = some s)
    (h : Freeable head running jobs inventory config slot) :
    planFor head running jobs now config (s, slot) ≠ none := by
  obtain ⟨s', hs', hholds, hneeded, hfrees⟩ := h
  obtain rfl := Option.some.inj (hs.symm.trans hs')
  unfold planFor
  dsimp only
  have hsorted := @stablySorted_inOrder head running jobs config slot
  generalize inOrder head running jobs config slot = ranked at hsorted ⊢
  obtain ⟨n, hn, hcount, hfits, -, -, hend⟩ :=
    countVictims_spec head.request now ranked s.free 0 0
  have hall := hfrees.perm hsorted.perm.symm
  have hroom : Frees head.request s.free (ranked.take n) := by
    rcases hend with hend | rfl
    · exact hend
    · rwa [List.take_length]
  have hsome : n ≠ 0 := by
    rintro rfl
    rw [List.take_zero, frees_nil, hneeded] at hroom
    exact nomatch hroom
  rw [Nat.zero_add] at hcount
  rw [if_neg (by simpa using hholds), if_neg]
  · exact Option.some_ne_none _
  · rw [hcount, not_or]
    exact ⟨hsome, by simpa using hfits.mpr hroom⟩

def releaseEach (slot : SlotIndex) :
    List Victim → SlotInventory → Except CapacityError SlotInventory
  | [], inventory => .ok inventory
  | v :: rest, inventory => do
    let inventory ← inventory.release slot v.resources
    releaseEach slot rest inventory

theorem releaseEach_spec (vs : List Victim) : ∀ {inventory : SlotInventory} {s : WorkerSlot},
    inventory.slots[slot]? = some s → ∃ inventory' s',
      releaseEach slot vs inventory = .ok inventory' ∧
      inventory'.slots[slot]? = some s' ∧ s'.capacity = s.capacity ∧
      ∀ d, s'.allocated.amount d = s.allocated.amount d - (vs.map (·.resources.amount d)).sum := by
  induction vs with
  | nil => exact fun hs => ⟨_, _, rfl, hs, rfl, fun d => rfl⟩
  | cons v vs ih =>
    intro inventory s hs
    obtain ⟨hlt, -⟩ := List.getElem?_eq_some_iff.mp hs
    have hrelease : inventory.release slot v.resources = .ok { inventory with
        slots := inventory.slots.set slot
          { s with allocated := s.allocated.saturatingSub v.resources } } := by
      rw [SlotInventory.release, SlotInventory.updateSlot, hs]
    have hset : (inventory.slots.set slot
        { s with allocated := s.allocated.saturatingSub v.resources })[slot]? =
          some { s with allocated := s.allocated.saturatingSub v.resources } :=
      List.getElem?_set_self hlt
    obtain ⟨inventory', s', hok, hs', hcapacity, hamount⟩ := @ih { inventory with
      slots := inventory.slots.set slot
        { s with allocated := s.allocated.saturatingSub v.resources } } _ hset
    refine ⟨inventory', s', ?_, hs', hcapacity, fun d => ?_⟩
    · rw [releaseEach, hrelease]
      exact hok
    · rw [hamount, amount_saturatingSub, List.map_cons, List.sum_cons, Nat.sub_sub]

/-- On a slot that is not over-allocated, giving back what frees enough makes the head fit. -/
private theorem fits_of_releaseEach {request : ResourceRequest} {s : WorkerSlot} {vs : List Victim}
    (hs : inventory.slots[slot]? = some s) (hwithin : s.Within)
    (hholds : request.fitsWithin s.capacity = true) (hfrees : Frees request s.free vs) :
    ∃ inventory' s', releaseEach slot vs inventory = .ok inventory' ∧
      inventory'.slots[slot]? = some s' ∧ request.fitsWithin s'.free = true := by
  obtain ⟨inventory', s', hok, hs', hcapacity, hamount⟩ := releaseEach_spec vs hs
  refine ⟨inventory', s', hok, hs', fitsWithin_iff_amount.mpr fun d => ?_⟩
  have hw := fitsWithin_iff_amount.mp hwithin d
  have hh := fitsWithin_iff_amount.mp hholds d
  have hf := hfrees d
  rw [WorkerSlot.free, amount_saturatingSub] at hf ⊢
  rw [hamount, hcapacity]
  omega

variable (head running jobs inventory now config)

/-- Preemption is on for the head, and no eviction is in flight. -/
def MayEvict : Prop :=
  (∃ minimum, config.minClass = some minimum ∧
    minimum.ordinal ≤ head.priorityClass.ordinal) ∧
  ∀ r ∈ running, ∀ job, jobs.get r.job = some job → job.state ≠ .preempted

/-- `planPreemption` with the buffer it appends the victims to. -/
def planPreemptionInto (out : List Eviction) : Option SlotIndex × List Eviction :=
  match planPreemption head running jobs inventory now config with
  | none => (none, out)
  | some (slot, victims) => (some slot, out ++ victims)

variable {head running jobs config}

private theorem any_preempted :
    (running.any fun r => (jobs.get r.job).any fun j => j.state = .preempted) =
    true ↔ ¬ ∀ r ∈ running, ∀ job, jobs.get r.job = some job → job.state ≠ .preempted := by
  simp only [List.any_eq_true, Option.any_eq_true, decide_eq_true_eq]
  push Not
  rfl

theorem planPreemption_of_not (h : ¬ MayEvict head running jobs config) :
    planPreemption head running jobs inventory now config = none := by
  unfold planPreemption
  cases hmin : config.minClass with
  | none => rfl
  | some minimum =>
    dsimp only
    split
    · rfl
    · rename_i hclass
      rw [if_pos]
      rw [any_preempted]
      exact fun hcalm => h ⟨⟨minimum, hmin, not_lt.mp hclass⟩, hcalm⟩

theorem planPreemption_of_mayEvict (h : MayEvict head running jobs config) :
    planPreemption head running jobs inventory now config =
      ((inventory.slots.zipIdx.map (planFor head running jobs now config)).foldl
        (keepBetter Plan.cost) none).map
        fun plan => (plan.slot, plan.chosen.map fun v => Eviction.mk v.job plan.slot) := by
  obtain ⟨⟨minimum, hmin, hclass⟩, hcalm⟩ := h
  have hscan : considerSlot head running jobs now config =
      fun best slot => keepBetter Plan.cost best (planFor head running jobs now config slot) := by
    funext best slot
    exact considerSlot_eq head running jobs now config best slot
  unfold planPreemption
  rw [hmin]
  dsimp only
  rw [if_neg (not_lt.mpr hclass), if_neg fun hany => any_preempted.mp hany hcalm, hscan,
    List.foldl_map]
  cases inventory.slots.zipIdx.foldl _ _ <;> rfl

private theorem getElem?_plans (i : Nat) :
    (inventory.slots.zipIdx.map (planFor head running jobs now config))[i]? =
      inventory.slots[i]?.map fun s => planFor head running jobs now config (s, i) := by
  rw [List.getElem?_map, List.getElem?_zipIdx, Option.map_map]
  simp [Function.comp_def]

variable {inventory now}

theorem cheapest_of_scan {plan : Plan}
    (h : (inventory.slots.zipIdx.map (planFor head running jobs now config)).foldl
      (keepBetter Plan.cost) none = some plan) :
    Plans head running jobs inventory config plan.slot plan.chosen ∧
      ∀ slot' chosen', Plans head running jobs inventory config slot' chosen' →
        planCost now plan.slot plan.chosen ≤ planCost now slot' chosen' := by
  obtain ⟨i, hi, hleast⟩ := (foldl_keepBetter _).1 plan h
  rw [getElem?_plans] at hi
  obtain ⟨s, hs, hplan⟩ := Option.map_eq_some_iff.mp hi
  obtain ⟨hplans, rfl, hcount, hlost⟩ := plans_of_planFor hs hplan
  refine ⟨hplans, fun slot' chosen' h' => ?_⟩
  obtain ⟨s', hs', -⟩ := h'.freeable
  obtain ⟨plan', hplan'⟩ := Option.ne_none_iff_exists'.mp (planFor_of_freeable hs' h'.freeable)
  obtain ⟨hplans', hslot', hcount', hlost'⟩ := plans_of_planFor hs' hplan'
  obtain rfl := hplans'.unique h'
  have hj := hleast slot' plan' (by rw [getElem?_plans, hs', Option.map_some, hplan'])
  -- The scan compares counts, then lost runtime, and keeps the lower slot on a tie.
  unfold planCost
  rw [← hcount, ← hcount', ← hlost, ← hlost']
  simp only [Plan.cost, Prod.Lex.toLex_lt_toLex, Prod.Lex.toLex_le_toLex] at hj ⊢
  rcases hj with (hlt | ⟨heq, hlt⟩) | ⟨heq, hle⟩
  · exact Or.inl hlt
  · exact Or.inr ⟨heq, Or.inl hlt⟩
  · obtain ⟨hc, hl⟩ := Prod.mk.inj (toLex.injective heq)
    exact Or.inr ⟨hc, Or.inr ⟨congrArg Fin.val hl, hle⟩⟩

theorem not_freeable_of_scan
    (h : (inventory.slots.zipIdx.map (planFor head running jobs now config)).foldl
      (keepBetter Plan.cost) none = none) (slot : SlotIndex) :
    ¬ Freeable head running jobs inventory config slot := by
  intro hfree
  have ⟨s, hs, _⟩ := hfree
  have hmem : planFor head running jobs now config (s, slot) ∈
      inventory.slots.zipIdx.map (planFor head running jobs now config) := by
    refine List.mem_of_getElem? (i := slot) ?_
    rw [getElem?_plans, hs, Option.map_some]
  exact planFor_of_freeable hs hfree ((foldl_keepBetter _).2 h _ hmem)

variable (head running jobs inventory now config)

/-- There is a plan when evictions are allowed and some slot can be freed. It is the cheapest one;
its victims are appended to the buffer, and giving back what they hold makes the head fit wherever
the slot was not over-allocated. Without a plan the buffer is left alone. -/
theorem planPreemption_cheapest (out : List Eviction) :
    ((∃ slot, (planPreemptionInto head running jobs inventory now config out).1 = some slot) ↔
      MayEvict head running jobs config ∧
        ∃ slot, Freeable head running jobs inventory config slot) ∧
    (∀ slot, (planPreemptionInto head running jobs inventory now config out).1 = some slot →
      ∃ chosen, Plans head running jobs inventory config slot chosen ∧
        (planPreemptionInto head running jobs inventory now config out).2 =
          out ++ chosen.map (fun v => ⟨v.job, slot⟩) ∧
        (∀ slot' chosen', Plans head running jobs inventory config slot' chosen' →
          planCost now slot chosen ≤ planCost now slot' chosen') ∧
        ∀ s, inventory.slots[slot]? = some s → s.Within →
          ∃ inventory' s', releaseEach slot chosen inventory = .ok inventory' ∧
            inventory'.slots[slot]? = some s' ∧ head.request.fitsWithin s'.free = true) ∧
    ((planPreemptionInto head running jobs inventory now config out).1 = none →
      (planPreemptionInto head running jobs inventory now config out).2 = out) := by
  unfold planPreemptionInto
  by_cases hmay : MayEvict head running jobs config
  · rw [planPreemption_of_mayEvict inventory now hmay]
    cases hscan : (inventory.slots.zipIdx.map (planFor head running jobs now config)).foldl
      (keepBetter Plan.cost) none with
    | none =>
      refine ⟨iff_of_false (fun ⟨slot, h⟩ => (nomatch h)) fun ⟨_, slot, hfree⟩ =>
        not_freeable_of_scan hscan slot hfree, fun slot h => (nomatch h), fun _ => rfl⟩
    | some plan =>
      obtain ⟨hplans, hleast⟩ := cheapest_of_scan hscan
      refine ⟨iff_of_true ⟨plan.slot, rfl⟩ ⟨hmay, plan.slot, hplans.freeable⟩, fun slot h => ?_,
        fun h => (nomatch h)⟩
      obtain rfl : plan.slot = slot := Option.some.inj h
      refine ⟨plan.chosen, hplans, rfl, hleast, fun s hs hwithin => ?_⟩
      obtain ⟨s', hs', hholds, -, hfrees, -⟩ := hplans.room
      obtain rfl := Option.some.inj (hs.symm.trans hs')
      exact fits_of_releaseEach hs hwithin hholds hfrees
  · rw [planPreemption_of_not inventory now hmay]
    exact ⟨iff_of_false (fun ⟨slot, h⟩ => (nomatch h)) fun h => hmay h.1, fun slot h => (nomatch h),
      fun _ => rfl⟩

end Plans

/-- Two slots of two CPUs, each full with two running jobs of the lowest class. The jobs of slot 0
and the first of slot 1 started at the epoch, the last one at the end of the clock. -/
def oldJobs : Arena Job :=
  ⟨List.replicate 4 (.occupied 0 ((Job.new 0 .low 0 ⟨1, 0, 0⟩ 0).withState .running)), none, 4⟩

def oldRunning : List RunningJob :=
  [⟨JobId.new 0 0, 0, ⟨1, 0, 0⟩, 0⟩, ⟨JobId.new 1 0, 0, ⟨1, 0, 0⟩, 0⟩,
    ⟨JobId.new 2 0, 1, ⟨1, 0, 0⟩, 0⟩, ⟨JobId.new 3 0, 1, ⟨1, 0, 0⟩, Word.maxValue 64⟩]

def fullSlots : SlotInventory :=
  ⟨[⟨⟨2, 0, 0⟩, ⟨2, 0, 0⟩⟩, ⟨⟨2, 0, 0⟩, ⟨2, 0, 0⟩⟩], ⟨2, 0, 0⟩⟩

/-- A head that needs a whole slot, and evictions allowed. -/
def urgentHead : Job := Job.new 0 .urgent 0 ⟨2, 0, 0⟩ 10

def evictingConfig : PreemptConfig := ⟨some .high, 3, 5⟩

/-- A slot of four CPUs that was left with eight allocated: a job the head may evict, and one it may
not. -/
def mixedJobs : Arena Job :=
  ⟨[.occupied 0 ((Job.new 0 .low 0 ⟨4, 0, 0⟩ 0).withState .running),
    .occupied 0 ((Job.new 0 .urgent 0 ⟨4, 0, 0⟩ 0).withState .running)], none, 2⟩

def mixedRunning : List RunningJob :=
  [⟨JobId.new 0 0, 0, ⟨4, 0, 0⟩, 0⟩, ⟨JobId.new 1 0, 0, ⟨4, 0, 0⟩, 0⟩]

def overfullSlot : SlotInventory := ⟨[⟨⟨4, 0, 0⟩, ⟨8, 0, 0⟩⟩], ⟨4, 0, 0⟩⟩

/-- Lost runtime is compared up to 64 bits, so the slot with less of it can lose; and a slot that is
over-allocated is planned for although releasing all it may evict leaves no room. -/
theorem plan_not_cheapest_nor_freeing :
    (∃ chosen₀ chosen₁,
      planPreemption urgentHead oldRunning oldJobs fullSlots (Word.maxValue 64) evictingConfig =
        some (0, chosen₀.map fun v => ⟨v.job, 0⟩) ∧
      Plans urgentHead oldRunning oldJobs fullSlots evictingConfig 0 chosen₀ ∧
      Plans urgentHead oldRunning oldJobs fullSlots evictingConfig 1 chosen₁ ∧
      chosen₁.length = chosen₀.length ∧
      lostRuntime (Word.maxValue 64) chosen₁ < lostRuntime (Word.maxValue 64) chosen₀) ∧
    planPreemption { urgentHead with request := ⟨4, 0, 0⟩ } mixedRunning mixedJobs overfullSlot 0
      evictingConfig = some (0, [⟨JobId.new 0 0, 0⟩]) ∧
    (releaseEach 0 (evictable { urgentHead with request := ⟨4, 0, 0⟩ } mixedRunning mixedJobs
      evictingConfig 0) overfullSlot).toOption.map (fun inventory =>
        inventory.slots.map (·.free)) = some [Resources.zero] := by
  have hplan₀ : planFor urgentHead oldRunning oldJobs (Word.maxValue 64) evictingConfig
      (⟨⟨2, 0, 0⟩, ⟨2, 0, 0⟩⟩, 0) = some ⟨0, 2, Word.maxValue 64,
        [⟨.low, 0, JobId.new 0 0, ⟨1, 0, 0⟩⟩, ⟨.low, 0, JobId.new 1 0, ⟨1, 0, 0⟩⟩]⟩ := by
    decide +kernel
  have hplan₁ : planFor urgentHead oldRunning oldJobs (Word.maxValue 64) evictingConfig
      (⟨⟨2, 0, 0⟩, ⟨2, 0, 0⟩⟩, 1) = some ⟨1, 2, Word.maxValue 64,
        [⟨.low, Word.maxValue 64, JobId.new 3 0, ⟨1, 0, 0⟩⟩,
          ⟨.low, 0, JobId.new 2 0, ⟨1, 0, 0⟩⟩]⟩ := by
    decide +kernel
  refine ⟨⟨_, _, ?_, (plans_of_planFor rfl hplan₀).1, (plans_of_planFor rfl hplan₁).1, rfl, ?_⟩,
    ?_, ?_⟩
  all_goals decide +kernel

/-- Early on the clock, slot 1 loses less runtime. -/
theorem planPreemption_cheapest_sample :
    (planPreemptionInto urgentHead oldRunning oldJobs fullSlots 100 evictingConfig []).1 = some 1 ∧
      ∃ chosen, Plans urgentHead oldRunning oldJobs fullSlots evictingConfig 1 chosen ∧
        (planPreemptionInto urgentHead oldRunning oldJobs fullSlots 100 evictingConfig []).2 =
          chosen.map (fun v => ⟨v.job, 1⟩) := by
  have hslot : (planPreemptionInto urgentHead oldRunning oldJobs fullSlots 100 evictingConfig
      []).1 = some 1 := by
    decide +kernel
  obtain ⟨chosen, hplans, hout, -⟩ := (planPreemption_cheapest urgentHead oldRunning oldJobs
    fullSlots 100 evictingConfig []).2.1 1 hslot
  exact ⟨hslot, chosen, hplans, hout⟩

end TaskerRT.Policy
