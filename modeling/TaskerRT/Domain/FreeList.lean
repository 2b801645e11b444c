/- module: TaskerRT/Domain/FreeList
   source: crates/tasker-core/src/domain/arena.rs
   digest: The arena keeps every vacant slot on one free list and never reissues a handle. -/

import TaskerRT.Domain.Arena

set_option autoImplicit false

namespace TaskerRT.Domain

open Library

universe u

namespace Arena

variable {α : Type u}

def VacantAt (slots : List (Slot α)) (i : Nat) : Prop :=
  ∃ generation nextFree, slots[i]? = some (.vacant generation nextFree)

/-- Following free links from `head` visits exactly the slots of the chain and then stops. -/
def Linked (slots : List (Slot α)) : Option (Word 32) → List Nat → Prop
  | head, [] => head = none
  | head, i :: chain => ∃ index generation nextFree, head = some index ∧ index.val = i ∧
      slots[i]? = some (.vacant generation nextFree) ∧ Linked slots nextFree chain

namespace Linked

variable {slots slots' : List (Slot α)} {head : Option (Word 32)} {chain chain' : List Nat}

theorem vacantAt (h : Linked slots head chain) : ∀ i ∈ chain, VacantAt slots i := by
  induction chain generalizing head with
  | nil => simp
  | cons j chain ih =>
    obtain ⟨_, g, n, _, _, hs, hrest⟩ := h
    intro i hi
    rcases List.mem_cons.mp hi with rfl | hi
    · exact ⟨g, n, hs⟩
    · exact ih hrest i hi

private theorem unique (h : Linked slots head chain) (h' : Linked slots head chain') :
    chain = chain' := by
  induction chain generalizing head chain' with
  | nil =>
    cases chain' with
    | nil => rfl
    | cons j rest =>
      obtain ⟨_, _, _, hh, _⟩ := h'
      rw [show head = none from h] at hh
      cases hh
  | cons i chain ih =>
    obtain ⟨index, g, n, rfl, hi, hs, hrest⟩ := h
    cases chain' with
    | nil => cases h'
    | cons j rest =>
      obtain ⟨index', g', n', hh, hj, hs', hrest'⟩ := h'
      cases Option.some.inj hh
      subst hi hj
      rw [hs] at hs'
      simp only [Option.some.injEq, Slot.vacant.injEq] at hs'
      rw [ih hrest (hs'.2 ▸ hrest')]

private theorem of_mem (h : Linked slots head chain) {i : Nat} (hi : i ∈ chain) :
    ∃ index : Word 32, index.val = i ∧ ∃ rest, rest <:+ chain ∧
      Linked slots (some index) (i :: rest) ∧ rest.length < chain.length := by
  induction chain generalizing head with
  | nil => cases hi
  | cons j chain ih =>
    have h₀ := h
    obtain ⟨index, g, n, rfl, hj, hs, hrest⟩ := h
    rcases List.mem_cons.mp hi with rfl | hi
    · exact ⟨index, hj, chain, List.suffix_cons _ _, h₀, by simp⟩
    · obtain ⟨index', hv, rest, hsuf, hl, hlt⟩ := ih hrest hi
      exact ⟨index', hv, rest, hsuf.trans (List.suffix_cons _ _), hl, by simp; omega⟩

theorem nodup (h : Linked slots head chain) : chain.Nodup := by
  induction chain generalizing head with
  | nil => simp
  | cons i chain ih =>
    have h₀ := h
    obtain ⟨index, g, n, rfl, hi, hs, hrest⟩ := h
    refine List.nodup_cons.mpr ⟨?_, ih hrest⟩
    intro hmem
    obtain ⟨index', hv, rest, _, hl, hlt⟩ := of_mem hrest hmem
    have he : index' = index := Fin.ext (hv.trans hi.symm)
    have := congrArg List.length (unique h₀ (he ▸ hl))
    simp only [List.length_cons] at this
    omega

private theorem frame (h : Linked slots head chain)
    (heq : ∀ i ∈ chain, slots'[i]? = slots[i]?) : Linked slots' head chain := by
  induction chain generalizing head with
  | nil => exact h
  | cons i chain ih =>
    obtain ⟨index, g, n, hh, hi, hs, hrest⟩ := h
    refine ⟨index, g, n, hh, hi, ?_, ih hrest fun j hj => heq j (List.mem_cons_of_mem _ hj)⟩
    rw [heq i List.mem_cons_self, hs]

end Linked

def vacantSlots (slots : List (Slot α)) : List Nat :=
  (slots.zipIdx.filter fun s => s.1.isVacant).map Prod.snd

private theorem mem_vacantSlots {slots : List (Slot α)} {i : Nat} :
    i ∈ vacantSlots slots ↔ VacantAt slots i := by
  unfold vacantSlots VacantAt
  simp only [List.mem_map, List.mem_filter, Prod.exists, List.mem_zipIdx_iff_getElem?]
  constructor
  · rintro ⟨s, j, ⟨hs, hv⟩, rfl⟩
    cases s with
    | occupied g v => cases hv
    | vacant g n => exact ⟨g, n, hs⟩
  · rintro ⟨g, n, hs⟩
    exact ⟨_, i, ⟨hs, rfl⟩, rfl⟩

private theorem nodup_vacantSlots (slots : List (Slot α)) : (vacantSlots slots).Nodup := by
  unfold vacantSlots
  refine List.Nodup.sublist (List.filter_sublist.map Prod.snd) ?_
  rw [List.zipIdx_map_snd]
  exact List.nodup_range'

private theorem length_vacantSlots (slots : List (Slot α)) :
    (vacantSlots slots).length = slots.countP Slot.isVacant := by
  unfold vacantSlots
  rw [List.length_map, ← List.countP_eq_length_filter]
  conv_rhs => rw [← List.zipIdx_map_fst 0 slots, List.countP_map]
  rfl

/-- Every vacant slot is on the free list, handles fit their index field and the length is
the number of occupied slots. -/
structure Wf (a : Arena α) : Prop where
  bound : a.slots.length ≤ 2 ^ 32
  chained : ∃ chain, Linked a.slots a.freeHead chain ∧ ∀ i, VacantAt a.slots i → i ∈ chain
  len_eq : a.len = a.slots.length - a.slots.countP Slot.isVacant

private theorem walkFree_of_linked {slots : List (Slot α)} {vacant : Nat} {chain : List Nat} :
    ∀ {fuel reachable : Nat} {head : Option (Word 32)}, Linked slots head chain →
      chain.length < fuel → reachable + chain.length ≤ vacant →
      walkFree slots vacant fuel head reachable = .ok (reachable + chain.length) := by
  induction chain with
  | nil =>
    intro fuel reachable head h _ _
    rw [show head = none from h, walkFree]
    rfl
  | cons i chain ih =>
    intro fuel reachable head h hfuel hle
    obtain ⟨index, g, n, rfl, rfl, hs, hrest⟩ := h
    obtain ⟨fuel, rfl⟩ : ∃ k, fuel = k + 1 := ⟨fuel - 1, by omega⟩
    simp only [List.length_cons] at hfuel hle ⊢
    simp only [walkFree, hs]
    rw [if_pos (by omega), ih hrest (by omega) (by omega)]
    congr 1
    omega

private theorem linked_of_walkFree {slots : List (Slot α)} {vacant : Nat} :
    ∀ {fuel reachable result : Nat} {head : Option (Word 32)},
      walkFree slots vacant fuel head reachable = .ok result →
      ∃ chain, Linked slots head chain ∧ result = reachable + chain.length := by
  intro fuel
  induction fuel with
  | zero =>
    intro reachable result head h
    cases head with
    | none =>
      cases h
      exact ⟨[], rfl, rfl⟩
    | some index => cases h
  | succ fuel ih =>
    intro reachable result head h
    cases head with
    | none =>
      cases h
      exact ⟨[], rfl, rfl⟩
    | some index =>
      simp only [walkFree] at h
      split at h
      · rename_i g n hs
        split at h
        · obtain ⟨chain, hl, hr⟩ := ih h
          exact ⟨index.val :: chain, ⟨index, g, n, rfl, rfl, hs, hl⟩, by simp; omega⟩
        · cases h
      · cases h

theorem fromParts_of_chained {slots : List (Slot α)} {freeHead : Option (Word 32)}
    {chain : List Nat} (hl : Linked slots freeHead chain)
    (hall : ∀ i, VacantAt slots i → i ∈ chain) : fromParts slots freeHead =
      .ok ⟨slots, freeHead, slots.length - slots.countP Slot.isVacant⟩ := by
  have hperm : chain.Perm (vacantSlots slots) := by
    rw [List.perm_ext_iff_of_nodup hl.nodup (nodup_vacantSlots _)]
    intro i
    rw [mem_vacantSlots]
    exact ⟨hl.vacantAt i, hall i⟩
  have hlen : chain.length = slots.countP Slot.isVacant := by
    rw [hperm.length_eq, length_vacantSlots]
  unfold fromParts
  simp only
  rw [walkFree_of_linked hl (by omega) (by omega), Nat.zero_add, hlen]
  simp only [ne_eq, not_true_eq_false, if_false]

theorem Wf.fromParts_eq {a : Arena α} (h : a.Wf) : fromParts a.slots a.freeHead = .ok a := by
  obtain ⟨chain, hl, hall⟩ := h.chained
  rw [fromParts_of_chained hl hall, ← h.len_eq]

theorem chained_of_fromParts {slots : List (Slot α)} {freeHead : Option (Word 32)} {a : Arena α}
    (h : fromParts slots freeHead = .ok a) :
    ∃ chain, Linked slots freeHead chain ∧ ∀ i, VacantAt slots i → i ∈ chain := by
  unfold fromParts at h
  simp only at h
  split at h
  · cases h
  · rename_i reachable hwalk
    split at h
    · cases h
    · rename_i hr
      obtain ⟨chain, hl, hlen⟩ := linked_of_walkFree hwalk
      have hsub : chain ⊆ vacantSlots slots :=
        fun i hi => mem_vacantSlots.mpr (hl.vacantAt i hi)
      have hperm := (List.subperm_of_subset hl.nodup hsub).perm_of_length_le
        (by rw [length_vacantSlots]; omega)
      exact ⟨chain, hl, fun i hi => hperm.mem_iff.mpr (mem_vacantSlots.mpr hi)⟩

/-- What `fromParts` accepts is well formed, whatever bytes it was read from. -/
theorem wf_of_fromParts {slots : List (Slot α)} {freeHead : Option (Word 32)} {a : Arena α}
    (hbound : slots.length ≤ 2 ^ 32) (h : fromParts slots freeHead = .ok a) :
    a.Wf ∧ a.slots = slots ∧ a.freeHead = freeHead := by
  obtain ⟨chain, hl, hall⟩ := chained_of_fromParts h
  rw [fromParts_of_chained hl hall] at h
  obtain rfl := Except.ok.inj h
  exact ⟨⟨hbound, ⟨chain, hl, hall⟩, rfl⟩, rfl, rfl⟩

theorem wf_new : (new : Arena α).Wf :=
  ⟨by simp [new], ⟨[], rfl, by simp [VacantAt, new]⟩, rfl⟩

private theorem countP_isVacant_set {slots : List (Slot α)} {i : Nat} {s t : Slot α}
    (h : slots[i]? = some s) :
    (slots.set i t).countP Slot.isVacant + (if s.isVacant then 1 else 0) =
      slots.countP Slot.isVacant + if t.isVacant then 1 else 0 := by
  induction slots generalizing i with
  | nil => cases h
  | cons x slots ih =>
    cases i with
    | zero =>
      cases Option.some.inj (show some x = some s from h)
      simp only [List.set_cons_zero, List.countP_cons]
      omega
    | succ i =>
      have := ih (i := i) (by simpa using h)
      simp only [List.set_cons_succ, List.countP_cons]
      omega

private theorem countP_isVacant_lt {slots : List (Slot α)} {i : Nat} {g : Word 32} {v : α}
    (h : slots[i]? = some (.occupied g v)) : slots.countP Slot.isVacant < slots.length := by
  rcases Nat.lt_or_ge (slots.countP Slot.isVacant) slots.length with hlt | hge
  · exact hlt
  · have hall := List.countP_eq_length.mp (le_antisymm List.countP_le_length hge)
    exact absurd (hall _ (List.mem_of_getElem? h)) (by simp [Slot.isVacant])

private theorem VacantAt.ne_slot {a : Arena α} {id : JobId} {v : α} {i : Nat}
    (hg : a.get id = some v) : VacantAt a.slots i → i ≠ id.slot := by
  rintro ⟨g, n, hs⟩ rfl
  rw [get_eq_some.mp hg] at hs
  cases hs

theorem Wf.modify {a : Arena α} (h : a.Wf) (id : JobId) (f : α → α) : (a.modify id f).Wf := by
  cases hg : a.get id with
  | none => rwa [modify_of_stale f hg]
  | some v =>
    rw [modify_of_get f hg]
    obtain ⟨chain, hl, hall⟩ := h.chained
    have hvac := fun i => VacantAt.ne_slot (i := i) hg
    rw [get_eq_some] at hg
    have hlt := (List.getElem?_eq_some_iff.mp hg).1
    refine ⟨by simpa using h.bound, ⟨chain, hl.frame ?_, ?_⟩, ?_⟩
    · intro i hi
      exact List.getElem?_set_ne (Ne.symm (hvac i (hl.vacantAt i hi)))
    · rintro i ⟨g, n, hs⟩
      by_cases hi : i = id.slot
      · subst hi
        rw [List.getElem?_set_self hlt] at hs
        cases hs
      · rw [List.getElem?_set_ne (Ne.symm hi)] at hs
        exact hall i ⟨g, n, hs⟩
    · have := countP_isVacant_set (t := .occupied id.generation (f v)) hg
      simp only [Slot.isVacant, Bool.false_eq_true, if_false] at this
      simp only [List.length_set, h.len_eq]
      omega

theorem Wf.modifyAll {a : Arena α} (h : a.Wf) (ids : List JobId) (f : α → α) :
    (a.modifyAll ids f).Wf := by
  unfold Arena.modifyAll
  induction ids generalizing a with
  | nil => exact h
  | cons id ids ih => exact ih (h.modify id f)

theorem Wf.insert {a a' : Arena α} {v : α} {id : JobId} (h : a.Wf)
    (hi : a.insert v = some (a', id)) : a'.Wf := by
  obtain ⟨chain, hl, hall⟩ := h.chained
  unfold Arena.insert at hi
  split at hi
  · rename_i index hf
    split at hi
    · rename_i g n hs
      simp only [Option.some.injEq, Prod.mk.injEq] at hi
      obtain ⟨rfl, rfl⟩ := hi
      have hlt := (List.getElem?_eq_some_iff.mp hs).1
      -- the head of the chain is the slot just filled
      obtain ⟨rest, rfl, hrest⟩ : ∃ rest, chain = index.val :: rest ∧ Linked a.slots n rest := by
        rw [hf] at hl
        cases chain with
        | nil => cases hl
        | cons j rest =>
          obtain ⟨index', g', n', hh, rfl, hs', hr⟩ := hl
          cases Option.some.inj hh
          rw [hs] at hs'
          simp only [Option.some.injEq, Slot.vacant.injEq] at hs'
          exact ⟨rest, rfl, hs'.2 ▸ hr⟩
      have hnot : index.val ∉ rest := (List.nodup_cons.mp hl.nodup).1
      refine ⟨by simpa using h.bound, ⟨rest, hrest.frame ?_, ?_⟩, ?_⟩
      · intro j hj
        have hne : index.val ≠ j := fun he => hnot (he ▸ hj)
        exact List.getElem?_set_ne hne
      · rintro j ⟨g', n', hs'⟩
        by_cases hj : j = index.val
        · subst hj
          rw [List.getElem?_set_self hlt] at hs'
          cases hs'
        · rw [List.getElem?_set_ne (Ne.symm hj)] at hs'
          exact (List.mem_cons.mp (hall j ⟨g', n', hs'⟩)).resolve_left hj
      · have := countP_isVacant_set (t := .occupied g v) hs
        simp only [Slot.isVacant, if_true, Bool.false_eq_true, if_false] at this
        have hle := List.countP_le_length (p := Slot.isVacant) (l := a.slots)
        simp only [List.length_set, h.len_eq]
        omega
    · cases hi
  · rename_i hf
    split at hi
    · rename_i hlt
      simp only [Option.some.injEq, Prod.mk.injEq] at hi
      obtain ⟨rfl, rfl⟩ := hi
      have hchain : chain = [] := hl.unique (hf ▸ (rfl : Linked a.slots none []))
      subst hchain
      refine ⟨by simp; omega, ⟨[], rfl, ?_⟩, ?_⟩
      · rintro j ⟨g, n, hs⟩
        rw [List.getElem?_append] at hs
        split at hs
        · exact hall j ⟨g, n, hs⟩
        · obtain ⟨hj, he⟩ := List.getElem?_eq_some_iff.mp hs
          simp only [List.getElem_singleton] at he
          cases he
      · have hle := List.countP_le_length (p := Slot.isVacant) (l := a.slots)
        simp only [List.length_append, List.length_singleton, List.countP_append,
          List.countP_singleton, Slot.isVacant, Bool.false_eq_true, if_false, h.len_eq]
        omega
    · cases hi

theorem Wf.remove {a : Arena α} (h : a.Wf) (id : JobId) : (a.remove id).1.Wf := by
  cases hg : a.get id with
  | none => rwa [remove_of_stale hg]
  | some v =>
    rw [remove_of_get hg]
    obtain ⟨chain, hl, hall⟩ := h.chained
    have hvac := fun i => VacantAt.ne_slot (i := i) hg
    rw [get_eq_some] at hg
    have hlt := (List.getElem?_eq_some_iff.mp hg).1
    refine ⟨by simpa using h.bound, ⟨id.slot :: chain, ?_, ?_⟩, ?_⟩
    · refine ⟨id.index, _, _, rfl, rfl, List.getElem?_set_self hlt, hl.frame ?_⟩
      intro i hi
      exact List.getElem?_set_ne (Ne.symm (hvac i (hl.vacantAt i hi)))
    · rintro i ⟨g, n, hs⟩
      by_cases hi : i = id.slot
      · exact hi ▸ List.mem_cons_self
      · rw [List.getElem?_set_ne (Ne.symm hi)] at hs
        exact List.mem_cons_of_mem _ (hall i ⟨g, n, hs⟩)
    · have := countP_isVacant_set (t := .vacant (id.generation + 1) a.freeHead) hg
      simp only [Slot.isVacant, if_true, Bool.false_eq_true, if_false] at this
      have hcount := countP_isVacant_lt hg
      simp only [List.length_set, h.len_eq]
      omega

/-! A handle counts as issued from the insertion that returned it on. Handles stay issued,
    and the next handle is never an issued one, as long as no generation wraps around. -/

def Issued (a : Arena α) (id : JobId) : Prop :=
  match a.slots[id.slot]? with
  | some (.occupied generation _) => id.generation.val ≤ generation.val
  | some (.vacant generation _) => id.generation.val < generation.val
  | none => False

theorem issued_of_get {a : Arena α} {id : JobId} {v : α} (h : a.get id = some v) :
    a.Issued id := by
  rw [get_eq_some] at h
  rw [Issued, h]

theorem not_issued_nextId {a : Arena α} {id : JobId} (h : a.nextId = some id) :
    ¬ a.Issued id := by
  unfold Issued
  rcases slot_of_nextId h with ⟨n, hs⟩ | ⟨hs, _⟩
  · rw [hs]
    exact Nat.lt_irrefl _
  · rw [List.getElem?_eq_none (by omega)]
    exact not_false

theorem Issued.ne_nextId {a : Arena α} {x id : JobId} (hx : a.Issued x)
    (h : a.nextId = some id) : x ≠ id := by
  rintro rfl
  exact not_issued_nextId h hx

theorem issued_congr {β : Type u} {a : Arena α} {b : Arena β} {id : JobId}
    (h : (a.slots[id.slot]?).map (Slot.map fun _ => PUnit.unit.{u + 1}) =
      (b.slots[id.slot]?).map (Slot.map fun _ => PUnit.unit.{u + 1})) :
    a.Issued id ↔ b.Issued id := by
  unfold Issued
  rcases ha : a.slots[id.slot]? with _ | (⟨g, v⟩ | ⟨g, n⟩) <;>
    rcases hb : b.slots[id.slot]? with _ | (⟨g', v'⟩ | ⟨g', n'⟩) <;>
    simp_all [Slot.map]

@[simp] theorem issued_modify {a : Arena α} {id x : JobId} {f : α → α} :
    (a.modify id f).Issued x ↔ a.Issued x := by
  apply issued_congr
  rw [← shape_getElem?, ← shape_getElem?, shape_modify]

@[simp] theorem issued_modifyAll {a : Arena α} {ids : List JobId} {x : JobId} {f : α → α} :
    (a.modifyAll ids f).Issued x ↔ a.Issued x := by
  apply issued_congr
  rw [← shape_getElem?, ← shape_getElem?, shape_modifyAll]

theorem issued_insert {a a' : Arena α} {v : α} {id : JobId} (h : a.insert v = some (a', id))
    {x : JobId} (hx : a.Issued x) : a'.Issued x := by
  unfold Issued
  rw [slots_insert h]
  by_cases hs : x.slot = id.slot
  · rw [if_pos hs]
    rcases slot_of_nextId (nextId_of_insert h) with ⟨n, hv⟩ | ⟨hv, _⟩
    · rw [Issued, hs, hv] at hx
      exact Nat.le_of_lt hx
    · rw [Issued, List.getElem?_eq_none (by omega)] at hx
      exact hx.elim
  · rw [if_neg hs]
    exact hx

theorem eq_or_issued_of_insert {a a' : Arena α} {v : α} {id : JobId}
    (h : a.insert v = some (a', id)) {x : JobId} (hx : a'.Issued x) : x = id ∨ a.Issued x := by
  unfold Issued at hx ⊢
  rw [slots_insert h] at hx
  by_cases hs : x.slot = id.slot
  · rw [if_pos hs] at hx
    have hle : x.generation.val ≤ id.generation.val := hx
    by_cases hg : x.generation = id.generation
    · exact Or.inl (JobId.ext_slot hs hg)
    · have hlt : x.generation.val < id.generation.val :=
        lt_of_le_of_ne hle fun he => hg (Fin.ext he)
      right
      rcases slot_of_nextId (nextId_of_insert h) with ⟨n, hv⟩ | ⟨-, hzero⟩
      · rw [hs, hv]
        exact hlt
      · rw [hzero] at hlt
        exact absurd hlt (Nat.not_lt_zero _)
  · rw [if_neg hs] at hx
    exact Or.inr hx

theorem issued_remove {a : Arena α} {id x : JobId}
    (hwrap : id.generation ≠ Word.maxValue 32) (hx : a.Issued x) : (a.remove id).1.Issued x := by
  cases hg : a.get id with
  | none => rwa [remove_of_stale hg]
  | some v =>
    rw [remove_of_get hg]
    have hlt := slot_lt_of_get hg
    rw [get_eq_some] at hg
    unfold Issued at hx ⊢
    simp only
    by_cases hs : x.slot = id.slot
    · rw [hs, hg] at hx
      rw [hs, List.getElem?_set_self hlt]
      simp only [Word.val_add_one hwrap]
      exact Nat.lt_succ_of_le hx
    · rwa [List.getElem?_set_ne (Ne.symm hs)]

end Arena

end TaskerRT.Domain
