/- module: TaskerRT/Domain/Mapped
   source: none (general facts about crates/tasker-core/src/domain/arena.rs)
   digest: An arena with every value rewritten behaves like the arena itself. -/

import TaskerRT.Domain.FreeList

set_option autoImplicit false

namespace TaskerRT.Domain

open Library

namespace Arena

universe u

variable {α β : Type u} {f : α → β} {a : Arena α} {id : JobId}

def map (f : α → β) (a : Arena α) : Arena β := ⟨a.slots.map (Slot.map f), a.freeHead, a.len⟩

theorem getElem?_map_slots (f : α → β) (a : Arena α) (i : Nat) :
    (a.map f).slots[i]? = (a.slots[i]?).map (Slot.map f) :=
  List.getElem?_map

@[simp] theorem get_map (f : α → β) (a : Arena α) (id : JobId) :
    (a.map f).get id = (a.get id).map f := by
  unfold get
  rw [getElem?_map_slots]
  rcases a.slots[id.slot]? with _ | (⟨g, v⟩ | ⟨g, n⟩)
  · rfl
  · simp only [Option.map_some, Slot.map]
    split <;> rfl
  · rfl

@[simp] theorem freeHead_map (f : α → β) (a : Arena α) : (a.map f).freeHead = a.freeHead := rfl

@[simp] theorem nextId_map (f : α → β) (a : Arena α) : (a.map f).nextId = a.nextId := by
  unfold nextId
  simp only [getElem?_map_slots, freeHead_map]
  cases a.freeHead with
  | none => simp [map]
  | some index =>
    dsimp only
    rcases a.slots[index.val]? with _ | (⟨g, v⟩ | ⟨g, n⟩) <;> rfl

theorem insert_map {v : α} {a' : Arena α} (h : a.insert v = some (a', id)) :
    (a.map f).insert (f v) = some (a'.map f, id) := by
  unfold insert at h ⊢
  simp only [getElem?_map_slots, freeHead_map]
  cases hf : a.freeHead with
  | none =>
    rw [hf] at h
    dsimp only at h ⊢
    split at h
    · rename_i hlt
      obtain ⟨rfl, rfl⟩ := Prod.mk.inj (Option.some.inj h)
      simp only [map, List.length_map, dif_pos hlt, List.map_append, List.map_cons, List.map_nil,
        Slot.map]
    · cases h
  | some index =>
    rw [hf] at h
    dsimp only at h ⊢
    split at h
    · rename_i g n hs
      obtain ⟨rfl, rfl⟩ := Prod.mk.inj (Option.some.inj h)
      rw [hs]
      simp [map, Slot.map, List.map_set]
    · cases h

theorem modify_map {g : α → α} {g' : β → β} (h : ∀ v, a.get id = some v → f (g v) = g' (f v)) :
    (a.modify id g).map f = (a.map f).modify id g' := by
  cases hg : a.get id with
  | none =>
    have hg' : (a.map f).get id = none := by rw [get_map, hg]; rfl
    rw [modify_of_stale g hg, modify_of_stale g' hg']
  | some v =>
    have hg' : (a.map f).get id = some (f v) := by rw [get_map, hg]; rfl
    rw [modify_of_get g hg, modify_of_get g' hg', ← h v hg]
    simp [map, Slot.map, List.map_set]

theorem modifyAll_map {g : α → α} {g' : β → β} (h : ∀ v, f (g v) = g' (f v)) (ids : List JobId) :
    ∀ a : Arena α, (a.modifyAll ids g).map f = (a.map f).modifyAll ids g' := by
  induction ids with
  | nil => exact fun _ => rfl
  | cons id ids ih =>
    intro a
    show ((a.modify id g).modifyAll ids g).map f = ((a.map f).modify id g').modifyAll ids g'
    rw [ih, modify_map fun v _ => h v]

theorem map_modify_eq {g : α → α} (h : ∀ v, a.get id = some v → f (g v) = f v) :
    (a.modify id g).map f = a.map f := by
  have hmap : (a.modify id g).map f = (a.map f).modify id fun v => v := modify_map h
  rw [hmap]
  exact modify_eq_self fun _ _ => rfl

theorem map_modifyAll_eq {g : α → α} (h : ∀ v, f (g v) = f v) (ids : List JobId) :
    ∀ a : Arena α, (a.modifyAll ids g).map f = a.map f := by
  induction ids with
  | nil => exact fun _ => rfl
  | cons id ids ih =>
    intro a
    refine (ih _).trans ?_
    exact map_modify_eq fun v _ => h v

/-! The outline of an arena: its slots and free list without the values. -/

theorem outline_map (f : α → β) (a : Arena α) :
    ((a.map f).map fun _ => PUnit.unit.{u + 1}) = a.map fun _ => PUnit.unit := by
  simp only [map, List.map_map]
  congr 1
  apply List.map_congr_left
  rintro (⟨g, v⟩ | ⟨g, n⟩) _ <;> rfl

theorem outline_modify (a : Arena α) (id : JobId) (g : α → α) :
    ((a.modify id g).map fun _ => PUnit.unit.{u + 1}) = a.map fun _ => PUnit.unit :=
  map_modify_eq fun _ _ => rfl

theorem outline_modifyAll (a : Arena α) (ids : List JobId) (g : α → α) :
    ((a.modifyAll ids g).map fun _ => PUnit.unit.{u + 1}) = a.map fun _ => PUnit.unit := by
  apply map_modifyAll_eq
  intro v
  rfl

theorem remove_map (f : α → β) (a : Arena α) (id : JobId) :
    (a.remove id).1.map f = ((a.map f).remove id).1 := by
  cases hg : a.get id with
  | none =>
    have hg' : (a.map f).get id = none := by rw [get_map, hg]; rfl
    rw [remove_of_stale hg, remove_of_stale hg']
  | some v =>
    have hg' : (a.map f).get id = some (f v) := by rw [get_map, hg]; rfl
    rw [remove_of_get hg, remove_of_get hg']
    simp [map, Slot.map, List.map_set]

theorem iter_map (f : α → β) (a : Arena α) :
    (a.map f).iter = a.iter.map fun p => (p.1, f p.2) := by
  show ((a.slots.map (Slot.map f)).zipIdx).filterMap _ = (a.slots.zipIdx.filterMap _).map _
  rw [List.zipIdx_map, List.filterMap_map, List.map_filterMap]
  apply List.filterMap_congr
  intro s _
  rcases s with ⟨⟨g, v⟩ | ⟨g, n⟩, i⟩ <;> rfl

theorem Wf.map (h : a.Wf) (f : α → β) : (a.map f).Wf := by
  have hvacant : ∀ (i : Nat) (g : Word 32) (n : Option (Word 32)),
      (a.map f).slots[i]? = some (Slot.vacant g n) ↔ a.slots[i]? = some (Slot.vacant g n) := by
    intro i g n
    rw [getElem?_map_slots]
    rcases a.slots[i]? with _ | (⟨g', v⟩ | ⟨g', n'⟩) <;> simp [Slot.map]
  obtain ⟨chain, hlinked, hall⟩ := h.chained
  have hlift : ∀ (chain : List Nat) (head : Option (Word 32)), Linked a.slots head chain →
      Linked (a.map f).slots head chain := by
    intro chain
    induction chain with
    | nil => exact fun _ hl => hl
    | cons i chain ih =>
      rintro head ⟨index, g, n, hhead, hi, hs, hrest⟩
      exact ⟨index, g, n, hhead, hi, (hvacant i g n).mpr hs, ih n hrest⟩
  refine ⟨by simpa [Arena.map] using h.bound, ⟨chain, hlift chain _ hlinked, ?_⟩, ?_⟩
  · rintro i ⟨g, n, hs⟩
    exact hall i ⟨g, n, (hvacant i g n).mp hs⟩
  · have hcount : (a.map f).slots.countP Slot.isVacant = a.slots.countP Slot.isVacant := by
      show (a.slots.map (Slot.map f)).countP Slot.isVacant = _
      rw [List.countP_map]
      apply List.countP_congr
      rintro (⟨g, v⟩ | ⟨g, n⟩) _ <;> rfl
    rw [hcount]
    simpa [Arena.map] using h.len_eq

/-- Arenas with the same free list and slots that hold the same under every handle are one. -/
theorem ext_get {b : Arena α} (hlen : a.slots.length ≤ 2 ^ 32)
    (hshape : (a.map fun _ => PUnit.unit.{u + 1}) = b.map fun _ => PUnit.unit)
    (h : ∀ x, a.get x = b.get x) : a = b := by
  have hslots : a.slots = b.slots := by
    apply List.ext_getElem?
    intro i
    have hi : (a.slots[i]?).map (Slot.map fun _ => PUnit.unit.{u + 1}) =
        (b.slots[i]?).map (Slot.map fun _ => PUnit.unit) := by
      rw [← getElem?_map_slots, ← getElem?_map_slots, hshape]
    rcases hsa : a.slots[i]? with _ | (⟨g, v⟩ | ⟨g, n⟩) <;>
      rcases hsb : b.slots[i]? with _ | (⟨g', v'⟩ | ⟨g', n'⟩) <;>
      simp only [hsa, hsb, Option.map_none, Option.map_some, Slot.map, reduceCtorEq,
        Option.some.injEq, Slot.occupied.injEq, Slot.vacant.injEq] at hi ⊢
    · -- Both hold something under the same handle.
      obtain ⟨rfl, -⟩ := hi
      have hlt : i < 2 ^ 32 := (List.getElem?_eq_some_iff.mp hsa).1.trans_le hlen
      have hslot : (JobId.new (Word.ofNat 32 i) g).slot = i := by
        rw [JobId.slot_new, Word.val_ofNat_of_lt hlt]
      have hx := h (JobId.new (Word.ofNat 32 i) g)
      rw [get_eq_some.mpr (by rw [hslot, JobId.generation_new]; exact hsa),
        get_eq_some.mpr (by rw [hslot, JobId.generation_new]; exact hsb)] at hx
      exact ⟨rfl, Option.some.inj hx⟩
    · exact hi
  have hfree : (a.map fun _ => PUnit.unit.{u + 1}).freeHead = b.freeHead := by rw [hshape]; rfl
  have hcount : (a.map fun _ => PUnit.unit.{u + 1}).len = b.len := by rw [hshape]; rfl
  obtain ⟨slots, freeHead, len⟩ := a
  obtain ⟨slots', freeHead', len'⟩ := b
  exact Arena.mk.injEq .. ▸ ⟨hslots, hfree, hcount⟩

end Arena

end TaskerRT.Domain
