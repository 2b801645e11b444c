/- module: TaskerRT/Domain/Arena
   source: crates/tasker-core/src/domain/arena.rs
   digest: Generational arena whose handles go stale when a slot is reused. -/

import TaskerRT.Domain.Resource

set_option autoImplicit false

namespace TaskerRT.Domain

open Library

universe u

/-- Handle to an arena slot: 32-bit index low, 32-bit generation high. -/
structure JobId where
  bits : Word 64
  deriving DecidableEq, Repr

namespace JobId

def new (index generation : Word 32) : JobId :=
  ⟨⟨generation.val * 2 ^ 32 + index.val, by omega⟩⟩

def index (id : JobId) : Word 32 := ⟨id.bits.val % 2 ^ 32, by omega⟩

def generation (id : JobId) : Word 32 := ⟨id.bits.val / 2 ^ 32, by omega⟩

def slot (id : JobId) : Nat := id.index.val

@[simp] theorem index_new (index generation : Word 32) : (new index generation).index = index := by
  apply Fin.ext
  simp only [JobId.index, new]
  omega

@[simp] theorem generation_new (index generation : Word 32) :
    (new index generation).generation = generation := by
  apply Fin.ext
  simp only [JobId.generation, new]
  omega

@[simp] theorem slot_new (index generation : Word 32) :
    (new index generation).slot = index.val := by
  rw [slot, index_new]

private theorem slot_lt (id : JobId) : id.slot < 2 ^ 32 := id.index.isLt

theorem ext_slot {a b : JobId} (hs : a.slot = b.slot) (hg : a.generation = b.generation) :
    a = b := by
  have hg' := congrArg Fin.val hg
  simp only [slot, index, generation] at hs hg'
  obtain ⟨⟨a, ha⟩⟩ := a
  obtain ⟨⟨b, hb⟩⟩ := b
  simp only at hs hg'
  have : a = b := by omega
  subst this
  rfl

end JobId

/-- One slot: holding a value, or vacant and linked into the free list. -/
inductive Slot (α : Type u) where
  | occupied (generation : Word 32) (value : α)
  | vacant (generation : Word 32) (nextFree : Option (Word 32))
  deriving DecidableEq, Repr

namespace Slot

variable {α : Type u}

def generation : Slot α → Word 32
  | occupied g _ => g
  | vacant g _ => g

def isVacant : Slot α → Bool
  | occupied _ _ => false
  | vacant _ _ => true

def map {β : Type u} (f : α → β) : Slot α → Slot β
  | occupied g v => occupied g (f v)
  | vacant g n => vacant g n

end Slot

inductive ArenaRestoreError where
  | badFreeLink (index : Word 32)
  | freeListIncomplete (reachable vacant : Nat)
  deriving DecidableEq, Repr

/-- Vector-backed storage that reuses freed slots through an intrusive free list. -/
structure Arena (α : Type u) where
  slots : List (Slot α)
  freeHead : Option (Word 32)
  len : Nat
  deriving DecidableEq, Repr

namespace Arena

variable {α : Type u}

def new : Arena α := ⟨[], none, 0⟩

/-- The handle the next `insert` will return. `none` is the panic of a free list that
points at an occupied slot, or of an arena past `u32::MAX` slots. -/
def nextId (a : Arena α) : Option JobId :=
  match a.freeHead with
  | some index =>
    match a.slots[index.val]? with
    | some (.vacant generation _) => some (JobId.new index generation)
    | _ => none
  | none =>
    if h : a.slots.length < 2 ^ 32 then some (JobId.new ⟨a.slots.length, h⟩ 0) else none

/-- The free-list walk of `fromParts`: every link must land on a vacant slot and the walk
may not take more steps than there are vacant slots. -/
def walkFree (slots : List (Slot α)) (vacant : Nat) :
    Nat → Option (Word 32) → Nat → Except ArenaRestoreError Nat
  | _, none, reachable => .ok reachable
  | 0, some index, _ => .error (.badFreeLink index)
  | fuel + 1, some index, reachable =>
    match slots[index.val]? with
    | some (.vacant _ nextFree) =>
      if reachable < vacant then walkFree slots vacant fuel nextFree (reachable + 1)
      else .error (.badFreeLink index)
    | _ => .error (.badFreeLink index)

/-- Rebuilds an arena exactly as `slots` and `freeHead` describe it. The walk stops by
itself after `vacant` links, so `vacant + 1` rounds decide it. -/
def fromParts (slots : List (Slot α)) (freeHead : Option (Word 32)) :
    Except ArenaRestoreError (Arena α) :=
  let vacant := slots.countP Slot.isVacant
  match walkFree slots vacant (vacant + 1) freeHead 0 with
  | .error e => .error e
  | .ok reachable =>
    if reachable ≠ vacant then .error (.freeListIncomplete reachable vacant)
    else .ok ⟨slots, freeHead, slots.length - vacant⟩

/-- Stores `value` and returns its handle, with the panics of `nextId`. -/
def insert (a : Arena α) (value : α) : Option (Arena α × JobId) :=
  match a.freeHead with
  | some index =>
    match a.slots[index.val]? with
    | some (.vacant generation nextFree) =>
      some (⟨a.slots.set index.val (.occupied generation value), nextFree, a.len + 1⟩,
        JobId.new index generation)
    | _ => none
  | none =>
    if h : a.slots.length < 2 ^ 32 then
      some (⟨a.slots ++ [.occupied 0 value], none, a.len + 1⟩,
        JobId.new ⟨a.slots.length, h⟩ 0)
    else none

/-- The value behind `id`, or nothing when `id` is stale. -/
def get (a : Arena α) (id : JobId) : Option α :=
  match a.slots[id.slot]? with
  | some (.occupied generation value) => if generation = id.generation then some value else none
  | _ => none

def contains (a : Arena α) (id : JobId) : Bool := (a.get id).isSome

/-- Writes through the borrow `get_mut` hands out; a stale handle changes nothing. -/
def modify (a : Arena α) (id : JobId) (f : α → α) : Arena α :=
  match a.slots[id.slot]? with
  | some (.occupied generation value) =>
    if generation = id.generation then
      { a with slots := a.slots.set id.slot (.occupied generation (f value)) }
    else a
  | _ => a

/-- Writes through `get_mut` for each handle of a list in turn. -/
def modifyAll (a : Arena α) (ids : List JobId) (f : α → α) : Arena α :=
  ids.foldl (fun a id => a.modify id f) a

/-- Removes and returns the value behind `id`, bumping the slot's generation. -/
def remove (a : Arena α) (id : JobId) : Arena α × Option α :=
  match a.slots[id.slot]? with
  | some (.occupied generation value) =>
    if generation = id.generation then
      (⟨a.slots.set id.slot (.vacant (generation + 1) a.freeHead), some id.index, a.len - 1⟩,
        some value)
    else (a, none)
  | _ => (a, none)

def entry (i : Nat) : Slot α → Option (JobId × α)
  | .occupied generation value => some (JobId.new (Word.ofNat 32 i) generation, value)
  | .vacant _ _ => none

def iter (a : Arena α) : List (JobId × α) :=
  (a.slots.zipIdx).filterMap fun s => entry s.2 s.1

theorem get_eq_some {a : Arena α} {id : JobId} {v : α} :
    a.get id = some v ↔ a.slots[id.slot]? = some (.occupied id.generation v) := by
  unfold get
  constructor
  · intro h
    split at h
    · rename_i g w hs
      split at h
      · rename_i hg
        cases Option.some.inj h
        rw [hs, hg]
      · cases h
    · cases h
  · intro h
    rw [h]
    simp

private theorem get_eq_none_of_vacant {a : Arena α} {id : JobId} {g : Word 32}
    {n : Option (Word 32)}
    (h : a.slots[id.slot]? = some (.vacant g n)) : a.get id = none := by
  unfold get
  rw [h]

theorem slot_lt_of_get {a : Arena α} {id : JobId} {v : α} (h : a.get id = some v) :
    id.slot < a.slots.length := by
  rw [get_eq_some] at h
  exact (List.getElem?_eq_some_iff.mp h).1

theorem eq_of_get_of_slot {a : Arena α} {x y : JobId} {v w : α} (hx : a.get x = some v)
    (hy : a.get y = some w) (hs : x.slot = y.slot) : x = y := by
  rw [get_eq_some] at hx hy
  rw [hs, hy] at hx
  simp only [Option.some.injEq, Slot.occupied.injEq] at hx
  exact JobId.ext_slot hs hx.1.symm

@[simp] theorem contains_eq_true {a : Arena α} {id : JobId} :
    a.contains id = true ↔ ∃ v, a.get id = some v := by
  rw [contains, Option.isSome_iff_exists]

theorem modify_of_get {a : Arena α} {id : JobId} {v : α} (f : α → α) (h : a.get id = some v) :
    a.modify id f = { a with slots := a.slots.set id.slot (.occupied id.generation (f v)) } := by
  rw [get_eq_some] at h
  unfold modify
  rw [h]
  simp

theorem modify_of_stale {a : Arena α} {id : JobId} (f : α → α) (h : a.get id = none) :
    a.modify id f = a := by
  unfold modify
  split
  · rename_i g v hs
    split
    · rename_i hg
      subst hg
      rw [get_eq_some.mpr hs] at h
      cases h
    · rfl
  · rfl

private theorem get_eq_none_of_slot {a : Arena α} {id x : JobId} {v : α} (h : a.get id = some v)
    (hs : x.slot = id.slot) (hne : x ≠ id) : a.get x = none :=
  Option.eq_none_iff_forall_ne_some.mpr fun _ hx => hne (eq_of_get_of_slot hx h hs)

theorem get_modify (a : Arena α) (id x : JobId) (f : α → α) :
    (a.modify id f).get x = if x = id then (a.get id).map f else a.get x := by
  cases h : a.get id with
  | none =>
    rw [modify_of_stale f h]
    split
    · rename_i he
      rw [he, h]
      rfl
    · rfl
  | some v =>
    rw [modify_of_get f h]
    have hlt := slot_lt_of_get h
    split
    · rename_i he
      subst he
      exact get_eq_some.mpr (by simp [hlt])
    · rename_i hne
      by_cases hs : x.slot = id.slot
      · rw [get_eq_none_of_slot h hs hne]
        unfold get
        simp only [hs, List.getElem?_set_self hlt]
        rw [if_neg]
        exact fun hg => hne (JobId.ext_slot hs hg.symm)
      · unfold get
        simp only [List.getElem?_set_ne (Ne.symm hs)]

@[simp] theorem get_modify_self (a : Arena α) (id : JobId) (f : α → α) :
    (a.modify id f).get id = (a.get id).map f := by
  rw [get_modify, if_pos rfl]

theorem get_modify_ne {a : Arena α} {id x : JobId} (f : α → α) (h : x ≠ id) :
    (a.modify id f).get x = a.get x := by
  rw [get_modify, if_neg h]

@[simp] theorem freeHead_modify (a : Arena α) (id : JobId) (f : α → α) :
    (a.modify id f).freeHead = a.freeHead := by
  unfold modify
  split
  · split <;> rfl
  · rfl

@[simp] theorem len_modify (a : Arena α) (id : JobId) (f : α → α) :
    (a.modify id f).len = a.len := by
  unfold modify
  split
  · split <;> rfl
  · rfl

@[simp] theorem length_modify (a : Arena α) (id : JobId) (f : α → α) :
    (a.modify id f).slots.length = a.slots.length := by
  unfold modify
  split
  · split
    · simp
    · rfl
  · rfl

/-- The slot table without its values: what an update through `get_mut` cannot change. -/
def shape (a : Arena α) : List (Slot PUnit.{u + 1}) := a.slots.map (Slot.map fun _ => PUnit.unit)

theorem shape_getElem? (a : Arena α) (i : Nat) :
    a.shape[i]? = (a.slots[i]?).map (Slot.map fun _ => PUnit.unit) := by
  rw [shape, List.getElem?_map]

@[simp] theorem shape_modify (a : Arena α) (id : JobId) (f : α → α) :
    (a.modify id f).shape = a.shape := by
  cases h : a.get id with
  | none => rw [modify_of_stale f h]
  | some v =>
    rw [modify_of_get f h]
    rw [get_eq_some] at h
    simp only [shape, List.map_set]
    apply List.ext_getElem?
    intro i
    by_cases hi : i = id.slot
    · subst hi
      have hlt : id.slot < (a.slots.map (Slot.map fun _ => PUnit.unit)).length := by
        simpa using (List.getElem?_eq_some_iff.mp h).1
      rw [List.getElem?_set_self hlt, List.getElem?_map, h]
      rfl
    · rw [List.getElem?_set_ne (Ne.symm hi)]

theorem modify_eq_self {a : Arena α} {id : JobId} {f : α → α}
    (h : ∀ v, a.get id = some v → f v = v) : a.modify id f = a := by
  cases hg : a.get id with
  | none => exact modify_of_stale f hg
  | some v =>
    rw [modify_of_get f hg, h v hg]
    rw [get_eq_some] at hg
    obtain ⟨hlt, he⟩ := List.getElem?_eq_some_iff.mp hg
    rw [← he, List.set_getElem_self]

theorem modify_congr {a : Arena α} {id : JobId} {f g : α → α}
    (h : ∀ v, a.get id = some v → f v = g v) : a.modify id f = a.modify id g := by
  cases hg : a.get id with
  | none => rw [modify_of_stale f hg, modify_of_stale g hg]
  | some v => rw [modify_of_get f hg, modify_of_get g hg, h v hg]

theorem modify_modify (a : Arena α) (id : JobId) (f g : α → α) :
    (a.modify id f).modify id g = a.modify id (g ∘ f) := by
  cases hg : a.get id with
  | none => rw [modify_of_stale f hg, modify_of_stale g hg, modify_of_stale _ hg]
  | some v =>
    have hf : (a.modify id f).get id = some (f v) := by rw [get_modify_self, hg]; rfl
    rw [modify_of_get g hf, modify_of_get f hg, modify_of_get (g ∘ f) hg]
    simp only [List.set_set, Function.comp_apply]

theorem get_modifyAll {f : α → α} {ids : List JobId} : ∀ {a : Arena α}, ids.Nodup → ∀ x : JobId,
    (a.modifyAll ids f).get x = if x ∈ ids then (a.get x).map f else a.get x := by
  induction ids with
  | nil => intro a _ x; simp [modifyAll]
  | cons id ids ih =>
    intro a hnd x
    obtain ⟨hid, hnd⟩ := List.nodup_cons.mp hnd
    have hstep : a.modifyAll (id :: ids) f = (a.modify id f).modifyAll ids f := rfl
    rw [hstep, ih hnd, get_modify]
    by_cases hx : x = id
    · subst hx
      rw [if_neg hid, if_pos rfl, if_pos List.mem_cons_self]
    · simp only [hx, if_false, List.mem_cons, false_or]

@[simp] theorem shape_modifyAll (a : Arena α) (ids : List JobId) (f : α → α) :
    (a.modifyAll ids f).shape = a.shape := by
  unfold modifyAll
  induction ids generalizing a with
  | nil => rfl
  | cons id ids ih => rw [List.foldl_cons, ih, shape_modify]

@[simp] theorem freeHead_modifyAll (a : Arena α) (ids : List JobId) (f : α → α) :
    (a.modifyAll ids f).freeHead = a.freeHead := by
  unfold modifyAll
  induction ids generalizing a with
  | nil => rfl
  | cons id ids ih => rw [List.foldl_cons, ih, freeHead_modify]

theorem nextId_of_insert {a a' : Arena α} {v : α} {id : JobId} (h : a.insert v = some (a', id)) :
    a.nextId = some id := by
  unfold insert at h
  unfold nextId
  split at h
  · rename_i index hf
    split at h
    · rename_i g n hs
      simp only [Option.some.injEq, Prod.mk.injEq] at h
      rw [h.2]
    · cases h
  · rename_i hf
    split at h
    · rename_i hlt
      simp only [Option.some.injEq, Prod.mk.injEq] at h
      rw [dif_pos hlt, ← h.2]
    · cases h

theorem insert_of_nextId {a : Arena α} {id : JobId} (v : α) (h : a.nextId = some id) :
    ∃ a', a.insert v = some (a', id) := by
  unfold nextId at h
  unfold insert
  split at h
  · rename_i index hf
    split at h
    · cases Option.some.inj h
      exact ⟨_, rfl⟩
    · cases h
  · rename_i hf
    split at h
    · rename_i hlt
      rw [dif_pos hlt]
      cases Option.some.inj h
      exact ⟨_, rfl⟩
    · cases h

theorem slot_of_nextId {a : Arena α} {id : JobId} (h : a.nextId = some id) :
    (∃ n, a.slots[id.slot]? = some (.vacant id.generation n)) ∨
      (id.slot = a.slots.length ∧ id.generation = 0) := by
  unfold nextId at h
  split at h
  · rename_i index hf
    split at h
    · rename_i g n hs
      cases Option.some.inj h
      exact Or.inl ⟨n, by simpa using hs⟩
    · cases h
  · split at h
    · cases Option.some.inj h
      exact Or.inr (by simp)
    · cases h

theorem get_nextId {a : Arena α} {id : JobId} (h : a.nextId = some id) : a.get id = none := by
  rcases slot_of_nextId h with ⟨n, hs⟩ | ⟨hs, _⟩
  · exact get_eq_none_of_vacant hs
  · unfold get
    rw [List.getElem?_eq_none (by omega)]

theorem slots_insert {a a' : Arena α} {v : α} {id : JobId} (h : a.insert v = some (a', id)) :
    ∀ i, a'.slots[i]? = if i = id.slot then some (.occupied id.generation v) else a.slots[i]? := by
  intro i
  unfold insert at h
  split at h
  · rename_i index hf
    split at h
    · rename_i g n hs
      simp only [Option.some.injEq, Prod.mk.injEq] at h
      obtain ⟨rfl, rfl⟩ := h
      have hlt := (List.getElem?_eq_some_iff.mp hs).1
      simp only [JobId.slot_new, JobId.generation_new]
      split
      · rename_i he
        rw [he, List.getElem?_set_self hlt]
      · rename_i hne
        rw [List.getElem?_set_ne (Ne.symm hne)]
    · cases h
  · split at h
    · simp only [Option.some.injEq, Prod.mk.injEq] at h
      obtain ⟨rfl, rfl⟩ := h
      simp only [JobId.slot_new, JobId.generation_new]
      rw [List.getElem?_append]
      split
      · rw [if_neg (by omega)]
      · split
        · rename_i he
          simp [he]
        · rename_i hge hne
          rw [List.getElem?_eq_none (by simp; omega), List.getElem?_eq_none (by omega)]
    · cases h

theorem get_insert {a a' : Arena α} {v : α} {id : JobId} (h : a.insert v = some (a', id))
    (x : JobId) : a'.get x = if x = id then some v else a.get x := by
  have hslots := slots_insert h
  split
  · rename_i he
    subst he
    rw [get_eq_some, hslots, if_pos rfl]
  · rename_i hne
    by_cases hs : x.slot = id.slot
    · have hstale : a.get x = none := by
        rcases slot_of_nextId (nextId_of_insert h) with ⟨n, hv⟩ | ⟨hv, _⟩
        · exact get_eq_none_of_vacant (hs ▸ hv)
        · unfold get
          rw [List.getElem?_eq_none (by omega)]
      rw [hstale]
      unfold get
      rw [hslots, if_pos hs]
      simp only
      rw [if_neg]
      exact fun hg => hne (JobId.ext_slot hs hg.symm)
    · unfold get
      rw [hslots, if_neg hs]

theorem remove_of_get {a : Arena α} {id : JobId} {v : α} (h : a.get id = some v) :
    a.remove id = (⟨a.slots.set id.slot (.vacant (id.generation + 1) a.freeHead),
      some id.index, a.len - 1⟩, some v) := by
  rw [get_eq_some] at h
  unfold remove
  rw [h]
  simp

theorem remove_of_stale {a : Arena α} {id : JobId} (h : a.get id = none) :
    a.remove id = (a, none) := by
  unfold remove
  split
  · rename_i g v hs
    split
    · rename_i hg
      subst hg
      rw [get_eq_some.mpr hs] at h
      cases h
    · rfl
  · rfl

theorem get_remove (a : Arena α) (id x : JobId) :
    (a.remove id).1.get x = if x = id then none else a.get x := by
  cases h : a.get id with
  | none =>
    rw [remove_of_stale h]
    split
    · rename_i he
      rw [he, h]
    · rfl
  | some v =>
    rw [remove_of_get h]
    have hlt := slot_lt_of_get h
    split
    · rename_i he
      subst he
      exact get_eq_none_of_vacant (List.getElem?_set_self hlt)
    · rename_i hne
      by_cases hs : x.slot = id.slot
      · rw [get_eq_none_of_slot h hs hne]
        refine get_eq_none_of_vacant (?_ : _ = some (Slot.vacant (id.generation + 1) a.freeHead))
        rw [hs]
        exact List.getElem?_set_self hlt
      · unfold get
        simp only [List.getElem?_set_ne (Ne.symm hs)]

@[simp] theorem remove_snd (a : Arena α) (id : JobId) : (a.remove id).2 = a.get id := by
  cases h : a.get id with
  | none => rw [remove_of_stale h]
  | some v => rw [remove_of_get h]

/-! The live entries. Slot numbers below `2 ^ 32` are told apart by their handles. -/

theorem mem_iter {a : Arena α} (hlen : a.slots.length ≤ 2 ^ 32) {id : JobId} {v : α} :
    (id, v) ∈ a.iter ↔ a.get id = some v := by
  unfold iter
  simp only [List.mem_filterMap, Prod.exists, List.mem_zipIdx_iff_getElem?]
  constructor
  · rintro ⟨s, i, hs, he⟩
    have hi : i < 2 ^ 32 := by
      have := (List.getElem?_eq_some_iff.mp hs).1
      omega
    cases s with
    | vacant g n => cases he
    | occupied g w =>
      simp only [entry, Option.some.injEq, Prod.mk.injEq] at he
      obtain ⟨rfl, rfl⟩ := he
      rw [get_eq_some]
      simp only [JobId.slot_new, JobId.generation_new, Word.val_ofNat_of_lt hi]
      exact hs
  · intro h
    rw [get_eq_some] at h
    refine ⟨_, _, h, ?_⟩
    simp only [entry, Option.some.injEq, Prod.mk.injEq, and_true]
    apply JobId.ext_slot
    · simp only [JobId.slot_new, Word.val_ofNat_of_lt id.slot_lt]
    · simp

private theorem pairwise_filterMap_zipIdx {β : Type u} (f : Nat → α → Option (Nat × β))
    (hf : ∀ i x y, f i x = some y → y.1 = i) (xs : List α) (k : Nat) :
    ((xs.zipIdx k).filterMap fun s => f s.2 s.1).Pairwise (fun p q => p.1 < q.1) ∧
      ∀ p ∈ (xs.zipIdx k).filterMap fun s => f s.2 s.1, k ≤ p.1 := by
  induction xs generalizing k with
  | nil => simp
  | cons x xs ih =>
    obtain ⟨hp, hk⟩ := ih (k + 1)
    rw [List.zipIdx_cons, List.filterMap_cons]
    cases hx : f k x with
    | none =>
      simp only
      exact ⟨hp, fun p hp' => by have := hk p hp'; omega⟩
    | some y =>
      simp only
      have hy := hf k x y hx
      refine ⟨List.pairwise_cons.mpr ⟨fun p hp' => by have := hk p hp'; omega, hp⟩, ?_⟩
      intro p hp'
      rcases List.mem_cons.mp hp' with rfl | hp'
      · omega
      · have := hk p hp'
        omega

theorem iter_pairwise {a : Arena α} (hlen : a.slots.length ≤ 2 ^ 32) :
    a.iter.Pairwise fun p q => p.1.slot < q.1.slot := by
  unfold iter
  have key := (pairwise_filterMap_zipIdx (α := Slot α)
    (fun i s => (entry i s).map fun p => (i, p)) (by
      intro i s y h
      obtain ⟨p, _, rfl⟩ := Option.map_eq_some_iff.mp h
      rfl) a.slots 0).1
  have hmap : (a.slots.zipIdx.filterMap fun s => entry s.2 s.1) =
      ((a.slots.zipIdx.filterMap fun s => (entry s.2 s.1).map fun p => (s.2, p)).map Prod.snd) := by
    rw [List.map_filterMap]
    apply List.filterMap_congr
    intro s _
    cases entry s.2 s.1 <;> rfl
  rw [hmap, List.pairwise_map]
  refine List.Pairwise.imp_of_mem ?_ key
  intro p q hp hq hlt
  have slotOf : ∀ r ∈ (a.slots.zipIdx.filterMap fun s => (entry s.2 s.1).map fun p => (s.2, p)),
      r.2.1.slot = r.1 := by
    intro r hr
    simp only [List.mem_filterMap, Prod.exists, List.mem_zipIdx_iff_getElem?] at hr
    obtain ⟨s, i, hs, he⟩ := hr
    have hi : i < 2 ^ 32 := by
      have := (List.getElem?_eq_some_iff.mp hs).1
      omega
    cases s with
    | vacant g n => cases he
    | occupied g w =>
      simp only [entry, Option.map_some, Option.some.injEq] at he
      subst he
      simp only [JobId.slot_new, Word.val_ofNat_of_lt hi]
  rw [slotOf p hp, slotOf q hq]
  exact hlt

theorem iter_nodup {a : Arena α} (hlen : a.slots.length ≤ 2 ^ 32) :
    (a.iter.map Prod.fst).Nodup := by
  rw [List.Nodup, List.pairwise_map]
  refine (iter_pairwise hlen).imp ?_
  intro p q hlt he
  rw [he] at hlt
  omega

/-- Distinct handles of live entries with a property are at most as many as there are such entries,
and as many only if none is left out. -/
theorem length_le_countP {a : Arena α} (hlen : a.slots.length ≤ 2 ^ 32) {p : α → Bool}
    {ids : List JobId} (hnd : ids.Nodup)
    (hids : ∀ x ∈ ids, ∃ v, a.get x = some v ∧ p v = true) :
    ids.length ≤ a.iter.countP (fun entry => p entry.2) ∧
      (ids.length = a.iter.countP (fun entry => p entry.2) ↔
        ∀ x v, a.get x = some v → p v = true → x ∈ ids) := by
  have hlive : ∀ x, x ∈ (a.iter.filter fun entry => p entry.2).map Prod.fst ↔
      ∃ v, a.get x = some v ∧ p v = true := by
    simp [mem_iter hlen]
  have hnd' : ((a.iter.filter fun entry => p entry.2).map Prod.fst).Nodup :=
    (iter_nodup hlen).sublist (List.filter_sublist.map _)
  have hsub := List.subperm_of_subset hnd fun x hx => (hlive x).mpr (hids x hx)
  have hcount : ((a.iter.filter fun entry => p entry.2).map Prod.fst).length =
      a.iter.countP fun entry => p entry.2 := by
    rw [List.length_map, List.countP_eq_length_filter]
  rw [← hcount]
  refine ⟨hsub.length_le, fun heq x v hget hp => ?_, fun hall => ?_⟩
  · exact (hsub.perm_of_length_le heq.ge).mem_iff.mpr ((hlive x).mpr ⟨v, hget, hp⟩)
  · refine Nat.le_antisymm hsub.length_le (List.subperm_of_subset hnd' fun x hx => ?_).length_le
    obtain ⟨v, hget, hp⟩ := (hlive x).mp hx
    exact hall x v hget hp

end Arena

end TaskerRT.Domain
