/- module: TaskerRT/Library/IndexedHeap
   source: none
   digest: Binary heaps over parallel arrays with a position table for removal by identity. -/

import TaskerRT.Library.Table

set_option autoImplicit false

namespace TaskerRT.Library

universe u

def exchange {α : Type u} (xs : List α) (a b : Nat) : List α :=
  match xs[a]?, xs[b]? with
  | some x, some y => (xs.set a y).set b x
  | _, _ => xs

section Exchange

variable {α β : Type u}

theorem exchange_of_lt {xs : List α} {a b : Nat} (ha : a < xs.length) (hb : b < xs.length) :
    exchange xs a b = (xs.set a xs[b]).set b xs[a] := by
  simp only [exchange, List.getElem?_eq_getElem ha, List.getElem?_eq_getElem hb]

@[simp] theorem length_exchange (xs : List α) (a b : Nat) :
    (exchange xs a b).length = xs.length := by
  unfold exchange
  split <;> simp

theorem getElem?_exchange {xs : List α} {a b : Nat} (ha : a < xs.length) (hb : b < xs.length)
    (k : Nat) :
    (exchange xs a b)[k]? = if k = b then xs[a]? else if k = a then xs[b]? else xs[k]? := by
  rw [exchange_of_lt ha hb]
  by_cases hkb : k = b
  · subst hkb
    rw [List.getElem?_set_self (by simpa using hb), if_pos rfl, List.getElem?_eq_getElem ha]
  · rw [List.getElem?_set_ne (Ne.symm hkb), if_neg hkb]
    by_cases hka : k = a
    · subst hka
      rw [List.getElem?_set_self ha, if_pos rfl, List.getElem?_eq_getElem hb]
    · rw [List.getElem?_set_ne (Ne.symm hka), if_neg hka]

theorem exchange_perm (xs : List α) (a b : Nat) : (exchange xs a b).Perm xs := by
  unfold exchange
  split
  · rename_i x y hx hy
    obtain ⟨ha, rfl⟩ := List.getElem?_eq_some_iff.mp hx
    obtain ⟨hb, rfl⟩ := List.getElem?_eq_some_iff.mp hy
    exact List.set_set_perm ha hb
  · exact List.Perm.refl _

theorem zip_exchange {xs : List α} {ys : List β} (h : xs.length = ys.length) {a b : Nat}
    (ha : a < xs.length) (hb : b < xs.length) :
    (exchange xs a b).zip (exchange ys a b) = exchange (xs.zip ys) a b := by
  have ha' : a < ys.length := h ▸ ha
  have hb' : b < ys.length := h ▸ hb
  apply List.ext_getElem?
  intro k
  have hza : a < (xs.zip ys).length := by simp [ha, ha']
  have hzb : b < (xs.zip ys).length := by simp [hb, hb']
  rw [getElem?_exchange hza hzb]
  simp only [List.zip, List.getElem?_zipWith, getElem?_exchange ha hb, getElem?_exchange ha' hb']
  by_cases hkb : k = b
  · simp only [hkb, if_true]
  · by_cases hka : k = a
    · simp only [if_neg hkb, if_pos hka]
    · simp only [hkb, hka, if_false]

end Exchange

/-- How a heap files an entry in its position table and ranks two entries. -/
class HeapKey (ι σ : Type) where
  index : ι → Nat
  above : σ → ι → σ → ι → Bool

/-- Max-heap with scores and ids in parallel arrays. Membership is a table of heap positions
by index, where `none` means absent. -/
structure IndexedHeap (ι σ : Type) where
  scores : List σ
  ids : List ι
  positions : List (Option Nat)
  deriving DecidableEq, Repr

namespace IndexedHeap

variable {ι σ : Type} [HeapKey ι σ]

abbrev row (_h : IndexedHeap ι σ) (x : ι) : Nat := HeapKey.index σ x

def empty : IndexedHeap ι σ := ⟨[], [], []⟩

def len (h : IndexedHeap ι σ) : Nat := h.ids.length

def entries (h : IndexedHeap ι σ) : List (ι × σ) := h.ids.zip h.scores

/-- Heap position of `x`, verifying that the id stored there matches. -/
def slotOf [DecidableEq ι] (h : IndexedHeap ι σ) (x : ι) : Option Nat :=
  match Table.read none h.positions (h.row x) with
  | none => none
  | some position => if h.ids[position]? = some x then some position else none

/-- The entry at `a` ranks strictly above the one at `b`. -/
def outranks (h : IndexedHeap ι σ) (a b : Nat) : Bool :=
  match h.scores[a]?, h.ids[a]?, h.scores[b]?, h.ids[b]? with
  | some s, some x, some t, some y => HeapKey.above s x t y
  | _, _, _, _ => false

/-- Files the id at a heap position in the position table. -/
def file (h : IndexedHeap ι σ) (position : Nat) : IndexedHeap ι σ :=
  match h.ids[position]? with
  | none => h
  | some x => { h with positions := h.positions.set (h.row x) (some position) }

/-- Swaps two heap positions and fixes both entries in the position table. -/
def swap (h : IndexedHeap ι σ) (a b : Nat) : IndexedHeap ι σ :=
  (({ h with scores := exchange h.scores a b, ids := exchange h.ids a b }).file a).file b

/-- Moves an entry toward the root while it outranks its parent. -/
def siftUp : Nat → IndexedHeap ι σ → Nat → IndexedHeap ι σ
  | 0, h, _ => h
  | fuel + 1, h, position =>
    if 0 < position then
      let parent := (position - 1) / 2
      if h.outranks position parent then siftUp fuel (h.swap position parent) parent else h
    else h

def largest (h : IndexedHeap ι σ) (position : Nat) : Nat :=
  let left := position * 2 + 1
  let right := left + 1
  let largest := if left < h.len ∧ h.outranks left position then left else position
  if right < h.len ∧ h.outranks right largest then right else largest

/-- Moves an entry toward the leaves while a child outranks it. -/
def siftDown : Nat → IndexedHeap ι σ → Nat → IndexedHeap ι σ
  | 0, h, _ => h
  | fuel + 1, h, position =>
    let next := h.largest position
    if next = position then h else siftDown fuel (h.swap position next) next

/-- Sets the score of `x`, restoring heap order. `none` if absent. -/
def update [DecidableEq ι] [LinearOrder σ] (h : IndexedHeap ι σ) (x : ι) (score : σ) :
    Option (IndexedHeap ι σ) :=
  match h.slotOf x with
  | none => none
  | some position =>
    match h.scores[position]? with
    | none => none
    | some previous =>
      let h := { h with scores := h.scores.set position score }
      if previous < score then some (siftUp position h position)
      else if score < previous then some (siftDown h.len h position)
      else some h

/-- Inserts `x` at `score`, or updates it if already present. -/
def push [DecidableEq ι] [LinearOrder σ] (h : IndexedHeap ι σ) (x : ι) (score : σ) :
    IndexedHeap ι σ :=
  match h.update x score with
  | some h => h
  | none =>
    let position := h.len
    let grown : IndexedHeap ι σ :=
      ⟨h.scores ++ [score], h.ids ++ [x], Table.reserve none (h.row x + 1) h.positions⟩
    siftUp position (grown.file position) position

/-- Removes the entry at a heap position by swapping in the last element. -/
def removeAt (h : IndexedHeap ι σ) (position : Nat) : IndexedHeap ι σ :=
  match h.ids[position]? with
  | none => h
  | some x =>
    let cleared := h.positions.set (h.row x) none
    if position = h.len - 1 then ⟨h.scores.dropLast, h.ids.dropLast, cleared⟩
    else
      let moved : IndexedHeap ι σ :=
        ⟨swapRemove h.scores position, swapRemove h.ids position, cleared⟩
      let filed := moved.file position
      let sunk := siftDown filed.len filed position
      siftUp position sunk position

def remove [DecidableEq ι] (h : IndexedHeap ι σ) (x : ι) : IndexedHeap ι σ × Bool :=
  match h.slotOf x with
  | none => (h, false)
  | some position => (h.removeAt position, true)

def popMax (h : IndexedHeap ι σ) : Option ((ι × σ) × IndexedHeap ι σ) :=
  match h.ids[0]?, h.scores[0]? with
  | some x, some score => some ((x, score), h.removeAt 0)
  | _, _ => none

@[simp] theorem ids_file (h : IndexedHeap ι σ) (p : Nat) : (h.file p).ids = h.ids := by
  unfold file
  split <;> rfl

@[simp] theorem scores_file (h : IndexedHeap ι σ) (p : Nat) : (h.file p).scores = h.scores := by
  unfold file
  split <;> rfl

@[simp] theorem entries_file (h : IndexedHeap ι σ) (p : Nat) : (h.file p).entries = h.entries := by
  simp only [entries, ids_file, scores_file]

@[simp] theorem len_file (h : IndexedHeap ι σ) (p : Nat) : (h.file p).len = h.len := by
  simp only [len, ids_file]

@[simp] theorem length_positions_file (h : IndexedHeap ι σ) (p : Nat) :
    (h.file p).positions.length = h.positions.length := by
  unfold file
  split
  · rfl
  · exact List.length_set

/-- The arrays are parallel and the position table is the inverse of the id array. -/
structure Wf (h : IndexedHeap ι σ) : Prop where
  parallel : h.scores.length = h.ids.length
  filed : ∀ p x, h.ids[p]? = some x → Table.read none h.positions (h.row x) = some p
  stored : ∀ i p, Table.read none h.positions i = some p → ∃ x, h.ids[p]? = some x ∧ h.row x = i

theorem wf_empty : (empty : IndexedHeap ι σ).Wf :=
  ⟨rfl, by simp [empty], by simp [empty, Table.read]⟩

namespace Wf

variable {h : IndexedHeap ι σ}

theorem position_inj (hw : h.Wf) {p q : Nat} {x y : ι} (hx : h.ids[p]? = some x)
    (hy : h.ids[q]? = some y) (hrow : h.row x = h.row y) : p = q := by
  have h₁ := hw.filed p x hx
  rw [hrow, hw.filed q y hy] at h₁
  exact (Option.some.inj h₁).symm

theorem nodup (hw : h.Wf) : h.ids.Nodup := by
  rw [List.nodup_iff_getElem?_ne_getElem?]
  intro i j hij hj he
  rw [List.getElem?_eq_getElem hj] at he
  have := hw.position_inj he (List.getElem?_eq_getElem hj) rfl
  omega

theorem slotOf_eq_some [DecidableEq ι] (hw : h.Wf) {x : ι} {p : Nat} :
    h.slotOf x = some p ↔ h.ids[p]? = some x := by
  unfold slotOf
  constructor
  · intro hs
    split at hs
    · cases hs
    · split at hs
      · rename_i hp
        cases Option.some.inj hs
        exact hp
      · cases hs
  · intro hp
    rw [hw.filed p x hp]
    simp [hp]

theorem slotOf_eq_none [DecidableEq ι] (hw : h.Wf) {x : ι} : h.slotOf x = none ↔ x ∉ h.ids := by
  constructor
  · intro hs hx
    obtain ⟨p, hp⟩ := List.getElem?_of_mem hx
    rw [hw.slotOf_eq_some.mpr hp] at hs
    cases hs
  · intro hx
    cases hs : h.slotOf x with
    | none => rfl
    | some p => exact absurd (List.mem_of_getElem? (hw.slotOf_eq_some.mp hs)) hx

theorem row_lt (hw : h.Wf) {p : Nat} {x : ι} (hx : h.ids[p]? = some x) :
    h.row x < h.positions.length :=
  Table.lt_length_of_read_ne (by rw [hw.filed p x hx]; simp)

end Wf

omit [HeapKey ι σ] in
theorem ids_eq_map_entries {h : IndexedHeap ι σ} (hw : h.scores.length = h.ids.length) :
    h.ids = h.entries.map Prod.fst := by
  unfold entries
  rw [List.map_fst_zip]
  omega

/-- Swapping two occupied positions keeps the heap well formed and its entries. -/
theorem wf_swap {h : IndexedHeap ι σ} (hw : h.Wf) {a b : Nat} (ha : a < h.len) (hb : b < h.len) :
    (h.swap a b).Wf ∧ (h.swap a b).entries.Perm h.entries ∧ (h.swap a b).len = h.len := by
  unfold len at ha hb
  have hids := getElem?_exchange ha hb
  obtain ⟨x, hx⟩ : ∃ x, h.ids[a]? = some x := ⟨_, List.getElem?_eq_getElem ha⟩
  obtain ⟨y, hy⟩ : ∃ y, h.ids[b]? = some y := ⟨_, List.getElem?_eq_getElem hb⟩
  have hxr := hw.row_lt hx
  have hyr := hw.row_lt hy
  have hatA : (exchange h.ids a b)[a]? = some y := by
    rw [hids]
    split
    · rename_i he
      rw [he, hy]
    · rw [if_pos rfl, hy]
  have hatB : (exchange h.ids a b)[b]? = some x := by rw [hids, if_pos rfl, hx]
  have hswap : h.swap a b = ⟨exchange h.scores a b, exchange h.ids a b,
      (h.positions.set (h.row y) (some a)).set (h.row x) (some b)⟩ := by
    simp only [swap, file, hatA, hatB]
  have hread : ∀ i, Table.read none (h.swap a b).positions i =
      if i = h.row x then some b else if i = h.row y then some a
      else Table.read none h.positions i := by
    intro i
    rw [hswap]
    simp only
    rw [Table.read_set _ _ _ _ _ (by simpa using hxr), Table.read_set _ _ _ _ _ hyr]
  refine ⟨⟨?_, ?_, ?_⟩, ?_, ?_⟩
  · rw [hswap]
    simp [hw.parallel]
  · intro p z hz
    rw [hread]
    rw [hswap] at hz
    simp only [hids] at hz
    simp only [row] at hread ⊢
    by_cases hpb : p = b
    · subst hpb
      rw [if_pos rfl, hx] at hz
      cases Option.some.inj hz
      rw [if_pos rfl]
    · rw [if_neg hpb] at hz
      have hzx : HeapKey.index σ z ≠ HeapKey.index σ x := by
        intro he
        by_cases hpa : p = a
        · rw [if_pos hpa, hy] at hz
          cases Option.some.inj hz
          exact hpb (hpa.trans (hw.position_inj hx hy he.symm))
        · rw [if_neg hpa] at hz
          exact hpa (hw.position_inj hz hx he)
      rw [if_neg hzx]
      by_cases hpa : p = a
      · rw [if_pos hpa, hy] at hz
        cases Option.some.inj hz
        rw [if_pos rfl, hpa]
      · rw [if_neg hpa] at hz
        rw [if_neg fun he => hpb (hw.position_inj hz hy he)]
        exact hw.filed p z hz
  · intro i p hp
    rw [hread] at hp
    rw [hswap]
    simp only
    by_cases hix : i = h.row x
    · rw [if_pos hix] at hp
      cases Option.some.inj hp
      exact ⟨x, hatB, hix.symm⟩
    · rw [if_neg hix] at hp
      by_cases hiy : i = h.row y
      · rw [if_pos hiy] at hp
        cases Option.some.inj hp
        exact ⟨y, hatA, hiy.symm⟩
      · rw [if_neg hiy] at hp
        obtain ⟨z, hz, hzi⟩ := hw.stored i p hp
        refine ⟨z, ?_, hzi⟩
        have hpa : p ≠ a := by
          rintro rfl
          rw [hx] at hz
          cases Option.some.inj hz
          exact hix hzi.symm
        have hpb : p ≠ b := by
          rintro rfl
          rw [hy] at hz
          cases Option.some.inj hz
          exact hiy hzi.symm
        rw [hids, if_neg hpb, if_neg hpa, hz]
  · rw [hswap]
    simp only [entries]
    rw [zip_exchange hw.parallel.symm ha hb]
    exact exchange_perm _ _ _
  · rw [hswap]
    simp [len]

/-- A heap holds the same entries as another and is well formed. -/
def Rearranges (h' h : IndexedHeap ι σ) : Prop :=
  h'.Wf ∧ h'.entries.Perm h.entries ∧ h'.len = h.len

namespace Rearranges

theorem refl {h : IndexedHeap ι σ} (hw : h.Wf) : h.Rearranges h := ⟨hw, List.Perm.refl _, rfl⟩

theorem trans {h₁ h₂ h₃ : IndexedHeap ι σ} (h₁₂ : h₁.Rearranges h₂) (h₂₃ : h₂.Rearranges h₃) :
    h₁.Rearranges h₃ :=
  ⟨h₁₂.1, h₁₂.2.1.trans h₂₃.2.1, h₁₂.2.2.trans h₂₃.2.2⟩

end Rearranges

theorem siftUp_rearranges (fuel : Nat) : ∀ {h : IndexedHeap ι σ} {p : Nat}, h.Wf → p < h.len →
    (siftUp fuel h p).Rearranges h := by
  induction fuel with
  | zero => exact fun hw _ => Rearranges.refl hw
  | succ fuel ih =>
    intro h p hw hp
    unfold siftUp
    split
    · simp only
      split
      · have hparent : (p - 1) / 2 < h.len := by omega
        have hs := wf_swap hw hp hparent
        exact (ih hs.1 (hs.2.2 ▸ hparent)).trans hs
      · exact Rearranges.refl hw
    · exact Rearranges.refl hw

theorem largest_lt {h : IndexedHeap ι σ} {p : Nat} (hp : p < h.len) : h.largest p < h.len := by
  have hfirst : (if p * 2 + 1 < h.len ∧ h.outranks (p * 2 + 1) p then p * 2 + 1 else p) < h.len := by
    split
    · rename_i hl
      exact hl.1
    · exact hp
  unfold largest
  simp only
  by_cases hr : p * 2 + 1 + 1 < h.len ∧ h.outranks (p * 2 + 1 + 1)
      (if p * 2 + 1 < h.len ∧ h.outranks (p * 2 + 1) p then p * 2 + 1 else p)
  · rw [if_pos hr]
    exact hr.1
  · rw [if_neg hr]
    exact hfirst

theorem siftDown_rearranges (fuel : Nat) : ∀ {h : IndexedHeap ι σ} {p : Nat}, h.Wf →
    p < h.len → (siftDown fuel h p).Rearranges h := by
  induction fuel with
  | zero => exact fun hw _ => Rearranges.refl hw
  | succ fuel ih =>
    intro h p hw hp
    unfold siftDown
    simp only
    split
    · exact Rearranges.refl hw
    · have hn := largest_lt hp
      have hs := wf_swap hw hp hn
      exact (ih hs.1 (hs.2.2 ▸ hn)).trans hs

private theorem wf_moved {h : IndexedHeap ι σ} (hw : h.Wf) {p : Nat} {x l : ι}
    (hx : h.ids[p]? = some x) (hl : h.ids[h.ids.length - 1]? = some l)
    (hp : p ≠ h.ids.length - 1) :
    Wf (⟨swapRemove h.scores p, swapRemove h.ids p,
      (h.positions.set (h.row x) none).set (h.row l) (some p)⟩ : IndexedHeap ι σ) := by
  have hlt := (List.getElem?_eq_some_iff.mp hx).1
  have hids := getElem?_swapRemove hlt
  have hread : ∀ i, Table.read none ((h.positions.set (h.row x) none).set (h.row l) (some p)) i =
      if i = h.row l then some p else if i = h.row x then none
      else Table.read none h.positions i := by
    intro i
    rw [Table.read_set _ _ _ _ _ (by simpa using hw.row_lt hl),
      Table.read_set _ _ _ _ _ (hw.row_lt hx)]
  refine ⟨?_, ?_, ?_⟩
  · simp only [length_swapRemove, hw.parallel]
  · intro q z hz
    simp only [row] at hread ⊢
    rw [hread]
    simp only [hids] at hz
    split at hz
    · rename_i hq
      by_cases hqp : q = p
      · rw [if_pos hqp, hl] at hz
        cases Option.some.inj hz
        rw [if_pos rfl, hqp]
      · rw [if_neg hqp] at hz
        rw [if_neg fun he => ?_, if_neg fun he => hqp (hw.position_inj hz hx he)]
        · exact hw.filed q z hz
        · have := hw.position_inj hz hl he
          omega
    · cases hz
  · intro i q hq
    rw [hread] at hq
    simp only [hids]
    by_cases hil : i = h.row l
    · rw [if_pos hil] at hq
      cases Option.some.inj hq
      exact ⟨l, by rw [if_pos (by omega), if_pos rfl, hl], hil.symm⟩
    · rw [if_neg hil] at hq
      by_cases hix : i = h.row x
      · rw [if_pos hix] at hq
        cases hq
      · rw [if_neg hix] at hq
        obtain ⟨z, hz, hzi⟩ := hw.stored i q hq
        have hqlt := (List.getElem?_eq_some_iff.mp hz).1
        have hqp : q ≠ p := by
          rintro rfl
          rw [hx] at hz
          cases Option.some.inj hz
          exact hix hzi.symm
        have hql : q ≠ h.ids.length - 1 := by
          rintro rfl
          rw [hl] at hz
          cases Option.some.inj hz
          exact hil hzi.symm
        exact ⟨z, by rw [if_pos (by omega), if_neg hqp, hz], hzi⟩

private theorem wf_dropLast {h : IndexedHeap ι σ} (hw : h.Wf) {x : ι}
    (hx : h.ids[h.ids.length - 1]? = some x) :
    Wf (⟨h.scores.dropLast, h.ids.dropLast, h.positions.set (h.row x) none⟩ :
      IndexedHeap ι σ) := by
  have hread : ∀ i, Table.read none (h.positions.set (h.row x) none) i =
      if i = h.row x then none else Table.read none h.positions i :=
    fun i => Table.read_set _ _ _ _ _ (hw.row_lt hx)
  refine ⟨by simp [hw.parallel], ?_, ?_⟩
  · intro q z hz
    simp only [row] at hread ⊢
    rw [hread]
    simp only [List.getElem?_dropLast] at hz
    split at hz
    · rename_i hq
      rw [if_neg fun he => ?_]
      · exact hw.filed q z hz
      · have := hw.position_inj hz hx he
        omega
    · cases hz
  · intro i q hq
    rw [hread] at hq
    split at hq
    · cases hq
    · rename_i hix
      obtain ⟨z, hz, hzi⟩ := hw.stored i q hq
      have hqlt := (List.getElem?_eq_some_iff.mp hz).1
      have hql : q ≠ h.ids.length - 1 := by
        rintro rfl
        rw [hx] at hz
        cases Option.some.inj hz
        exact hix hzi.symm
      refine ⟨z, ?_, hzi⟩
      simp only [List.getElem?_dropLast]
      rw [if_pos (by omega), hz]

theorem wf_file_moved {h : IndexedHeap ι σ} (hw : h.Wf) {p : Nat} {x : ι}
    (hx : h.ids[p]? = some x) (hp : p ≠ h.ids.length - 1) :
    Wf (file (⟨swapRemove h.scores p, swapRemove h.ids p, h.positions.set (h.row x) none⟩ :
      IndexedHeap ι σ) p) := by
  have hlt := (List.getElem?_eq_some_iff.mp hx).1
  obtain ⟨l, hl⟩ : ∃ l, h.ids[h.ids.length - 1]? = some l :=
    ⟨_, List.getElem?_eq_getElem (by omega)⟩
  have hat : (swapRemove h.ids p)[p]? = some l := by
    rw [getElem?_swapRemove hlt, if_pos (by omega), if_pos rfl, hl]
  have hw' := wf_moved hw hx hl hp
  simpa only [file, hat] using hw'

theorem wf_grown {h : IndexedHeap ι σ} (hw : h.Wf) {x : ι} (score : σ) (hx : x ∉ h.ids)
    (hrow : ∀ y ∈ h.ids, h.row y = h.row x → y = x) :
    Wf (file (⟨h.scores ++ [score], h.ids ++ [x],
      Table.reserve none (h.row x + 1) h.positions⟩ : IndexedHeap ι σ) h.len) := by
  have hat : (h.ids ++ [x])[h.len]? = some x := by simp [len]
  set grown : IndexedHeap ι σ := ⟨h.scores ++ [score], h.ids ++ [x],
    (Table.reserve none (h.row x + 1) h.positions).set (h.row x) (some h.len)⟩ with hgrown
  have hfile : file (⟨h.scores ++ [score], h.ids ++ [x],
      Table.reserve none (h.row x + 1) h.positions⟩ : IndexedHeap ι σ) h.len = grown := by
    simp only [file, hat, hgrown]
  rw [hfile]
  have hread : ∀ i, Table.read none grown.positions i =
      if i = h.row x then some h.len else Table.read none h.positions i := by
    intro i
    rw [hgrown]
    simp only
    rw [Table.read_set _ _ _ _ _ (by rw [Table.length_reserve]; omega), Table.read_reserve]
  refine ⟨by simp [hgrown, hw.parallel], ?_, ?_⟩
  · intro p y hy
    rw [hread]
    simp only [hgrown, List.getElem?_append] at hy
    split at hy
    · rename_i hp
      rw [if_neg fun he => hx (hrow y (List.mem_of_getElem? hy) he ▸ List.mem_of_getElem? hy)]
      exact hw.filed p y hy
    · obtain ⟨hlt, he⟩ := List.getElem?_eq_some_iff.mp hy
      simp only [List.length_singleton] at hlt
      simp only [List.getElem_singleton] at he
      subst he
      rw [if_pos rfl, len]
      congr 1
      omega
  · intro i p hp
    rw [hread] at hp
    split at hp
    · rename_i hi
      cases Option.some.inj hp
      exact ⟨x, hat, hi.symm⟩
    · obtain ⟨y, hy, hyi⟩ := hw.stored i p hp
      have hlt := (List.getElem?_eq_some_iff.mp hy).1
      exact ⟨y, by simp only [hgrown]; rw [List.getElem?_append_left hlt, hy], hyi⟩

theorem removeAt_spec {h : IndexedHeap ι σ} (hw : h.Wf) {p : Nat} {x : ι} {s : σ}
    (hx : h.ids[p]? = some x) (hs : h.scores[p]? = some s) :
    (h.removeAt p).Wf ∧ ((x, s) :: (h.removeAt p).entries).Perm h.entries := by
  have hlt := (List.getElem?_eq_some_iff.mp hx).1
  have hz : p < (h.ids.zip h.scores).length := by
    rw [List.length_zip, hw.parallel]
    omega
  have hget : (h.ids.zip h.scores)[p] = (x, s) := by
    rw [List.getElem_zip]
    rw [(List.getElem?_eq_some_iff.mp hx).2, (List.getElem?_eq_some_iff.mp hs).2]
  have hperm := swapRemove_perm hz
  rw [hget, ← zip_swapRemove hw.parallel.symm hlt] at hperm
  unfold removeAt
  rw [hx]
  simp only
  split
  · rename_i hlast
    rw [len] at hlast
    subst hlast
    have hlast' : h.ids.length - 1 = h.scores.length - 1 := by rw [hw.parallel]
    refine ⟨wf_dropLast hw hx, ?_⟩
    simp only [entries]
    rw [swapRemove_last, hlast', swapRemove_last] at hperm
    exact hperm
  · rename_i hlast
    rw [len] at hlast
    obtain ⟨moved, hmoved⟩ : ∃ moved : IndexedHeap ι σ, moved = file (⟨swapRemove h.scores p,
      swapRemove h.ids p, h.positions.set (h.row x) none⟩ : IndexedHeap ι σ) p := ⟨_, rfl⟩
    have hw' : moved.Wf := by
      rw [hmoved]
      exact wf_file_moved hw hx hlast
    have hentries : moved.entries = (swapRemove h.ids p).zip (swapRemove h.scores p) := by
      rw [hmoved, entries_file]
      rfl
    have hlen : p < moved.len := by
      rw [hmoved, len_file, len, length_swapRemove]
      omega
    rw [← hmoved]
    have h₁ := siftDown_rearranges moved.len hw' hlen
    have h₂ := siftUp_rearranges p (p := p) h₁.1 (lt_of_lt_of_eq hlen h₁.2.2.symm)
    have h₃ := h₂.trans h₁
    rw [← hentries] at hperm
    exact ⟨h₃.1, (h₃.2.1.cons _).trans hperm⟩

theorem popMax_spec {h h' : IndexedHeap ι σ} (hw : h.Wf) {e : ι × σ}
    (hp : h.popMax = some (e, h')) : h'.Wf ∧ (e :: h'.entries).Perm h.entries := by
  unfold popMax at hp
  split at hp
  · rename_i x s hx hs
    simp only [Option.some.injEq, Prod.mk.injEq] at hp
    obtain ⟨rfl, rfl⟩ := hp
    exact removeAt_spec hw hx hs
  · cases hp

variable [DecidableEq ι]

theorem remove_spec {h : IndexedHeap ι σ} (hw : h.Wf) (x : ι) :
    (h.remove x).1.Wf ∧ ∀ y, y ∈ (h.remove x).1.ids ↔ y ∈ h.ids ∧ y ≠ x := by
  unfold remove
  cases hs : h.slotOf x with
  | none =>
    have hx := hw.slotOf_eq_none.mp hs
    refine ⟨hw, fun y => ⟨fun hy => ⟨hy, ?_⟩, And.left⟩⟩
    rintro rfl
    exact hx hy
  | some p =>
    have hx := hw.slotOf_eq_some.mp hs
    have hlt := (List.getElem?_eq_some_iff.mp hx).1
    obtain ⟨s, hsc⟩ : ∃ s, h.scores[p]? = some s :=
      ⟨_, List.getElem?_eq_getElem (by rw [hw.parallel]; exact hlt)⟩
    obtain ⟨hw', hperm⟩ := removeAt_spec hw hx hsc
    have hids : (x :: (h.removeAt p).ids).Perm h.ids := by
      have := hperm.map Prod.fst
      rwa [List.map_cons, ← ids_eq_map_entries hw'.parallel,
        ← ids_eq_map_entries hw.parallel] at this
    have hnd := hids.nodup_iff.mpr hw.nodup
    rw [List.nodup_cons] at hnd
    refine ⟨hw', fun y => ?_⟩
    rw [← hids.mem_iff, List.mem_cons]
    constructor
    · intro hy
      refine ⟨Or.inr hy, ?_⟩
      rintro rfl
      exact hnd.1 hy
    · rintro ⟨rfl | hy, hne⟩
      · exact absurd rfl hne
      · exact hy

variable [LinearOrder σ]

theorem update_rearranges {h h' : IndexedHeap ι σ} (hw : h.Wf) {x : ι} {score : σ}
    (hu : h.update x score = some h') : ∃ p, h.ids[p]? = some x ∧
      h'.Rearranges { h with scores := h.scores.set p score } := by
  unfold update at hu
  split at hu
  · cases hu
  · rename_i p hp
    have hx := hw.slotOf_eq_some.mp hp
    have hlt := (List.getElem?_eq_some_iff.mp hx).1
    refine ⟨p, hx, ?_⟩
    split at hu
    · cases hu
    · have hw' : Wf ({ h with scores := h.scores.set p score } : IndexedHeap ι σ) :=
        ⟨by simpa using hw.parallel, hw.filed, hw.stored⟩
      simp only at hu
      split at hu
      · cases Option.some.inj hu
        exact siftUp_rearranges _ hw' hlt
      · split at hu
        · cases Option.some.inj hu
          exact siftDown_rearranges _ hw' hlt
        · cases Option.some.inj hu
          exact Rearranges.refl hw'

theorem update_spec {h h' : IndexedHeap ι σ} (hw : h.Wf) {x : ι} {score : σ}
    (hu : h.update x score = some h') : h'.Wf ∧ h'.ids.Perm h.ids := by
  obtain ⟨p, -, hg⟩ := update_rearranges hw hu
  have hparallel : (h.scores.set p score).length = h.ids.length := by simpa using hw.parallel
  have hids := hg.2.1.map Prod.fst
  rw [← ids_eq_map_entries hg.1.parallel, ← ids_eq_map_entries hparallel] at hids
  exact ⟨hg.1, hids⟩

theorem update_eq_none {h : IndexedHeap ι σ} (hw : h.Wf) {x : ι} {score : σ} :
    h.update x score = none ↔ x ∉ h.ids := by
  rw [← hw.slotOf_eq_none]
  unfold update
  cases hs : h.slotOf x with
  | none => simp
  | some p =>
    have hlt := (List.getElem?_eq_some_iff.mp (hw.slotOf_eq_some.mp hs)).1
    simp only [List.getElem?_eq_getElem (show p < h.scores.length by rw [hw.parallel]; exact hlt),
      reduceCtorEq, iff_false]
    split
    · simp
    · split <;> simp

/-- A push adds its id and keeps every other, provided the row is free or already its own. -/
theorem push_spec {h : IndexedHeap ι σ} (hw : h.Wf) (x : ι) (score : σ)
    (hrow : ∀ y ∈ h.ids, h.row y = h.row x → y = x) :
    (h.push x score).Wf ∧ (∀ y, y ∈ (h.push x score).ids ↔ y = x ∨ y ∈ h.ids) ∧
      (x ∉ h.ids → (h.push x score).entries.Perm ((x, score) :: h.entries)) := by
  unfold push
  cases hu : h.update x score with
  | some h' =>
    obtain ⟨hw', hperm⟩ := update_spec hw hu
    have hx : x ∈ h.ids := by
      by_contra hx
      rw [(update_eq_none hw).mpr hx] at hu
      cases hu
    refine ⟨hw', fun y => ?_, fun hn => absurd hx hn⟩
    simp only [hperm.mem_iff]
    constructor
    · exact Or.inr
    · rintro (rfl | hy)
      · exact hx
      · exact hy
  | none =>
    have hx := (update_eq_none hw).mp hu
    simp only
    obtain ⟨grown, hgrown⟩ : ∃ grown : IndexedHeap ι σ, grown = file (⟨h.scores ++ [score],
      h.ids ++ [x], Table.reserve none (h.row x + 1) h.positions⟩ : IndexedHeap ι σ) h.len :=
      ⟨_, rfl⟩
    have hwg : grown.Wf := by
      rw [hgrown]
      exact wf_grown hw score hx hrow
    have hlen : h.len < grown.len := by
      rw [hgrown, len_file]
      simp [len]
    rw [← hgrown]
    have hup := siftUp_rearranges h.len hwg hlen
    have hentries : grown.entries.Perm ((x, score) :: h.entries) := by
      rw [hgrown, entries_file]
      simp only [entries]
      rw [List.zip_append hw.parallel.symm]
      exact List.perm_append_singleton _ _
    refine ⟨hup.1, fun y => ?_, fun _ => hup.2.1.trans hentries⟩
    rw [ids_eq_map_entries hup.1.parallel, ids_eq_map_entries hw.parallel,
      ((hup.2.1.trans hentries).map Prod.fst).mem_iff, List.map_cons, List.mem_cons]

/-- An empty heap forgets an entry that came and went, given the entry's row exists. -/
theorem remove_push_of_empty {positions : List (Option Nat)} {x : ι} (s : σ)
    (hrow : positions[HeapKey.index σ x]? = some none) :
    (((⟨[], [], positions⟩ : IndexedHeap ι σ).push x s).remove x).1 = ⟨[], [], positions⟩ := by
  obtain ⟨hlt, hnone⟩ := List.getElem?_eq_some_iff.mp hrow
  have hreserve : Table.reserve none (HeapKey.index σ x + 1) positions = positions := by
    rw [Table.reserve, Nat.sub_eq_zero_of_le hlt, List.replicate_zero, List.append_nil]
  have hpush : (⟨[], [], positions⟩ : IndexedHeap ι σ).push x s =
      ⟨[s], [x], positions.set (HeapKey.index σ x) (some 0)⟩ := by
    simp [push, update, slotOf, row, Table.read, hrow, len, file, siftUp, hreserve]
  have hset : (positions.set (HeapKey.index σ x) (some 0)).set (HeapKey.index σ x) none =
      positions := by
    rw [List.set_set, ← hnone, List.set_getElem_self]
  rw [hpush]
  simp [remove, slotOf, row, Table.read, hlt, removeAt, len, hset]

end IndexedHeap

end TaskerRT.Library
