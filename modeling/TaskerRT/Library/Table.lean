/- module: TaskerRT/Library/Table
   source: none
   digest: Growable tables read with a default, and the constant-time removal of vectors. -/

import TaskerRT.Library.Word

set_option autoImplicit false

namespace TaskerRT.Library

universe u

variable {α : Type u}

/-! A table is a vector indexed by small integers that grows on demand. Reading past its
    end yields the filler that growing would have stored there. -/
namespace Table

def read (filler : α) (table : List α) (i : Nat) : α := table[i]?.getD filler

/-- Grows a table to cover `size` indices; a table already that long is unchanged. -/
def reserve (filler : α) (size : Nat) (table : List α) : List α :=
  table ++ List.replicate (size - table.length) filler

@[simp] theorem length_reserve (filler : α) (size : Nat) (table : List α) :
    (reserve filler size table).length = max table.length size := by
  simp only [reserve, List.length_append, List.length_replicate]
  omega

@[simp] theorem read_reserve (filler : α) (size : Nat) (table : List α) (i : Nat) :
    read filler (reserve filler size table) i = read filler table i := by
  unfold read reserve
  rw [List.getElem?_append]
  split
  · rfl
  · rename_i h
    rw [List.getElem?_eq_none (l := table) (by omega), List.getElem?_replicate]
    split <;> rfl

theorem read_set (filler : α) (table : List α) (i j : Nat) (x : α) (h : i < table.length) :
    read filler (table.set i x) j = if j = i then x else read filler table j := by
  unfold read
  by_cases he : j = i
  · subst he
    rw [List.getElem?_set_self h, if_pos rfl]
    rfl
  · rw [List.getElem?_set_ne (Ne.symm he), if_neg he]

theorem read_of_length_le (filler : α) (table : List α) (i : Nat) (h : table.length ≤ i) :
    read filler table i = filler := by
  unfold read
  rw [List.getElem?_eq_none h]
  rfl

theorem lt_length_of_read_ne {filler : α} {table : List α} {i : Nat}
    (h : read filler table i ≠ filler) : i < table.length := by
  by_contra hlt
  exact h (read_of_length_le filler table i (by omega))

def volume (table : List (List α)) : Nat := (table.map List.length).sum

theorem sum_set_add (ns : List Nat) (i n : Nat) (h : i < ns.length) :
    (ns.set i n).sum + ns[i] = ns.sum + n := by
  induction ns generalizing i with
  | nil => simp at h
  | cons m ns ih =>
    cases i with
    | zero => simp; omega
    | succ i =>
      have hi : i < ns.length := by simpa using h
      have := ih i hi
      simp only [List.set_cons_succ, List.sum_cons, List.getElem_cons_succ]
      omega

theorem sum_map_set (g : α → Nat) {xs : List α} {i : Nat} {old : α} (h : xs[i]? = some old)
    (x : α) : ((xs.set i x).map g).sum + g old = (xs.map g).sum + g x := by
  obtain ⟨hi, rfl⟩ := List.getElem?_eq_some_iff.mp h
  have := sum_set_add (xs.map g) i (g x) (by simpa using hi)
  rw [List.map_set]
  simpa using this

theorem volume_set_nil (table : List (List α)) (i : Nat) (h : i < table.length) :
    volume (table.set i []) + (read [] table i).length = volume table := by
  unfold volume
  have hlen : i < (table.map List.length).length := by simpa using h
  have := sum_set_add (table.map List.length) i 0 hlen
  rw [List.map_set]
  simp only [read, List.getElem?_eq_getElem h, Option.getD_some, List.getElem_map,
    List.length_nil] at this ⊢
  omega

end Table

theorem countP_lt_countP {p q : α → Bool} {xs : List α} (h : ∀ x ∈ xs, p x = true → q x = true)
    {x : α} (hx : x ∈ xs) (hq : q x = true) (hp : p x ≠ true) : xs.countP p < xs.countP q := by
  induction xs with
  | nil => cases hx
  | cons y xs ih =>
    have hle := List.countP_mono_left fun z hz => h z (List.mem_cons_of_mem y hz)
    rw [List.countP_cons, List.countP_cons]
    rcases List.mem_cons.mp hx with rfl | hx
    · rw [if_neg hp, if_pos hq]
      omega
    · have hlt := ih (fun z hz => h z (List.mem_cons_of_mem y hz)) hx
      by_cases hy : p y = true
      · rw [if_pos hy, if_pos (h y List.mem_cons_self hy)]
        omega
      · rw [if_neg hy]
        omega

/-- Removes index `i` by moving the last element into its place. -/
def swapRemove (xs : List α) (i : Nat) : List α :=
  match xs.getLast? with
  | none => xs
  | some last => (xs.set i last).dropLast

@[simp] theorem length_swapRemove (xs : List α) (i : Nat) :
    (swapRemove xs i).length = xs.length - 1 := by
  unfold swapRemove
  split
  · rename_i h
    rw [List.getLast?_eq_none_iff.mp h]
    rfl
  · simp

theorem getElem?_swapRemove {xs : List α} {i : Nat} (h : i < xs.length) (k : Nat) :
    (swapRemove xs i)[k]? = if k + 1 < xs.length then
      (if k = i then xs[xs.length - 1]? else xs[k]?) else none := by
  obtain ⟨last, hlast⟩ : ∃ last, xs[xs.length - 1]? = some last :=
    ⟨_, List.getElem?_eq_getElem (by omega)⟩
  have heq : swapRemove xs i = (xs.set i last).dropLast := by
    unfold swapRemove
    rw [List.getLast?_eq_getElem?, hlast]
  rw [heq, List.getElem?_dropLast, List.length_set, hlast]
  by_cases hk : k + 1 < xs.length
  · rw [if_pos (by omega), if_pos hk]
    by_cases hki : k = i
    · subst hki
      rw [if_pos rfl, List.getElem?_set_self h]
    · rw [if_neg hki, List.getElem?_set_ne (Ne.symm hki)]
  · rw [if_neg (by omega), if_neg hk]

theorem swapRemove_last (xs : List α) : swapRemove xs (xs.length - 1) = xs.dropLast := by
  rcases Nat.eq_zero_or_pos xs.length with h | h
  · rw [List.length_eq_zero_iff.mp h]
    rfl
  · apply List.ext_getElem?
    intro k
    rw [getElem?_swapRemove (by omega), List.getElem?_dropLast]
    by_cases hk : k + 1 < xs.length
    · rw [if_pos hk, if_neg (by omega), if_pos (by omega)]
    · rw [if_neg hk, if_neg (by omega)]

theorem zip_swapRemove {β : Type u} {xs : List α} {ys : List β} (h : xs.length = ys.length)
    {i : Nat} (hi : i < xs.length) :
    (swapRemove xs i).zip (swapRemove ys i) = swapRemove (xs.zip ys) i := by
  have hz : (xs.zip ys).length = xs.length := by rw [List.length_zip]; omega
  apply List.ext_getElem?
  intro k
  rw [getElem?_swapRemove (by omega), hz]
  simp only [List.zip, List.getElem?_zipWith, getElem?_swapRemove hi,
    getElem?_swapRemove (h ▸ hi : i < ys.length), ← h]
  by_cases hk : k + 1 < xs.length
  · by_cases hki : k = i
    · simp only [if_pos hk, if_pos hki]
    · simp only [if_pos hk, if_neg hki]
  · simp only [if_neg hk]

theorem swapRemove_perm {xs : List α} {i : Nat} (h : i < xs.length) :
    (xs[i] :: swapRemove xs i).Perm xs := by
  obtain ⟨ys, y, rfl⟩ : ∃ ys y, xs = ys ++ [y] := by
    cases hx : xs using List.reverseRecOn with
    | nil => simp [hx] at h
    | append_singleton ys y => exact ⟨ys, y, rfl⟩
  have hlast : (ys ++ [y]).getLast? = some y := by simp
  simp only [swapRemove, hlast]
  by_cases hi : i < ys.length
  · have hget : (ys ++ [y])[i] = ys[i] := List.getElem_append_left hi
    rw [hget, List.set_append_left i y hi, List.dropLast_concat]
    have hset : ys.set i y = ys.take i ++ y :: ys.drop (i + 1) :=
      List.set_eq_take_cons_drop y hi
    have hys : ys.take i ++ ys[i] :: ys.drop (i + 1) = ys := by
      rw [← List.drop_eq_getElem_cons hi, List.take_append_drop]
    calc ys[i] :: ys.set i y
        = ys[i] :: (ys.take i ++ y :: ys.drop (i + 1)) := by rw [hset]
      _ |>.Perm (y :: ys[i] :: (ys.take i ++ ys.drop (i + 1))) :=
          (List.perm_middle.cons _).trans (List.Perm.swap _ _ _)
      _ |>.Perm (y :: (ys.take i ++ ys[i] :: ys.drop (i + 1))) :=
          List.perm_middle.symm.cons _
      _ |>.Perm ((ys.take i ++ ys[i] :: ys.drop (i + 1)) ++ [y]) :=
          (List.perm_append_singleton _ _).symm
      _ = ys ++ [y] := by rw [hys]
  · have hi' : i = ys.length := by
      simp at h
      omega
    subst hi'
    simpa [List.set_append_right] using (List.perm_append_singleton y ys).symm

theorem swapRemove_findIdx_perm {p : α → Bool} {xs : List α} {x : α} (h : xs.find? p = some x) :
    (x :: swapRemove xs (xs.findIdx p)).Perm xs := by
  have hlt : xs.findIdx p < xs.length :=
    List.findIdx_lt_length_of_exists ⟨x, List.mem_of_find?_eq_some h, List.find?_some h⟩
  have hget : xs[xs.findIdx p] = x := by
    have hidx := List.getElem?_eq_getElem hlt
    rw [← List.find?_eq_getElem?_findIdx, h] at hidx
    exact (Option.some.inj hidx).symm
  have hperm := swapRemove_perm hlt
  rwa [hget] at hperm

theorem swapRemove_set {xs : List α} {i : Nat} (h : i < xs.length) (x : α) :
    swapRemove (xs.set i x) i = swapRemove xs i := by
  apply List.ext_getElem?
  intro k
  rw [getElem?_swapRemove (by simpa using h), getElem?_swapRemove h, List.length_set]
  by_cases hk : k + 1 < xs.length
  · rw [if_pos hk, if_pos hk]
    by_cases hki : k = i
    · rw [if_pos hki, if_pos hki, List.getElem?_set_ne (by omega)]
    · rw [if_neg hki, if_neg hki, List.getElem?_set_ne (Ne.symm hki)]
  · rw [if_neg hk, if_neg hk]

theorem set_perm {xs : List α} {i : Nat} (h : i < xs.length) (x : α) :
    (xs.set i x).Perm (x :: swapRemove xs i) := by
  have hlt : i < (xs.set i x).length := by simpa using h
  have hperm := (swapRemove_perm hlt).symm
  rwa [List.getElem_set_self, swapRemove_set h] at hperm

end TaskerRT.Library
