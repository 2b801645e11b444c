/- module: TaskerRT/Domain/Tally
   source: none (abstract layer over crates/tasker-core/src/domain/arena.rs)
   digest: Sums over the live entries of an arena, and how they move with one entry. -/

import TaskerRT.Domain.Arena

set_option autoImplicit false

namespace TaskerRT.Domain

open Library

universe u

def JobId.equivWord : JobId ≃ Word 64 where
  toFun := JobId.bits
  invFun := JobId.mk
  left_inv _ := rfl
  right_inv _ := rfl

/-- Every handle there is. A set rather than an instance: nothing is decided by running through
all of them. -/
noncomputable def JobId.all : Finset JobId :=
  (Finset.univ : Finset (Word 64)).map JobId.equivWord.symm.toEmbedding

theorem JobId.mem_all (id : JobId) : id ∈ JobId.all :=
  Finset.mem_map.mpr ⟨id.bits, Finset.mem_univ _, rfl⟩

namespace Arena

variable {α : Type u}

noncomputable def tally (g : α → Nat) (a : Arena α) : Nat :=
  ∑ x ∈ JobId.all, (a.get x).elim 0 g

variable {a a' : Arena α} {g : α → Nat} {id : JobId}

theorem tally_congr (h : ∀ x, (a'.get x).elim 0 g = (a.get x).elim 0 g) :
    a'.tally g = a.tally g :=
  Finset.sum_congr rfl fun x _ => h x

/-- Where only one handle counts for something else, the tally moves with it. -/
theorem tally_shift (h : ∀ x, x ≠ id → (a'.get x).elim 0 g = (a.get x).elim 0 g) :
    a'.tally g + (a.get id).elim 0 g = a.tally g + (a'.get id).elim 0 g := by
  have hsplit : ∀ b : Arena α, b.tally g =
      (b.get id).elim 0 g + ∑ x ∈ JobId.all.erase id, (b.get x).elim 0 g := fun b =>
    (Finset.add_sum_erase _ _ id.mem_all).symm
  have hrest : ∑ x ∈ JobId.all.erase id, (a'.get x).elim 0 g =
      ∑ x ∈ JobId.all.erase id, (a.get x).elim 0 g :=
    Finset.sum_congr rfl fun x hx => h x (Finset.ne_of_mem_erase hx)
  rw [hsplit a', hsplit a, hrest]
  omega

theorem tally_eq_iter (hlen : a.slots.length ≤ 2 ^ 32) (g : α → Nat) :
    a.tally g = (a.iter.map fun p => g p.2).sum := by
  have hentries : (a.iter.map fun p => g p.2) =
      (a.iter.map Prod.fst).map fun x => (a.get x).elim 0 g := by
    rw [List.map_map]
    refine List.map_congr_left fun p hp => ?_
    rw [Function.comp_apply, (mem_iter hlen).mp hp]
    rfl
  rw [hentries, ← List.sum_toFinset _ (iter_nodup hlen)]
  symm
  apply Finset.sum_subset (fun x _ => x.mem_all)
  intro x _ hx
  cases hget : a.get x with
  | none => rfl
  | some v =>
    have hmem : x ∈ a.iter.map Prod.fst := List.mem_map.mpr ⟨(x, v), (mem_iter hlen).mpr hget, rfl⟩
    exact absurd (List.mem_toFinset.mpr hmem) hx

private theorem length_iter_le (a : Arena α) : a.iter.length ≤ a.slots.length := by
  unfold iter
  refine (List.length_filterMap_le _ _).trans ?_
  rw [List.length_zipIdx]

theorem tally_le {n : Nat} (hlen : a.slots.length ≤ 2 ^ 32) (h : ∀ v, g v ≤ n) :
    a.tally g ≤ 2 ^ 32 * n := by
  have hcount : a.iter.length ≤ 2 ^ 32 := a.length_iter_le.trans hlen
  have hsum : (a.iter.map fun p => g p.2).sum ≤ (a.iter.map fun p => g p.2).length * n := by
    have := List.sum_le_card_nsmul (a.iter.map fun p => g p.2) n fun k hk => by
      obtain ⟨p, -, rfl⟩ := List.mem_map.mp hk
      exact h p.2
    simpa using this
  rw [List.length_map] at hsum
  rw [tally_eq_iter hlen]
  exact hsum.trans (Nat.mul_le_mul_right n hcount)

end Arena

end TaskerRT.Domain
