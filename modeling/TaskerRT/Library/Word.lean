/- module: TaskerRT/Library/Word
   source: none
   digest: Fixed-width unsigned words with saturating, checked and wrapping arithmetic. -/

import Mathlib

set_option autoImplicit false

namespace TaskerRT.Library

/-- An unsigned machine word of `w` bits. Addition of words wraps. -/
abbrev Word (w : Nat) := Fin (2 ^ w)

namespace Word

variable {w : Nat}

private theorem pow_pos_two (w : Nat) : 0 < 2 ^ w := Nat.pow_pos (by decide)

-- The widths in use, so that numerals of these types find one instance by name.
instance neZeroByte : NeZero (2 ^ 8) := ⟨by decide⟩

instance neZeroU32 : NeZero (2 ^ 32) := ⟨by decide⟩

instance neZeroU64 : NeZero (2 ^ 64) := ⟨by decide⟩

def maxValue (w : Nat) : Word w := ⟨2 ^ w - 1, by have := pow_pos_two w; omega⟩

def ofNat (w : Nat) (n : Nat) : Word w := ⟨n % 2 ^ w, Nat.mod_lt _ (pow_pos_two w)⟩

def clamp (w : Nat) (n : Nat) : Word w :=
  ⟨min n (2 ^ w - 1), by have := pow_pos_two w; omega⟩

def saturatingAdd (a b : Word w) : Word w := clamp w (a.val + b.val)

def saturatingSub (a b : Word w) : Word w := ⟨a.val - b.val, by omega⟩

def saturatingMul (a b : Word w) : Word w := clamp w (a.val * b.val)

def checkedAdd (a b : Word w) : Option (Word w) :=
  if h : a.val + b.val < 2 ^ w then some ⟨a.val + b.val, h⟩ else none

def checkedMul (a b : Word w) : Option (Word w) :=
  if h : a.val * b.val < 2 ^ w then some ⟨a.val * b.val, h⟩ else none

@[simp] theorem val_maxValue : (maxValue w).val = 2 ^ w - 1 := rfl

@[simp] theorem val_ofNat (n : Nat) : (ofNat w n).val = n % 2 ^ w := rfl

@[simp] theorem val_clamp (n : Nat) : (clamp w n).val = min n (2 ^ w - 1) := rfl

@[simp] theorem val_saturatingAdd (a b : Word w) :
    (saturatingAdd a b).val = min (a.val + b.val) (2 ^ w - 1) := rfl

@[simp] theorem val_saturatingMul (a b : Word w) :
    (saturatingMul a b).val = min (a.val * b.val) (2 ^ w - 1) := rfl

@[simp] theorem val_saturatingSub (a b : Word w) :
    (saturatingSub a b).val = a.val - b.val := rfl

theorem val_ofNat_of_lt {n : Nat} (h : n < 2 ^ w) : (ofNat w n).val = n := by
  rw [val_ofNat, Nat.mod_eq_of_lt h]

@[simp] theorem ofNat_val (a : Word w) : ofNat w a.val = a := by
  apply Fin.ext
  rw [val_ofNat_of_lt a.isLt]

theorem val_le (a : Word w) : a.val ≤ 2 ^ w - 1 := by
  have := a.isLt
  omega

theorem checkedAdd_eq_some {a b c : Word w} :
    checkedAdd a b = some c ↔ a.val + b.val = c.val := by
  unfold checkedAdd
  constructor
  · intro h
    split at h
    · cases Option.some.inj h
      rfl
    · cases h
  · intro h
    have hlt : a.val + b.val < 2 ^ w := h ▸ c.isLt
    rw [dif_pos hlt]
    exact congrArg some (Fin.ext h)

theorem val_add_of_lt {a b : Word w} (h : a.val + b.val < 2 ^ w) :
    (a + b).val = a.val + b.val := by
  rw [Fin.val_add, Nat.mod_eq_of_lt h]

theorem val_mul_of_lt {a b : Word w} (h : a.val * b.val < 2 ^ w) :
    (a * b).val = a.val * b.val := by
  rw [Fin.val_mul, Nat.mod_eq_of_lt h]

theorem val_div (a b : Word w) : (a / b).val = a.val / b.val := rfl

theorem checkedAdd_of_lt {a b : Word w} (h : a.val + b.val < 2 ^ w) :
    checkedAdd a b = some (a + b) :=
  checkedAdd_eq_some.mpr (val_add_of_lt h).symm

theorem checkedMul_of_lt {a b : Word w} (h : a.val * b.val < 2 ^ w) :
    checkedMul a b = some (a * b) := by
  unfold checkedMul
  rw [dif_pos h]
  exact congrArg some (Fin.ext (val_mul_of_lt h).symm)

theorem checkedMul_of_le {a b : Word w} (h : 2 ^ w ≤ a.val * b.val) : checkedMul a b = none :=
  dif_neg (by omega)

theorem val_sum_of_lt [NeZero (2 ^ w)] (ws : List (Word w))
    (h : (ws.map (·.val)).sum < 2 ^ w) : ws.sum.val = (ws.map (·.val)).sum := by
  induction ws with
  | nil => rfl
  | cons a ws ih =>
    rw [List.map_cons, List.sum_cons] at h
    have hrest := ih (by omega)
    rw [List.sum_cons, List.map_cons, List.sum_cons, val_add_of_lt (by rw [hrest]; exact h), hrest]

theorem val_add_one [NeZero (2 ^ w)] {a : Word w} (h : a ≠ maxValue w) :
    (a + 1).val = a.val + 1 := by
  have hlt : a.val + 1 < 2 ^ w := by
    have hne : a.val ≠ 2 ^ w - 1 := fun he => h (Fin.ext he)
    have := a.isLt
    omega
  rw [Fin.val_add]
  have hone : ((1 : Word w) : Nat) = 1 := by
    have h1 : 1 < 2 ^ w := by omega
    exact Nat.mod_eq_of_lt h1
  rw [hone, Nat.mod_eq_of_lt hlt]

end Word

end TaskerRT.Library
