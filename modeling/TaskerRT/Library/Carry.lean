/- module: TaskerRT/Library/Carry
   source: none
   digest: A mark that follows a clock in whole units and leaves the remainder for later. -/

import TaskerRT.Library.Word

set_option autoImplicit false

namespace TaskerRT.Library

/-! A mark lags behind a clock by less than one unit. Bringing it forward to a time moves it by
    the whole units in between; a time behind the mark moves nothing. -/
namespace Carry

def units (unit mark now : Nat) : Nat := (now - mark) / unit

def advance (unit mark now : Nat) : Nat := mark + units unit mark now * unit

/-- The units counted when the mark is brought forward to each time in turn. -/
def counted (unit : Nat) : Nat → List Nat → Nat
  | _, [] => 0
  | mark, now :: rest => units unit mark now + counted unit (advance unit mark now) rest

variable {unit : Nat}

theorem units_mono (unit mark : Nat) : Monotone (units unit mark) := by
  intro a b h
  exact Nat.div_le_div_right (Nat.sub_le_sub_right h mark)

theorem units_of_le (unit : Nat) {mark now : Nat} (h : now ≤ mark) : units unit mark now = 0 := by
  unfold units
  rw [Nat.sub_eq_zero_of_le h, Nat.zero_div]

theorem units_mul_le (unit mark now : Nat) : units unit mark now * unit ≤ now - mark :=
  Nat.div_mul_le_self _ _

theorem advance_le (unit mark now : Nat) : advance unit mark now ≤ max mark now := by
  have := units_mul_le unit mark now
  unfold advance
  omega

/-- After the mark was brought to `a`, a time counts only what it has beyond `a`. -/
theorem units_advance (hunit : 0 < unit) (mark a b : Nat) :
    units unit (advance unit mark a) b = units unit mark b - units unit mark a := by
  have hsub : b - advance unit mark a = b - mark - unit * units unit mark a := by
    unfold advance
    rw [Nat.mul_comm unit]
    omega
  rw [units, hsub]
  by_cases hle : unit * units unit mark a ≤ b - mark
  · rw [Nat.sub_mul_div_of_le _ _ _ hle]
    rfl
  · have hb : units unit mark b < units unit mark a := by
      apply (Nat.div_lt_iff_lt_mul hunit).mpr
      rw [Nat.mul_comm]
      omega
    rw [Nat.sub_eq_zero_of_le (by omega), Nat.zero_div]
    omega

theorem units_add (hunit : 0 < unit) (mark a b : Nat) :
    units unit mark a + units unit (advance unit mark a) b = units unit mark (max a b) := by
  rw [units_advance hunit, (units_mono unit mark).map_max]
  omega

theorem advance_advance (hunit : 0 < unit) (mark a b : Nat) :
    advance unit (advance unit mark a) b = advance unit mark (max a b) := by
  calc advance unit (advance unit mark a) b
      = mark + (units unit mark a + units unit (advance unit mark a) b) * unit := by
        rw [Nat.add_mul, ← Nat.add_assoc]
        rfl
    _ = advance unit mark (max a b) := by
        rw [units_add hunit]
        rfl

/-- However often the mark is brought forward, it ends where the latest time takes it. -/
theorem foldl_advance (hunit : 0 < unit) (mark : Nat) (times : List Nat) :
    times.foldl (advance unit) mark = advance unit mark (times.foldr max 0) := by
  induction times generalizing mark with
  | nil =>
    unfold advance
    rw [List.foldl_nil, List.foldr_nil, units_of_le unit (Nat.zero_le mark), Nat.zero_mul,
      Nat.add_zero]
  | cons now rest ih => rw [List.foldl_cons, ih, advance_advance hunit, List.foldr_cons]

theorem counted_eq (hunit : 0 < unit) (mark : Nat) (times : List Nat) :
    counted unit mark times = units unit mark (times.foldr max 0) := by
  induction times generalizing mark with
  | nil => exact (units_of_le unit (Nat.zero_le mark)).symm
  | cons now rest ih => rw [counted, ih, units_add hunit, List.foldr_cons]

theorem units_advance_of_le (hunit : 0 < unit) (mark : Nat) {a b : Nat} (h : b ≤ a) :
    units unit (advance unit mark a) b = 0 := by
  rw [units_advance hunit]
  exact Nat.sub_eq_zero_of_le (units_mono unit mark h)

end Carry

end TaskerRT.Library
