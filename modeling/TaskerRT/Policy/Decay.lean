/- module: TaskerRT/Policy/Decay
   source: crates/tasker-core/src/policy/fairshare.rs
   digest: The decay table and what decaying a usage does, across table entries and halvings. -/

import TaskerRT.Policy.FairShare

set_option autoImplicit false

namespace TaskerRT.Policy

open Library

/-- `mulQ48` with the narrowing cast checked: nothing when it would drop bits. -/
def checkedMulQ48 (a b : Nat) : Option Nat :=
  if a * b / 2 ^ 48 < 2 ^ 64 then some (a * b / 2 ^ 48) else none

def checkedPowLoop : Nat → Nat → Nat → Nat → Option Nat
  | 0, _, _, acc => some acc
  | fuel + 1, base, exp, acc =>
    if exp = 0 then some acc
    else do
      let folded ← if exp % 2 = 1 then checkedMulQ48 acc base else some acc
      let squared ← checkedMulQ48 base base
      checkedPowLoop fuel squared (exp / 2) folded

def checkedPowQ48 (base exp : Nat) : Option Nat := checkedPowLoop 64 base exp decayOne

def checkedRootLoop : Nat → Nat → Nat → Option Nat
  | 0, lo, _ => some lo
  | fuel + 1, lo, hi =>
    if lo + 1 < hi then do
      let mid := lo + (hi - lo) / 2
      let power ← checkedPowQ48 mid decaySteps
      if power ≤ decayOne / 2 then checkedRootLoop fuel mid hi else checkedRootLoop fuel lo mid
    else some lo

/-- Entry `k` of the decay table, every cast on the way to it checked. -/
def checkedDecayTable (k : Nat) : Option Nat := do
  let root ← checkedRootLoop 48 (decayOne / 2) decayOne
  checkedPowQ48 root k

/-- `decay` with every cast checked, those that built the table included. -/
def checkedDecay (usage : Word 64) (steps : Nat) : Option Nat :=
  let halvings := steps / decaySteps
  if halvings ≥ 64 then some 0
  else do
    let fine ← checkedDecayTable (steps % decaySteps)
    checkedMulQ48 (usage.val / 2 ^ halvings) fine

section Product

variable {a b : Nat}

theorem shifted_le (a : Nat) (hb : b ≤ decayOne) : a * b / 2 ^ 48 ≤ a :=
  Nat.div_le_of_le_mul (by rw [Nat.mul_comm]; exact Nat.mul_le_mul_right a hb)

theorem mulQ48_eq (ha : a < 2 ^ 64) (hb : b ≤ decayOne) : mulQ48 a b = a * b / 2 ^ 48 :=
  Nat.mod_eq_of_lt ((shifted_le a hb).trans_lt ha)

theorem checkedMulQ48_eq (ha : a < 2 ^ 64) (hb : b ≤ decayOne) :
    checkedMulQ48 a b = some (mulQ48 a b) := by
  rw [mulQ48_eq ha hb]
  exact if_pos ((shifted_le a hb).trans_lt ha)

theorem mulQ48_le (ha : a < 2 ^ 64) (hb : b ≤ decayOne) : mulQ48 a b ≤ a := by
  rw [mulQ48_eq ha hb]
  exact shifted_le a hb

private theorem lt_word_of_le_decayOne (ha : a ≤ decayOne) : a < 2 ^ 64 :=
  ha.trans_lt (by decide)

end Product

/-- Powers of a number at most one stay at most one, so no cast of the loop drops bits. -/
private theorem powLoop_spec (fuel base exp acc : Nat) (hbase : base ≤ decayOne)
    (hacc : acc ≤ decayOne) :
    checkedPowLoop fuel base exp acc = some (powLoop fuel base exp acc) ∧
      powLoop fuel base exp acc ≤ decayOne := by
  induction fuel generalizing base exp acc with
  | zero => exact ⟨rfl, hacc⟩
  | succ fuel ih =>
    have hb := lt_word_of_le_decayOne hbase
    have ha := lt_word_of_le_decayOne hacc
    unfold checkedPowLoop powLoop
    by_cases hexp : exp = 0
    · rw [if_pos hexp, if_pos hexp]
      exact ⟨rfl, hacc⟩
    · rw [if_neg hexp, if_neg hexp, checkedMulQ48_eq hb hbase]
      have hsquare := (mulQ48_le hb hbase).trans hbase
      by_cases hodd : exp % 2 = 1
      · rw [if_pos hodd, if_pos hodd, checkedMulQ48_eq ha hbase]
        exact ih _ _ _ hsquare ((mulQ48_le ha hbase).trans hacc)
      · rw [if_neg hodd, if_neg hodd]
        exact ih _ _ _ hsquare hacc

theorem powLoop_enough (fuel extra base exp acc : Nat) (h : exp < 2 ^ fuel) :
    powLoop (fuel + extra) base exp acc = powLoop fuel base exp acc := by
  induction fuel generalizing base exp acc with
  | zero =>
    have hzero : exp = 0 := by omega
    cases extra with
    | zero => rfl
    | succ extra => simp [powLoop, hzero]
  | succ fuel ih =>
    rw [Nat.succ_add, powLoop, powLoop]
    split
    · rfl
    · apply ih
      rw [Nat.pow_succ] at h
      omega

private theorem rootLoop_spec (fuel lo hi : Nat) (hlo : lo ≤ decayOne) (hhi : hi ≤ decayOne) :
    checkedRootLoop fuel lo hi = some (rootLoop fuel lo hi) := by
  induction fuel generalizing lo hi with
  | zero => rfl
  | succ fuel ih =>
    unfold checkedRootLoop rootLoop
    split
    · have hmid : lo + (hi - lo) / 2 ≤ decayOne := by omega
      have hpow := (powLoop_spec 64 _ decaySteps decayOne hmid le_rfl).1
      unfold checkedPowQ48 powQ48
      dsimp only
      rw [hpow, Option.bind_eq_bind, Option.bind_some]
      split
      · exact ih _ _ hmid hhi
      · exact ih _ _ hlo hmid
    · rfl

/-- An interval of `2 ^ fuel` closes in that many halvings: more change nothing. -/
theorem rootLoop_enough (fuel extra lo hi : Nat) (h : hi ≤ lo + 2 ^ fuel) :
    rootLoop (fuel + extra) lo hi = rootLoop fuel lo hi := by
  induction fuel generalizing lo hi with
  | zero =>
    have hclosed : ¬lo + 1 < hi := by omega
    cases extra with
    | zero => rfl
    | succ extra => simp [rootLoop, hclosed]
  | succ fuel ih =>
    rw [Nat.succ_add, rootLoop, rootLoop]
    rw [Nat.pow_succ] at h
    split
    · dsimp only
      split <;> apply ih <;> omega
    · rfl

section Table

private theorem decayRoot_eq : decayRoot = 281284510335224 := by decide +kernel

private theorem decayRoot_le : decayRoot ≤ decayOne := by
  rw [decayRoot_eq]
  decide

private theorem decayTable_le (k : Nat) : decayTable k ≤ decayOne :=
  (powLoop_spec 64 decayRoot k decayOne decayRoot_le le_rfl).2

private theorem checkedDecayTable_eq (k : Nat) : checkedDecayTable k = some (decayTable k) := by
  unfold checkedDecayTable
  rw [rootLoop_spec 48 _ _ (by decide) le_rfl, Option.bind_eq_bind, Option.bind_some]
  exact (powLoop_spec 64 decayRoot k decayOne decayRoot_le le_rfl).1

private theorem decayTable_zero : decayTable 0 = decayOne := rfl

-- The entries are compared one by one: truncation follows a different path in each.
private theorem decayTable_succ_le {k : Nat} (hk : k + 1 < decaySteps) :
    decayTable (k + 1) ≤ decayTable k := by
  have hall : ∀ k < 1023, powQ48 281284510335224 (k + 1) ≤ powQ48 281284510335224 k := by
    decide +kernel
  unfold decayTable
  rw [decayRoot_eq]
  unfold decaySteps at hk
  exact hall k (by omega)

/-- The last entry is still at least one half, the value the next halving starts from. -/
private theorem half_le_decayTable_last : 2 ^ 47 ≤ decayTable (decaySteps - 1) := by
  unfold decayTable
  rw [decayRoot_eq]
  decide +kernel

end Table

section Steps

/-- One more step either moves on in the table or starts it again one halving further. -/
private theorem steps_succ (s : Nat) :
    (s % decaySteps + 1 < decaySteps ∧ (s + 1) / decaySteps = s / decaySteps ∧
      (s + 1) % decaySteps = s % decaySteps + 1) ∨
    (s % decaySteps = decaySteps - 1 ∧ (s + 1) / decaySteps = s / decaySteps + 1 ∧
      (s + 1) % decaySteps = 0) := by
  unfold decaySteps
  omega

private theorem decayFactor_succ_le (s : Nat) : decayFactor (s + 1) ≤ decayFactor s := by
  unfold decayFactor
  dsimp only
  rcases steps_succ s with ⟨hlt, hdiv, hmod⟩ | ⟨hlast, hdiv, hmod⟩
  · rw [hdiv, hmod]
    split
    · exact le_rfl
    · exact Nat.div_le_div_right (decayTable_succ_le hlt)
  · rw [hdiv, hmod, hlast, decayTable_zero]
    split
    · exact Nat.zero_le _
    · rename_i hnot
      rw [if_neg (by omega)]
      calc decayOne / 2 ^ (s / decaySteps + 1)
          = 2 ^ 47 / 2 ^ (s / decaySteps) := by
            rw [Nat.pow_succ, Nat.mul_comm, ← Nat.div_div_eq_div_mul]
            rfl
        _ ≤ decayTable (decaySteps - 1) / 2 ^ (s / decaySteps) :=
            Nat.div_le_div_right half_le_decayTable_last

theorem decayFactor_antitone : Antitone decayFactor :=
  antitone_nat_of_succ_le decayFactor_succ_le

theorem decayFactor_le (s : Nat) : decayFactor s ≤ decayOne := by
  unfold decayFactor
  dsimp only
  split
  · exact Nat.zero_le _
  · exact (Nat.div_le_self _ _).trans (decayTable_le _)

theorem decayFactor_zero : decayFactor 0 = decayOne := rfl

private theorem val_decay (usage : Word 64) (s : Nat) : (decay usage s).val =
    if s / decaySteps ≥ 64 then 0
    else usage.val / 2 ^ (s / decaySteps) * decayTable (s % decaySteps) / 2 ^ 48 := by
  have hlt : usage.val / 2 ^ (s / decaySteps) < 2 ^ 64 :=
    (Nat.div_le_self _ _).trans_lt usage.isLt
  have hle := decayTable_le (s % decaySteps)
  unfold decay
  dsimp only
  split
  · rfl
  · rw [Word.val_ofNat_of_lt ((mulQ48_le hlt hle).trans_lt hlt), mulQ48_eq hlt hle]

private theorem checkedDecay_eq (usage : Word 64) (s : Nat) :
    checkedDecay usage s = some (decay usage s).val := by
  have hlt : usage.val / 2 ^ (s / decaySteps) < 2 ^ 64 :=
    (Nat.div_le_self _ _).trans_lt usage.isLt
  have hle := decayTable_le (s % decaySteps)
  rw [val_decay]
  unfold checkedDecay
  dsimp only
  split
  · rfl
  · rw [checkedDecayTable_eq, Option.bind_eq_bind, Option.bind_some, checkedMulQ48_eq hlt hle,
      mulQ48_eq hlt hle]

private theorem decay_le (usage : Word 64) (s : Nat) : decay usage s ≤ usage := by
  rw [Fin.le_def, val_decay]
  split
  · exact Nat.zero_le _
  · exact (shifted_le _ (decayTable_le _)).trans (Nat.div_le_self _ _)

theorem decay_mono {u v : Word 64} (h : u ≤ v) (s : Nat) : decay u s ≤ decay v s := by
  rw [Fin.le_def, val_decay, val_decay]
  split
  · exact le_rfl
  · apply Nat.div_le_div_right
    apply Nat.mul_le_mul_right
    exact Nat.div_le_div_right h

private theorem decay_succ_le (usage : Word 64) (s : Nat) :
    (decay usage (s + 1)).val ≤ (decay usage s).val := by
  rw [val_decay, val_decay]
  rcases steps_succ s with ⟨hlt, hdiv, hmod⟩ | ⟨hlast, hdiv, hmod⟩
  · rw [hdiv, hmod]
    split
    · exact le_rfl
    · apply Nat.div_le_div_right
      exact Nat.mul_le_mul_left _ (decayTable_succ_le hlt)
  · rw [hdiv, hmod, hlast, decayTable_zero]
    split
    · exact Nat.zero_le _
    · rename_i hnot
      rw [if_neg (by omega)]
      -- a halving more is half of what is left, and the last entry keeps at least half
      have hpow : 2 ^ (s / decaySteps + 1) = 2 ^ (s / decaySteps) * 2 := Nat.pow_succ _ _
      set left := usage.val / 2 ^ (s / decaySteps) with hleft
      calc usage.val / 2 ^ (s / decaySteps + 1) * decayOne / 2 ^ 48
          = usage.val / 2 ^ (s / decaySteps + 1) := Nat.mul_div_cancel _ (by decide)
        _ = left / 2 := by rw [hpow, ← Nat.div_div_eq_div_mul]
        _ = left * 2 ^ 47 / 2 ^ 48 := by
            rw [show (2 ^ 48 : Nat) = 2 * 2 ^ 47 from rfl, Nat.mul_div_mul_right _ _ (by decide)]
        _ ≤ left * decayTable (decaySteps - 1) / 2 ^ 48 :=
            Nat.div_le_div_right (Nat.mul_le_mul_left _ half_le_decayTable_last)

private theorem decay_antitone (usage : Word 64) {s t : Nat} (h : s ≤ t) :
    decay usage t ≤ decay usage s :=
  antitone_nat_of_succ_le (decay_succ_le usage) h

private theorem val_decay_halvings (usage : Word 64) {k : Nat} (hk : k < 64) :
    (decay usage (k * decaySteps)).val = usage.val / 2 ^ k := by
  have hpos : 0 < decaySteps := by decide
  rw [val_decay, Nat.mul_div_cancel _ hpos, Nat.mul_mod_left, if_neg (by omega), decayTable_zero]
  exact Nat.mul_div_cancel _ (by decide)

theorem decay_zero (usage : Word 64) : decay usage 0 = usage := by
  apply Fin.ext
  simpa using val_decay_halvings usage (k := 0) (by decide)

/-- Decay only shrinks a usage, keeps the order of usages, takes more with more steps, halves
exactly at whole half-lives, and no cast on the way drops bits. -/
theorem decay_contracts (u v : Word 64) (s t : Nat) (huv : u ≤ v) (hst : s ≤ t) :
    decay u s ≤ u ∧ decay u s ≤ decay v s ∧ decay u t ≤ decay u s ∧
      (∀ k < 64, (decay u (k * decaySteps)).val = u.val / 2 ^ k) ∧
      decayFactor t ≤ decayFactor s ∧ decayFactor s ≤ decayOne ∧
      checkedDecay u s = some (decay u s).val ∧
      checkedDecayTable (s % decaySteps) = some (decayTable (s % decaySteps)) :=
  ⟨decay_le u s, decay_mono huv s, decay_antitone u hst, fun _ hk => val_decay_halvings u hk,
    decayFactor_antitone hst, decayFactor_le s, checkedDecay_eq u s, checkedDecayTable_eq _⟩

/-- Three quarters of the largest usage against the largest, across a halving of the table. -/
theorem decay_contracts_sample :
    decay 13835058055282163712 2047 ≤ decay 18446744073709551615 2047 ∧
      decay 13835058055282163712 2048 ≤ decay 13835058055282163712 2047 :=
  have h := decay_contracts 13835058055282163712 18446744073709551615 2047 2048 (by decide)
    (by decide)
  ⟨h.2.1, h.2.2.1⟩

end Steps

end TaskerRT.Policy
