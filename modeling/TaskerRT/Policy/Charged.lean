/- module: TaskerRT/Policy/Charged
   source: crates/tasker-core/src/policy/fairshare.rs
   digest: What a ledger is charged for does not depend on how often it is touched. -/

import TaskerRT.Library.Carry
import TaskerRT.Policy.Decay

set_option autoImplicit false

namespace TaskerRT.Policy

open Library Domain

private theorem FairShareConfig.quantumNanos_pos (config : FairShareConfig) :
    0 < config.quantumNanos := by
  unfold quantumNanos
  dsimp only
  split
  · exact Nat.one_pos
  · rename_i hne
    exact Nat.pos_of_ne_zero hne

namespace Ledger

def nanosPerMilli : Nat := 1000000

def stepsAt (l : Ledger) (config : FairShareConfig) (now : VirtualTime) : Nat :=
  (Word.saturatingSub now l.decayedTo).val / config.quantumNanos

def heldMs (l : Ledger) (now : VirtualTime) : Nat :=
  (Word.saturatingSub now l.accruedTo).val / nanosPerMilli

def touchAll (config : FairShareConfig) (l : Ledger) (times : List VirtualTime) : Ledger :=
  times.foldl (fun l now => l.touch now config) l

def stepsOver (config : FairShareConfig) : Ledger → List VirtualTime → Nat
  | _, [] => 0
  | l, now :: rest => l.stepsAt config now + stepsOver config (l.touch now config) rest

def msOver (config : FairShareConfig) : Ledger → List VirtualTime → Nat
  | _, [] => 0
  | l, now :: rest => l.heldMs now + msOver config (l.touch now config) rest

section Touch

variable (l : Ledger) (config : FairShareConfig) (now : VirtualTime)

private theorem stepsAt_eq : l.stepsAt config now
    = Carry.units config.quantumNanos l.decayedTo.val now.val := rfl

private theorem heldMs_eq : l.heldMs now = Carry.units nanosPerMilli l.accruedTo.val now.val := rfl

/-- A mark never passes the clock, so the saturating addition of `touch` just adds. -/
private theorem val_brought (unit : Nat) (mark consumed : VirtualTime)
    (h : consumed.val = Carry.units unit mark.val now.val * unit) :
    (Word.saturatingAdd mark consumed).val = Carry.advance unit mark.val now.val := by
  have hle := Carry.advance_le unit mark.val now.val
  have hmark := mark.isLt
  have hnow := now.isLt
  unfold Carry.advance at hle ⊢
  rw [Word.val_saturatingAdd, h]
  omega

private theorem consumed_lt (unit : Nat) (mark : VirtualTime) :
    Carry.units unit mark.val now.val * unit < 2 ^ 64 := by
  have hle := Carry.units_mul_le unit mark.val now.val
  have hnow := now.isLt
  omega

private theorem advance_of_not_pos {unit mark time : Nat} (h : ¬0 < Carry.units unit mark time) :
    Carry.advance unit mark time = mark := by
  unfold Carry.advance
  rw [Nat.eq_zero_of_not_pos h, Nat.zero_mul, Nat.add_zero]

private theorem val_decayedTo_touch : (l.touch now config).decayedTo.val
    = Carry.advance config.quantumNanos l.decayedTo.val now.val := by
  have hstays : (l.touch now config).decayedTo = (l.decayTo now config).decayedTo := by
    unfold touch accrueTo
    dsimp only
    split <;> rfl
  rw [hstays]
  unfold decayTo
  dsimp only
  split
  · apply val_brought
    have hlt := consumed_lt now config.quantumNanos l.decayedTo
    rw [Word.val_clamp]
    exact min_eq_left (Nat.le_sub_one_of_lt hlt)
  · rename_i hnone
    exact (advance_of_not_pos hnone).symm

private theorem val_accruedTo_touch : (l.touch now config).accruedTo.val
    = Carry.advance nanosPerMilli l.accruedTo.val now.val := by
  have hstays : (l.decayTo now config).accruedTo = l.accruedTo := by
    unfold decayTo
    dsimp only
    split <;> rfl
  unfold touch accrueTo
  dsimp only
  rw [hstays]
  split
  · apply val_brought
    exact Word.val_ofNat_of_lt (consumed_lt now nanosPerMilli l.accruedTo)
  · rename_i hnone
    rw [hstays]
    exact (advance_of_not_pos hnone).symm

/-- What a touch leaves as usage: the old one decayed, plus the running cpu for the time held. -/
theorem usage_touch : (l.touch now config).usage
    = Word.saturatingAdd (decay l.usage (l.stepsAt config now))
        (Word.saturatingMul l.runningCpu (Word.ofNat 64 (l.heldMs now))) := by
  have hdecayed : (l.decayTo now config).usage = decay l.usage (l.stepsAt config now) ∧
      (l.decayTo now config).runningCpu = l.runningCpu ∧
      (l.decayTo now config).accruedTo = l.accruedTo := by
    unfold decayTo
    dsimp only
    split
    · exact ⟨rfl, rfl, rfl⟩
    · rename_i hnone
      have hsteps : l.stepsAt config now = 0 := Nat.eq_zero_of_not_pos hnone
      rw [hsteps, decay_zero]
      exact ⟨rfl, rfl, rfl⟩
  obtain ⟨husage, hcpu, haccrued⟩ := hdecayed
  unfold touch accrueTo
  dsimp only
  rw [haccrued]
  split
  · rw [husage, hcpu]
    rfl
  · rename_i hnone
    have hms : l.heldMs now = 0 := Nat.eq_zero_of_not_pos hnone
    rw [husage, hms]
    apply Fin.ext
    have hlt := (decay l.usage (l.stepsAt config now)).isLt
    simp only [Word.val_saturatingAdd, Word.val_saturatingMul, Word.val_ofNat]
    omega

private theorem touch_of_idle (hsteps : l.stepsAt config now = 0) (hms : l.heldMs now = 0) :
    l.touch now config = l := by
  have hdecay : l.decayTo now config = l := if_neg (Nat.not_lt_of_le (Nat.le_of_eq hsteps))
  unfold touch
  rw [hdecay]
  exact if_neg (Nat.not_lt_of_le (Nat.le_of_eq hms))

end Touch

section Sequence

variable (config : FairShareConfig)

private theorem val_decayedTo_touchAll (l : Ledger) (times : List VirtualTime) :
    (touchAll config l times).decayedTo.val
      = (times.map (·.val)).foldl (Carry.advance config.quantumNanos) l.decayedTo.val := by
  induction times generalizing l with
  | nil => rfl
  | cons now rest ih =>
    have hnow := val_decayedTo_touch l config now
    rw [List.map_cons, List.foldl_cons, ← hnow]
    exact ih (l.touch now config)

private theorem val_accruedTo_touchAll (l : Ledger) (times : List VirtualTime) :
    (touchAll config l times).accruedTo.val
      = (times.map (·.val)).foldl (Carry.advance nanosPerMilli) l.accruedTo.val := by
  induction times generalizing l with
  | nil => rfl
  | cons now rest ih =>
    have hnow := val_accruedTo_touch l config now
    rw [List.map_cons, List.foldl_cons, ← hnow]
    exact ih (l.touch now config)

private theorem stepsOver_eq (l : Ledger) (times : List VirtualTime) : stepsOver config l times
    = Carry.counted config.quantumNanos l.decayedTo.val (times.map (·.val)) := by
  induction times generalizing l with
  | nil => rfl
  | cons now rest ih =>
    rw [stepsOver, ih, val_decayedTo_touch, stepsAt_eq]
    rfl

private theorem msOver_eq (l : Ledger) (times : List VirtualTime) : msOver config l times
    = Carry.counted nanosPerMilli l.accruedTo.val (times.map (·.val)) := by
  induction times generalizing l with
  | nil => rfl
  | cons now rest ih =>
    rw [msOver, ih, val_accruedTo_touch, heldMs_eq]
    rfl

/-- While no decay step falls in and nothing saturates, every charged millisecond adds the
running cpu once. -/
private theorem usage_touchAll (l : Ledger) (times : List VirtualTime)
    (hsteps : stepsOver config l times = 0)
    (hroom : l.usage.val + l.runningCpu.val * msOver config l times < 2 ^ 64) :
    (touchAll config l times).usage.val
      = l.usage.val + l.runningCpu.val * msOver config l times := by
  induction times generalizing l with
  | nil => simp [touchAll, msOver]
  | cons now rest ih =>
    have hnone : l.stepsAt config now = 0 := by
      have : l.stepsAt config now ≤ stepsOver config l (now :: rest) := Nat.le_add_right _ _
      omega
    have hrest : stepsOver config (l.touch now config) rest = 0 := by
      have : stepsOver config (l.touch now config) rest ≤ stepsOver config l (now :: rest) :=
        Nat.le_add_left _ _
      omega
    have hms : msOver config l (now :: rest)
        = l.heldMs now + msOver config (l.touch now config) rest := rfl
    rw [hms, Nat.mul_add] at hroom ⊢
    have hheld : l.heldMs now < 2 ^ 64 := by
      have hle : l.heldMs now ≤ (Word.saturatingSub now l.accruedTo).val := Nat.div_le_self _ _
      exact hle.trans_lt (Word.saturatingSub now l.accruedTo).isLt
    have hone : (l.touch now config).usage.val = l.usage.val + l.runningCpu.val * l.heldMs now := by
      rw [usage_touch, hnone, decay_zero, Word.val_saturatingAdd, Word.val_saturatingMul,
        Word.val_ofNat_of_lt hheld]
      omega
    have hnext := ih (l.touch now config) hrest (by rw [hone, runningCpu_touch]; omega)
    rw [hone, runningCpu_touch] at hnext
    change (touchAll config (l.touch now config) rest).usage.val = _
    omega

end Sequence

private theorem foldr_max_eq {times : List VirtualTime} {last : VirtualTime} (hmem : last ∈ times)
    (hmax : ∀ now ∈ times, now ≤ last) : (times.map (·.val)).foldr max 0 = last.val := by
  apply le_antisymm
  · have hle : ∀ ns : List Nat, (∀ n ∈ ns, n ≤ last.val) → ns.foldr max 0 ≤ last.val := by
      intro ns hns
      induction ns with
      | nil => exact Nat.zero_le _
      | cons n ns ih =>
        exact max_le (hns n List.mem_cons_self)
          (ih fun m hm => hns m (List.mem_cons_of_mem n hm))
    apply hle
    intro n hn
    obtain ⟨now, hnow, rfl⟩ := List.mem_map.mp hn
    exact hmax now hnow
  · have hge : ∀ ns : List Nat, ∀ n ∈ ns, n ≤ ns.foldr max 0 := by
      intro ns n hn
      induction ns with
      | nil => cases hn
      | cons m ns ih =>
        rcases List.mem_cons.mp hn with rfl | hn
        · exact le_max_left _ _
        · exact (ih hn).trans (le_max_right _ _)
    exact hge _ _ (List.mem_map_of_mem hmem)

/-- Touching a ledger at any times charges it like one touch at the latest of them. -/
theorem touches_charge_like_one (l : Ledger) (config : FairShareConfig) (times : List VirtualTime)
    (last : VirtualTime) (hmem : last ∈ times) (hmax : ∀ now ∈ times, now ≤ last) :
    (touchAll config l times).accruedTo = (l.touch last config).accruedTo ∧
      (touchAll config l times).decayedTo = (l.touch last config).decayedTo ∧
      msOver config l times = msOver config l [last] ∧
      stepsOver config l times = stepsOver config l [last] ∧
      (∀ past ≤ last, (touchAll config l times).touch past config = touchAll config l times) ∧
      (stepsOver config l [last] = 0 →
        l.usage.val + l.runningCpu.val * ((last.val - l.accruedTo.val) / 1000000) < 2 ^ 64 →
        (touchAll config l times).usage.val
          = l.usage.val + l.runningCpu.val * ((last.val - l.accruedTo.val) / 1000000)) := by
  have hquantum := config.quantumNanos_pos
  have hmilli : 0 < nanosPerMilli := by decide
  have hlatest := foldr_max_eq hmem hmax
  have haccrued : (touchAll config l times).accruedTo.val
      = Carry.advance nanosPerMilli l.accruedTo.val last.val := by
    rw [val_accruedTo_touchAll, Carry.foldl_advance hmilli, hlatest]
  have hdecayed : (touchAll config l times).decayedTo.val
      = Carry.advance config.quantumNanos l.decayedTo.val last.val := by
    rw [val_decayedTo_touchAll, Carry.foldl_advance hquantum, hlatest]
  have hms : msOver config l times = (last.val - l.accruedTo.val) / 1000000 := by
    rw [msOver_eq, Carry.counted_eq hmilli, hlatest]
    rfl
  have hsteps : stepsOver config l times = stepsOver config l [last] := by
    rw [stepsOver_eq, Carry.counted_eq hquantum, hlatest]
    rfl
  refine ⟨?_, ?_, ?_, hsteps, ?_, ?_⟩
  · apply Fin.ext
    rw [haccrued, val_accruedTo_touch]
  · apply Fin.ext
    rw [hdecayed, val_decayedTo_touch]
  · rw [hms]
    rfl
  · intro past hpast
    apply touch_of_idle
    · rw [stepsAt_eq, hdecayed]
      exact Carry.units_advance_of_le hquantum _ hpast
    · rw [heldMs_eq, haccrued]
      exact Carry.units_advance_of_le hmilli _ hpast
  · intro hnone hroom
    rw [← hms] at hroom ⊢
    exact usage_touchAll config l times (hsteps.trans hnone) hroom

/-- Two cpu held for 3.9 ms, touched three times and once out of order, cost 2 × 3. -/
theorem touches_charge_like_one_sample :
    (touchAll ⟨3600000000000⟩ { Ledger.default with runningCpu := 2 }
      [1500000, 3900000, 700000]).usage.val = 0 + 2 * (3900000 / 1000000) :=
  (touches_charge_like_one { Ledger.default with runningCpu := 2 } ⟨3600000000000⟩
    [1500000, 3900000, 700000] 3900000 (by decide +kernel) (by simp)).2.2.2.2.2
    (by decide +kernel) (by decide +kernel)

end Ledger

end TaskerRT.Policy
