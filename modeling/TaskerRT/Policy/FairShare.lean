/- module: TaskerRT/Policy/FairShare
   source: crates/tasker-core/src/policy/fairshare.rs
   digest: Decayed account usage and the priority factor it earns, in integers only. -/

import TaskerRT.Policy.Priority

set_option autoImplicit false

namespace TaskerRT.Policy

open Library Domain

def maxAccounts : Nat := 1024

/-- Decay resolution: one halving is this many table steps. -/
def decaySteps : Nat := 1024

def decayOne : Nat := 2 ^ 48

/-- Q48 product: exact in 128 bits, shifted, then cut to 64 bits. -/
def mulQ48 (a b : Nat) : Nat := a * b / 2 ^ 48 % 2 ^ 64

/-- The squaring loop of `powQ48`, one round per bit of the exponent. -/
def powLoop : Nat → Nat → Nat → Nat → Nat
  | 0, _, _, acc => acc
  | fuel + 1, base, exp, acc =>
    if exp = 0 then acc
    else powLoop fuel (mulQ48 base base) (exp / 2)
      (if exp % 2 = 1 then mulQ48 acc base else acc)

/-- `base ^ exp` in Q48 by squaring. A 64-bit exponent takes at most 64 rounds. -/
def powQ48 (base exp : Nat) : Nat := powLoop 64 base exp decayOne

def rootLoop : Nat → Nat → Nat → Nat
  | 0, lo, _ => lo
  | fuel + 1, lo, hi =>
    if lo + 1 < hi then
      let mid := lo + (hi - lo) / 2
      if powQ48 mid decaySteps ≤ decayOne / 2 then rootLoop fuel mid hi
      else rootLoop fuel lo mid
    else lo

/-- The largest Q48 number whose `decaySteps`-th power is at most one half. The interval
starts below `2 ^ 48` wide, so 48 halvings close it. -/
def decayRoot : Nat := rootLoop 48 (decayOne / 2) decayOne

/-- Entry `k` of the decay table: `2 ^ (-k / decaySteps)` in Q48. -/
def decayTable (k : Nat) : Nat := powQ48 decayRoot k

def decayFactor (steps : Nat) : Nat :=
  let halvings := steps / decaySteps
  if halvings ≥ 48 then 0 else decayTable (steps % decaySteps) / 2 ^ halvings

def decay (usage : Word 64) (steps : Nat) : Word 64 :=
  let halvings := steps / decaySteps
  if halvings ≥ 64 then 0
  else Word.ofNat 64 (mulQ48 (usage.val / 2 ^ halvings) (decayTable (steps % decaySteps)))

structure FairShareConfig where
  halfLife : VirtualDuration
  deriving DecidableEq, Repr

def FairShareConfig.quantumNanos (config : FairShareConfig) : Nat :=
  let q := config.halfLife.val / decaySteps
  if q = 0 then 1 else q

structure AccountError where
  account : AccountId
  deriving DecidableEq, Repr

structure Ledger where
  usage : Word 64
  runningCpu : Word 64
  shares : Word 32
  accruedTo : VirtualTime
  decayedTo : VirtualTime
  deriving DecidableEq, Repr

namespace Ledger

def default : Ledger := ⟨0, 0, 1, 0, 0⟩

def decayTo (l : Ledger) (now : VirtualTime) (config : FairShareConfig) : Ledger :=
  let quantum := config.quantumNanos
  let steps := (Word.saturatingSub now l.decayedTo).val / quantum
  if 0 < steps then
    { l with
      usage := decay l.usage steps
      decayedTo := Word.saturatingAdd l.decayedTo (Word.clamp 64 (steps * quantum)) }
  else l

/-- The charging half of `touch`: whole milliseconds only. -/
def accrueTo (l : Ledger) (now : VirtualTime) : Ledger :=
  let heldMs := (Word.saturatingSub now l.accruedTo).val / 1000000
  if 0 < heldMs then
    { l with
      usage := Word.saturatingAdd l.usage (Word.saturatingMul l.runningCpu (Word.ofNat 64 heldMs))
      accruedTo := Word.saturatingAdd l.accruedTo (Word.ofNat 64 (heldMs * 1000000)) }
  else l

/-- Brings the ledger to `now`: decay first, then charge what ran since. -/
def touch (l : Ledger) (now : VirtualTime) (config : FairShareConfig) : Ledger :=
  (l.decayTo now config).accrueTo now

@[simp] theorem runningCpu_touch (l : Ledger) (now : VirtualTime) (config : FairShareConfig) :
    (l.touch now config).runningCpu = l.runningCpu := by
  unfold touch accrueTo decayTo
  dsimp only
  split <;> split <;> rfl

@[simp] theorem shares_touch (l : Ledger) (now : VirtualTime) (config : FairShareConfig) :
    (l.touch now config).shares = l.shares := by
  unfold touch accrueTo decayTo
  dsimp only
  split <;> split <;> rfl

end Ledger

/-- `factorScale × 2 ^ (-(usage / usageTotal) / (shares / sharesTotal))`. The 128-bit
products of the code stay below `2 ^ 117`, so plain numbers stand for them. -/
def factorFor (usage : Word 64) (shares : Word 32) (usageTotal : Nat) (sharesTotal : Word 64) :
    Word 64 :=
  if usageTotal = 0 then factorScale
  else if shares = 0 then 0
  else
    let num := usage.val * sharesTotal.val * decaySteps
    let den := usageTotal * shares.val
    let x := min (num / den) (2 ^ 64 - 1)
    Word.ofNat 64 (mulQ48 factorScale.val (decayFactor x))

/-- Every account's ledger and the factor it earned at the last refresh. -/
structure FairShare where
  ledgers : List Ledger
  factors : List (Word 64)
  sharesTotal : Word 64
  deriving DecidableEq, Repr

namespace FairShare

def new : FairShare := ⟨[], [], 0⟩

/-- Creates ledgers up to and including `account`. The only growth path. -/
def ensure (f : FairShare) (account : AccountId) : Except AccountError FairShare :=
  if account.val ≥ maxAccounts then .error ⟨account⟩
  else
    let index := account.val
    if index ≥ f.ledgers.length then
      let added := index + 1 - f.ledgers.length
      .ok ⟨Table.reserve Ledger.default (index + 1) f.ledgers,
        Table.reserve factorScale (index + 1) f.factors, f.sharesTotal + Word.ofNat 64 added⟩
    else .ok f

def setShares (f : FairShare) (account : AccountId) (shares : Word 32) :
    Except AccountError FairShare :=
  match f.ensure account with
  | .error e => .error e
  | .ok f =>
    match f.ledgers[account.val]? with
    | none => .ok f
    | some ledger => .ok { f with
        sharesTotal := f.sharesTotal - widen ledger.shares + widen shares
        ledgers := f.ledgers.set account.val { ledger with shares := shares } }

def restore (_f : FairShare) (ledgers : List Ledger) : Except AccountError FairShare :=
  if ledgers.length > maxAccounts then .error ⟨Word.ofNat 32 maxAccounts⟩
  else .ok ⟨ledgers, List.replicate ledgers.length factorScale,
    (ledgers.map fun l => widen l.shares).sum⟩

def updateLedger (f : FairShare) (account : AccountId) (g : Ledger → Ledger) : FairShare :=
  match f.ledgers[account.val]? with
  | none => f
  | some ledger => { f with ledgers := f.ledgers.set account.val (g ledger) }

/-- A job of `account` started holding `cpuMillis` at `now`. -/
def onDispatch (f : FairShare) (account : AccountId) (cpuMillis : Word 32) (now : VirtualTime)
    (config : FairShareConfig) : FairShare :=
  f.updateLedger account fun l =>
    let l := l.touch now config
    { l with runningCpu := Word.saturatingAdd l.runningCpu (widen cpuMillis) }

/-- A job of `account` stopped holding `cpuMillis` at `now`. -/
def onRelease (f : FairShare) (account : AccountId) (cpuMillis : Word 32) (now : VirtualTime)
    (config : FairShareConfig) : FairShare :=
  f.updateLedger account fun l =>
    let l := l.touch now config
    { l with runningCpu := Word.saturatingSub l.runningCpu (widen cpuMillis) }

def refresh (f : FairShare) (now : VirtualTime) (config : FairShareConfig) : FairShare :=
  let ledgers := f.ledgers.map fun l => l.touch now config
  let total := (ledgers.map fun l => l.usage.val).sum
  let factors := (ledgers.zip f.factors).map fun p =>
    factorFor p.1.usage p.1.shares total f.sharesTotal
  ⟨ledgers, factors, f.sharesTotal⟩

/-- The account's factor; the largest one for an unseen account. -/
def factor (f : FairShare) (account : AccountId) : Word 64 :=
  f.factors[account.val]?.getD factorScale

@[simp] theorem length_updateLedger (f : FairShare) (account : AccountId) (g : Ledger → Ledger) :
    (f.updateLedger account g).ledgers.length = f.ledgers.length := by
  unfold updateLedger
  split
  · rfl
  · simp

@[simp] theorem length_onDispatch (f : FairShare) (account : AccountId) (cpuMillis : Word 32)
    (now : VirtualTime) (config : FairShareConfig) :
    (f.onDispatch account cpuMillis now config).ledgers.length = f.ledgers.length :=
  length_updateLedger _ _ _

@[simp] theorem length_onRelease (f : FairShare) (account : AccountId) (cpuMillis : Word 32)
    (now : VirtualTime) (config : FairShareConfig) :
    (f.onRelease account cpuMillis now config).ledgers.length = f.ledgers.length :=
  length_updateLedger _ _ _

@[simp] theorem length_refresh (f : FairShare) (now : VirtualTime) (config : FairShareConfig) :
    (f.refresh now config).ledgers.length = f.ledgers.length := by
  simp [refresh]

theorem ensure_eq_error {f : FairShare} {account : AccountId} {e : AccountError} :
    f.ensure account = .error e ↔ maxAccounts ≤ account.val ∧ e = ⟨account⟩ := by
  unfold ensure
  split
  · rename_i h
    simp only [Except.error.injEq, ge_iff_le] at h ⊢
    simp [h, eq_comm]
  · rename_i h
    simp only [ge_iff_le, not_le] at h ⊢
    split <;> simp only [reduceCtorEq, false_iff, not_and] <;> omega

theorem ensure_isOk {f : FairShare} {account : AccountId} (h : account.val < maxAccounts) :
    ∃ f', f.ensure account = .ok f' := by
  cases he : f.ensure account with
  | ok f' => exact ⟨f', rfl⟩
  | error e =>
    have := (ensure_eq_error.mp he).1
    omega

theorem account_lt_of_ensure {f f' : FairShare} {account : AccountId}
    (h : f.ensure account = .ok f') : account.val < maxAccounts := by
  unfold ensure at h
  split at h
  · exact nomatch h
  · omega

theorem length_ensure_le {f f' : FairShare} {account : AccountId}
    (h : f.ensure account = .ok f') (hle : f.ledgers.length ≤ maxAccounts) :
    f'.ledgers.length ≤ maxAccounts := by
  unfold ensure at h
  split at h
  · cases h
  · rename_i hacc
    simp only at h
    split at h
    · cases h
      simp only [Table.length_reserve]
      omega
    · cases h
      exact hle

/-- What an account is being charged for right now; an unseen account for nothing. -/
def runningCpu (f : FairShare) (i : Nat) : Nat := (f.ledgers[i]?).elim 0 (·.runningCpu.val)

def shares (f : FairShare) : List (Word 32) := f.ledgers.map (·.shares)

private theorem runningCpu_updateLedger {f : FairShare} {account : AccountId} (g : Ledger → Ledger)
    (h : account.val < f.ledgers.length) (i : Nat) :
    (f.updateLedger account g).runningCpu i =
      if i = account.val then (g (f.ledgers.get ⟨account.val, h⟩)).runningCpu.val
      else f.runningCpu i := by
  unfold updateLedger runningCpu
  rw [List.getElem?_eq_getElem h]
  dsimp only
  by_cases hi : i = account.val
  · subst hi
    rw [List.getElem?_set_self h, if_pos rfl]
    rfl
  · rw [List.getElem?_set_ne (Ne.symm hi), if_neg hi]

private theorem runningCpu_of_lt {f : FairShare} {i : Nat} (h : i < f.ledgers.length) :
    f.runningCpu i = (f.ledgers.get ⟨i, h⟩).runningCpu.val := by
  unfold runningCpu
  rw [List.getElem?_eq_getElem h]
  rfl

theorem runningCpu_onDispatch {f : FairShare} {account : AccountId} (cpuMillis : Word 32)
    (now : VirtualTime) (config : FairShareConfig) (h : account.val < f.ledgers.length)
    (i : Nat) : (f.onDispatch account cpuMillis now config).runningCpu i =
      if i = account.val then min (f.runningCpu i + cpuMillis.val) (2 ^ 64 - 1)
      else f.runningCpu i := by
  have hcpu := cpuMillis.isLt
  unfold onDispatch
  rw [runningCpu_updateLedger _ h]
  by_cases hi : i = account.val
  · subst hi
    simp only [if_true, runningCpu_of_lt h, Word.val_saturatingAdd, Ledger.runningCpu_touch, widen,
      Word.ofNat]
    rw [Nat.mod_eq_of_lt (by omega)]
  · rw [if_neg hi, if_neg hi]

theorem runningCpu_onRelease {f : FairShare} {account : AccountId} (cpuMillis : Word 32)
    (now : VirtualTime) (config : FairShareConfig) (h : account.val < f.ledgers.length)
    (i : Nat) : (f.onRelease account cpuMillis now config).runningCpu i =
      if i = account.val then f.runningCpu i - cpuMillis.val else f.runningCpu i := by
  have hcpu := cpuMillis.isLt
  unfold onRelease
  rw [runningCpu_updateLedger _ h]
  by_cases hi : i = account.val
  · subst hi
    simp only [if_true, runningCpu_of_lt h, Word.val_saturatingSub, Ledger.runningCpu_touch, widen,
      Word.ofNat]
    rw [Nat.mod_eq_of_lt (by omega)]
  · rw [if_neg hi, if_neg hi]

@[simp] theorem runningCpu_refresh (f : FairShare) (now : VirtualTime) (config : FairShareConfig)
    (i : Nat) : (f.refresh now config).runningCpu i = f.runningCpu i := by
  unfold runningCpu refresh
  dsimp only
  rw [List.getElem?_map]
  cases f.ledgers[i]? <;> simp

theorem runningCpu_ensure {f f' : FairShare} {account : AccountId}
    (h : f.ensure account = .ok f') (i : Nat) : f'.runningCpu i = f.runningCpu i := by
  unfold ensure at h
  split at h
  · cases h
  · simp only at h
    split at h
    · cases h
      unfold runningCpu Table.reserve
      dsimp only
      by_cases hi : i < f.ledgers.length
      · rw [List.getElem?_append_left hi]
      · have hnone : f.ledgers[i]? = none := List.getElem?_eq_none (by omega)
        rw [List.getElem?_append_right (by omega), hnone, List.getElem?_replicate]
        split <;> rfl
    · cases h
      rfl

theorem lt_length_ensure {f f' : FairShare} {account : AccountId}
    (h : f.ensure account = .ok f') :
    account.val < f'.ledgers.length ∧ f.ledgers.length ≤ f'.ledgers.length := by
  unfold ensure at h
  split at h
  · cases h
  · simp only at h
    split at h
    · cases h
      simp only [Table.length_reserve]
      omega
    · cases h
      omega

theorem setShares_spec {f f' : FairShare} {account : AccountId} {shares : Word 32}
    (h : f.setShares account shares = .ok f') : (∀ i, f'.runningCpu i = f.runningCpu i) ∧
      (f.ledgers.length ≤ maxAccounts → f'.ledgers.length ≤ maxAccounts) := by
  unfold setShares at h
  split at h
  · exact nomatch h
  · rename_i f₁ hensure
    have hcpu := runningCpu_ensure hensure
    have hlen := @length_ensure_le _ _ _ hensure
    split at h
    · obtain rfl := Except.ok.inj h
      exact ⟨hcpu, hlen⟩
    · rename_i ledger hl
      obtain rfl := Except.ok.inj h
      refine ⟨fun i => ?_, fun hle => by simpa using hlen hle⟩
      rw [← hcpu i]
      unfold runningCpu
      dsimp only
      rw [List.getElem?_set]
      split
      · rename_i hi
        rw [← hi, hl]
        simp [(List.getElem?_eq_some_iff.mp hl).1]
      · rfl

private theorem shares_updateLedger (f : FairShare) (account : AccountId) {g : Ledger → Ledger}
    (hg : ∀ l, (g l).shares = l.shares) : (f.updateLedger account g).shares = f.shares := by
  unfold updateLedger shares
  cases hl : f.ledgers[account.val]? with
  | none => rfl
  | some ledger =>
    dsimp only
    rw [List.map_set, hg]
    apply List.ext_getElem?
    intro i
    rw [List.getElem?_set]
    split
    · rename_i hi
      subst hi
      rw [List.getElem?_map, hl]
      simp [(List.getElem?_eq_some_iff.mp hl).1]
    · rfl

@[simp] theorem shares_onDispatch (f : FairShare) (account : AccountId) (cpuMillis : Word 32)
    (now : VirtualTime) (config : FairShareConfig) :
    (f.onDispatch account cpuMillis now config).shares = f.shares :=
  shares_updateLedger f account fun l => Ledger.shares_touch l now config

@[simp] theorem shares_refresh (f : FairShare) (now : VirtualTime) (config : FairShareConfig) :
    (f.refresh now config).shares = f.shares := by
  simp [shares, refresh, Function.comp_def]

end FairShare

end TaskerRT.Policy
