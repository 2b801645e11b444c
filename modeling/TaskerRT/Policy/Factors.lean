/- module: TaskerRT/Policy/Factors
   source: crates/tasker-core/src/policy/fairshare.rs
   digest: Fair-share factors order accounts by usage per share, in every reachable state. -/

import TaskerRT.Policy.Charged

set_option autoImplicit false

namespace TaskerRT.Policy

open Library Domain

/-- A product in `u128`, or nothing when it does not fit. -/
def checkedProduct (a b : Nat) : Option Nat := if a * b < 2 ^ 128 then some (a * b) else none

/-- `factorFor` with every product, division and cast checked. -/
def checkedFactorFor (usage : Word 64) (shares : Word 32) (usageTotal : Nat)
    (sharesTotal : Word 64) : Option Nat :=
  if usageTotal = 0 then some factorScale.val
  else if shares = 0 then some 0
  else do
    let scaled ← checkedProduct usage.val sharesTotal.val
    let num ← checkedProduct scaled decaySteps
    let den ← checkedProduct usageTotal shares.val
    if den = 0 then none
    else checkedMulQ48 factorScale.val (decayFactor (min (num / den) (2 ^ 64 - 1)))

/-- The exponent `factorFor` looks up: usage per share relative to the average, in steps. -/
def exponent (usage shares usageTotal sharesTotal : Nat) : Nat :=
  usage * sharesTotal * decaySteps / (usageTotal * shares)

def earned (x : Nat) : Nat := factorScale.val * decayFactor (min x (2 ^ 64 - 1)) / 2 ^ 48

private theorem earned_antitone : Antitone earned := by
  intro x y h
  apply Nat.div_le_div_right
  apply Nat.mul_le_mul_left
  exact decayFactor_antitone (min_le_min_right _ h)

private theorem earned_le (x : Nat) : earned x ≤ factorScale.val := shifted_le _ (decayFactor_le _)

private theorem earned_zero : earned 0 = factorScale.val := by
  unfold earned
  rw [Nat.zero_min, decayFactor_zero]
  exact Nat.mul_div_cancel _ (by decide)

section Exponent

private theorem div_le_div_of_cross {a b c d : Nat} (hb : 0 < b) (hd : 0 < d)
    (h : a * d ≤ c * b) : a / b ≤ c / d := by
  rw [Nat.le_div_iff_mul_le hd]
  apply Nat.le_of_mul_le_mul_right _ hb
  calc a / b * d * b = a / b * b * d := Nat.mul_right_comm _ _ _
    _ ≤ a * d := Nat.mul_le_mul_right d (Nat.div_mul_le_self a b)
    _ ≤ c * b := h

variable {u u' s s' T T' : Nat} (S : Nat)

private theorem exponent_le_of_cross (hT : 0 < T) (hs : 0 < s) (hs' : 0 < s')
    (h : u * s' ≤ u' * s) :
    exponent u s T S ≤ exponent u' s' T S := by
  apply div_le_div_of_cross (Nat.mul_pos hT hs) (Nat.mul_pos hT hs')
  calc u * S * decaySteps * (T * s') = u * s' * (S * decaySteps * T) := by ring
    _ ≤ u' * s * (S * decaySteps * T) := Nat.mul_le_mul_right _ h
    _ = u' * S * decaySteps * (T * s) := by ring

/-- Raising a usage raises its part of the total, since the total contains it. -/
private theorem exponent_le_of_raised (hT : 0 < T) (hs : 0 < s) (hu : u ≤ u') (hle : u ≤ T)
    (htotal : T' + u = T + u') : exponent u s T S ≤ exponent u' s T' S := by
  obtain ⟨more, rfl⟩ := Nat.exists_eq_add_of_le hu
  obtain rfl : T' = T + more := by omega
  have hpart : u * (T + more) ≤ (u + more) * T := by
    have := Nat.mul_le_mul_left more hle
    rw [Nat.mul_add, Nat.add_mul, Nat.mul_comm u more]
    omega
  apply div_le_div_of_cross (Nat.mul_pos hT hs) (Nat.mul_pos (by omega) hs)
  calc u * S * decaySteps * ((T + more) * s) = u * (T + more) * (S * decaySteps * s) := by ring
    _ ≤ (u + more) * T * (S * decaySteps * s) := Nat.mul_le_mul_right _ hpart
    _ = (u + more) * S * decaySteps * (T * s) := by ring

private theorem exponent_le_of_total (hT : 0 < T) (hs : 0 < s) (h : T ≤ T') :
    exponent u s T' S ≤ exponent u s T S :=
  Nat.div_le_div_left (Nat.mul_le_mul_right s h) (Nat.mul_pos hT hs)

end Exponent

section FactorFor

variable {usage raised : Word 64} {shares : Word 32} {total total' : Nat} (sharesTotal : Word 64)

private theorem val_factorFor_of_pos (htotal : 0 < total) (hshares : 0 < shares) :
    (factorFor usage shares total sharesTotal).val
      = earned (exponent usage.val shares.val total sharesTotal.val) := by
  have hscale : factorScale.val < 2 ^ 64 := factorScale.isLt
  have hle := mulQ48_le hscale
    (decayFactor_le (min (exponent usage.val shares.val total sharesTotal.val) (2 ^ 64 - 1)))
  unfold factorFor
  rw [if_neg (by omega), if_neg (Fin.pos_iff_ne_zero.mp hshares)]
  dsimp only
  change (Word.ofNat 64 (mulQ48 factorScale.val
    (decayFactor (min (exponent usage.val shares.val total sharesTotal.val) (2 ^ 64 - 1))))).val = _
  rw [Word.val_ofNat_of_lt (hle.trans_lt hscale), mulQ48_eq hscale (decayFactor_le _)]
  rfl

private theorem factorFor_zero_total :
    factorFor usage shares 0 sharesTotal = factorScale := if_pos rfl

private theorem factorFor_zero_shares (htotal : 0 < total) :
    factorFor usage 0 total sharesTotal = 0 := by
  unfold factorFor
  rw [if_neg (by omega), if_pos rfl]

private theorem factorFor_le : factorFor usage shares total sharesTotal ≤ factorScale := by
  rcases Nat.eq_zero_or_pos total with rfl | htotal
  · exact (factorFor_zero_total sharesTotal).le
  rcases (Fin.zero_le shares).eq_or_lt with rfl | hshares
  · rw [factorFor_zero_shares sharesTotal htotal]
    exact Fin.zero_le _
  · rw [Fin.le_def, val_factorFor_of_pos sharesTotal htotal hshares]
    exact earned_le _

private theorem factorFor_le_of_cross {shares' : Word 32} (hshares : 0 < shares)
    (hshares' : 0 < shares')
    (h : usage.val * shares'.val ≤ raised.val * shares.val) :
    factorFor raised shares' total sharesTotal ≤ factorFor usage shares total sharesTotal := by
  rcases Nat.eq_zero_or_pos total with rfl | htotal
  · rw [factorFor_zero_total, factorFor_zero_total]
  · rw [Fin.le_def, val_factorFor_of_pos sharesTotal htotal hshares,
      val_factorFor_of_pos sharesTotal htotal hshares']
    exact earned_antitone (exponent_le_of_cross _ htotal hshares hshares' h)

private theorem factorFor_le_of_raised (hraised : usage ≤ raised) (hle : usage.val ≤ total)
    (htotal : total' + usage.val = total + raised.val) :
    factorFor raised shares total' sharesTotal ≤ factorFor usage shares total sharesTotal := by
  have hval : usage.val ≤ raised.val := hraised
  rcases Nat.eq_zero_or_pos total with rfl | hpos
  · rw [factorFor_zero_total]
    exact factorFor_le sharesTotal
  have hpos' : 0 < total' := by omega
  rcases (Fin.zero_le shares).eq_or_lt with rfl | hshares
  · rw [factorFor_zero_shares sharesTotal hpos, factorFor_zero_shares sharesTotal hpos']
  · rw [Fin.le_def, val_factorFor_of_pos sharesTotal hpos hshares,
      val_factorFor_of_pos sharesTotal hpos' hshares]
    exact earned_antitone (exponent_le_of_raised _ hpos hshares hval hle htotal)

private theorem factorFor_le_of_total (hshares : 0 < shares) (hle : usage.val ≤ total)
    (htotal : total ≤ total') :
    factorFor usage shares total sharesTotal ≤ factorFor usage shares total' sharesTotal := by
  rcases Nat.eq_zero_or_pos total' with rfl | hpos'
  · rw [factorFor_zero_total]
    exact factorFor_le sharesTotal
  rw [Fin.le_def, val_factorFor_of_pos sharesTotal hpos' hshares]
  rcases Nat.eq_zero_or_pos total with rfl | hpos
  · have hnone : usage.val = 0 := by omega
    have hzero : exponent usage.val shares.val total' sharesTotal.val = 0 := by
      simp [exponent, hnone]
    rw [factorFor_zero_total, hzero, earned_zero]
  · rw [val_factorFor_of_pos sharesTotal hpos hshares]
    exact earned_antitone (exponent_le_of_total _ hpos hshares htotal)

private theorem checkedFactorFor_eq (hsum : sharesTotal.val ≤ maxAccounts * (2 ^ 32 - 1))
    (htotal : total ≤ maxAccounts * (2 ^ 64 - 1)) :
    checkedFactorFor usage shares total sharesTotal
      = some (factorFor usage shares total sharesTotal).val := by
  rcases Nat.eq_zero_or_pos total with rfl | hpos
  · rfl
  rcases (Fin.zero_le shares).eq_or_lt with rfl | hshares
  · rw [factorFor_zero_shares sharesTotal hpos]
    unfold checkedFactorFor
    rw [if_neg (by omega), if_pos rfl]
    rfl
  have hu : usage.val ≤ 2 ^ 64 - 1 := Word.val_le usage
  have hs : shares.val ≤ 2 ^ 32 - 1 := Word.val_le shares
  have hscaled : usage.val * sharesTotal.val ≤ (2 ^ 64 - 1) * (maxAccounts * (2 ^ 32 - 1)) :=
    Nat.mul_le_mul hu hsum
  have hnum : usage.val * sharesTotal.val * decaySteps
      ≤ (2 ^ 64 - 1) * (maxAccounts * (2 ^ 32 - 1)) * decaySteps :=
    Nat.mul_le_mul_right _ hscaled
  have hden : total * shares.val ≤ maxAccounts * (2 ^ 64 - 1) * (2 ^ 32 - 1) :=
    Nat.mul_le_mul htotal hs
  have hdenpos : total * shares.val ≠ 0 := (Nat.mul_pos hpos hshares).ne'
  have h₁ : checkedProduct usage.val sharesTotal.val = some (usage.val * sharesTotal.val) :=
    if_pos (hscaled.trans_lt (by decide))
  have h₂ : checkedProduct (usage.val * sharesTotal.val) decaySteps
      = some (usage.val * sharesTotal.val * decaySteps) := if_pos (hnum.trans_lt (by decide))
  have h₃ : checkedProduct total shares.val = some (total * shares.val) :=
    if_pos (hden.trans_lt (by decide))
  rw [val_factorFor_of_pos sharesTotal hpos hshares]
  unfold checkedFactorFor
  rw [if_neg (by omega), if_neg (Fin.pos_iff_ne_zero.mp hshares)]
  simp only [h₁, h₂, h₃, Option.bind_eq_bind, Option.bind_some, if_neg hdenpos]
  rw [checkedMulQ48_eq factorScale.isLt (decayFactor_le _),
    mulQ48_eq factorScale.isLt (decayFactor_le _)]
  rfl

end FactorFor

namespace FairShare

def ledger (f : FairShare) (account : AccountId) : Option Ledger := f.ledgers[account.val]?

def usageTotal (f : FairShare) : Nat := (f.ledgers.map (·.usage.val)).sum

def withUsage (f : FairShare) (account : AccountId) (usage : Word 64) : FairShare :=
  f.updateLedger account fun l => { l with usage := usage }

/-- The states the calls of the module reach, with any arguments. -/
inductive Reached : FairShare → Prop
  | new : Reached FairShare.new
  | ensure {f f' : FairShare} {account : AccountId} :
      Reached f → f.ensure account = .ok f' → Reached f'
  | setShares {f f' : FairShare} {account : AccountId} {shares : Word 32} :
      Reached f → f.setShares account shares = .ok f' → Reached f'
  | restore {f f' : FairShare} {ledgers : List Ledger} :
      Reached f → f.restore ledgers = .ok f' → Reached f'
  | onDispatch {f : FairShare} (account : AccountId) (cpuMillis : Word 32) (now : VirtualTime)
      (config : FairShareConfig) : Reached f → Reached (f.onDispatch account cpuMillis now config)
  | onRelease {f : FairShare} (account : AccountId) (cpuMillis : Word 32) (now : VirtualTime)
      (config : FairShareConfig) : Reached f → Reached (f.onRelease account cpuMillis now config)
  | refresh {f : FairShare} (now : VirtualTime) (config : FairShareConfig) :
      Reached f → Reached (f.refresh now config)

/-- What every call keeps: the bound on accounts, the parallel tables, the cached sum. -/
structure Consistent (f : FairShare) : Prop where
  few : f.ledgers.length ≤ maxAccounts
  parallel : f.factors.length = f.ledgers.length
  total : f.sharesTotal.val = (f.ledgers.map (·.shares.val)).sum

private theorem sum_ledgers_le {w : Nat} (g : Ledger → Word w) {ledgers : List Ledger}
    (h : ledgers.length ≤ maxAccounts) :
    (ledgers.map fun l => (g l).val).sum ≤ maxAccounts * (2 ^ w - 1) := by
  have hle := List.sum_le_card_nsmul (ledgers.map fun l => (g l).val) (2 ^ w - 1) (by
    intro n hn
    obtain ⟨l, _, rfl⟩ := List.mem_map.mp hn
    exact Word.val_le (g l))
  rw [smul_eq_mul, List.length_map] at hle
  exact hle.trans (Nat.mul_le_mul_right _ h)

private theorem sum_shares_le {ledgers : List Ledger} (h : ledgers.length ≤ maxAccounts) :
    (ledgers.map (·.shares.val)).sum ≤ maxAccounts * (2 ^ 32 - 1) :=
  sum_ledgers_le (·.shares) h

private theorem sum_shares_lt {ledgers : List Ledger} (h : ledgers.length ≤ maxAccounts) :
    (ledgers.map (·.shares.val)).sum < 2 ^ 64 :=
  (sum_shares_le h).trans_lt (by decide)

private theorem usageTotal_le {f : FairShare} (h : f.ledgers.length ≤ maxAccounts) :
    f.usageTotal ≤ maxAccounts * (2 ^ 64 - 1) :=
  sum_ledgers_le (·.usage) h

private theorem sum_shares_reserve (ledgers : List Ledger) (size : Nat) :
    ((Table.reserve Ledger.default size ledgers).map (·.shares.val)).sum
      = (ledgers.map (·.shares.val)).sum + (size - ledgers.length) := by
  unfold Table.reserve
  rw [List.map_append, List.sum_append, List.map_replicate, List.sum_replicate, smul_eq_mul]
  exact congrArg _ (Nat.mul_one _)

namespace Consistent

private theorem new : Consistent FairShare.new := ⟨Nat.zero_le _, rfl, rfl⟩

private theorem ensure {f f' : FairShare} {account : AccountId} (h : f.Consistent)
    (hensure : f.ensure account = .ok f') : f'.Consistent := by
  have hfew := length_ensure_le hensure h.few
  have hfits := sum_shares_lt hfew
  unfold FairShare.ensure at hensure
  split at hensure
  · cases hensure
  · dsimp only at hensure
    split at hensure
    · cases hensure
      have hsum := sum_shares_reserve f.ledgers (account.val + 1)
      rw [hsum, ← h.total] at hfits
      have hadded := Word.val_ofNat_of_lt (w := 64) (n := account.val + 1 - f.ledgers.length)
        (by omega)
      refine ⟨hfew, by simp only [Table.length_reserve, h.parallel], ?_⟩
      dsimp only
      rw [hsum, Word.val_add_of_lt (by rw [hadded]; exact hfits), hadded, h.total]
    · cases hensure
      exact h

private theorem setShares {f f' : FairShare} {account : AccountId} {shares : Word 32}
    (h : f.Consistent)
    (hset : f.setShares account shares = .ok f') : f'.Consistent := by
  unfold FairShare.setShares at hset
  split at hset
  · cases hset
  · rename_i f₁ hensure
    have h₁ := h.ensure hensure
    split at hset
    · cases hset
      exact h₁
    · rename_i old hold
      cases hset
      set ledgers := f₁.ledgers.set account.val { old with shares := shares } with hledgers
      have hfew : ledgers.length ≤ maxAccounts := by
        rw [hledgers, List.length_set]
        exact h₁.few
      have hfits := sum_shares_lt hfew
      -- the entry replaced leaves the sum and the new one joins it
      have hswap := Table.sum_map_set (fun l : Ledger => l.shares.val) hold
        { old with shares := shares }
      rw [← hledgers, ← h₁.total] at hswap
      dsimp only at hswap
      have hle : widen old.shares ≤ f₁.sharesTotal := by
        rw [Fin.le_def, val_widen _ (by decide), h₁.total]
        exact List.single_le_sum (fun _ _ => Nat.zero_le _) _
          (List.mem_map_of_mem (List.mem_of_getElem? hold))
      have hsub := Fin.sub_val_of_le hle
      rw [val_widen _ (by decide)] at hsub
      have hold_le : old.shares.val ≤ f₁.sharesTotal.val := by
        rw [Fin.le_def, val_widen _ (by decide)] at hle
        exact hle
      refine ⟨hfew, by rw [h₁.parallel, hledgers, List.length_set], ?_⟩
      dsimp only
      rw [Word.val_add_of_lt (by rw [hsub, val_widen _ (by decide)]; omega), hsub,
        val_widen _ (by decide)]
      omega

private theorem restore {f f' : FairShare} {ledgers : List Ledger}
    (hrestore : f.restore ledgers = .ok f') : f'.Consistent := by
  unfold FairShare.restore at hrestore
  split at hrestore
  · cases hrestore
  · rename_i hlen
    cases hrestore
    have hfew : ledgers.length ≤ maxAccounts := Nat.le_of_not_lt hlen
    have hmap : ((ledgers.map fun l => widen l.shares).map (·.val)) = ledgers.map (·.shares.val) := by
      rw [List.map_map]
      apply List.map_congr_left
      intro l _
      exact val_widen l.shares (by decide)
    refine ⟨hfew, List.length_replicate, ?_⟩
    dsimp only
    rw [Word.val_sum_of_lt _ (by rw [hmap]; exact sum_shares_lt hfew), hmap]

/-- Rewriting one ledger without its shares keeps everything the totals depend on. -/
private theorem updateLedger {f : FairShare} (h : f.Consistent) (account : AccountId)
    {g : Ledger → Ledger}
    (hg : ∀ l, (g l).shares = l.shares) : (f.updateLedger account g).Consistent := by
  unfold FairShare.updateLedger
  split
  · exact h
  · rename_i old hold
    have hswap := Table.sum_map_set (fun l : Ledger => l.shares.val) hold (g old)
    rw [hg] at hswap
    refine ⟨by simpa using h.few, by simpa using h.parallel, ?_⟩
    dsimp only
    rw [h.total]
    omega

private theorem refresh {f : FairShare} (h : f.Consistent) (now : VirtualTime)
    (config : FairShareConfig) :
    (f.refresh now config).Consistent := by
  refine ⟨by simpa using h.few, ?_, ?_⟩
  · simp [FairShare.refresh, h.parallel]
  · simp only [FairShare.refresh, List.map_map, Function.comp_def, Ledger.shares_touch]
    exact h.total

end Consistent

private theorem Reached.consistent {f : FairShare} (h : f.Reached) : f.Consistent := by
  induction h with
  | new => exact Consistent.new
  | ensure _ hensure ih => exact ih.ensure hensure
  | setShares _ hset ih => exact ih.setShares hset
  | restore _ hrestore _ => exact Consistent.restore hrestore
  | onDispatch account cpuMillis now config _ ih =>
    exact ih.updateLedger account fun l => Ledger.shares_touch l now config
  | onRelease account cpuMillis now config _ ih =>
    exact ih.updateLedger account fun l => Ledger.shares_touch l now config
  | refresh now config _ ih => exact ih.refresh now config

section Refresh

variable {f : FairShare} (now : VirtualTime) (config : FairShareConfig)

private theorem ledger_refresh (account : AccountId) : (f.refresh now config).ledger account
    = (f.ledger account).map fun l => l.touch now config :=
  List.getElem?_map

/-- A seen account's factor after a refresh is `factorFor` of its touched ledger. -/
private theorem factor_refresh (h : f.Consistent) {account : AccountId} {l : Ledger}
    (hl : (f.refresh now config).ledger account = some l) :
    (f.refresh now config).factor account
      = factorFor l.usage l.shares (f.refresh now config).usageTotal f.sharesTotal := by
  obtain ⟨hlt, hget⟩ := List.getElem?_eq_some_iff.mp hl
  have hlt' : account.val < f.factors.length := by
    rw [h.parallel]
    simpa using hlt
  have hzip : ((f.refresh now config).ledgers.zip f.factors)[account.val]?
      = some (l, f.factors[account.val]) := by
    rw [List.getElem?_zip_eq_some]
    exact ⟨hl, List.getElem?_eq_getElem hlt'⟩
  have hfactor : (f.refresh now config).factors[account.val]?
      = some (factorFor l.usage l.shares (f.refresh now config).usageTotal f.sharesTotal) := by
    change (((f.refresh now config).ledgers.zip f.factors).map fun p =>
      factorFor p.1.usage p.1.shares (f.refresh now config).usageTotal f.sharesTotal)[account.val]?
        = _
    rw [List.getElem?_map, hzip]
    rfl
  unfold factor
  rw [hfactor]
  rfl

private theorem factor_refresh_le (h : f.Consistent) (account : AccountId) :
    (f.refresh now config).factor account ≤ factorScale := by
  cases hl : (f.refresh now config).ledger account with
  | some l =>
    rw [factor_refresh now config h hl]
    exact factorFor_le _
  | none =>
    have hlen := List.getElem?_eq_none_iff.mp hl
    have hnone : (f.refresh now config).factors[account.val]? = none := by
      rw [List.getElem?_eq_none_iff, (h.refresh now config).parallel]
      exact hlen
    unfold factor
    rw [hnone]
    exact le_rfl

private theorem usage_le_usageTotal {account : AccountId} {l : Ledger}
    (hl : f.ledger account = some l) :
    l.usage.val ≤ f.usageTotal :=
  List.single_le_sum (fun _ _ => Nat.zero_le _) _ (List.mem_map_of_mem (List.mem_of_getElem? hl))

private theorem usage_touch_mono (l : Ledger) {usage : Word 64} (h : l.usage ≤ usage) :
    (l.touch now config).usage ≤ ({ l with usage := usage }.touch now config).usage := by
  have hdecay := decay_mono h (l.stepsAt config now)
  rw [Fin.le_def] at hdecay
  rw [Ledger.usage_touch, Ledger.usage_touch, Fin.le_def, Word.val_saturatingAdd,
    Word.val_saturatingAdd]
  apply min_le_min_right
  exact Nat.add_le_add_right hdecay _

end Refresh

section Raised

variable {f : FairShare} {account : AccountId} {l : Ledger} (now : VirtualTime)
  (config : FairShareConfig)

private theorem withUsage_eq (hl : f.ledger account = some l) (usage : Word 64) :
    f.withUsage account usage
      = { f with ledgers := f.ledgers.set account.val { l with usage := usage } } := by
  have hget : f.ledgers[account.val]? = some l := hl
  unfold withUsage updateLedger
  rw [hget]

private theorem ledgers_withUsage_refresh (hl : f.ledger account = some l) (usage : Word 64) :
    ((f.withUsage account usage).refresh now config).ledgers
      = (f.refresh now config).ledgers.set account.val
          ({ l with usage := usage }.touch now config) := by
  rw [withUsage_eq hl]
  exact List.map_set

/-- The raised account's factor does not rise, and no other account with shares loses. -/
private theorem factors_of_raised (h : f.Consistent) (hl : f.ledger account = some l)
    {usage : Word 64}
    (hraised : l.usage ≤ usage) :
    ((f.withUsage account usage).refresh now config).factor account
        ≤ (f.refresh now config).factor account ∧
      ∀ other m, other ≠ account → f.ledger other = some m → 0 < m.shares →
        (f.refresh now config).factor other
          ≤ ((f.withUsage account usage).refresh now config).factor other := by
  have h' : (f.withUsage account usage).Consistent := h.updateLedger account fun _ => rfl
  have hledgers := ledgers_withUsage_refresh now config hl usage
  have htotals : (f.withUsage account usage).sharesTotal = f.sharesTotal := by
    rw [withUsage_eq hl]
  have htouched : (f.refresh now config).ledger account = some (l.touch now config) := by
    rw [ledger_refresh, hl]
    rfl
  have htouched' : ((f.withUsage account usage).refresh now config).ledger account
      = some ({ l with usage := usage }.touch now config) := by
    unfold ledger
    rw [hledgers, List.getElem?_set_self (List.getElem?_eq_some_iff.mp htouched).1]
  have hmono := usage_touch_mono now config l hraised
  -- the two totals differ by what the one usage gained
  have hsum := Table.sum_map_set (fun l : Ledger => l.usage.val) htouched
    ({ l with usage := usage }.touch now config)
  rw [← hledgers] at hsum
  change ((f.withUsage account usage).refresh now config).usageTotal + _
    = (f.refresh now config).usageTotal + _ at hsum
  refine ⟨?_, fun other m hne hm hshares => ?_⟩
  · rw [factor_refresh now config h htouched, factor_refresh now config h' htouched', htotals,
      Ledger.shares_touch, Ledger.shares_touch]
    exact factorFor_le_of_raised _ hmono (usage_le_usageTotal htouched) hsum
  · have hother : (f.refresh now config).ledger other = some (m.touch now config) := by
      rw [ledger_refresh, hm]
      rfl
    have hother' : ((f.withUsage account usage).refresh now config).ledger other
        = some (m.touch now config) := by
      have hindex : account.val ≠ other.val := fun he => hne (Fin.ext he.symm)
      unfold ledger
      rw [hledgers, List.getElem?_set_ne hindex]
      exact hother
    have hgrown : (l.touch now config).usage.val
        ≤ ({ l with usage := usage }.touch now config).usage.val := hmono
    rw [factor_refresh now config h hother, factor_refresh now config h' hother', htotals,
      Ledger.shares_touch]
    exact factorFor_le_of_total _ hshares (usage_le_usageTotal hother) (by omega)

end Raised

/-- In every reachable state the cached total is the sum of the shares, and a refresh gives
bounded factors that follow usage per share, computed without overflow. -/
theorem factors_rank_accounts {f : FairShare} (h : f.Reached) (now : VirtualTime)
    (config : FairShareConfig) :
    f.sharesTotal.val = (f.ledgers.map (·.shares.val)).sum ∧
      (∀ account, (f.refresh now config).factor account ≤ factorScale) ∧
      (∀ a b la lb, (f.refresh now config).ledger a = some la →
        (f.refresh now config).ledger b = some lb → 0 < la.shares → 0 < lb.shares →
        la.usage.val * lb.shares.val ≤ lb.usage.val * la.shares.val →
        (f.refresh now config).factor b ≤ (f.refresh now config).factor a) ∧
      (∀ a la usage, f.ledger a = some la → la.usage ≤ usage →
        ((f.withUsage a usage).refresh now config).factor a
            ≤ (f.refresh now config).factor a ∧
          ∀ b lb, b ≠ a → f.ledger b = some lb → 0 < lb.shares →
            (f.refresh now config).factor b
              ≤ ((f.withUsage a usage).refresh now config).factor b) ∧
      ∀ l ∈ (f.refresh now config).ledgers,
        checkedFactorFor l.usage l.shares (f.refresh now config).usageTotal f.sharesTotal
          = some (factorFor l.usage l.shares (f.refresh now config).usageTotal
              f.sharesTotal).val := by
  have hc := h.consistent
  refine ⟨hc.total, factor_refresh_le now config hc, ?_, ?_, ?_⟩
  · intro a b la lb ha hb hsa hsb hcross
    rw [factor_refresh now config hc ha, factor_refresh now config hc hb]
    exact factorFor_le_of_cross _ hsa hsb hcross
  · intro a la usage ha hraised
    exact factors_of_raised now config hc ha hraised
  · intro l _
    apply checkedFactorFor_eq
    · rw [hc.total]
      exact sum_shares_le hc.few
    · exact usageTotal_le (hc.refresh now config).few

/-- Two accounts restored from a snapshot: one share with usage 20, two shares with usage 5. -/
def twoAccounts : FairShare := ⟨[⟨20, 0, 1, 0, 0⟩, ⟨5, 0, 2, 0, 0⟩], [factorScale, factorScale], 3⟩

theorem factors_rank_accounts_sample :
    (twoAccounts.refresh 0 ⟨1024⟩).factor 0 ≤ (twoAccounts.refresh 0 ⟨1024⟩).factor 1 := by
  have hreached : twoAccounts.Reached :=
    @Reached.restore _ _ twoAccounts.ledgers Reached.new rfl
  exact (factors_rank_accounts hreached 0 ⟨1024⟩).2.2.1 1 0 ⟨5, 0, 2, 0, 0⟩ ⟨20, 0, 1, 0, 0⟩
    (by decide +kernel) (by decide +kernel) (by decide) (by decide) (by decide)

end FairShare

end TaskerRT.Policy
