/- module: TaskerRT/Policy/Score
   source: crates/tasker-core/src/policy/priority.rs
   digest: When the fixed-point score is the weighted sum it stands for, and what follows. -/

import TaskerRT.Policy.Priority

set_option autoImplicit false

namespace TaskerRT.Policy

open Library Domain

/-- `factor` with every operation checked, as a build with overflow checks runs it. -/
def checkedFactor (value max : Word 64) : Option (Word 64) :=
  if max = 0 then some 0
  else
    let clamped := if value > max then max else value
    (Word.checkedMul clamped factorScale).map (· / max)

def checkedScore (job : Job) (now : VirtualTime) (config : PriorityConfig)
    (fairshareFactor : Word 64) : Option Score := do
  let age := Word.saturatingSub now job.submitTime
  let ageFactor ← checkedFactor age config.ageHorizon
  let qosFactor ← checkedFactor (widen job.priorityClass.ordinal) 3
  let fairshareFactor := min fairshareFactor factorScale
  let sizeFactor ←
    checkedFactor (widen job.request.cpuMillis) (widen config.largestRequest.cpuMillis)
  let aged ← Word.checkedMul ageFactor (widen config.weights.age)
  let ranked ← Word.checkedMul qosFactor (widen config.weights.qos)
  let sum ← Word.checkedAdd aged ranked
  let shared ← Word.checkedMul fairshareFactor (widen config.weights.fairshare)
  let sum ← Word.checkedAdd sum shared
  let sized ← Word.checkedMul sizeFactor (widen config.weights.size)
  Word.checkedAdd sum sized

def exactFactor (value max : Nat) : Nat :=
  if max = 0 then 0 else min value max * factorScale.val / max

def waited (job : Job) (now : VirtualTime) : Nat := (Word.saturatingSub now job.submitTime).val

/-- The number `score` stands for: each factor times its weight. -/
def exactScore (job : Job) (now : VirtualTime) (config : PriorityConfig)
    (fairshareFactor : Word 64) : Nat :=
  exactFactor (waited job now) config.ageHorizon.val * config.weights.age.val
    + exactFactor job.priorityClass.ordinal.val 3 * config.weights.qos.val
    + exactFactor fairshareFactor.val factorScale.val * config.weights.fairshare.val
    + exactFactor job.request.cpuMillis.val config.largestRequest.cpuMillis.val
      * config.weights.size.val

def AgeFits (job : Job) (now : VirtualTime) (config : PriorityConfig) : Prop :=
  min (waited job now) config.ageHorizon.val * factorScale.val < 2 ^ 64

/-- The score at this input is exact: no operation overflows, the result is the weighted sum, and
with it less waiting, less cpu or a smaller fair-share factor never scores higher. -/
structure ScoresExactly (job : Job) (now : VirtualTime) (config : PriorityConfig)
    (fairshareFactor : Word 64) : Prop where
  checked : checkedScore job now config fairshareFactor
    = some (score job now config fairshareFactor)
  exact : (score job now config fairshareFactor).val = exactScore job now config fairshareFactor
  waits : ∀ (submitTime earlier : VirtualTime),
    waited { job with submitTime := submitTime } earlier ≤ waited job now →
      score { job with submitTime := submitTime } earlier config fairshareFactor
        ≤ score job now config fairshareFactor
  grows : ∀ cpuMillis ≤ job.request.cpuMillis,
    score { job with request := { job.request with cpuMillis := cpuMillis } } now config
      fairshareFactor ≤ score job now config fairshareFactor
  shares : ∀ smaller ≤ fairshareFactor,
    score job now config smaller ≤ score job now config fairshareFactor
  bounded : (score job now config fairshareFactor).val ≤ factorScale.val *
    (config.weights.age.val + config.weights.qos.val + config.weights.fairshare.val
      + config.weights.size.val)

section Factor

private theorem val_factorScale : factorScale.val = 1000000 := by decide

variable {value max : Word 64}

private theorem val_clamped (value max : Word 64) :
    (if value > max then max else value).val = min value.val max.val := by
  split
  · rename_i h
    have hlt : max.val < value.val := h
    omega
  · rename_i h
    have hle : value.val ≤ max.val := Nat.le_of_not_lt h
    omega

private theorem val_factor (value max : Word 64) : (factor value max).val =
    if max = 0 then 0 else min value.val max.val * factorScale.val % 2 ^ 64 / max.val := by
  unfold factor
  split
  · rfl
  · dsimp only
    rw [Word.val_div, Fin.val_mul, val_clamped]

private theorem val_factor_of_fits (h : min value.val max.val * factorScale.val < 2 ^ 64) :
    (factor value max).val = exactFactor value.val max.val := by
  have hzero : max = 0 ↔ max.val = 0 := Fin.ext_iff
  rw [val_factor, Nat.mod_eq_of_lt h]
  unfold exactFactor
  simp only [hzero]

private theorem exactFactor_le (value max : Nat) : exactFactor value max ≤ factorScale.val := by
  unfold exactFactor
  split
  · exact Nat.zero_le _
  · rename_i h
    apply Nat.div_le_of_le_mul
    exact Nat.mul_le_mul_right _ (min_le_right value max)

private theorem factor_le_exactFactor (value max : Word 64) :
    (factor value max).val ≤ exactFactor value.val max.val := by
  have hzero : max = 0 ↔ max.val = 0 := Fin.ext_iff
  rw [val_factor]
  unfold exactFactor
  simp only [hzero]
  split
  · exact le_rfl
  · exact Nat.div_le_div_right (Nat.mod_le _ _)

private theorem factor_le (value max : Word 64) : (factor value max).val ≤ factorScale.val :=
  (factor_le_exactFactor value max).trans (exactFactor_le _ _)

/-- A product that wraps loses at least one whole `max`, so the quotient is too small. -/
private theorem factor_lt_exactFactor (h : 2 ^ 64 ≤ min value.val max.val * factorScale.val) :
    (factor value max).val < exactFactor value.val max.val := by
  have hpos : 0 < max.val := by
    by_contra hne
    have hzero : max.val = 0 := by omega
    rw [hzero] at h
    simp at h
  have hne : max ≠ 0 := fun he => by simp [he] at hpos
  have hmax := max.isLt
  set product := min value.val max.val * factorScale.val
  have hwrap : product % 2 ^ 64 + max.val ≤ product := by omega
  rw [val_factor, if_neg hne]
  unfold exactFactor
  rw [if_neg (by omega)]
  calc product % 2 ^ 64 / max.val
      < product % 2 ^ 64 / max.val + 1 := Nat.lt_succ_self _
    _ = (product % 2 ^ 64 + max.val) / max.val := (Nat.add_div_right _ hpos).symm
    _ ≤ product / max.val := Nat.div_le_div_right hwrap

private theorem checkedFactor_of_fits (h : min value.val max.val * factorScale.val < 2 ^ 64) :
    checkedFactor value max = some (factor value max) := by
  unfold checkedFactor factor
  split
  · rfl
  · dsimp only
    rw [Word.checkedMul_of_lt (by rwa [val_clamped])]
    rfl

private theorem checkedFactor_of_overflow (h : 2 ^ 64 ≤ min value.val max.val * factorScale.val) :
    checkedFactor value max = none := by
  have hne : max ≠ 0 := fun he => by simp [he] at h
  unfold checkedFactor
  rw [if_neg hne]
  dsimp only
  rw [Word.checkedMul_of_le (by rwa [val_clamped])]
  rfl

private theorem exactFactor_mono {a b : Nat} (max : Nat) (h : a ≤ b) :
    exactFactor a max ≤ exactFactor b max := by
  unfold exactFactor
  split
  · exact le_rfl
  · exact Nat.div_le_div_right (Nat.mul_le_mul_right _ (min_le_min_right max h))

private theorem narrow_fits {value : Word 64} (max : Word 64) (h : value.val < 2 ^ 32) :
    min value.val max.val * factorScale.val < 2 ^ 64 := by
  have hle : min value.val max.val ≤ 2 ^ 32 - 1 := by omega
  calc min value.val max.val * factorScale.val
      ≤ (2 ^ 32 - 1) * factorScale.val := Nat.mul_le_mul_right _ hle
    _ < 2 ^ 64 := by rw [val_factorScale]; decide

end Factor

section Score

variable (job : Job) (now : VirtualTime) (config : PriorityConfig) (fairshareFactor : Word 64)

private theorem term_le {a : Word 64} (ha : a.val ≤ factorScale.val) (weight : Word 32) :
    a.val * (widen weight).val ≤ 1000000 * (2 ^ 32 - 1) := by
  have hw := weight.isLt
  rw [val_factorScale] at ha
  rw [val_widen weight (by decide)]
  exact Nat.mul_le_mul ha (by omega)

private theorem val_term {a : Word 64} (ha : a.val ≤ factorScale.val) (weight : Word 32) :
    (a * widen weight).val = a.val * weight.val ∧
      Word.checkedMul a (widen weight) = some (a * widen weight) := by
  have hle := term_le ha weight
  have hlt : a.val * (widen weight).val < 2 ^ 64 := by omega
  refine ⟨?_, Word.checkedMul_of_lt hlt⟩
  rw [Word.val_mul_of_lt hlt, val_widen weight (by decide)]

private theorem weighted {a q f s : Word 64} (weights : PriorityWeights)
    (ha : a.val ≤ factorScale.val) (hq : q.val ≤ factorScale.val) (hf : f.val ≤ factorScale.val)
    (hs : s.val ≤ factorScale.val) :
    (a * widen weights.age + q * widen weights.qos + f * widen weights.fairshare
        + s * widen weights.size).val
      = a.val * weights.age.val + q.val * weights.qos.val + f.val * weights.fairshare.val
        + s.val * weights.size.val ∧
      (do
        let aged ← Word.checkedMul a (widen weights.age)
        let ranked ← Word.checkedMul q (widen weights.qos)
        let sum ← Word.checkedAdd aged ranked
        let shared ← Word.checkedMul f (widen weights.fairshare)
        let sum ← Word.checkedAdd sum shared
        let sized ← Word.checkedMul s (widen weights.size)
        Word.checkedAdd sum sized)
      = some (a * widen weights.age + q * widen weights.qos + f * widen weights.fairshare
        + s * widen weights.size) := by
  obtain ⟨ha', hac⟩ := val_term ha weights.age
  obtain ⟨hq', hqc⟩ := val_term hq weights.qos
  obtain ⟨hf', hfc⟩ := val_term hf weights.fairshare
  obtain ⟨hs', hsc⟩ := val_term hs weights.size
  have hal := term_le ha weights.age
  have hql := term_le hq weights.qos
  have hfl := term_le hf weights.fairshare
  have hsl := term_le hs weights.size
  rw [val_widen _ (by decide)] at hal hql hfl hsl
  -- each partial sum is at most four terms, far below the word size
  have h₁ : (a * widen weights.age).val + (q * widen weights.qos).val < 2 ^ 64 := by omega
  have h₁' := Word.val_add_of_lt h₁
  have h₂ : (a * widen weights.age + q * widen weights.qos).val
      + (f * widen weights.fairshare).val < 2 ^ 64 := by omega
  have h₂' := Word.val_add_of_lt h₂
  have h₃ : (a * widen weights.age + q * widen weights.qos + f * widen weights.fairshare).val
      + (s * widen weights.size).val < 2 ^ 64 := by omega
  have h₃' := Word.val_add_of_lt h₃
  refine ⟨by omega, ?_⟩
  simp only [hac, hqc, hfc, hsc, Option.bind_eq_bind, Option.bind_some,
    Word.checkedAdd_of_lt h₁, Word.checkedAdd_of_lt h₂, Word.checkedAdd_of_lt h₃]

private theorem val_min_scale (f : Word 64) :
    (min f factorScale).val = exactFactor f.val factorScale.val := by
  have hmin : (min f factorScale).val = min f.val factorScale.val := by
    rcases le_total f factorScale with h | h
    · rw [min_eq_left h, min_eq_left (show f.val ≤ factorScale.val from h)]
    · rw [min_eq_right h, min_eq_right (show factorScale.val ≤ f.val from h)]
  have hne : factorScale.val ≠ 0 := by decide
  unfold exactFactor
  rw [if_neg hne, Nat.mul_div_cancel _ (by omega), hmin]

private theorem qos_fits :
    min (widen job.priorityClass.ordinal).val (3 : Word 64).val * factorScale.val < 2 ^ 64 := by
  apply narrow_fits
  rw [val_widen _ (by decide)]
  have := job.priorityClass.ordinal.isLt
  omega

private theorem size_fits : min (widen job.request.cpuMillis).val
    (widen config.largestRequest.cpuMillis).val * factorScale.val < 2 ^ 64 := by
  apply narrow_fits
  rw [val_widen _ (by decide)]
  exact job.request.cpuMillis.isLt

private theorem val_score : (score job now config fairshareFactor).val =
    (factor (Word.saturatingSub now job.submitTime) config.ageHorizon).val
        * config.weights.age.val
      + exactFactor job.priorityClass.ordinal.val 3 * config.weights.qos.val
      + exactFactor fairshareFactor.val factorScale.val * config.weights.fairshare.val
      + exactFactor job.request.cpuMillis.val config.largestRequest.cpuMillis.val
        * config.weights.size.val := by
  have hf : (min fairshareFactor factorScale).val ≤ factorScale.val := by
    rw [val_min_scale]
    exact exactFactor_le _ _
  unfold score
  dsimp only
  rw [(weighted config.weights (factor_le _ _) (factor_le _ _) hf (factor_le _ _)).1,
    val_min_scale, val_factor_of_fits (qos_fits job), val_factor_of_fits (size_fits job config)]
  simp only [val_widen _ (show 32 ≤ 64 by decide), val_widen _ (show 8 ≤ 64 by decide)]
  rfl

private theorem checkedScore_of_ageFits (h : AgeFits job now config) :
    checkedScore job now config fairshareFactor
      = some (score job now config fairshareFactor) := by
  have hf : (min fairshareFactor factorScale).val ≤ factorScale.val := by
    rw [val_min_scale]
    exact exactFactor_le _ _
  unfold checkedScore score
  dsimp only
  rw [checkedFactor_of_fits h, checkedFactor_of_fits (qos_fits job),
    checkedFactor_of_fits (size_fits job config), Option.bind_eq_bind, Option.bind_some,
    Option.bind_some, Option.bind_some]
  exact (weighted config.weights (factor_le _ _) (factor_le _ _) hf (factor_le _ _)).2

private theorem score_of_ageFits (h : AgeFits job now config) :
    (score job now config fairshareFactor).val
      = exactScore job now config fairshareFactor := by
  rw [val_score, val_factor_of_fits h]
  rfl

private theorem score_le_exactScore : (score job now config fairshareFactor).val
    ≤ exactScore job now config fairshareFactor := by
  rw [val_score]
  have hage := Nat.mul_le_mul_right config.weights.age.val
    (factor_le_exactFactor (Word.saturatingSub now job.submitTime) config.ageHorizon)
  unfold exactScore waited
  omega

private theorem exactScore_le : exactScore job now config fairshareFactor ≤ factorScale.val *
    (config.weights.age.val + config.weights.qos.val + config.weights.fairshare.val
      + config.weights.size.val) := by
  unfold exactScore
  rw [Nat.mul_add, Nat.mul_add, Nat.mul_add]
  have hage := Nat.mul_le_mul_right config.weights.age.val
    (exactFactor_le (waited job now) config.ageHorizon.val)
  have hqos := Nat.mul_le_mul_right config.weights.qos.val
    (exactFactor_le job.priorityClass.ordinal.val 3)
  have hshare := Nat.mul_le_mul_right config.weights.fairshare.val
    (exactFactor_le fairshareFactor.val factorScale.val)
  have hsize := Nat.mul_le_mul_right config.weights.size.val
    (exactFactor_le job.request.cpuMillis.val config.largestRequest.cpuMillis.val)
  omega

/-- Where checks are off, the score is the weighted sum unless a weighted age factor wrapped. -/
theorem score_eq_exactScore_iff : (score job now config fairshareFactor).val
    = exactScore job now config fairshareFactor ↔
      config.weights.age.val = 0 ∨ AgeFits job now config := by
  constructor
  · intro heq
    by_contra hnot
    obtain ⟨hweight, hover⟩ := not_or.mp hnot
    have hlt := factor_lt_exactFactor (Nat.le_of_not_lt hover)
    have hage := Nat.mul_lt_mul_of_pos_right hlt (Nat.pos_of_ne_zero hweight)
    rw [val_score] at heq
    unfold exactScore waited at heq
    omega
  · rintro (hweight | hfits)
    · rw [val_score]
      unfold exactScore
      rw [hweight, Nat.mul_zero, Nat.mul_zero]
    · exact score_of_ageFits job now config fairshareFactor hfits

/-- The score is exact at an input precisely when the clamped age, scaled, fits a `u64`. -/
theorem scoresExactly_iff : ScoresExactly job now config fairshareFactor ↔
    min (waited job now) config.ageHorizon.val * factorScale.val < 2 ^ 64 := by
  constructor
  · intro h
    by_contra hover
    have hnone : checkedFactor (Word.saturatingSub now job.submitTime) config.ageHorizon = none :=
      checkedFactor_of_overflow (Nat.le_of_not_lt hover)
    have hchecked := h.checked
    unfold checkedScore at hchecked
    dsimp only at hchecked
    rw [hnone] at hchecked
    cases hchecked
  · intro h
    refine ⟨checkedScore_of_ageFits job now config fairshareFactor h,
      score_of_ageFits job now config fairshareFactor h, ?_, ?_, ?_, ?_⟩
    · intro submitTime earlier hle
      have hexact := score_of_ageFits job now config fairshareFactor h
      have hless := score_le_exactScore { job with submitTime := submitTime } earlier config
        fairshareFactor
      have hage := Nat.mul_le_mul_right config.weights.age.val
        (exactFactor_mono config.ageHorizon.val hle)
      rw [Fin.le_def, hexact]
      apply hless.trans
      unfold exactScore
      dsimp only
      omega
    · intro cpuMillis hle
      have hsize := Nat.mul_le_mul_right config.weights.size.val
        (exactFactor_mono config.largestRequest.cpuMillis.val
          (show cpuMillis.val ≤ job.request.cpuMillis.val from hle))
      rw [Fin.le_def, val_score, val_score]
      dsimp only
      omega
    · intro smaller hle
      have hshare := Nat.mul_le_mul_right config.weights.fairshare.val
        (exactFactor_mono factorScale.val (show smaller.val ≤ fairshareFactor.val from hle))
      rw [Fin.le_def, val_score, val_score]
      omega
    · exact (score_le_exactScore job now config fairshareFactor).trans
        (exactScore_le job now config fairshareFactor)

end Score

def sixHourHorizon : PriorityConfig := ⟨PriorityWeights.default, 21600000000000, ⟨1000, 0, 0⟩⟩

def longWaiter : Job := Job.new 0 .normal 0 ⟨1000, 0, 0⟩ 10

/-- At six hours the product wraps and the job scores below what it scored at five. -/
theorem six_hour_wait_wraps :
    checkedScore longWaiter 21600000000000 sixHourHorizon 0 = none ∧
      (score longWaiter 21600000000000 sixHourHorizon 0).val + 854016000
        = exactScore longWaiter 21600000000000 sixHourHorizon 0 ∧
      score longWaiter 21600000000000 sixHourHorizon 0
        < score longWaiter 18000000000000 sixHourHorizon 0 := by
  refine ⟨by decide +kernel, by decide +kernel, by decide +kernel⟩

end TaskerRT.Policy
