/- module: TaskerRT/Policy/Priority
   source: crates/tasker-core/src/policy/priority.rs
   digest: Multifactor priority in fixed-point integers and the total order built on it. -/

import TaskerRT.Cluster.Slot

set_option autoImplicit false

namespace TaskerRT.Policy

open Library Domain

abbrev Score := Word 64

/-- Each factor is scaled into `0..=factorScale` before weighting. -/
def factorScale : Word 64 := 1000000

structure PriorityWeights where
  age : Word 32
  qos : Word 32
  fairshare : Word 32
  size : Word 32
  deriving DecidableEq, Repr

def PriorityWeights.default : PriorityWeights := ⟨1000, 1000, 1000, 100⟩

structure PriorityConfig where
  weights : PriorityWeights
  ageHorizon : VirtualDuration
  largestRequest : ResourceRequest
  deriving DecidableEq, Repr

/-- Scales `value` into `0..=factorScale` relative to `max`. The product wraps. -/
def factor (value max : Word 64) : Word 64 :=
  if max = 0 then 0
  else
    let clamped := if value > max then max else value
    clamped * factorScale / max

def widen {w : Nat} (a : Word w) : Word 64 := Word.ofNat 64 a.val

theorem val_widen {w : Nat} (a : Word w) (h : w ≤ 64) : (widen a).val = a.val :=
  Word.val_ofNat_of_lt (a.isLt.trans_le (Nat.pow_le_pow_right (by decide) h))

def score (job : Job) (now : VirtualTime) (config : PriorityConfig)
    (fairshareFactor : Word 64) : Score :=
  let age := Word.saturatingSub now job.submitTime
  let ageFactor := factor age config.ageHorizon
  let qosFactor := factor (widen job.priorityClass.ordinal) 3
  let fairshareFactor := min fairshareFactor factorScale
  let sizeFactor := factor (widen job.request.cpuMillis) (widen config.largestRequest.cpuMillis)
  ageFactor * widen config.weights.age + qosFactor * widen config.weights.qos
    + fairshareFactor * widen config.weights.fairshare + sizeFactor * widen config.weights.size

/-- The order the ready set sorts by: higher score first, then the lower handle. -/
structure OrderKey where
  score : Score
  tiebreak : Word 64
  deriving DecidableEq, Repr

namespace OrderKey

def new (score : Score) (id : JobId) : OrderKey := ⟨score, id.bits⟩

def lt (a b : OrderKey) : Bool :=
  decide (a.score < b.score) || (a.score == b.score && decide (b.tiebreak < a.tiebreak))

end OrderKey

end TaskerRT.Policy
