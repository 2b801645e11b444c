/- module: TaskerRT/Domain/Resource
   source: crates/tasker-core/src/domain/resource.rs, crates/tasker-core/src/domain/time.rs
   digest: Virtual time and the resource vector shared by requests and capacities. -/

import TaskerRT.Library.Table

set_option autoImplicit false

namespace TaskerRT.Domain

open Library

/-- A point on the virtual clock, in nanoseconds since the scheduler epoch. -/
abbrev VirtualTime := Word 64

/-- A span of virtual time, in nanoseconds. -/
abbrev VirtualDuration := Word 64

def VirtualDuration.fromSecs (secs : Word 64) : VirtualDuration :=
  Word.saturatingMul secs 1000000000

/-- CPU millicores, memory bytes and whole GPUs. One type serves as request and capacity. -/
structure Resources where
  cpuMillis : Word 32
  memBytes : Word 64
  gpus : Word 8
  deriving DecidableEq, Repr

abbrev ResourceRequest := Resources

abbrev Capacity := Resources

namespace Resources

def zero : Resources := ⟨0, 0, 0⟩

/-- Every dimension is at most the matching one of `capacity`. -/
def fitsWithin (r capacity : Resources) : Bool :=
  decide (r.cpuMillis ≤ capacity.cpuMillis) && decide (r.memBytes ≤ capacity.memBytes) &&
    decide (r.gpus ≤ capacity.gpus)

/-- Componentwise sum, or nothing when a dimension overflows. -/
def checkedAdd (r other : Resources) : Option Resources := do
  let cpuMillis ← Word.checkedAdd r.cpuMillis other.cpuMillis
  let memBytes ← Word.checkedAdd r.memBytes other.memBytes
  let gpus ← Word.checkedAdd r.gpus other.gpus
  return ⟨cpuMillis, memBytes, gpus⟩

def saturatingAdd (r other : Resources) : Resources :=
  ⟨Word.saturatingAdd r.cpuMillis other.cpuMillis, Word.saturatingAdd r.memBytes other.memBytes,
    Word.saturatingAdd r.gpus other.gpus⟩

def saturatingSub (r other : Resources) : Resources :=
  ⟨Word.saturatingSub r.cpuMillis other.cpuMillis, Word.saturatingSub r.memBytes other.memBytes,
    Word.saturatingSub r.gpus other.gpus⟩

def sup (r other : Resources) : Resources :=
  ⟨max r.cpuMillis other.cpuMillis, max r.memBytes other.memBytes, max r.gpus other.gpus⟩

private theorem ext_val {r s : Resources} (hc : r.cpuMillis.val = s.cpuMillis.val)
    (hm : r.memBytes.val = s.memBytes.val) (hg : r.gpus.val = s.gpus.val) : r = s := by
  cases r
  cases s
  simp only [Resources.mk.injEq]
  exact ⟨Fin.ext hc, Fin.ext hm, Fin.ext hg⟩

theorem fitsWithin_iff {r capacity : Resources} :
    r.fitsWithin capacity = true ↔
      r.cpuMillis.val ≤ capacity.cpuMillis.val ∧ r.memBytes.val ≤ capacity.memBytes.val ∧
        r.gpus.val ≤ capacity.gpus.val := by
  simp only [fitsWithin, Bool.and_eq_true, decide_eq_true_eq, Fin.le_def, and_assoc]

theorem fitsWithin_trans {a b c : Resources} (hab : a.fitsWithin b = true)
    (hbc : b.fitsWithin c = true) : a.fitsWithin c = true := by
  rw [fitsWithin_iff] at *
  omega

@[simp] theorem fitsWithin_refl (r : Resources) : r.fitsWithin r = true := by
  simp [fitsWithin_iff]

theorem fitsWithin_sup_left (r other : Resources) : r.fitsWithin (r.sup other) = true := by
  rw [fitsWithin_iff]
  exact ⟨le_max_left r.cpuMillis _, le_max_left r.memBytes _, le_max_left r.gpus _⟩

theorem fitsWithin_sup_right (r other : Resources) : other.fitsWithin (r.sup other) = true := by
  rw [fitsWithin_iff]
  exact ⟨le_max_right _ other.cpuMillis, le_max_right _ other.memBytes,
    le_max_right _ other.gpus⟩

private theorem checkedAdd_eq_some {r other sum : Resources} :
    r.checkedAdd other = some sum ↔
      r.cpuMillis.val + other.cpuMillis.val = sum.cpuMillis.val ∧
        r.memBytes.val + other.memBytes.val = sum.memBytes.val ∧
          r.gpus.val + other.gpus.val = sum.gpus.val := by
  unfold checkedAdd
  simp only [Option.bind_eq_bind, Option.bind_eq_some_iff, Option.pure_def, Option.some.injEq,
    Word.checkedAdd_eq_some]
  constructor
  · rintro ⟨c, hc, m, hm, g, hg, rfl⟩
    exact ⟨hc, hm, hg⟩
  · rintro ⟨hc, hm, hg⟩
    exact ⟨_, hc, _, hm, _, hg, rfl⟩

inductive Dimension where
  | cpuMillis
  | memBytes
  | gpus
  deriving DecidableEq, Repr

def amount (r : Resources) : Dimension → Nat
  | .cpuMillis => r.cpuMillis.val
  | .memBytes => r.memBytes.val
  | .gpus => r.gpus.val

theorem fitsWithin_iff_amount {r capacity : Resources} :
    r.fitsWithin capacity = true ↔ ∀ d, r.amount d ≤ capacity.amount d := by
  rw [fitsWithin_iff]
  constructor
  · intro h d
    cases d with
    | cpuMillis => exact h.1
    | memBytes => exact h.2.1
    | gpus => exact h.2.2
  · intro h
    exact ⟨h .cpuMillis, h .memBytes, h .gpus⟩

theorem eq_of_amount {r s : Resources} (h : ∀ d, r.amount d = s.amount d) : r = s :=
  ext_val (h .cpuMillis) (h .memBytes) (h .gpus)

@[simp] theorem amount_saturatingSub (r other : Resources) (d : Dimension) :
    (r.saturatingSub other).amount d = r.amount d - other.amount d := by
  cases d <;> rfl

theorem le_amount_saturatingAdd {request r other : Resources} {d : Dimension} {n : Nat} :
    request.amount d ≤ (r.saturatingAdd other).amount d + n ↔
      request.amount d ≤ r.amount d + other.amount d + n := by
  have hc := request.cpuMillis.isLt
  have hm := request.memBytes.isLt
  have hg := request.gpus.isLt
  cases d <;> simp only [amount, saturatingAdd, Word.val_saturatingAdd] <;> omega

theorem amount_of_checkedAdd {r other sum : Resources} (h : r.checkedAdd other = some sum)
    (d : Dimension) : sum.amount d = r.amount d + other.amount d := by
  obtain ⟨hc, hm, hg⟩ := checkedAdd_eq_some.mp h
  cases d with
  | cpuMillis => exact hc.symm
  | memBytes => exact hm.symm
  | gpus => exact hg.symm

theorem checkedAdd_of_fits_free {capacity allocated request : Resources}
    (hle : allocated.fitsWithin capacity = true)
    (hfit : request.fitsWithin (capacity.saturatingSub allocated) = true) :
    ∃ next, allocated.checkedAdd request = some next ∧ next.fitsWithin capacity = true := by
  rw [fitsWithin_iff] at hle hfit
  simp only [saturatingSub, Word.val_saturatingSub] at hfit
  have hc := capacity.cpuMillis.isLt
  have hm := capacity.memBytes.isLt
  have hg := capacity.gpus.isLt
  refine ⟨⟨⟨allocated.cpuMillis.val + request.cpuMillis.val, by omega⟩,
    ⟨allocated.memBytes.val + request.memBytes.val, by omega⟩,
    ⟨allocated.gpus.val + request.gpus.val, by omega⟩⟩, ?_, ?_⟩
  · rw [checkedAdd_eq_some]
    exact ⟨rfl, rfl, rfl⟩
  · rw [fitsWithin_iff]
    simp only
    omega

end Resources

end TaskerRT.Domain
