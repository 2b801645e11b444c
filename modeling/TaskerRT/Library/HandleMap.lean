/- module: TaskerRT/Library/HandleMap
   source: none
   digest: Maps that hand out their own keys and never hand one out twice. -/

import TaskerRT.Library.Chain
import Mathlib.Logic.Function.Basic
import Mathlib.Data.List.Nodup

set_option autoImplicit false

namespace TaskerRT.Library

universe u

/-- What the user of such a map does, with what they get back. -/
inductive Access (κ : Type) (α : Type u) where
  | inserted (key : κ) (value : α)
  | removed (key : κ) (found : Option α)
  | read (key : κ) (found : Option α)
  | wrote (key : κ) (f : α → α) (found : Option α)

/-- The keys handed out so far, those removed again, and what is stored. -/
structure HandleMap (κ : Type) (α : Type u) where
  issued : List κ
  retired : List κ
  stored : κ → Option α

namespace HandleMap

variable {κ : Type} {α : Type u} [DecidableEq κ] {m m' : HandleMap κ α} {access : Access κ α}
  {trace : List (Access κ α)}

def empty : HandleMap κ α := ⟨[], [], fun _ => none⟩

def live (m : HandleMap κ α) : List κ := m.issued.filter fun k => k ∉ m.retired

/-- One access. A key is handed out once, and a removed key finds nothing. -/
inductive Step : HandleMap κ α → Access κ α → HandleMap κ α → Prop where
  | inserted {m : HandleMap κ α} {k : κ} {v : α} (fresh : k ∉ m.issued) :
      Step m (.inserted k v) ⟨m.issued ++ [k], m.retired, Function.update m.stored k (some v)⟩
  | removed {m : HandleMap κ α} {k : κ} {v : α} (held : m.stored k = some v) :
      Step m (.removed k (some v)) ⟨m.issued, m.retired ++ [k], Function.update m.stored k none⟩
  | missed {m : HandleMap κ α} {k : κ} (absent : m.stored k = none) : Step m (.removed k none) m
  | read (m : HandleMap κ α) (k : κ) : Step m (.read k (m.stored k)) m
  | wrote (m : HandleMap κ α) (k : κ) (f : α → α) : Step m (.wrote k f (m.stored k))
      { m with stored := Function.update m.stored k ((m.stored k).map f) }

/-- No key was handed out twice, and stored is what was handed out and not removed. -/
structure Consistent (m : HandleMap κ α) : Prop where
  nodup : m.issued.Nodup
  retired_issued : ∀ k ∈ m.retired, k ∈ m.issued
  held_iff : ∀ k, (∃ v, m.stored k = some v) ↔ k ∈ m.issued ∧ k ∉ m.retired

omit [DecidableEq κ] in
theorem consistent_empty : (empty : HandleMap κ α).Consistent :=
  ⟨List.nodup_nil, fun _ hk => absurd hk List.not_mem_nil, fun _ => by simp [empty]⟩

theorem Step.consistent (h : Step m access m') (hm : m.Consistent) : m'.Consistent := by
  cases h with
  | @inserted k v fresh =>
    have hunused : k ∉ m.retired := fun hk => fresh (hm.retired_issued k hk)
    refine ⟨?_, fun x hx => List.mem_append_left _ (hm.retired_issued x hx), fun x => ?_⟩
    · rw [List.nodup_append]
      refine ⟨hm.nodup, List.nodup_singleton k, fun x hx y hy he => ?_⟩
      rw [List.mem_singleton] at hy
      exact fresh (hy ▸ he ▸ hx)
    · by_cases hx : x = k
      · subst hx
        simp [hunused]
      · simp only [Function.update_of_ne hx, List.mem_append, List.mem_singleton, hx, or_false]
        exact hm.held_iff x
  | @removed k v held =>
    have hk := (hm.held_iff k).mp ⟨v, held⟩
    refine ⟨hm.nodup, fun x hx => ?_, fun x => ?_⟩
    · rcases List.mem_append.mp hx with hx | hx
      · exact hm.retired_issued x hx
      · rw [List.mem_singleton.mp hx]
        exact hk.1
    · by_cases hx : x = k
      · subst hx
        simp
      · simp only [Function.update_of_ne hx, List.mem_append, List.mem_singleton, hx, or_false]
        exact hm.held_iff x
  | missed absent => exact hm
  | read k => exact hm
  | wrote k f =>
    refine ⟨hm.nodup, hm.retired_issued, fun x => ?_⟩
    rw [← hm.held_iff x]
    by_cases hx : x = k
    · subst hx
      simp
    · simp only [Function.update_of_ne hx]

theorem Consistent.mem_live (hm : m.Consistent) {k : κ} :
    k ∈ m.live ↔ ∃ v, m.stored k = some v := by
  rw [hm.held_iff, live, List.mem_filter, decide_eq_true_eq]

theorem Consistent.nodup_live (hm : m.Consistent) : m.live.Nodup := hm.nodup.filter _

end HandleMap

end TaskerRT.Library
