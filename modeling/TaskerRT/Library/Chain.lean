/- module: TaskerRT/Library/Chain
   source: none (general library)
   digest: Finite runs of a labelled step relation, and the rules to reason along them. -/

import Mathlib.Init

set_option autoImplicit false

namespace TaskerRT.Library

universe u v w x

/-- A run: steps taken one after the other, with their labels in order. -/
inductive Chain {σ : Type u} {ℓ : Type v} (step : σ → ℓ → σ → Prop) : σ → List ℓ → σ → Prop where
  | nil (s : σ) : Chain step s [] s
  | cons {s₁ s₂ s₃ : σ} {l : ℓ} {ls : List ℓ} (head : step s₁ l s₂) (tail : Chain step s₂ ls s₃) :
      Chain step s₁ (l :: ls) s₃

/-- A computed step that is only taken where `ok` allows it. -/
def guarded {σ : Type u} {ℓ : Type v} (ok : σ → ℓ → Prop) [∀ s l, Decidable (ok s l)]
    (next : σ → ℓ → Option σ) (s : σ) (l : ℓ) : Option σ :=
  if ok s l then next s l else none

namespace Chain

variable {σ : Type u} {ℓ : Type v} {τ : Type w} {μ : Type x} {step : σ → ℓ → σ → Prop}
  {s s₁ s₂ s₃ : σ} {l : ℓ} {ls ms : List ℓ}

theorem single (h : step s₁ l s₂) : Chain step s₁ [l] s₂ := .cons h (.nil s₂)

theorem append (h : Chain step s₁ ls s₂) (h' : Chain step s₂ ms s₃) :
    Chain step s₁ (ls ++ ms) s₃ := by
  induction h with
  | nil => exact h'
  | cons head _ ih => exact .cons head (ih h')

theorem snoc (h : Chain step s₁ ls s₂) (h' : step s₂ l s₃) : Chain step s₁ (ls ++ [l]) s₃ :=
  h.append (single h')

theorem nil_iff : Chain step s₁ [] s₂ ↔ s₁ = s₂ := by
  refine ⟨fun h => ?_, fun h => h ▸ .nil s₁⟩
  cases h
  rfl

theorem cons_iff : Chain step s₁ (l :: ls) s₃ ↔ ∃ s₂, step s₁ l s₂ ∧ Chain step s₂ ls s₃ := by
  refine ⟨fun h => ?_, fun ⟨s₂, head, tail⟩ => .cons head tail⟩
  cases h with
  | cons head tail => exact ⟨_, head, tail⟩

theorem of_single (h : Chain step s₁ [l] s₂) : step s₁ l s₂ := by
  obtain ⟨s, head, tail⟩ := cons_iff.mp h
  exact nil_iff.mp tail ▸ head

theorem split : ∀ {ls : List ℓ} {s₁ : σ}, Chain step s₁ (ls ++ ms) s₃ →
    ∃ s₂, Chain step s₁ ls s₂ ∧ Chain step s₂ ms s₃
  | [], s₁, h => ⟨s₁, .nil s₁, h⟩
  | l :: ls, s₁, h => by
    obtain ⟨s, head, tail⟩ := cons_iff.mp h
    obtain ⟨s₂, front, back⟩ := split tail
    exact ⟨s₂, .cons head front, back⟩

theorem mem (h : Chain step s₁ ls s₂) : l ∈ ls → ∃ s s', step s l s' := by
  induction h with
  | nil => exact fun hl => nomatch hl
  | cons head _ ih =>
    intro hl
    rcases List.mem_cons.mp hl with rfl | hl
    · exact ⟨_, _, head⟩
    · exact ih hl

theorem of_foldlM {next : σ → ℓ → Option σ} : ∀ {ls : List ℓ} {s₁ : σ},
    ls.foldlM next s₁ = some s₂ → Chain (fun s l s' => next s l = some s') s₁ ls s₂
  | [], s₁, h => nil_iff.mpr (Option.some.inj h)
  | l :: ls, s₁, h => by
    rw [List.foldlM_cons] at h
    obtain ⟨s, hs, hrest⟩ := Option.bind_eq_some_iff.mp h
    exact .cons hs (of_foldlM hrest)

theorem imp {step' : σ → ℓ → σ → Prop} (h : Chain step s₁ ls s₂) :
    (∀ s l s', l ∈ ls → step s l s' → step' s l s') → Chain step' s₁ ls s₂ := by
  induction h with
  | nil s => exact fun _ => .nil s
  | cons head _ ih =>
    intro himp
    exact .cons (himp _ _ _ List.mem_cons_self head)
      (ih fun s l s' hl => himp s l s' (List.mem_cons_of_mem _ hl))

/-- Guarded steps, one after the other, are a run of steps that were allowed. -/
theorem of_guarded {ok : σ → ℓ → Prop} [∀ s l, Decidable (ok s l)] {next : σ → ℓ → Option σ}
    (h : ls.foldlM (guarded ok next) s₁ = some s₂) :
    Chain (fun s l s' => next s l = some s' ∧ ok s l) s₁ ls s₂ := by
  refine (of_foldlM h).imp fun s l s' _ hstep => ?_
  exact (Option.ite_none_right_eq_some.mp hstep).symm

theorem keeps {P : σ → Prop} (hstep : ∀ s l s', step s l s' → P s → P s')
    (h : Chain step s₁ ls s₂) (hs : P s₁) : P s₂ := by
  induction h with
  | nil => exact hs
  | cons head _ ih => exact ih (hstep _ _ _ head hs)

/-- A simulation: under an invariant each step becomes a run of another system. -/
theorem simulate {step' : τ → μ → τ → Prop} {P : σ → Prop} {view : σ → τ}
    {labels : ℓ → List μ} (hstep : ∀ s l s', step s l s' → P s →
      P s' ∧ Chain step' (view s) (labels l) (view s'))
    (h : Chain step s₁ ls s₂) (hs : P s₁) :
    P s₂ ∧ Chain step' (view s₁) (ls.flatMap labels) (view s₂) := by
  induction h with
  | nil s => exact ⟨hs, .nil _⟩
  | cons head _ ih =>
    obtain ⟨hmid, hhead⟩ := hstep _ _ _ head hs
    obtain ⟨hend, htail⟩ := ih hmid
    exact ⟨hend, hhead.append htail⟩

end Chain

end TaskerRT.Library
