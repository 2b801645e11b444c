/- module: TaskerRT/Library/RankedMap
   source: none
   digest: Maps from keys to scores that can be asked for their greatest entry. -/

import Mathlib

set_option autoImplicit false

namespace TaskerRT.Library

namespace RankedMap

/-- What the user of such a map asks, with the answer they get. -/
inductive Query (ι σ : Type) where
  | push (key : ι) (score : σ)
  | update (key : ι) (score : σ) (found : Bool)
  | remove (key : ι) (found : Bool)
  | popMax (top : Option (ι × σ))
  | peekMax (top : Option (ι × σ))
  | contains (key : ι) (found : Bool)
  | clear
  | reserveSlots (slots : Nat)

variable {ι σ κ : Type} [DecidableEq ι] [LinearOrder κ]

/-- The entry that ranks greatest, or nothing in an empty map. -/
def IsTop (rank : ι × σ → κ) (m : ι → Option σ) : Option (ι × σ) → Prop
  | none => ∀ x, m x = none
  | some e => m e.1 = some e.2 ∧ ∀ x s, m x = some s → rank (x, s) ≤ rank e

def without (m : ι → Option σ) : Option (ι × σ) → ι → Option σ
  | none => m
  | some e => Function.update m e.1 none

inductive Step (rank : ι × σ → κ) : (ι → Option σ) → Query ι σ → (ι → Option σ) → Prop where
  | push (m : ι → Option σ) (x : ι) (s : σ) :
      Step rank m (.push x s) (Function.update m x (some s))
  | updated {m : ι → Option σ} {x : ι} (s : σ) (present : (m x).isSome = true) :
      Step rank m (.update x s true) (Function.update m x (some s))
  | unknown {m : ι → Option σ} {x : ι} (s : σ) (absent : m x = none) :
      Step rank m (.update x s false) m
  | remove (m : ι → Option σ) (x : ι) :
      Step rank m (.remove x (m x).isSome) (Function.update m x none)
  | popMax {m : ι → Option σ} {top : Option (ι × σ)} (greatest : IsTop rank m top) :
      Step rank m (.popMax top) (without m top)
  | peekMax {m : ι → Option σ} {top : Option (ι × σ)} (greatest : IsTop rank m top) :
      Step rank m (.peekMax top) m
  | contains (m : ι → Option σ) (x : ι) : Step rank m (.contains x (m x).isSome) m
  | clear (m : ι → Option σ) : Step rank m .clear fun _ => none
  | reserveSlots (m : ι → Option σ) (slots : Nat) : Step rank m (.reserveSlots slots) m

end RankedMap

end TaskerRT.Library
