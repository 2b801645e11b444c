/- module: TaskerRT/Library/Ranking
   source: none
   digest: The stable sort of a list is the one that breaks ties by position; the first of the
     least entries. -/

import Mathlib.Data.List.Induction
import Mathlib.Data.List.Sort
import Mathlib.Data.Prod.Lex

set_option autoImplicit false

namespace TaskerRT.Library

universe u v

section Stable

variable {α : Type u} (r : α → α → Prop)

def Positioned (a b : α × Nat) : Prop := r a.1 b.1 ∧ (r b.1 a.1 → a.2 ≤ b.2)

/-- `ranked` is the list sorted by `r`, equal entries in the order they had. -/
def StablySorted (l ranked : List α) : Prop :=
  ∃ order : List (α × Nat), order.Perm l.zipIdx ∧ order.Pairwise (Positioned r) ∧
    ranked = order.map (·.1)

variable {r} {l : List α}

theorem StablySorted.perm {ranked : List α} (h : StablySorted r l ranked) : ranked.Perm l := by
  obtain ⟨order, hperm, -, rfl⟩ := h
  have hmap := hperm.map (·.1)
  rwa [List.zipIdx_map_fst] at hmap

theorem StablySorted.unique {a b : List α} (ha : StablySorted r l a) (hb : StablySorted r l b) :
    a = b := by
  obtain ⟨order, hperm, hsorted, rfl⟩ := ha
  obtain ⟨order', hperm', hsorted', rfl⟩ := hb
  refine congrArg (List.map Prod.fst) ?_
  refine List.Perm.eq_of_pairwise (fun x y hx hy hxy hyx => ?_) hsorted hsorted'
    (hperm.trans hperm'.symm)
  -- Two entries at one position are one entry.
  have hpos : x.2 = y.2 := Nat.le_antisymm (hxy.2 hyx.1) (hyx.2 hxy.1)
  have hx' := List.mem_zipIdx_iff_getElem?.mp (hperm.subset hx)
  have hy' := List.mem_zipIdx_iff_getElem?.mp (hperm'.subset hy)
  rw [hpos, hy'] at hx'
  exact Prod.ext (Option.some.inj hx').symm hpos

variable [DecidableRel r]

instance : DecidableRel (Positioned r) := fun _ _ => inferInstanceAs (Decidable (_ ∧ (_ → _)))

private theorem map_orderedInsert {a : α × Nat} {m : List (α × Nat)}
    (hpos : ∀ b ∈ m, a.2 ≤ b.2) :
    (m.orderedInsert (Positioned r) a).map (·.1) = (m.map (·.1)).orderedInsert r a.1 := by
  induction m with
  | nil => rfl
  | cons b m ih =>
    by_cases hab : r a.1 b.1
    · have hab' : Positioned r a b := ⟨hab, fun _ => hpos b List.mem_cons_self⟩
      rw [List.orderedInsert_cons_of_le _ m hab', List.map_cons, List.map_cons,
        List.orderedInsert_cons_of_le _ (m.map (·.1)) hab]
    · have hab' : ¬ Positioned r a b := fun h => hab h.1
      rw [List.orderedInsert_of_not_le _ m hab', List.map_cons, List.map_cons,
        List.orderedInsert_of_not_le _ (m.map (·.1)) hab,
        ih fun c hc => hpos c (List.mem_cons_of_mem _ hc)]

/-- Insertion puts an entry in front of its equals, so sorting positions along changes nothing. -/
private theorem map_insertionSort_zipIdx (l : List α) : ∀ k,
    ((l.zipIdx k).insertionSort (Positioned r)).map (·.1) = l.insertionSort r := by
  induction l with
  | nil => exact fun _ => rfl
  | cons a l ih =>
    intro k
    rw [List.zipIdx_cons, List.insertionSort_cons, List.insertionSort_cons, map_orderedInsert,
      ih (k + 1)]
    intro b hb
    exact Nat.le_of_succ_le (List.le_snd_of_mem_zipIdx ((List.mem_insertionSort _).mp hb))

theorem stablySorted_insertionSort [Std.Total r] [IsTrans α r] (l : List α) :
    StablySorted r l (l.insertionSort r) := by
  have htotal : Std.Total (Positioned r) := ⟨fun a b => by
    by_cases hab : r a.1 b.1
    · by_cases hba : r b.1 a.1
      · exact (Nat.le_total a.2 b.2).imp (fun h => ⟨hab, fun _ => h⟩) fun h => ⟨hba, fun _ => h⟩
      · exact Or.inl ⟨hab, fun h => absurd h hba⟩
    · exact Or.inr ⟨(Std.Total.total a.1 b.1).resolve_left hab, fun h => absurd h hab⟩⟩
  have htrans : IsTrans (α × Nat) (Positioned r) := ⟨fun a b c hab hbc => by
    refine ⟨IsTrans.trans _ _ _ hab.1 hbc.1, fun hca => ?_⟩
    have hba : r b.1 a.1 := IsTrans.trans _ _ _ hbc.1 hca
    have hcb : r c.1 b.1 := IsTrans.trans _ _ _ hca hab.1
    exact Nat.le_trans (hab.2 hba) (hbc.2 hcb)⟩
  exact ⟨_, List.perm_insertionSort (Positioned r) l.zipIdx,
    List.pairwise_insertionSort (Positioned r) l.zipIdx, (map_insertionSort_zipIdx l 0).symm⟩

end Stable

section Best

variable {α : Type u} {κ : Type v} [LinearOrder κ] (key : α → κ)

/-- Replaces the best so far only by something strictly better. -/
def keepBetter (best : Option α) : Option α → Option α
  | none => best
  | some p =>
    match best with
    | none => some p
    | some b => if key p < key b then some p else some b

/-- `b` is there, nothing is better, and nothing as good is earlier. -/
def FirstLeast (l : List (Option α)) (b : α) : Prop :=
  ∃ i : Nat, l[i]? = some (some b) ∧ ∀ (j : Nat) (p : α), l[j]? = some (some p) →
    key b < key p ∨ key b = key p ∧ i ≤ j

variable {key}

theorem foldl_keepBetter (l : List (Option α)) :
    (∀ b, l.foldl (keepBetter key) none = some b → FirstLeast key l b) ∧
      (l.foldl (keepBetter key) none = none → ∀ p ∈ l, p = none) := by
  induction l using List.reverseRecOn with
  | nil => exact ⟨fun b h => (nomatch h), fun _ p hp => (nomatch hp)⟩
  | append_singleton l x ih =>
    obtain ⟨ihsome, ihnone⟩ := ih
    rw [List.foldl_concat]
    have hlast : ∀ {j : Nat} {p : α}, (l ++ [x])[j]? = some (some p) →
        l[j]? = some (some p) ∨ j = l.length ∧ x = some p := by
      intro j p hj
      rw [List.getElem?_append] at hj
      split at hj
      · exact Or.inl hj
      · rename_i hge
        right
        obtain ⟨hlt, hx⟩ := List.getElem?_eq_some_iff.mp hj
        rw [List.length_singleton] at hlt
        refine ⟨by omega, ?_⟩
        rwa [List.getElem_singleton] at hx
    have hfront : ∀ {j : Nat} {p : α}, l[j]? = some (some p) →
        (l ++ [x])[j]? = some (some p) ∧ j < l.length := by
      intro j p hj
      obtain ⟨hlt, -⟩ := List.getElem?_eq_some_iff.mp hj
      exact ⟨by rw [List.getElem?_append_left hlt, hj], hlt⟩
    cases hbest : l.foldl (keepBetter key) none with
    | none =>
      have hnone := ihnone hbest
      refine ⟨fun b hb => ?_, fun h p hp => ?_⟩
      · have hx : x = some b := by
          cases x with
          | none => exact nomatch hb
          | some p => exact hb
        refine ⟨l.length, by rw [List.getElem?_concat_length, hx], fun j p hj => ?_⟩
        rcases hlast hj with hj | ⟨rfl, hp⟩
        · exact nomatch hnone _ (List.mem_of_getElem? hj)
        · obtain rfl := Option.some.inj (hx.symm.trans hp)
          exact Or.inr ⟨rfl, Nat.le_refl _⟩
      · rcases List.mem_append.mp hp with hp | hp
        · exact hnone p hp
        · rw [List.mem_singleton.mp hp]
          cases x with
          | none => rfl
          | some p => exact nomatch h
    | some b =>
      obtain ⟨i, hi, hleast⟩ := ihsome b hbest
      refine ⟨fun b' hb' => ?_, fun h => ?_⟩
      · cases x with
        | none =>
          obtain rfl := Option.some.inj hb'
          refine ⟨i, (hfront hi).1, fun j p hj => ?_⟩
          rcases hlast hj with hj | ⟨-, hp⟩
          · exact hleast j p hj
          · exact nomatch hp
        | some p =>
          change (if key p < key b then some p else some b) = some b' at hb'
          split at hb'
          · rename_i hlt
            obtain rfl := Option.some.inj hb'
            refine ⟨l.length, List.getElem?_concat_length, fun j q hj => ?_⟩
            rcases hlast hj with hj | ⟨rfl, hq⟩
            · rcases hleast j q hj with hbq | ⟨heq, -⟩
              · exact Or.inl (hlt.trans hbq)
              · exact Or.inl (heq ▸ hlt)
            · obtain rfl := Option.some.inj hq
              exact Or.inr ⟨rfl, Nat.le_refl _⟩
          · rename_i hge
            obtain rfl := Option.some.inj hb'
            refine ⟨i, (hfront hi).1, fun j q hj => ?_⟩
            rcases hlast hj with hj | ⟨rfl, hq⟩
            · exact hleast j q hj
            · obtain rfl := Option.some.inj hq
              rcases (not_lt.mp hge).lt_or_eq with hlt | heq
              · exact Or.inl hlt
              · exact Or.inr ⟨heq, Nat.le_of_lt (hfront hi).2⟩
      · cases x with
        | none => exact nomatch h
        | some p =>
          change (if key p < key b then some p else some b) = none at h
          split at h <;> exact nomatch h

end Best

end TaskerRT.Library
