/- module: TaskerRT/Library/HeapOrder
   source: none
   digest: Indexed heaps keep every entry at or under its parent, so the top is a greatest one. -/

import Mathlib.Order.WithBot
import TaskerRT.Library.IndexedHeap

set_option autoImplicit false

namespace TaskerRT.Library

section Positions

/-! Ranks by position, with `⊥` at the positions past the end. -/

variable {κ : Type} [LinearOrder κ]

def HeapOrdered (f : Nat → κ) : Prop := ∀ q, 0 < q → f q ≤ f ((q - 1) / 2)

/-- Only `p` may rank over its parent, and what is under `p` is in order with that parent. -/
structure RaisedAt (f : Nat → κ) (p : Nat) : Prop where
  others : ∀ q, 0 < q → q ≠ p → f q ≤ f ((q - 1) / 2)
  across : ∀ q, 0 < p → 0 < q → (q - 1) / 2 = p → f q ≤ f ((p - 1) / 2)

/-- Only the children of `p` may rank over it, and they are in order with its parent. -/
structure LoweredAt (f : Nat → κ) (p : Nat) : Prop where
  others : ∀ q, 0 < q → (q - 1) / 2 ≠ p → f q ≤ f ((q - 1) / 2)
  across : ∀ q, 0 < p → 0 < q → (q - 1) / 2 = p → f q ≤ f ((p - 1) / 2)

def exchanged {κ : Type} (f : Nat → κ) (a b : Nat) : Nat → κ :=
  fun q => if q = b then f a else if q = a then f b else f q

variable {f : Nat → κ} {p : Nat}

theorem HeapOrdered.le_root (h : HeapOrdered f) (q : Nat) : f q ≤ f 0 := by
  induction q using Nat.strong_induction_on with
  | _ q ih =>
    by_cases hq : q = 0
    · rw [hq]
    · have hparent : f q ≤ f ((q - 1) / 2) := h q (by omega)
      have hlt : (q - 1) / 2 < q := by omega
      exact hparent.trans (ih _ hlt)

theorem HeapOrdered.raisedAt (h : HeapOrdered f) (p : Nat) : RaisedAt f p := by
  refine ⟨fun q hq _ => h q hq, ?_⟩
  intro q hp hq hpq
  have hself : f q ≤ f p := hpq ▸ h q hq
  exact hself.trans (h p hp)

theorem RaisedAt.heapOrdered (h : RaisedAt f p) (hp : 0 < p → f p ≤ f ((p - 1) / 2)) :
    HeapOrdered f := by
  intro q hq
  by_cases hqp : q = p
  · subst hqp
    exact hp hq
  · exact h.others q hq hqp

theorem LoweredAt.heapOrdered (h : LoweredAt f p) (hl : f (p * 2 + 1) ≤ f p)
    (hr : f (p * 2 + 2) ≤ f p) : HeapOrdered f := by
  intro q hq
  by_cases hqp : (q - 1) / 2 = p
  · have hside : q = p * 2 + 1 ∨ q = p * 2 + 2 := by omega
    rw [hqp]
    rcases hside with rfl | rfl
    · exact hl
    · exact hr
  · exact h.others q hq hqp

theorem RaisedAt.exchanged (h : RaisedAt f p) (hp : 0 < p) (hlt : f ((p - 1) / 2) < f p) :
    RaisedAt (exchanged f p ((p - 1) / 2)) ((p - 1) / 2) := by
  obtain ⟨m, hm⟩ : ∃ m, m = (p - 1) / 2 := ⟨_, rfl⟩
  rw [← hm] at hlt ⊢
  have hmp : m < p := by omega
  have hover : ∀ q, 0 < m → q = m → f q ≤ f ((m - 1) / 2) := by
    rintro q hm0 rfl
    exact h.others q hm0 (by omega)
  constructor
  · intro q hq hqm
    simp only [Library.exchanged, if_neg hqm]
    by_cases hqp : q = p
    · -- the old parent now stands under the raised entry
      subst hqp
      rw [if_pos rfl, if_pos hm.symm]
      exact hlt.le
    · rw [if_neg hqp]
      by_cases hunder : (q - 1) / 2 = m
      · rw [if_pos hunder]
        have hq' := h.others q hq hqp
        rw [hunder] at hq'
        exact hq'.trans hlt.le
      · rw [if_neg hunder]
        by_cases hunder' : (q - 1) / 2 = p
        · rw [if_pos hunder', hm]
          exact h.across q hp hq hunder'
        · rw [if_neg hunder']
          exact h.others q hq hqp
  · intro q hm0 hq hqm
    have h₁ : (m - 1) / 2 ≠ m := by omega
    have h₂ : (m - 1) / 2 ≠ p := by omega
    have h₃ : q ≠ m := by omega
    simp only [Library.exchanged, if_neg h₁, if_neg h₂, if_neg h₃]
    have hparent := hover m hm0 rfl
    by_cases hqp : q = p
    · rw [if_pos hqp]
      exact hparent
    · rw [if_neg hqp]
      have hq' := h.others q hq hqp
      rw [hqm] at hq'
      exact hq'.trans hparent

/-- Exchanging a lowered position with its greater child moves the disorder down. -/
theorem LoweredAt.exchanged (h : LoweredAt f p) {c : Nat} (hc : c = p * 2 + 1 ∨ c = p * 2 + 2)
    (hlt : f p < f c) (hl : f (p * 2 + 1) ≤ f c) (hr : f (p * 2 + 2) ≤ f c) :
    LoweredAt (exchanged f p c) c := by
  have hcp : (c - 1) / 2 = p := by omega
  have hc0 : 0 < c := by omega
  have hpc : p ≠ c := by omega
  have hsides : ∀ q, 0 < q → (q - 1) / 2 = p → f q ≤ f c := by
    intro q hq hqp
    have hside : q = p * 2 + 1 ∨ q = p * 2 + 2 := by omega
    rcases hside with rfl | rfl
    · exact hl
    · exact hr
  constructor
  · intro q hq hqc
    simp only [Library.exchanged, if_neg hqc]
    by_cases hqp : (q - 1) / 2 = p
    · rw [if_pos hqp]
      split
      · exact hlt.le
      · rw [if_neg (by omega)]
        exact hsides q hq hqp
    · have hne : q ≠ c := fun he => hqp (he ▸ hcp)
      rw [if_neg hqp, if_neg hne]
      by_cases hself : q = p
      · -- the child that moved up stays in order with what is over `p`
        rw [if_pos hself]
        subst hself
        exact h.across c hq hc0 hcp
      · rw [if_neg hself]
        exact h.others q hq hqp
  · intro q _ hq hqc
    have h₁ : q ≠ c := by omega
    have h₂ : q ≠ p := by omega
    simp only [Library.exchanged, hcp, if_neg h₁, if_neg h₂, if_neg hpc, if_true]
    have hq' := h.others q hq (by omega)
    rwa [hqc] at hq'

end Positions

structure Ranked {ι σ κ : Type} [HeapKey ι σ] [LinearOrder σ] [LinearOrder κ]
    (rank : ι × σ → κ) : Prop where
  above_iff : ∀ s x t y, HeapKey.above s x t y = true ↔ rank (y, t) < rank (x, s)
  strictMono : ∀ x : ι, StrictMono fun s : σ => rank (x, s)

def rankAt {α κ : Type} (rank : α → κ) (xs : List α) (q : Nat) : WithBot κ :=
  (xs[q]?).elim ⊥ fun e => (rank e : WithBot κ)

section RankAt

variable {α κ : Type} {rank : α → κ} {xs : List α}

theorem rankAt_of_some {q : Nat} {e : α} (h : xs[q]? = some e) :
    rankAt rank xs q = rank e := by
  rw [rankAt, h]
  rfl

theorem rankAt_of_none {q : Nat} (h : xs[q]? = none) : rankAt rank xs q = ⊥ := by
  rw [rankAt, h]
  rfl

theorem rankAt_of_le {q : Nat} (h : xs.length ≤ q) : rankAt rank xs q = ⊥ :=
  rankAt_of_none (List.getElem?_eq_none h)

theorem rankAt_congr {ys : List α} {p q : Nat} (h : xs[p]? = ys[q]?) :
    rankAt rank xs p = rankAt rank ys q := by
  rw [rankAt, rankAt, h]

theorem rankAt_exchange {a b : Nat} (ha : a < xs.length) (hb : b < xs.length) :
    rankAt rank (exchange xs a b) = exchanged (rankAt rank xs) a b := by
  ext q
  have hget := getElem?_exchange ha hb q
  simp only [exchanged]
  split
  · rename_i hq
    rw [if_pos hq] at hget
    rw [rankAt_congr hget]
  · rename_i hqb
    rw [if_neg hqb] at hget
    split
    · rename_i hq
      rw [if_pos hq] at hget
      rw [rankAt_congr hget]
    · rename_i hqa
      rw [if_neg hqa] at hget
      rw [rankAt_congr hget]

theorem rankAt_dropLast (q : Nat) :
    rankAt rank xs.dropLast q = if q + 1 < xs.length then rankAt rank xs q else ⊥ := by
  have hget : xs.dropLast[q]? = if q < xs.length - 1 then xs[q]? else none :=
    List.getElem?_dropLast
  split
  · rename_i hq
    rw [if_pos (by omega)] at hget
    exact rankAt_congr hget
  · rename_i hq
    rw [if_neg (by omega)] at hget
    exact rankAt_of_none hget

theorem rankAt_append_one (e : α) (q : Nat) :
    rankAt rank (xs ++ [e]) q = if q = xs.length then (rank e : WithBot κ) else rankAt rank xs q := by
  split
  · rename_i hq
    subst hq
    exact rankAt_of_some List.getElem?_concat_length
  · rename_i hq
    by_cases hlt : q < xs.length
    · exact rankAt_congr (List.getElem?_append_left hlt)
    · rw [rankAt_of_le (by rw [List.length_append, List.length_singleton]; omega),
        rankAt_of_le (by omega)]

theorem rankAt_set {p : Nat} (hp : p < xs.length) (e : α) (q : Nat) :
    rankAt rank (xs.set p e) q = if q = p then (rank e : WithBot κ) else rankAt rank xs q := by
  split
  · rename_i hq
    subst hq
    exact rankAt_of_some (List.getElem?_set_self hp)
  · rename_i hq
    exact rankAt_congr (List.getElem?_set_ne (Ne.symm hq))

theorem rankAt_swapRemove {p : Nat} (hp : p < xs.length) (q : Nat) :
    rankAt rank (swapRemove xs p) q =
      if q + 1 < xs.length then
        if q = p then rankAt rank xs (xs.length - 1) else rankAt rank xs q
      else ⊥ := by
  have hget := getElem?_swapRemove hp q
  split
  · rename_i hq
    rw [if_pos hq] at hget
    split
    · rename_i hqp
      rw [if_pos hqp] at hget
      exact rankAt_congr hget
    · rename_i hqp
      rw [if_neg hqp] at hget
      exact rankAt_congr hget
  · rename_i hq
    rw [if_neg hq] at hget
    exact rankAt_of_none hget

end RankAt

section Edits

variable {α κ : Type} [LinearOrder κ] {rank : α → κ} {xs : List α}

theorem HeapOrdered.dropLast (h : HeapOrdered (rankAt rank xs)) :
    HeapOrdered (rankAt rank xs.dropLast) := by
  intro q hq
  rw [rankAt_dropLast, rankAt_dropLast]
  split
  · rw [if_pos (by omega)]
    exact h q hq
  · exact bot_le

theorem HeapOrdered.append_one (h : HeapOrdered (rankAt rank xs)) (e : α) :
    RaisedAt (rankAt rank (xs ++ [e])) xs.length := by
  constructor
  · intro q hq hne
    rw [rankAt_append_one, rankAt_append_one, if_neg hne]
    split
    · rename_i hparent
      rw [rankAt_of_le (by omega)]
      exact bot_le
    · exact h q hq
  · intro q _ hq hparent
    have hpast : xs.length < q := by omega
    rw [rankAt_append_one, if_neg hpast.ne', rankAt_of_le hpast.le]
    exact bot_le

theorem HeapOrdered.raise (h : HeapOrdered (rankAt rank xs)) {p : Nat} (hp : p < xs.length)
    {e : α} (hle : rankAt rank xs p ≤ rank e) : RaisedAt (rankAt rank (xs.set p e)) p := by
  constructor
  · intro q hq hne
    rw [rankAt_set hp, rankAt_set hp, if_neg hne]
    split
    · rename_i hparent
      have hq' := h q hq
      rw [hparent] at hq'
      exact hq'.trans hle
    · exact h q hq
  · intro q hp0 hq hparent
    rw [rankAt_set hp, rankAt_set hp, if_neg (by omega), if_neg (by omega)]
    exact (h.raisedAt p).across q hp0 hq hparent

theorem HeapOrdered.lower (h : HeapOrdered (rankAt rank xs)) {p : Nat} (hp : p < xs.length)
    {e : α} (hle : rank e ≤ rankAt rank xs p) : LoweredAt (rankAt rank (xs.set p e)) p := by
  constructor
  · intro q hq hne
    rw [rankAt_set hp, rankAt_set hp, if_neg hne]
    split
    · rename_i hqp
      subst hqp
      exact hle.trans (h q hq)
    · exact h q hq
  · intro q hp0 hq hparent
    rw [rankAt_set hp, rankAt_set hp, if_neg (by omega), if_neg (by omega)]
    exact (h.raisedAt p).across q hp0 hq hparent

/-- Moving the last entry into a gap leaves it low for its place or high for its place. A high
one ranks over what is under it too. -/
theorem HeapOrdered.swapRemove (h : HeapOrdered (rankAt rank xs)) {p : Nat}
    (hp : p + 1 < xs.length) :
    LoweredAt (rankAt rank (swapRemove xs p)) p ∨
      RaisedAt (rankAt rank (swapRemove xs p)) p ∧
        rankAt rank (swapRemove xs p) (p * 2 + 1) ≤ rankAt rank (swapRemove xs p) p ∧
        rankAt rank (swapRemove xs p) (p * 2 + 2) ≤ rankAt rank (swapRemove xs p) p := by
  obtain ⟨f, hf⟩ : ∃ f, f = rankAt rank (Library.swapRemove xs p) := ⟨_, rfl⟩
  have hat : ∀ q, f q = if q + 1 < xs.length then
      if q = p then rankAt rank xs (xs.length - 1) else rankAt rank xs q else ⊥ := by
    intro q
    rw [hf, rankAt_swapRemove (by omega)]
  rw [← hf]
  have hothers : ∀ q, 0 < q → q ≠ p → (q - 1) / 2 ≠ p → f q ≤ f ((q - 1) / 2) := by
    intro q hq hqp hparent
    rw [hat, hat, if_neg hqp, if_neg hparent]
    split
    · rw [if_pos (by omega)]
      exact h q hq
    · exact bot_le
  have hacross : ∀ q, 0 < p → 0 < q → (q - 1) / 2 = p → f q ≤ f ((p - 1) / 2) := by
    intro q hp0 hq hparent
    rw [hat, hat]
    split
    · rw [if_neg (by omega), if_pos (by omega), if_neg (by omega)]
      exact (h.raisedAt p).across q hp0 hq hparent
    · exact bot_le
  by_cases hlow : 0 < p ∧ f ((p - 1) / 2) < f p
  · have hunder : ∀ q, 0 < q → (q - 1) / 2 = p → f q ≤ f p :=
      fun q hq hparent => (hacross q hlow.1 hq hparent).trans hlow.2.le
    refine .inr ⟨⟨?_, hacross⟩, hunder _ (by omega) (by omega), hunder _ (by omega) (by omega)⟩
    intro q hq hqp
    by_cases hparent : (q - 1) / 2 = p
    · rw [hparent]
      exact hunder q hq hparent
    · exact hothers q hq hqp hparent
  · refine .inl ⟨?_, hacross⟩
    intro q hq hparent
    by_cases hqp : q = p
    · subst hqp
      exact not_lt.mp fun hlt => hlow ⟨hq, hlt⟩
    · exact hothers q hq hqp hparent

end Edits

namespace IndexedHeap

variable {ι σ : Type}

/-- The arrays are parallel, whatever the position table says. -/
def Parallel (h : IndexedHeap ι σ) : Prop := h.scores.length = h.ids.length

theorem length_entries {h : IndexedHeap ι σ} (hpar : h.Parallel) : h.entries.length = h.len := by
  rw [Parallel] at hpar
  simp only [entries, len, List.length_zip, hpar, Nat.min_self]

theorem getElem?_entries {h : IndexedHeap ι σ} {p : Nat} {x : ι} {s : σ}
    (hx : h.ids[p]? = some x) (hs : h.scores[p]? = some s) : h.entries[p]? = some (x, s) := by
  rw [entries, List.getElem?_zip_eq_some]
  exact ⟨hx, hs⟩

theorem exists_entry {h : IndexedHeap ι σ} (hpar : h.Parallel) {p : Nat} (hp : p < h.len) :
    ∃ x s, h.ids[p]? = some x ∧ h.scores[p]? = some s :=
  ⟨_, _, List.getElem?_eq_getElem hp,
    List.getElem?_eq_getElem (lt_of_lt_of_eq hp (Eq.symm hpar))⟩

variable [HeapKey ι σ]

theorem parallel_file {h : IndexedHeap ι σ} (hpar : h.Parallel) (p : Nat) : (h.file p).Parallel := by
  simpa only [Parallel, ids_file, scores_file] using hpar

@[simp] theorem len_swap (h : IndexedHeap ι σ) (a b : Nat) : (h.swap a b).len = h.len := by
  simp only [swap, len_file]
  simp [len]

theorem parallel_swap {h : IndexedHeap ι σ} (hpar : h.Parallel) (a b : Nat) :
    (h.swap a b).Parallel := by
  apply parallel_file
  apply parallel_file
  rw [Parallel] at hpar
  simp only [Parallel, length_exchange, hpar]

theorem entries_swap {h : IndexedHeap ι σ} (hpar : h.Parallel) {a b : Nat} (ha : a < h.len)
    (hb : b < h.len) : (h.swap a b).entries = exchange h.entries a b := by
  simp only [swap, entries_file]
  exact zip_exchange (Eq.symm hpar) ha hb

omit [HeapKey ι σ] in
theorem entries_set_score {h : IndexedHeap ι σ} (hpar : h.Parallel) {p : Nat} {x : ι}
    (hx : h.ids[p]? = some x) (score : σ) :
    ({ h with scores := h.scores.set p score } : IndexedHeap ι σ).entries =
      h.entries.set p (x, score) := by
  have hlt : p < h.ids.length := (List.getElem?_eq_some_iff.mp hx).1
  have hlt' : p < h.scores.length := lt_of_lt_of_eq hlt (Eq.symm hpar)
  have hz : p < h.entries.length := lt_of_lt_of_eq hlt (length_entries hpar).symm
  apply List.ext_getElem?
  intro q
  by_cases hq : q = p
  · subst hq
    rw [List.getElem?_set_self hz]
    exact getElem?_entries hx (List.getElem?_set_self hlt')
  · rw [List.getElem?_set_ne (Ne.symm hq)]
    simp only [entries, List.zip, List.getElem?_zipWith, List.getElem?_set_ne (Ne.symm hq)]

theorem entries_of_popMax_none {h : IndexedHeap ι σ} (hpar : h.Parallel)
    (hp : h.popMax = none) : h.entries = [] := by
  unfold IndexedHeap.popMax at hp
  split at hp
  · cases hp
  · rename_i hnone
    by_contra hne
    have hlen : 0 < h.len := by
      rw [← length_entries hpar]
      exact List.length_pos_of_ne_nil hne
    obtain ⟨x, s, hx, hs⟩ := exists_entry hpar hlen
    exact hnone x s hx hs

theorem ids_of_slotOf [DecidableEq ι] {h : IndexedHeap ι σ} {x : ι} {p : Nat}
    (hs : h.slotOf x = some p) : h.ids[p]? = some x := by
  unfold slotOf at hs
  split at hs
  · cases hs
  · split at hs
    · rename_i hp
      cases Option.some.inj hs
      exact hp
    · cases hs

/-- Holding the same entries in some order, in parallel arrays. -/
structure Shuffles (h' h : IndexedHeap ι σ) : Prop where
  parallel : h'.Parallel
  perm : h'.entries.Perm h.entries
  len_eq : h'.len = h.len

namespace Shuffles

omit [HeapKey ι σ] in
theorem refl {h : IndexedHeap ι σ} (hpar : h.Parallel) : h.Shuffles h := ⟨hpar, .refl _, rfl⟩

omit [HeapKey ι σ] in
theorem trans {h₁ h₂ h₃ : IndexedHeap ι σ} (h₁₂ : h₁.Shuffles h₂) (h₂₃ : h₂.Shuffles h₃) :
    h₁.Shuffles h₃ :=
  ⟨h₁₂.parallel, h₁₂.perm.trans h₂₃.perm, h₁₂.len_eq.trans h₂₃.len_eq⟩

theorem swap {h : IndexedHeap ι σ} (hpar : h.Parallel) {a b : Nat} (ha : a < h.len)
    (hb : b < h.len) : (h.swap a b).Shuffles h :=
  ⟨parallel_swap hpar a b, by rw [entries_swap hpar ha hb]; exact exchange_perm _ _ _,
    len_swap h a b⟩

end Shuffles

variable {κ : Type} [LinearOrder κ] {rank : ι × σ → κ}

def Ordered (rank : ι × σ → κ) (h : IndexedHeap ι σ) : Prop := HeapOrdered (rankAt rank h.entries)

/-- Parallel arrays in heap order: what every operation keeps. -/
structure Heaped (rank : ι × σ → κ) (h : IndexedHeap ι σ) : Prop where
  parallel : h.Parallel
  ordered : h.Ordered rank

omit [HeapKey ι σ] in
theorem heaped_empty : (empty : IndexedHeap ι σ).Heaped rank :=
  ⟨rfl, fun _ _ => le_rfl⟩

variable [LinearOrder σ]

theorem outranks_iff (hrank : Ranked rank) {h : IndexedHeap ι σ} (hpar : h.Parallel) {a b : Nat}
    (hb : b < h.len) :
    h.outranks a b = true ↔ rankAt rank h.entries b < rankAt rank h.entries a := by
  obtain ⟨y, t, hy, ht⟩ := exists_entry hpar hb
  by_cases ha : a < h.len
  · obtain ⟨x, s, hx, hs⟩ := exists_entry hpar ha
    rw [rankAt_of_some (getElem?_entries hx hs), rankAt_of_some (getElem?_entries hy ht),
      WithBot.coe_lt_coe, ← hrank.above_iff s x t y]
    simp only [outranks, hx, hs, hy, ht]
  · have hnone : h.ids[a]? = none := List.getElem?_eq_none (Nat.le_of_not_lt ha)
    have hbot : rankAt rank h.entries a = ⊥ := by
      apply rankAt_of_le
      rw [length_entries hpar]
      exact Nat.le_of_not_lt ha
    have hout : h.outranks a b = false := by
      simp only [outranks, hnone]
      cases h.scores[a]? <;> rfl
    rw [hbot, hout]
    simp

theorem siftUp_ordered (hrank : Ranked rank) (fuel : Nat) : ∀ {h : IndexedHeap ι σ} {p : Nat},
    h.Parallel → p < h.len → p ≤ fuel → RaisedAt (rankAt rank h.entries) p →
    (siftUp fuel h p).Ordered rank ∧ (siftUp fuel h p).Shuffles h := by
  induction fuel with
  | zero =>
    intro h p hpar _ hfuel hraised
    exact ⟨hraised.heapOrdered fun hp => absurd hp (by omega), Shuffles.refl hpar⟩
  | succ fuel ih =>
    intro h p hpar hp hfuel hraised
    unfold siftUp
    by_cases hp0 : 0 < p
    · have hparent : (p - 1) / 2 < h.len := by omega
      have hcmp := outranks_iff hrank hpar (a := p) hparent
      rw [if_pos hp0]
      simp only
      by_cases hout : h.outranks p ((p - 1) / 2) = true
      · rw [if_pos hout]
        have hmoved := hraised.exchanged hp0 (hcmp.mp hout)
        have hentries := entries_swap hpar hp hparent
        rw [← rankAt_exchange (lt_of_lt_of_eq hp (length_entries hpar).symm)
          (lt_of_lt_of_eq hparent (length_entries hpar).symm), ← hentries] at hmoved
        have hshuffle := Shuffles.swap hpar hp hparent
        have hrest := ih hshuffle.parallel (lt_of_lt_of_eq hparent hshuffle.len_eq.symm)
          (by omega) hmoved
        exact ⟨hrest.1, hrest.2.trans hshuffle⟩
      · rw [if_neg hout]
        have hle := not_lt.mp (mt hcmp.mpr hout)
        exact ⟨hraised.heapOrdered fun _ => hle, Shuffles.refl hpar⟩
    · rw [if_neg hp0]
      exact ⟨hraised.heapOrdered fun hp => absurd hp hp0, Shuffles.refl hpar⟩

/-- What `largest` finds: a greatest of a position and its children. -/
structure IsLargest (f : Nat → WithBot κ) (p c : Nat) : Prop where
  side : c = p ∨ c = p * 2 + 1 ∨ c = p * 2 + 2
  self : f p ≤ f c
  left : f (p * 2 + 1) ≤ f c
  right : f (p * 2 + 2) ≤ f c
  moved : c ≠ p → f p < f c

theorem largest_spec (hrank : Ranked rank) {h : IndexedHeap ι σ} (hpar : h.Parallel) {p : Nat}
    (hp : p < h.len) : IsLargest (rankAt rank h.entries) p (h.largest p) := by
  obtain ⟨f, hf⟩ : ∃ f, f = rankAt rank h.entries := ⟨_, rfl⟩
  have hpast : ∀ q, ¬ q < h.len → f q = ⊥ := by
    intro q hq
    rw [hf]
    apply rankAt_of_le
    rw [length_entries hpar]
    omega
  -- a child is taken exactly when it ranks over the best so far
  have htake : ∀ q b, b < h.len → ((q < h.len ∧ h.outranks q b = true) ↔ f b < f q) := by
    intro q b hb
    rw [outranks_iff hrank hpar hb, ← hf]
    constructor
    · exact And.right
    · intro hlt
      refine ⟨?_, hlt⟩
      by_contra hq
      rw [hpast q hq] at hlt
      exact not_lt_bot hlt
  rw [← hf]
  unfold largest
  simp only
  by_cases hl : p * 2 + 1 < h.len ∧ h.outranks (p * 2 + 1) p = true
  · have hpl := (htake _ _ hp).mp hl
    rw [if_pos hl]
    by_cases hr : p * 2 + 1 + 1 < h.len ∧ h.outranks (p * 2 + 1 + 1) (p * 2 + 1) = true
    · have hlr := (htake _ _ hl.1).mp hr
      rw [if_pos hr]
      exact ⟨.inr (.inr rfl), (hpl.trans hlr).le, hlr.le, le_rfl, fun _ => hpl.trans hlr⟩
    · have hlr := not_lt.mp (mt (htake _ _ hl.1).mpr hr)
      rw [if_neg hr]
      exact ⟨.inr (.inl rfl), hpl.le, le_rfl, hlr, fun _ => hpl⟩
  · have hpl := not_lt.mp (mt (htake _ _ hp).mpr hl)
    rw [if_neg hl]
    by_cases hr : p * 2 + 1 + 1 < h.len ∧ h.outranks (p * 2 + 1 + 1) p = true
    · have hpr := (htake _ _ hp).mp hr
      rw [if_pos hr]
      exact ⟨.inr (.inr rfl), hpr.le, hpl.trans hpr.le, le_rfl, fun _ => hpr⟩
    · have hpr := not_lt.mp (mt (htake _ _ hp).mpr hr)
      rw [if_neg hr]
      exact ⟨.inl rfl, le_rfl, hpl, hpr, fun h => absurd rfl h⟩

theorem siftDown_ordered (hrank : Ranked rank) (fuel : Nat) : ∀ {h : IndexedHeap ι σ} {p : Nat},
    h.Parallel → p < h.len → h.len ≤ fuel + p → LoweredAt (rankAt rank h.entries) p →
    (siftDown fuel h p).Ordered rank ∧ (siftDown fuel h p).Shuffles h := by
  induction fuel with
  | zero =>
    intro h p _ hp hfuel
    omega
  | succ fuel ih =>
    intro h p hpar hp hfuel hlowered
    have hlargest := largest_spec hrank hpar hp
    have hlt := largest_lt hp
    unfold siftDown
    simp only
    by_cases hnext : h.largest p = p
    · rw [if_pos hnext]
      rw [hnext] at hlargest
      exact ⟨hlowered.heapOrdered hlargest.left hlargest.right, Shuffles.refl hpar⟩
    · rw [if_neg hnext]
      have hside := hlargest.side.resolve_left hnext
      have hmoved := hlowered.exchanged hside (hlargest.moved hnext) hlargest.left hlargest.right
      have hentries := entries_swap hpar hp hlt
      rw [← rankAt_exchange (lt_of_lt_of_eq hp (length_entries hpar).symm)
        (lt_of_lt_of_eq hlt (length_entries hpar).symm), ← hentries] at hmoved
      have hshuffle := Shuffles.swap hpar hp hlt
      have hrest := ih hshuffle.parallel (lt_of_lt_of_eq hlt hshuffle.len_eq.symm)
        (by rw [hshuffle.len_eq]; omega) hmoved
      exact ⟨hrest.1, hrest.2.trans hshuffle⟩

theorem Heaped.removeAt (hrank : Ranked rank) {h : IndexedHeap ι σ} (hh : h.Heaped rank)
    {p : Nat} {x : ι} {s : σ} (hx : h.ids[p]? = some x) (hs : h.scores[p]? = some s) :
    (h.removeAt p).Heaped rank ∧ ((x, s) :: (h.removeAt p).entries).Perm h.entries := by
  have hpar := hh.parallel
  have hlt : p < h.ids.length := (List.getElem?_eq_some_iff.mp hx).1
  have hz : p < h.entries.length := lt_of_lt_of_eq hlt (length_entries hpar).symm
  have hget : h.entries[p] = (x, s) :=
    (List.getElem?_eq_some_iff.mp (getElem?_entries hx hs)).2
  have hperm := swapRemove_perm hz
  have hzip := zip_swapRemove (Eq.symm hpar) hlt
  rw [hget] at hperm
  unfold IndexedHeap.removeAt
  rw [hx]
  simp only
  split
  · rename_i hlast
    rw [len] at hlast
    have hlast' : p = h.scores.length - 1 := by rw [hlast, hpar]
    have hcut : h.ids.dropLast.zip h.scores.dropLast = Library.swapRemove h.entries p := by
      rw [entries, ← hzip]
      nth_rewrite 1 [hlast]
      rw [swapRemove_last, hlast', swapRemove_last]
    have hdrop : Library.swapRemove h.entries p = h.entries.dropLast := by
      rw [← swapRemove_last, length_entries hpar, len, hlast]
    refine ⟨⟨?_, ?_⟩, ?_⟩
    · simp only [Parallel, List.length_dropLast]
      rw [hpar]
    · simp only [Ordered, entries]
      rw [hcut, hdrop]
      exact hh.ordered.dropLast
    · simp only [entries]
      rw [hcut]
      exact hperm
  · rename_i hlast
    rw [len] at hlast
    obtain ⟨moved, hmoved⟩ : ∃ moved : IndexedHeap ι σ, moved = file (⟨Library.swapRemove h.scores p,
      Library.swapRemove h.ids p, h.positions.set (h.row x) none⟩ : IndexedHeap ι σ) p := ⟨_, rfl⟩
    have hentries : moved.entries = Library.swapRemove h.entries p := by
      rw [hmoved, entries_file]
      exact hzip
    have hparm : moved.Parallel := by
      rw [hmoved]
      apply parallel_file
      simp only [Parallel, length_swapRemove]
      rw [hpar]
    have hplen : p < moved.len := by
      rw [← length_entries hparm, hentries, length_swapRemove, length_entries hpar, len]
      omega
    rw [← hmoved]
    have hsunk : (siftUp p (siftDown moved.len moved p) p).Ordered rank ∧
        (siftUp p (siftDown moved.len moved p) p).Shuffles moved := by
      have hends := hh.ordered.swapRemove (p := p) (by rw [length_entries hpar, len]; omega)
      rw [← hentries] at hends
      rcases hends with hlow | ⟨hhigh, hl, hr⟩
      · have hdown := siftDown_ordered hrank moved.len hparm hplen (by omega) hlow
        have hup := siftUp_ordered hrank p hdown.2.parallel
          (lt_of_lt_of_eq hplen hdown.2.len_eq.symm) le_rfl (hdown.1.raisedAt p)
        exact ⟨hup.1, hup.2.trans hdown.2⟩
      · -- nothing under the moved entry ranks over it, so it does not sink
        have hstays : siftDown moved.len moved p = moved := by
          have hlargest := largest_spec hrank hparm hplen
          have hself : moved.largest p = p := by
            by_contra hne
            have hlt := hlargest.moved hne
            rcases hlargest.side.resolve_left hne with hside | hside
            · rw [hside] at hlt
              exact absurd hl hlt.not_ge
            · rw [hside] at hlt
              exact absurd hr hlt.not_ge
          cases moved.len with
          | zero => rfl
          | succ fuel => rw [siftDown, if_pos hself]
        rw [hstays]
        exact siftUp_ordered hrank p hparm hplen le_rfl hhigh
    have hall : ((x, s) :: (siftUp p (siftDown moved.len moved p) p).entries).Perm h.entries := by
      have hkeep := hsunk.2.perm
      rw [hentries] at hkeep
      exact (hkeep.cons _).trans hperm
    exact ⟨⟨hsunk.2.parallel, hsunk.1⟩, hall⟩

theorem Heaped.popMax (hrank : Ranked rank) {h h' : IndexedHeap ι σ} (hh : h.Heaped rank)
    {e : ι × σ} (hp : h.popMax = some (e, h')) :
    h'.Heaped rank ∧ (e :: h'.entries).Perm h.entries ∧ ∀ d ∈ h.entries, rank d ≤ rank e := by
  unfold IndexedHeap.popMax at hp
  split at hp
  · rename_i x s hx hs
    simp only [Option.some.injEq, Prod.mk.injEq] at hp
    obtain ⟨rfl, rfl⟩ := hp
    have hrest := hh.removeAt hrank hx hs
    refine ⟨hrest.1, hrest.2, ?_⟩
    intro d hd
    obtain ⟨q, hq⟩ := List.getElem?_of_mem hd
    have hroot := hh.ordered.le_root q
    rw [rankAt_of_some hq, rankAt_of_some (getElem?_entries hx hs)] at hroot
    exact WithBot.coe_le_coe.mp hroot
  · cases hp

variable [DecidableEq ι]

theorem Heaped.remove (hrank : Ranked rank) {h : IndexedHeap ι σ} (hh : h.Heaped rank) (x : ι) :
    (h.remove x).1.Heaped rank := by
  unfold IndexedHeap.remove
  cases hs : h.slotOf x with
  | none => exact hh
  | some p =>
    have hx := ids_of_slotOf hs
    have hlt : p < h.len := (List.getElem?_eq_some_iff.mp hx).1
    obtain ⟨_, s, -, hs⟩ := exists_entry hh.parallel hlt
    exact (hh.removeAt hrank hx hs).1

theorem Heaped.update (hrank : Ranked rank) {h h' : IndexedHeap ι σ} (hh : h.Heaped rank) {x : ι}
    {score : σ} (hu : h.update x score = some h') : h'.Heaped rank := by
  unfold IndexedHeap.update at hu
  split at hu
  · cases hu
  · rename_i p hp
    have hx := ids_of_slotOf hp
    have hlt : p < h.len := (List.getElem?_eq_some_iff.mp hx).1
    split at hu
    · cases hu
    · rename_i previous hprev
      have hz : p < h.entries.length := lt_of_lt_of_eq hlt (length_entries hh.parallel).symm
      have hold : rankAt rank h.entries p = rank (x, previous) :=
        rankAt_of_some (getElem?_entries hx hprev)
      obtain ⟨h₁, hh₁⟩ : ∃ h₁ : IndexedHeap ι σ, h₁ = { h with scores := h.scores.set p score } :=
        ⟨_, rfl⟩
      have hpar₁ : h₁.Parallel := by
        rw [hh₁]
        simpa only [Parallel, List.length_set] using hh.parallel
      have hentries : h₁.entries = h.entries.set p (x, score) := by
        rw [hh₁]
        exact entries_set_score hh.parallel hx score
      have hlt₁ : p < h₁.len := by
        rw [hh₁]
        exact hlt
      rw [← hh₁] at hu
      simp only at hu
      split at hu
      · rename_i hup
        cases Option.some.inj hu
        have hraised := hh.ordered.raise (e := (x, score)) hz
          (by rw [hold]; exact WithBot.coe_le_coe.mpr (hrank.strictMono x hup).le)
        rw [← hentries] at hraised
        have hdone := siftUp_ordered hrank p hpar₁ hlt₁ le_rfl hraised
        exact ⟨hdone.2.parallel, hdone.1⟩
      · split at hu
        · rename_i hdown
          cases Option.some.inj hu
          have hlowered := hh.ordered.lower (e := (x, score)) hz
            (by rw [hold]; exact WithBot.coe_le_coe.mpr (hrank.strictMono x hdown).le)
          rw [← hentries] at hlowered
          have hdone := siftDown_ordered hrank h₁.len hpar₁ hlt₁ (by omega) hlowered
          exact ⟨hdone.2.parallel, hdone.1⟩
        · rename_i hup hdown
          cases Option.some.inj hu
          have hsame : score = previous := le_antisymm (not_lt.mp hup) (not_lt.mp hdown)
          refine ⟨hpar₁, ?_⟩
          have hkeep : h.entries.set p (x, score) = h.entries := by
            rw [hsame, ← (List.getElem?_eq_some_iff.mp (getElem?_entries hx hprev)).2]
            exact List.set_getElem_self hz
          rw [Ordered, hentries, hkeep]
          exact hh.ordered

theorem Heaped.push (hrank : Ranked rank) {h : IndexedHeap ι σ} (hh : h.Heaped rank) (x : ι)
    (score : σ) : (h.push x score).Heaped rank := by
  unfold IndexedHeap.push
  split
  · rename_i h' hu
    exact hh.update hrank hu
  · obtain ⟨grown, hgrown⟩ : ∃ grown : IndexedHeap ι σ, grown = file (⟨h.scores ++ [score],
      h.ids ++ [x], Table.reserve none (h.row x + 1) h.positions⟩ : IndexedHeap ι σ) h.len :=
      ⟨_, rfl⟩
    simp only
    rw [← hgrown]
    have hentries : grown.entries = h.entries ++ [(x, score)] := by
      rw [hgrown, entries_file]
      exact List.zip_append (Eq.symm hh.parallel)
    have hpar : grown.Parallel := by
      rw [hgrown]
      apply parallel_file
      simp only [Parallel, List.length_append, List.length_singleton]
      rw [hh.parallel]
    have hlen : grown.len = h.len + 1 := by
      rw [hgrown]
      simp [len]
    have hraised := hh.ordered.append_one (x, score)
    rw [← hentries, length_entries hh.parallel] at hraised
    have hdone := siftUp_ordered hrank h.len hpar (by omega) le_rfl hraised
    exact ⟨hdone.2.parallel, hdone.1⟩

end IndexedHeap

end TaskerRT.Library
