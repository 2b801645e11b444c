/- module: TaskerRT/Policy/ReadyOrder
   source: crates/tasker-core/src/policy/ready_set.rs, crates/tasker-core/src/policy/priority.rs
   digest: Draining a ready set takes its greatest entries, in order. -/

import Mathlib.Data.List.Sort
import Mathlib.Data.Prod.Lex
import TaskerRT.Library.HeapOrder
import TaskerRT.Policy.ReadySet

set_option autoImplicit false

namespace TaskerRT.Policy

open Library Domain

/-- `a` ranks at or before `b`: the higher class, then the higher score, then the lower handle. -/
def ReadyEntry.Ahead (a b : ReadyEntry) : Prop :=
  b.priorityClass.ordinal < a.priorityClass.ordinal ∨
    a.priorityClass = b.priorityClass ∧
      (b.score < a.score ∨ a.score = b.score ∧ a.job.bits ≤ b.job.bits)

namespace ReadyEntry

instance (a b : ReadyEntry) : Decidable (a.Ahead b) := inferInstanceAs (Decidable (_ ∨ _ ∧ _))

def heapRank (e : JobId × Score) : Score ×ₗ (Word 64)ᵒᵈ := toLex (e.2, OrderDual.toDual e.1.bits)

private theorem heapRank_le_iff {d e : JobId × Score} :
    heapRank d ≤ heapRank e ↔ d.2 < e.2 ∨ d.2 = e.2 ∧ e.1.bits ≤ d.1.bits :=
  Prod.Lex.le_iff

private theorem heapRank_lt_iff {d e : JobId × Score} :
    heapRank d < heapRank e ↔ d.2 < e.2 ∨ d.2 = e.2 ∧ e.1.bits < d.1.bits :=
  Prod.Lex.lt_iff

theorem ranked_heapRank : Ranked heapRank where
  above_iff s x t y := by
    rw [heapRank_lt_iff]
    show ((OrderKey.new t y).lt (OrderKey.new s x)) = true ↔ _
    simp only [OrderKey.lt, OrderKey.new, Bool.or_eq_true, Bool.and_eq_true, beq_iff_eq]
    exact or_congr decide_eq_true_iff (and_congr_right' decide_eq_true_iff)
  strictMono x s t h := heapRank_lt_iff.mpr (.inl h)

theorem ahead_iff {a b : ReadyEntry} : a.Ahead b ↔
    b.priorityClass.ordinal < a.priorityClass.ordinal ∨
      a.priorityClass = b.priorityClass ∧ heapRank (b.job, b.score) ≤ heapRank (a.job, a.score) := by
  rw [heapRank_le_iff]
  constructor
  · rintro (h | ⟨hclass, h⟩)
    · exact .inl h
    · exact .inr ⟨hclass, h.imp_right fun h => ⟨h.1.symm, h.2⟩⟩
  · rintro (h | ⟨hclass, h⟩)
    · exact .inl h
    · exact .inr ⟨hclass, h.imp_right fun h => ⟨h.1.symm, h.2⟩⟩

theorem Ahead.trans {a b c : ReadyEntry} (hab : a.Ahead b) (hbc : b.Ahead c) : a.Ahead c := by
  rw [ahead_iff] at hab hbc ⊢
  rcases hab with hab | ⟨hab, hle⟩
  · rcases hbc with hbc | ⟨hbc, -⟩
    · exact .inl (hbc.trans hab)
    · exact .inl (hbc ▸ hab)
  · rcases hbc with hbc | ⟨hbc, hle'⟩
    · exact .inl (hab ▸ hbc)
    · exact .inr ⟨hab.trans hbc, hle'.trans hle⟩

theorem Ahead.total (a b : ReadyEntry) : a.Ahead b ∨ b.Ahead a := by
  rw [ahead_iff, ahead_iff]
  rcases lt_trichotomy a.priorityClass.ordinal b.priorityClass.ordinal with hlt | heq | hlt
  · exact .inr (.inl hlt)
  · have hclass := PriorityClass.ordinal_injective heq
    exact (le_total (heapRank (b.job, b.score)) (heapRank (a.job, a.score))).imp
      (fun h => .inr ⟨hclass, h⟩) fun h => .inr ⟨hclass.symm, h⟩
  · exact .inl (.inl hlt)

private theorem Ahead.antisymm {a b : ReadyEntry} (hab : a.Ahead b) (hba : b.Ahead a) : a = b := by
  rcases hab with hab | ⟨hclass, hab⟩
  · rcases hba with hba | ⟨hclass, -⟩
    · exact absurd hab hba.asymm
    · rw [hclass] at hab
      exact absurd hab (lt_irrefl _)
  · rcases hba with hba | ⟨-, hba⟩
    · rw [hclass] at hba
      exact absurd hba (lt_irrefl _)
    · rcases hab with hab | ⟨hscore, hab⟩
      · rcases hba with hba | ⟨hscore, -⟩
        · exact absurd hab hba.asymm
        · rw [hscore] at hab
          exact absurd hab (lt_irrefl _)
      · rcases hba with hba | ⟨-, hba⟩
        · rw [hscore] at hba
          exact absurd hba (lt_irrefl _)
        · have hbits : a.job.bits = b.job.bits := le_antisymm hab hba
          obtain ⟨ca, ⟨xa⟩, sa⟩ := a
          obtain ⟨cb, ⟨xb⟩, sb⟩ := b
          simp_all

instance : Std.Total ReadyEntry.Ahead := ⟨Ahead.total⟩

instance : IsTrans ReadyEntry ReadyEntry.Ahead := ⟨fun _ _ _ => Ahead.trans⟩

end ReadyEntry

private theorem eq_of_ahead {xs ys : List ReadyEntry} (hperm : xs.Perm ys)
    (hx : xs.Pairwise ReadyEntry.Ahead) (hy : ys.Pairwise ReadyEntry.Ahead) : xs = ys :=
  hperm.eq_of_pairwise (fun _ _ _ _ => ReadyEntry.Ahead.antisymm) hx hy

namespace ReadySet

/-- The sets that the operations build. -/
inductive Built : ReadySet → Prop where
  | new : Built new
  | insert {r : ReadySet} (h : Built r) (c : PriorityClass) (job : JobId) (score : Score) :
      Built (r.insert c job score)
  | remove {r : ReadySet} (h : Built r) (c : PriorityClass) (job : JobId) :
      Built (r.remove c job).1
  | popNext {r rest : ReadySet} {entry : ReadyEntry} (h : Built r)
      (hpop : r.popNext = some (entry, rest)) : Built rest

def entriesOf (r : ReadySet) (c : PriorityClass) : List ReadyEntry :=
  (r.buckets c).entries.map fun e => ⟨c, e.1, e.2⟩

def entries (r : ReadySet) : List ReadyEntry := PriorityClass.all.flatMap r.entriesOf

/-- The `limit` greatest entries of the set, greatest first. -/
def greatest (r : ReadySet) (limit : Nat) : List ReadyEntry :=
  (r.entries.insertionSort ReadyEntry.Ahead).take limit

def Heaped (r : ReadySet) : Prop := ∀ c, (r.buckets c).Heaped ReadyEntry.heapRank

private theorem mem_entries {r : ReadySet} {e : ReadyEntry} :
    e ∈ r.entries ↔ e ∈ r.entriesOf e.priorityClass := by
  unfold entries
  rw [List.mem_flatMap]
  constructor
  · rintro ⟨c, -, he⟩
    obtain ⟨d, hd, rfl⟩ := List.mem_map.mp he
    exact he
  · intro he
    exact ⟨_, PriorityClass.mem_all _, he⟩

private theorem Heaped.setBucket {r : ReadySet} (h : r.Heaped) (c : PriorityClass)
    {heap : PriorityHeap}
    (hheap : heap.Heaped ReadyEntry.heapRank) : (r.setBucket c heap).Heaped := by
  intro d
  rw [buckets_setBucket]
  split
  · exact hheap
  · exact h d

/-- Where a pop over some classes comes from: the first of them that holds anything. -/
private theorem popFrom_eq_some {r r' : ReadySet} {e : ReadyEntry} {classes : List PriorityClass}
    (h : r.popFrom classes = some (e, r')) :
    ∃ before after heap, classes = before ++ e.priorityClass :: after ∧
      (∀ c ∈ before, (r.buckets c).popMax = none) ∧
      (r.buckets e.priorityClass).popMax = some ((e.job, e.score), heap) ∧
      r' = r.setBucket e.priorityClass heap := by
  induction classes with
  | nil => cases h
  | cons c classes ih =>
    unfold popFrom at h
    split at h
    · rename_i job score heap hpop
      simp only [Option.some.injEq, Prod.mk.injEq] at h
      obtain ⟨rfl, rfl⟩ := h
      exact ⟨[], classes, heap, rfl, fun _ h => (nomatch h), hpop, rfl⟩
    · rename_i hnone
      obtain ⟨before, after, heap, rfl, hbefore, hrest⟩ := ih h
      refine ⟨c :: before, after, heap, rfl, ?_, hrest⟩
      intro d hd
      rcases List.mem_cons.mp hd with rfl | hd
      · exact hnone
      · exact hbefore d hd

private theorem popFrom_eq_none {r : ReadySet} {classes : List PriorityClass}
    (h : r.popFrom classes = none) : ∀ c ∈ classes, (r.buckets c).popMax = none := by
  induction classes with
  | nil => exact fun _ h => (nomatch h)
  | cons c classes ih =>
    unfold popFrom at h
    split at h
    · cases h
    · rename_i hnone
      intro d hd
      rcases List.mem_cons.mp hd with rfl | hd
      · exact hnone
      · exact ih h d hd

private theorem entries_setBucket {r : ReadySet} {e : ReadyEntry} {heap : PriorityHeap}
    (h : ((e.job, e.score) :: heap.entries).Perm (r.buckets e.priorityClass).entries) :
    (e :: (r.setBucket e.priorityClass heap).entries).Perm r.entries := by
  obtain ⟨c, job, score⟩ := e
  have hbucket := h.map fun d : JobId × Score => (⟨c, d.1, d.2⟩ : ReadyEntry)
  rw [List.perm_iff_count] at hbucket ⊢
  intro x
  have hx := hbucket x
  simp only [List.map_cons, List.count_cons] at hx
  cases c <;>
  · simp only [entries, PriorityClass.all, entriesOf, List.flatMap_cons, List.flatMap_nil,
      List.count_cons, List.count_append, List.count_nil, buckets_setBucket, reduceCtorEq,
      if_true, if_false] at hx ⊢
    omega

private theorem entries_of_popNext_none {r : ReadySet} (h : r.Heaped) (hpop : r.popNext = none) :
    r.entries = [] := by
  have hnone := popFrom_eq_none hpop
  apply List.eq_nil_iff_forall_not_mem.mpr
  intro e he
  have hclass := hnone e.priorityClass (List.mem_reverse.mpr (PriorityClass.mem_all _))
  have hempty := IndexedHeap.entries_of_popMax_none (h e.priorityClass).parallel hclass
  have he' := mem_entries.mp he
  rw [entriesOf, hempty] at he'
  exact nomatch he'

private theorem popNext_greatest {r r' : ReadySet} (h : r.Heaped) {e : ReadyEntry}
    (hpop : r.popNext = some (e, r')) :
    r'.Heaped ∧ (e :: r'.entries).Perm r.entries ∧ ∀ d ∈ r.entries, e.Ahead d := by
  obtain ⟨before, after, heap, hclasses, hbefore, hmax, rfl⟩ := popFrom_eq_some hpop
  obtain ⟨hheap, hperm, hgreatest⟩ := (h e.priorityClass).popMax ReadyEntry.ranked_heapRank hmax
  refine ⟨h.setBucket _ hheap, entries_setBucket hperm, ?_⟩
  intro d hd
  have hd' := mem_entries.mp hd
  obtain ⟨f, hf, hfd⟩ := List.mem_map.mp hd'
  have hin : d.priorityClass ∈ before ++ e.priorityClass :: after :=
    hclasses ▸ List.mem_reverse.mpr (PriorityClass.mem_all _)
  rcases List.mem_append.mp hin with hin | hin
  · -- the classes above hold nothing
    have hempty := IndexedHeap.entries_of_popMax_none (h d.priorityClass).parallel (hbefore _ hin)
    rw [hempty] at hf
    exact nomatch hf
  rw [ReadyEntry.ahead_iff]
  rcases List.mem_cons.mp hin with hsame | hin
  · refine .inr ⟨hsame.symm, ?_⟩
    rw [hsame] at hf
    have hle := hgreatest f hf
    rw [← hfd]
    exact hle
  · have hdown : (PriorityClass.all.reverse).Pairwise fun c d => d.ordinal < c.ordinal := by
      decide
    rw [hclasses, List.pairwise_append] at hdown
    exact .inl ((List.pairwise_cons.mp hdown.2.1).1 _ hin)

theorem Built.heaped {r : ReadySet} (h : r.Built) : r.Heaped := by
  induction h with
  | new => exact fun _ => IndexedHeap.heaped_empty
  | insert _ c job score ih =>
    exact ih.setBucket c ((ih c).push ReadyEntry.ranked_heapRank job score)
  | remove _ c job ih => exact ih.setBucket c ((ih c).remove ReadyEntry.ranked_heapRank job)
  | popNext _ hpop ih => exact (popNext_greatest ih hpop).1

theorem drainOrdered_greatest {limit : Nat} : ∀ {r : ReadySet}, r.Heaped →
    (drainOrdered limit r).1 = r.greatest limit := by
  induction limit with
  | zero => exact fun _ => rfl
  | succ limit ih =>
    intro r h
    unfold drainOrdered
    cases hpop : r.popNext with
    | none =>
      rw [greatest, entries_of_popNext_none h hpop]
      rfl
    | some out =>
      obtain ⟨e, r'⟩ := out
      obtain ⟨hheaped, hperm, hahead⟩ := popNext_greatest h hpop
      have hsorted : r.entries.insertionSort ReadyEntry.Ahead =
          e :: r'.entries.insertionSort ReadyEntry.Ahead := by
        apply eq_of_ahead
        · exact (List.perm_insertionSort _ _).trans
            (hperm.symm.trans ((List.perm_insertionSort _ _).symm.cons e))
        · exact List.pairwise_insertionSort _ _
        · refine List.pairwise_cons.mpr ⟨?_, List.pairwise_insertionSort _ _⟩
          intro d hd
          have hd' := (List.mem_insertionSort _).mp hd
          exact hahead d (hperm.subset (List.mem_cons_of_mem _ hd'))
      rw [greatest, hsorted, List.take_succ_cons]
      simp only
      rw [ih hheaped, greatest]

end ReadySet

end TaskerRT.Policy
