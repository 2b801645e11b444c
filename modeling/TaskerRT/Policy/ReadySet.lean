/- module: TaskerRT/Policy/ReadySet
   source: crates/tasker-core/src/policy/ready_set.rs
   digest: One indexed heap per priority class, drained highest class first. -/

import TaskerRT.Policy.FairShare
import TaskerRT.Library.IndexedHeap

set_option autoImplicit false

namespace TaskerRT.Policy

open Library Domain

/-- Heaps file a job under its arena index and rank by `OrderKey`. -/
instance : HeapKey JobId Score where
  index := JobId.slot
  above s x t y := (OrderKey.new t y).lt (OrderKey.new s x)

/-- Max-heap over `OrderKey` with update and removal by `JobId`. -/
abbrev PriorityHeap := IndexedHeap JobId Score

/-- A job's position in the ready set. -/
structure ReadyEntry where
  priorityClass : PriorityClass
  job : JobId
  score : Score
  deriving DecidableEq, Repr

/-- One `PriorityHeap` per class. Class strictly dominates score. -/
structure ReadySet where
  buckets : PriorityClass → PriorityHeap

namespace ReadySet

def new : ReadySet := ⟨fun _ => IndexedHeap.empty⟩

def setBucket (r : ReadySet) (c : PriorityClass) (heap : PriorityHeap) : ReadySet :=
  ⟨fun d => if d = c then heap else r.buckets d⟩

def insert (r : ReadySet) (c : PriorityClass) (job : JobId) (score : Score) : ReadySet :=
  r.setBucket c ((r.buckets c).push job score)

/-- Removes a job from its class bucket. False if absent. -/
def remove (r : ReadySet) (c : PriorityClass) (job : JobId) : ReadySet × Bool :=
  let out := (r.buckets c).remove job
  (r.setBucket c out.1, out.2)

def len (r : ReadySet) : Nat := (PriorityClass.all.map fun c => (r.buckets c).len).sum

/-- Pops the first non-empty bucket of a list of classes. -/
def popFrom (r : ReadySet) : List PriorityClass → Option (ReadyEntry × ReadySet)
  | [] => none
  | c :: classes =>
    match (r.buckets c).popMax with
    | some ((job, score), heap) => some (⟨c, job, score⟩, r.setBucket c heap)
    | none => popFrom r classes

/-- Removes and returns the next entry, highest class first. -/
def popNext (r : ReadySet) : Option (ReadyEntry × ReadySet) := r.popFrom PriorityClass.all.reverse

/-- Moves up to `limit` entries, in priority order, out of the set. -/
def drainOrdered : Nat → ReadySet → List ReadyEntry × ReadySet
  | 0, r => ([], r)
  | limit + 1, r =>
    match r.popNext with
    | none => ([], r)
    | some (entry, r) =>
      let out := drainOrdered limit r
      (entry :: out.1, out.2)

def reinsert (r : ReadySet) (entry : ReadyEntry) : ReadySet :=
  r.insert entry.priorityClass entry.job entry.score

def Holds (r : ReadySet) (c : PriorityClass) (job : JobId) : Prop := job ∈ (r.buckets c).ids

def Wf (r : ReadySet) : Prop := ∀ c, (r.buckets c).Wf

theorem wf_new : new.Wf := fun _ => IndexedHeap.wf_empty

theorem not_holds_new (c : PriorityClass) (job : JobId) : ¬ new.Holds c job := by
  simp [Holds, new, IndexedHeap.empty]

@[simp] theorem buckets_setBucket (r : ReadySet) (c d : PriorityClass) (heap : PriorityHeap) :
    (r.setBucket c heap).buckets d = if d = c then heap else r.buckets d := rfl

theorem setBucket_buckets (r : ReadySet) (c : PriorityClass) : r.setBucket c (r.buckets c) = r := by
  have hbuckets : (r.setBucket c (r.buckets c)).buckets = r.buckets := by
    ext1 d
    rw [buckets_setBucket]
    split
    · rename_i hd
      rw [hd]
    · rfl
  exact congrArg ReadySet.mk hbuckets

private theorem Wf.setBucket {r : ReadySet} (h : r.Wf) (c : PriorityClass) {heap : PriorityHeap}
    (hw : heap.Wf) : (r.setBucket c heap).Wf := by
  intro d
  rw [buckets_setBucket]
  split
  · exact hw
  · exact h d

theorem insert_spec {r : ReadySet} (h : r.Wf) {c : PriorityClass} {job : JobId} {score : Score}
    (hslot : ∀ y, r.Holds c y → y.slot = job.slot → y = job) :
    (r.insert c job score).Wf ∧
      ∀ d y, (r.insert c job score).Holds d y ↔ (d = c ∧ y = job) ∨ r.Holds d y := by
  obtain ⟨hw, hmem, _⟩ := IndexedHeap.push_spec (h c) job score hslot
  refine ⟨h.setBucket c hw, fun d y => ?_⟩
  unfold Holds insert
  rw [buckets_setBucket]
  by_cases hd : d = c
  · subst hd
    rw [if_pos rfl, hmem]
    simp
  · rw [if_neg hd]
    simp [hd]

theorem remove_spec {r : ReadySet} (h : r.Wf) (c : PriorityClass) (job : JobId) :
    (r.remove c job).1.Wf ∧
      ∀ d y, (r.remove c job).1.Holds d y ↔ r.Holds d y ∧ ¬ (d = c ∧ y = job) := by
  obtain ⟨hw, hmem⟩ := IndexedHeap.remove_spec (h c) job
  refine ⟨h.setBucket c hw, fun d y => ?_⟩
  unfold Holds remove
  simp only [buckets_setBucket]
  by_cases hd : d = c
  · subst hd
    rw [if_pos rfl, hmem]
    simp
  · rw [if_neg hd]
    simp [hd]

private theorem popFrom_spec {r r' : ReadySet} (h : r.Wf) {e : ReadyEntry}
    {classes : List PriorityClass} (hp : r.popFrom classes = some (e, r')) :
    r'.Wf ∧ r.Holds e.priorityClass e.job ∧
      ∀ d y, r'.Holds d y ↔ r.Holds d y ∧ ¬ (d = e.priorityClass ∧ y = e.job) := by
  induction classes with
  | nil => cases hp
  | cons c classes ih =>
    unfold popFrom at hp
    split at hp
    · rename_i job score heap hpop
      simp only [Option.some.injEq, Prod.mk.injEq] at hp
      obtain ⟨rfl, rfl⟩ := hp
      obtain ⟨hw, hperm⟩ := IndexedHeap.popMax_spec (h c) hpop
      have hids : (job :: heap.ids).Perm (r.buckets c).ids := by
        have := hperm.map Prod.fst
        rwa [List.map_cons, ← IndexedHeap.ids_eq_map_entries hw.parallel,
          ← IndexedHeap.ids_eq_map_entries (h c).parallel] at this
      have hnd := hids.nodup_iff.mpr (h c).nodup
      rw [List.nodup_cons] at hnd
      refine ⟨h.setBucket c hw, hids.subset List.mem_cons_self, fun d y => ?_⟩
      unfold Holds
      rw [buckets_setBucket]
      by_cases hd : d = c
      · subst hd
        rw [if_pos rfl, ← hids.mem_iff, List.mem_cons]
        constructor
        · intro hy
          exact ⟨Or.inr hy, fun he => hnd.1 ((show y = job from he.2) ▸ hy)⟩
        · rintro ⟨hy | hy, hne⟩
          · exact absurd ⟨rfl, hy⟩ hne
          · exact hy
      · rw [if_neg hd]
        simp [hd]
    · exact ih hp

/-- Draining splits the set: the drained entries, each once, and the rest. -/
structure Drained (r : ReadySet) (entries : List ReadyEntry) (rest : ReadySet) : Prop where
  wf : rest.Wf
  nodup : (entries.map fun e => (e.priorityClass, e.job)).Nodup
  mem : ∀ e ∈ entries, r.Holds e.priorityClass e.job
  rest_iff : ∀ c y, rest.Holds c y ↔
    r.Holds c y ∧ ∀ e ∈ entries, ¬ (e.priorityClass = c ∧ e.job = y)

theorem drainOrdered_spec {limit : Nat} : ∀ {r : ReadySet}, r.Wf →
    r.Drained (drainOrdered limit r).1 (drainOrdered limit r).2 := by
  induction limit with
  | zero => exact fun h => ⟨h, by simp [drainOrdered], by simp [drainOrdered],
      by simp [drainOrdered]⟩
  | succ limit ih =>
    intro r h
    unfold drainOrdered
    cases hp : r.popNext with
    | none => exact ⟨h, by simp, by simp, by simp⟩
    | some out =>
      obtain ⟨e, r'⟩ := out
      obtain ⟨hw, hmem, hiff⟩ := popFrom_spec h hp
      have hd := ih hw
      simp only
      refine ⟨hd.wf, ?_, ?_, ?_⟩
      · rw [List.map_cons, List.nodup_cons]
        refine ⟨?_, hd.nodup⟩
        intro hin
        obtain ⟨e', he', heq⟩ := List.mem_map.mp hin
        simp only [Prod.mk.injEq] at heq
        exact ((hiff _ _).mp (hd.mem e' he')).2 heq
      · intro e' he'
        rcases List.mem_cons.mp he' with rfl | he'
        · exact hmem
        · exact ((hiff _ _).mp (hd.mem e' he')).1
      · intro c y
        rw [hd.rest_iff, hiff]
        simp only [List.mem_cons, forall_eq_or_imp]
        constructor
        · rintro ⟨⟨h₁, h₂⟩, h₃⟩
          exact ⟨h₁, fun he => h₂ ⟨he.1.symm, he.2.symm⟩, h₃⟩
        · rintro ⟨h₁, h₂, h₃⟩
          exact ⟨⟨h₁, fun he => h₂ ⟨he.1.symm, he.2.symm⟩⟩, h₃⟩

end ReadySet

end TaskerRT.Policy
