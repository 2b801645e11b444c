/- module: TaskerRT/Policy/StoredSet
   source: crates/tasker-core/src/policy/ready_set.rs
   digest: The ready set over the heaps as stored refines the one the cycle is modelled with. -/

import TaskerRT.Policy.StoredHeap

set_option autoImplicit false

namespace TaskerRT.Policy

open Library Domain

inductive SetCall where
  | insert (c : PriorityClass) (job : JobId) (score : Score)
  | remove (c : PriorityClass) (job : JobId) (found : Bool)
  | drainOrdered (limit : Nat) (entries : List ReadyEntry)
  | len (n : Nat)

namespace ReadySet

def Answers (v : ReadySet) (call : SetCall) (v' : ReadySet) : Prop :=
  match call with
  | .insert c job score => v.insert c job score = v'
  | .remove c job found => v.remove c job = (v', found)
  | .drainOrdered limit entries => drainOrdered limit v = (entries, v')
  | .len n => v.len = n ∧ v' = v

private theorem Built.drainOrdered {limit : Nat} : ∀ {v : ReadySet}, v.Built →
    (drainOrdered limit v).2.Built := by
  induction limit with
  | zero => exact fun h => h
  | succ limit ih =>
    intro v h
    unfold ReadySet.drainOrdered
    cases hpop : v.popNext with
    | none => exact h
    | some out => exact ih (h.popNext hpop)

private theorem Answers.built {v v' : ReadySet} {call : SetCall} (h : v.Answers call v')
    (hv : v.Built) : v'.Built := by
  cases call with
  | insert c job score =>
    obtain rfl : v.insert c job score = v' := h
    exact hv.insert c job score
  | remove c job found =>
    obtain rfl : (v.remove c job).1 = v' := congrArg Prod.fst h
    exact hv.remove c job
  | drainOrdered limit entries =>
    obtain rfl : (drainOrdered limit v).2 = v' := congrArg Prod.snd h
    exact hv.drainOrdered
  | len n => exact h.2 ▸ hv

end ReadySet

namespace Stored

/-- One heap per class. Where an operation is `none`, the code panics. -/
structure ReadySet where
  buckets : PriorityClass → PriorityHeap

namespace ReadySet

def new : ReadySet := ⟨fun _ => PriorityHeap.new⟩

def setBucket (r : ReadySet) (c : PriorityClass) (heap : PriorityHeap) : ReadySet :=
  ⟨fun d => if d = c then heap else r.buckets d⟩

def insert (r : ReadySet) (c : PriorityClass) (job : JobId) (score : Score) : Option ReadySet :=
  ((r.buckets c).push job score).map (r.setBucket c)

def remove (r : ReadySet) (c : PriorityClass) (job : JobId) : Option (ReadySet × Bool) :=
  ((r.buckets c).remove job).map fun out => (r.setBucket c out.1, out.2)

def len (r : ReadySet) : Nat := (PriorityClass.all.map fun c => (r.buckets c).len).sum

def popFrom (r : ReadySet) : List PriorityClass → Option (ReadySet × Option ReadyEntry)
  | [] => some (r, none)
  | c :: classes =>
    match (r.buckets c).popMax with
    | none => none
    | some (heap, some (job, score)) => some (r.setBucket c heap, some ⟨c, job, score⟩)
    | some (heap, none) => (r.setBucket c heap).popFrom classes

def popNext (r : ReadySet) : Option (ReadySet × Option ReadyEntry) :=
  r.popFrom PriorityClass.all.reverse

def drainOrdered : Nat → ReadySet → Option (List ReadyEntry × ReadySet)
  | 0, r => some ([], r)
  | limit + 1, r =>
    match r.popNext with
    | none => none
    | some (r, none) => some ([], r)
    | some (r, some entry) => (drainOrdered limit r).map fun out => (entry :: out.1, out.2)

def view (r : ReadySet) : Policy.ReadySet := ⟨fun c => (r.buckets c).view⟩

def Fits (r : ReadySet) : Prop := ∀ c, (r.buckets c).Fits

variable {r r' : ReadySet} {c : PriorityClass} {job : JobId} {call : SetCall}
  {trace : List SetCall}

private theorem fits_new : new.Fits := fun _ =>
  ⟨IndexedHeap.wf_empty, show PriorityHeap.new.len < 2 ^ 32 by decide⟩

private theorem view_setBucket (r : ReadySet) (c : PriorityClass) (heap : PriorityHeap) :
    (r.setBucket c heap).view = r.view.setBucket c heap.view := by
  have hbuckets : (r.setBucket c heap).view.buckets = (r.view.setBucket c heap.view).buckets := by
    funext d
    show ((r.setBucket c heap).buckets d).view = if d = c then heap.view else (r.buckets d).view
    rw [← apply_ite PriorityHeap.view]
    rfl
  exact congrArg Policy.ReadySet.mk hbuckets

private theorem setBucket_self (r : ReadySet) (c : PriorityClass) : r.setBucket c
    (r.buckets c) = r := by
  have hbuckets : (r.setBucket c (r.buckets c)).buckets = r.buckets := by
    funext d
    show (if d = c then r.buckets c else r.buckets d) = r.buckets d
    split
    · rename_i hd
      rw [hd]
    · rfl
  exact congrArg ReadySet.mk hbuckets

private theorem Fits.setBucket (hf : r.Fits) (c : PriorityClass) {heap : PriorityHeap}
    (hheap : heap.Fits) : (r.setBucket c heap).Fits := by
  intro d
  show (if d = c then heap else r.buckets d).Fits
  split
  · exact hheap
  · exact hf d

private theorem insert_shows (hf : r.Fits) (score : Score)
    (hrow : ∀ y, r.view.Holds c y → y.slot = job.slot → y = job)
    (hroom : ¬ r.view.Holds c job → (r.buckets c).len + 1 < 2 ^ 32) :
    ∃ r', r.insert c job score = some r' ∧ r'.Fits ∧ r'.view = r.view.insert c job score := by
  obtain ⟨heap, hpush, hheap, hview⟩ := (hf c).push score hrow hroom
  refine ⟨r.setBucket c heap, by rw [insert, hpush]; rfl, hf.setBucket c hheap, ?_⟩
  rw [view_setBucket, hview]
  rfl

private theorem remove_shows (hf : r.Fits) (c : PriorityClass) (job : JobId) :
    ∃ r', r.remove c job = some (r', (r.view.remove c job).2) ∧ r'.Fits ∧
      r'.view = (r.view.remove c job).1 := by
  obtain ⟨heap, hremove, hheap, hview⟩ := (hf c).remove job
  refine ⟨r.setBucket c heap, by rw [remove, hremove]; rfl, hf.setBucket c hheap, ?_⟩
  rw [view_setBucket, hview]
  rfl

private theorem popFrom_shows (hf : r.Fits) (classes : List PriorityClass) :
    (r.view.popFrom classes = none ∧ r.popFrom classes = some (r, none)) ∨
      ∃ entry r', r.view.popFrom classes = some (entry, r'.view) ∧
        r.popFrom classes = some (r', some entry) ∧ r'.Fits := by
  induction classes with
  | nil => exact .inl ⟨rfl, rfl⟩
  | cons c classes ih =>
    rw [popFrom, Policy.ReadySet.popFrom]
    rcases (hf c).popMax with ⟨hnone, hpop⟩ | ⟨⟨job, score⟩, heap, hsome, hpop, hheap⟩
    · have hnone' : (r.view.buckets c).popMax = none := hnone
      rw [hpop, hnone']
      simp only [setBucket_self]
      exact ih
    · have hsome' : (r.view.buckets c).popMax = some ((job, score), heap.view) := hsome
      rw [hpop, hsome']
      refine .inr ⟨⟨c, job, score⟩, r.setBucket c heap, ?_, rfl, hf.setBucket c hheap⟩
      rw [view_setBucket]

private theorem drainOrdered_shows (limit : Nat) : ∀ {r : ReadySet}, r.Fits →
    ∃ r', drainOrdered limit r = some ((Policy.ReadySet.drainOrdered limit r.view).1, r') ∧
      r'.Fits ∧ r'.view = (Policy.ReadySet.drainOrdered limit r.view).2 := by
  induction limit with
  | zero => exact fun {r} hf => ⟨r, rfl, hf, rfl⟩
  | succ limit ih =>
    intro r hf
    rw [drainOrdered, Policy.ReadySet.drainOrdered, popNext, Policy.ReadySet.popNext]
    rcases popFrom_shows hf PriorityClass.all.reverse with
      ⟨hnone, hpop⟩ | ⟨entry, r₁, hsome, hpop, hf₁⟩
    · rw [hnone, hpop]
      exact ⟨r, rfl, hf, rfl⟩
    · obtain ⟨r', hdrain, hf', hview⟩ := ih hf₁
      rw [hsome, hpop]
      exact ⟨r', by simp only [hdrain, Option.map_some], hf', hview⟩

theorem len_view (r : ReadySet) : r.view.len = r.len := rfl

/-- What a call does. One that panics has no successor. -/
def Does (r : ReadySet) (call : SetCall) (r' : ReadySet) : Prop :=
  match call with
  | .insert c job score => r.insert c job score = some r'
  | .remove c job found => r.remove c job = some (r', found)
  | .drainOrdered limit entries => drainOrdered limit r = some (entries, r')
  | .len n => r.len = n ∧ r' = r

/-- A job goes into a class that has no other job with its arena index and is not full. -/
def Proper (r : ReadySet) : SetCall → Prop
  | .insert c job _ => (∀ y, r.view.Holds c y → y.slot = job.slot → y = job) ∧
      (¬ r.view.Holds c job → (r.buckets c).len + 1 < 2 ^ 32)
  | _ => True

def Uses (r : ReadySet) (call : SetCall) (r' : ReadySet) : Prop := r.Does call r' ∧ r.Proper call

private theorem Uses.shows (h : r.Uses call r') (hf : r.Fits) :
    r'.Fits ∧ r.view.Answers call r'.view := by
  obtain ⟨hdoes, hproper⟩ := h
  cases call with
  | insert c job score =>
    obtain ⟨g, hg, hfits, hview⟩ := insert_shows hf score hproper.1 hproper.2
    obtain rfl := Option.some.inj (hg.symm.trans hdoes)
    exact ⟨hfits, hview.symm⟩
  | remove c job found =>
    obtain ⟨g, hg, hfits, hview⟩ := remove_shows hf c job
    obtain ⟨rfl, hfound⟩ := Prod.mk.inj (Option.some.inj (hg.symm.trans hdoes))
    exact ⟨hfits, Prod.ext hview.symm hfound⟩
  | drainOrdered limit entries =>
    obtain ⟨g, hg, hfits, hview⟩ := drainOrdered_shows limit hf
    obtain ⟨hentries, rfl⟩ := Prod.mk.inj (Option.some.inj (hg.symm.trans hdoes))
    exact ⟨hfits, Prod.ext hentries hview.symm⟩
  | len n =>
    obtain ⟨hlen, rfl⟩ := hdoes
    exact ⟨hf, hlen, rfl⟩

/-- Over every run, the set as stored gives the answers of the set the cycle is modelled with, and
can always be drained: it hands out the greatest entries, greatest first, and keeps the others. -/
theorem run_shows (h : Chain Uses new trace r) :
    Chain Policy.ReadySet.Answers Policy.ReadySet.new trace r.view ∧
      ∀ limit, ∃ r', drainOrdered limit r = some (r.view.greatest limit, r') ∧
        r.view.Drained (r.view.greatest limit) r'.view := by
  have hstart : new.Fits ∧ new.view.Built := ⟨fits_new, .new⟩
  have hrun : (r.Fits ∧ r.view.Built) ∧ Chain Policy.ReadySet.Answers new.view
      (trace.flatMap fun call => [call]) r.view :=
    h.simulate (P := fun r => r.Fits ∧ r.view.Built) (fun r call r' huse hr => by
      obtain ⟨hfits, hanswer⟩ := huse.shows hr.1
      exact ⟨⟨hfits, hanswer.built hr.2⟩, .single hanswer⟩) hstart
  rw [List.flatMap_singleton'] at hrun
  obtain ⟨⟨hfits, hbuilt⟩, hanswers⟩ := hrun
  refine ⟨hanswers, fun limit => ?_⟩
  obtain ⟨r', hdrain, -, hview⟩ := drainOrdered_shows limit hfits
  have hdrained := @Policy.ReadySet.drainOrdered_spec limit r.view fun c => (hfits c).wf
  rw [Policy.ReadySet.drainOrdered_greatest hbuilt.heaped] at hdrain hdrained
  exact ⟨r', hdrain, hview ▸ hdrained⟩

end ReadySet

end Stored

end TaskerRT.Policy
