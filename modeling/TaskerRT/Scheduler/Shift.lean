/- module: TaskerRT/Scheduler/Shift
   source: none (abstract layer over crates/tasker-core/src/engine/cycle.rs)
   digest: What each record does to one job, and which jobs it puts on a worker or takes off it. -/

import TaskerRT.Scheduler.Book

set_option autoImplicit false

namespace TaskerRT.Scheduling

open Library Domain Cluster Policy Wal DependencyTracker

def frees (x : JobId) : Record → Bool
  | .completed id _ | .failed id _ | .cancelled id _ | .requeued id _ => id = x
  | _ => false

def starts (x : JobId) : Record → Bool
  | .dispatched id _ => id = x
  | _ => false

namespace Book

variable {b b' : Book} {record : Record} {records : List Record} {x id : JobId} {job : Job}

def Worked (b : Book) (x : JobId) : Prop :=
  ∃ job, b.jobs.get x = some job ∧ job.state.onWorker = true

inductive Shift (x : JobId) : Record → Option Job → Option Job → Prop where
  | same {record : Record} (entry : Option Job) (other : record.id ≠ x) :
      Shift x record entry entry
  | born {job : Job} (readiness : Readiness) :
      Shift x (.submitted x job) none (some (job.withState (Scheduler.stateOf readiness)))
  | started {job : Job} (at_ : VirtualTime) (ready : job.state = .ready) :
      Shift x (.dispatched x at_) (some job) (some (job.withState .running))
  | completed {job : Job} (at_ : VirtualTime) (worked : job.state.onWorker = true) :
      Shift x (.completed x at_) (some job) (some (job.withState .completed))
  | failed {job : Job} (at_ : VirtualTime) (worked : job.state.onWorker = true) :
      Shift x (.failed x at_) (some job) (some (job.withState .failed))
  | cancelled {job : Job} (at_ : VirtualTime) (unended : job.state.isTerminal = false) :
      Shift x (.cancelled x at_) (some job) (some (job.withState .cancelled))
  | requeued {job : Job} (at_ : VirtualTime) (preemptions : Word 8)
      (worked : job.state.onWorker = true) :
      Shift x (.requeued x at_) (some job)
        (some { job with state := .ready, preemptions := preemptions })
  | preempted {job : Job} (at_ : VirtualTime) (running : job.state = .running) :
      Shift x (.preempted x at_) (some job) (some (job.withState .preempted))
  | forgotten {job : Job} (ended : job.state.isTerminal = true) :
      Shift x (.forgotten x) (some job) none
  | promoted {id : JobId} {job : Job} (at_ : VirtualTime) (other : id ≠ x)
      (blocked : job.state = .blocked) :
      Shift x (.completed id at_) (some job) (some (job.withState .ready))
  | doomed {id : JobId} {record : Record} {job : Job} (at_ : VirtualTime) (other : id ≠ x)
      (cause : record = .failed id at_ ∨ record = .cancelled id at_)
      (blocked : job.state = .blocked) :
      Shift x record (some job) (some (job.withState .cancelled))

private theorem shift_modified {j' : Job} {deps : DependencyTracker}
    (hid : b.jobs.get id = some job) (hself : Shift id record (some job) (some j'))
    (hsubject : record.id = id) (x : JobId) :
    Shift x record (b.jobs.get x) ((Book.mk deps (b.jobs.modify id fun _ => j')).jobs.get x) := by
  show Shift x record (b.jobs.get x) ((b.jobs.modify id fun _ => j').get x)
  by_cases hx : x = id
  · subst hx
    rw [Arena.get_modify_self, hid]
    exact hself
  · rw [Arena.get_modify_ne _ hx]
    exact .same _ (hsubject ▸ Ne.symm hx)

private theorem shift_batch {ids : List JobId} {next target : JobState}
    (hid : b.jobs.get id = some job)
    (hself : Shift id record (some job) (some (job.withState next)))
    (hsubject : record.id = id)
    (hmoved : ∀ y j, y ≠ id → j.state = .blocked →
      Shift y record (some j) (some (j.movedTo target)))
    (hblocked : ∀ y ∈ ids, y = id ∨ ∃ j, b.jobs.get y = some j ∧ j.state = .blocked)
    (hget : ∀ y, b'.jobs.get y = if y = id then some (job.withState next)
      else if y ∈ ids then (b.jobs.get y).map (Job.movedTo target) else b.jobs.get y) (x : JobId) :
    Shift x record (b.jobs.get x) (b'.jobs.get x) := by
  rw [hget]
  by_cases hx : x = id
  · subst hx
    rw [if_pos rfl, hid]
    exact hself
  · rw [if_neg hx]
    split
    · rename_i hmem
      obtain ⟨j, hj, hst⟩ := (hblocked x hmem).resolve_left hx
      rw [hj]
      exact hmoved x j hx hst
    · exact .same _ (hsubject ▸ Ne.symm hx)

theorem Lawful.shift (h : Lawful b record b') (hv : Valid b) (x : JobId) :
    Shift x record (b.jobs.get x) (b'.jobs.get x) := by
  obtain ⟨h, hl⟩ := h
  have hcan : ∀ {j : Job} {next : JobState}, j.state = .blocked →
      JobState.blocked.canTransitionTo next = true → j.movedTo next = j.withState next :=
    fun hst hcan => Job.movedTo_of_can (by rw [hst]; exact hcan)
  cases h with
  | @submitted jobs id job deps readiness fresh state account registered =>
    show Shift x _ (b.jobs.get x) ((jobs.modify id _).get x)
    by_cases hx : x = id
    · subst hx
      rw [Arena.get_modify_self, Arena.get_insert fresh, if_pos rfl,
        Arena.get_nextId (Arena.nextId_of_insert fresh)]
      exact .born readiness
    · rw [Arena.get_modify_ne _ hx, Arena.get_insert fresh, if_neg hx]
      exact .same _ (Ne.symm hx)
  | dispatched at_ live state => exact shift_modified live (.started at_ state) rfl x
  | completed at_ live state =>
    refine shift_batch live (.completed at_ state) rfl (fun y j hy hst => ?_)
      (fun y hy => Or.inr (hv.sound.promoted_blocked live hy)) (get_complete hv.sound.placed live) x
    rw [hcan hst rfl]
    exact .promoted at_ (Ne.symm hy) hst
  | failed at_ live state =>
    refine shift_batch live (.failed at_ state) rfl (fun y j hy hst => ?_)
      (fun y hy => hv.sound.reach_blocked live (mem_onTerminated.mp hy).2)
      (get_terminate live .failed) x
    rw [hcan hst rfl]
    exact .doomed at_ (Ne.symm hy) (Or.inl rfl) hst
  | cancelled at_ live state =>
    refine shift_batch live (.cancelled at_ state) rfl (fun y j hy hst => ?_)
      (fun y hy => hv.sound.reach_blocked live (mem_onTerminated.mp hy).2)
      (get_terminate live .cancelled) x
    rw [hcan hst rfl]
    exact .doomed at_ (Ne.symm hy) (Or.inr rfl) hst
  | @requeued id job at_ preemptions live state =>
    obtain ⟨j, hj, hw⟩ := hl
    obtain rfl := Option.some.inj (live.symm.trans hj)
    exact shift_modified live (.requeued at_ preemptions hw) rfl x
  | preempted at_ live state => exact shift_modified live (.preempted at_ state) rfl x
  | @forgotten id job live state =>
    show Shift x _ (b.jobs.get x) ((b.jobs.remove id).1.get x)
    rw [Arena.get_remove]
    by_cases hx : x = id
    · subst hx
      rw [if_pos rfl, live]
      exact .forgotten state
    · rw [if_neg hx]
      exact .same _ (Ne.symm hx)

private theorem frees_of_other (h : record.id ≠ x) : frees x record = false := by
  cases record <;> simp_all [frees, Record.id]

private theorem starts_of_other (h : record.id ≠ x) : starts x record = false := by
  cases record <;> simp_all [starts, Record.id]

theorem Lawful.worked (h : Lawful b record b') (hv : Valid b) (x : JobId) :
    Worked b' x ↔ (Worked b x ∧ frees x record = false) ∨ starts x record = true := by
  have hshift := h.shift hv x
  unfold Worked
  generalize b.jobs.get x = old, b'.jobs.get x = new at hshift
  cases hshift with
  | same entry other => simp [frees_of_other other, starts_of_other other]
  | born readiness => cases readiness <;> simp [starts, JobState.onWorker, Scheduler.stateOf]
  | started at_ ready => simp [starts, JobState.onWorker]
  | completed at_ worked => simp [frees, starts, JobState.onWorker]
  | failed at_ worked => simp [frees, starts, JobState.onWorker]
  | cancelled at_ unended => simp [frees, starts, JobState.onWorker]
  | requeued at_ preemptions worked => simp [frees, starts, JobState.onWorker]
  | preempted at_ running => simp [frees, starts, running, JobState.onWorker]
  | forgotten ended =>
    simp only [reduceCtorEq, false_and, exists_false, Option.some.injEq, exists_eq_left', frees,
      starts, and_true, or_false, Bool.false_eq_true, false_iff]
    intro hw
    rw [JobState.not_terminal_of_onWorker hw] at ended
    exact nomatch ended
  | promoted at_ other blocked => simp [frees, starts, other, blocked, JobState.onWorker]
  | doomed at_ other cause blocked =>
    rcases cause with rfl | rfl <;> simp [frees, starts, other, blocked, JobState.onWorker]

/-- Legal records keep a book valid, and a job they do not free stays on its worker. -/
theorem Valid.chain (h : Chain Lawful b records b') : Valid b → Valid b' ∧
    ∀ x, (∀ r ∈ records, frees x r = false) →
      (Worked b' x ↔ Worked b x ∨ ∃ r ∈ records, starts x r = true) := by
  induction h with
  | nil => exact fun hv => ⟨hv, fun x _ => by simp⟩
  | cons head _ ih =>
    intro hv
    obtain ⟨hv', hrest⟩ := ih (hv.posts head)
    refine ⟨hv', fun x hfree => ?_⟩
    rw [hrest x fun r hr => hfree r (List.mem_cons_of_mem _ hr), head.worked hv,
      and_iff_left (hfree _ List.mem_cons_self)]
    simp [or_assoc]

/-- A handle that was issued is never given to another job. -/
theorem Posts.noted {P : Job → Prop} (hP : ∀ {j k : Job}, Continues j k → P j → P k)
    (h : Posts b record b') (hl : Legal b record) (hplaced : b.deps.OwnersPlaced)
    (hx : b.jobs.Issued x ∧ ∀ job, b.jobs.get x = some job → P job) :
    b'.jobs.Issued x ∧ ∀ job, b'.jobs.get x = some job → P job := by
  obtain ⟨hissued, hover⟩ := hx
  refine ⟨h.issued hl hissued, fun job hjob => ?_⟩
  rcases h.frame hplaced x with hsame | ⟨j, k, hj, hk, hcont⟩ | ⟨j, k, -, hnext, -⟩ | ⟨-, hnone⟩
  · exact hover job (hsame ▸ hjob)
  · obtain rfl := Option.some.inj (hk.symm.trans hjob)
    exact hP hcont (hover j hj)
  · exact absurd hissued (Arena.not_issued_nextId hnext)
  · rw [hnone] at hjob
    exact nomatch hjob

theorem noted_of_chain {P : Job → Prop} (hP : ∀ {j k : Job}, Continues j k → P j → P k)
    {records : List Record} (h : Chain Lawful b records b') (hv : Valid b)
    (hx : b.jobs.Issued x ∧ ∀ job, b.jobs.get x = some job → P job) :
    b'.jobs.Issued x ∧ ∀ job, b'.jobs.get x = some job → P job :=
  (h.keeps (P := fun b => Valid b ∧ b.jobs.Issued x ∧ ∀ job, b.jobs.get x = some job → P job)
    (fun _ _ _ hl hb => ⟨hb.1.posts hl, hl.1.noted hP hl.2 hb.1.sound.placed hb.2⟩) ⟨hv, hx⟩).2

/-- Nothing was ever removed: every handle handed out is live. -/
def AllLive (b : Book) : Prop := ∀ x, b.jobs.Issued x → ∃ job, b.jobs.get x = some job

theorem AllLive.posts (hall : AllLive b) (hv : Valid b) (h : Posts b record b')
    (hkeep : ∀ id, record ≠ .forgotten id) : AllLive b' := by
  intro x hx
  have hissued : b.jobs.Issued x ∨ ∃ job, b'.jobs.get x = some job := by
    cases h with
    | @submitted jobs id job deps readiness fresh state account registered =>
      have hx' := Arena.issued_modify.mp hx
      rcases Arena.eq_or_issued_of_insert fresh hx' with rfl | hold
      · right
        refine ⟨job.withState (Scheduling.Scheduler.stateOf readiness), ?_⟩
        show (jobs.modify x _).get x = _
        rw [Arena.get_modify_self, Arena.get_insert fresh, if_pos rfl]
        rfl
      · exact Or.inl hold
    | dispatched | requeued | preempted => exact Or.inl (Arena.issued_modify.mp hx)
    | completed | failed | cancelled =>
      exact Or.inl (Arena.issued_modify.mp (Arena.issued_modifyAll.mp hx))
    | forgotten live state => exact absurd rfl (hkeep _)
  rcases hissued with hold | hlive
  · obtain ⟨job, hjob⟩ := hall x hold
    rcases h.frame hv.sound.placed x with hsame | ⟨j, k, -, hk, -⟩ | ⟨j, k, -, -, hk, -⟩ | ⟨he, -⟩
    · exact ⟨job, hsame.trans hjob⟩
    · exact ⟨k, hk⟩
    · exact ⟨k, hk⟩
    · exact absurd he (hkeep x)
  · exact hlive

end Book

end TaskerRT.Scheduling
