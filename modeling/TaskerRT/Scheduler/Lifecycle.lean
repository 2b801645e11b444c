/- module: TaskerRT/Scheduler/Lifecycle
   source: crates/tasker-core/src/engine/cycle.rs
   digest: When each lifecycle call succeeds, what it leaves, and that the ready set mirrors it. -/

import TaskerRT.Scheduler.Exact

set_option autoImplicit false

namespace TaskerRT.Scheduling

open Library Domain Policy

def ReadyIn (jobs : Arena Job) (c : PriorityClass) (id : JobId) : Prop :=
  ∃ job, jobs.get id = some job ∧ job.state = .ready ∧ job.priorityClass = c

theorem readyIn_congr {jobs jobs' : Arena Job} {x : JobId} (h : jobs'.get x = jobs.get x)
    (c : PriorityClass) : ReadyIn jobs' c x ↔ ReadyIn jobs c x := by
  unfold ReadyIn
  rw [h]

theorem readyIn_iff {jobs : Arena Job} {id : JobId} {job : Job} (hid : jobs.get id = some job)
    (c : PriorityClass) : ReadyIn jobs c id ↔ job.state = .ready ∧ job.priorityClass = c := by
  unfold ReadyIn
  rw [hid]
  simp

/-- The ready set holds exactly the live ready jobs, each in the bucket of its own class. -/
structure Mirror (ready : ReadySet) (jobs : Arena Job) : Prop where
  wf : ready.Wf
  holds_iff : ∀ c id, ready.Holds c id ↔ ReadyIn jobs c id

namespace Mirror

variable {ready : ReadySet} {jobs jobs' : Arena Job} {id : JobId} {job : Job}

theorem of_none_ready (h : ∀ c id, ¬ ReadyIn jobs c id) : Mirror ReadySet.new jobs :=
  ⟨ReadySet.wf_new, fun c id => iff_of_false (ReadySet.not_holds_new c id) (h c id)⟩

private theorem frame (h : Mirror ready jobs)
    (hsame : ∀ c x, ReadyIn jobs' c x ↔ ReadyIn jobs c x) :
    Mirror ready jobs' :=
  ⟨h.wf, fun c x => (h.holds_iff c x).trans (hsame c x).symm⟩

private theorem grow (h : Mirror ready jobs) (hid : jobs'.get id = some job)
    (hst : job.state = .ready)
    (hother : ∀ c x, x ≠ id → (ReadyIn jobs' c x ↔ ReadyIn jobs c x))
    (hself : ∀ c, ¬ ReadyIn jobs c id) (score : Score) :
    Mirror (ready.insert job.priorityClass id score) jobs' := by
  have hslot : ∀ y, ready.Holds job.priorityClass y → y.slot = id.slot → y = id := by
    intro y hy hs
    by_contra hne
    have hy' := (hother _ y hne).mpr ((h.holds_iff _ y).mp hy)
    obtain ⟨j, hj, -, -⟩ := hy'
    exact hne (Arena.eq_of_get_of_slot hj hid hs)
  obtain ⟨hw, hiff⟩ := @ReadySet.insert_spec ready h.wf job.priorityClass id score hslot
  refine ⟨hw, fun c x => ?_⟩
  rw [hiff c x, h.holds_iff c x]
  by_cases hx : x = id
  · subst hx
    rw [readyIn_iff hid]
    have := hself c
    tauto
  · rw [hother c x hx]
    tauto

private theorem drop (h : Mirror ready jobs) (hid : jobs.get id = some job)
    (hother : ∀ c x, x ≠ id → (ReadyIn jobs' c x ↔ ReadyIn jobs c x))
    (hself : ∀ c, ¬ ReadyIn jobs' c id) :
    Mirror (ready.remove job.priorityClass id).1 jobs' := by
  obtain ⟨hw, hiff⟩ := ReadySet.remove_spec h.wf job.priorityClass id
  refine ⟨hw, fun c x => ?_⟩
  rw [hiff c x, h.holds_iff c x]
  by_cases hx : x = id
  · subst hx
    rw [readyIn_iff hid]
    have := hself c
    tauto
  · rw [hother c x hx]
    tauto

/-- A ready set that mirrors the job states has as many entries as there are ready jobs. -/
theorem len_eq (h : Mirror ready jobs) (hlen : jobs.slots.length ≤ 2 ^ 32) :
    ready.len = jobs.iter.countP (fun entry => decide (entry.2.state = .ready)) := by
  have hsum : (PriorityClass.all.flatMap fun c => (ready.buckets c).ids).length = ready.len :=
    List.length_flatMap
  -- A job has one class, so no two buckets share an entry.
  have hnd : (PriorityClass.all.flatMap fun c => (ready.buckets c).ids).Nodup := by
    refine List.nodup_flatMap.mpr ⟨fun c _ => (h.wf c).nodup, ?_⟩
    refine List.Nodup.pairwise_of_forall_ne (by decide) fun c _ d _ hne x hc hd => hne ?_
    obtain ⟨job, hget, -, rfl⟩ := (h.holds_iff c x).mp hc
    obtain ⟨job', hget', -, rfl⟩ := (h.holds_iff d x).mp hd
    rw [Option.some.inj (hget.symm.trans hget')]
  have hmem : ∀ x, x ∈ PriorityClass.all.flatMap (fun c => (ready.buckets c).ids) ↔
      ∃ job, jobs.get x = some job ∧ decide (job.state = .ready) = true := by
    intro x
    simp only [List.mem_flatMap, decide_eq_true_eq]
    constructor
    · rintro ⟨c, -, hc⟩
      obtain ⟨job, hget, hst, -⟩ := (h.holds_iff c x).mp hc
      exact ⟨job, hget, hst⟩
    · rintro ⟨job, hget, hst⟩
      refine ⟨job.priorityClass, PriorityClass.mem_all _, ?_⟩
      exact (h.holds_iff _ x).mpr ⟨job, hget, hst, rfl⟩
  rw [← hsum]
  exact (Arena.length_le_countP hlen hnd fun x hx => (hmem x).mp hx).2.mpr
    fun x job hget hp => (hmem x).mpr ⟨job, hget, hp⟩

end Mirror

section Modify

variable {jobs : Arena Job} {id : JobId} {job j' : Job}

private theorem readyIn_modify_ne (f : Job → Job) (c : PriorityClass) {x : JobId} (hx : x ≠ id) :
    ReadyIn (jobs.modify id f) c x ↔ ReadyIn jobs c x :=
  readyIn_congr (Arena.get_modify_ne f hx) c

private theorem not_readyIn_modify (hid : jobs.get id = some job) (hst : j'.state ≠ .ready)
    (c : PriorityClass) : ¬ ReadyIn (jobs.modify id fun _ => j') c id := by
  rw [@readyIn_iff _ id j' (by rw [Arena.get_modify_self, hid]; rfl)]
  exact fun h => hst h.1

private theorem readyIn_modify (hid : jobs.get id = some job) (hst : job.state ≠ .ready)
    (hst' : j'.state ≠ .ready) (c : PriorityClass) (x : JobId) :
    ReadyIn (jobs.modify id fun _ => j') c x ↔ ReadyIn jobs c x := by
  by_cases hx : x = id
  · subst hx
    rw [readyIn_iff hid]
    exact iff_of_false (not_readyIn_modify hid hst' c) fun h => hst h.1
  · exact readyIn_modify_ne _ c hx

end Modify

namespace Scheduler

variable {s : Scheduler} {jobs : Arena Job} {id : JobId} {job : Job} {now : VirtualTime}
  {config : CycleConfig}

/-- What every lifecycle call keeps: the ready set mirrors the arena, and the account table
stays within its bound. -/
structure Kept (s : Scheduler) (jobs : Arena Job) : Prop where
  mirror : Mirror s.ready jobs
  accounts : s.fairshare.ledgers.length ≤ maxAccounts

@[simp] theorem deps_enqueue (s : Scheduler) (id : JobId) (job : Job) (now : VirtualTime)
    (config : CycleConfig) : (s.enqueue id job now config).deps = s.deps := rfl

@[simp] theorem deps_dequeue (s : Scheduler) (id : JobId) (job : Job) :
    (s.dequeue id job).deps = s.deps := rfl

@[simp] theorem deps_charge (s : Scheduler) (job : Job) (now : VirtualTime)
    (config : CycleConfig) : (s.charge job now config).deps = s.deps := rfl

@[simp] theorem deps_discharge (s : Scheduler) (job : Job) (now : VirtualTime)
    (config : CycleConfig) : (s.discharge job now config).deps = s.deps := rfl

namespace Kept

variable {j' : Job}

private theorem rewrite (h : Kept s jobs) (hid : jobs.get id = some job) (hst : job.state ≠ .ready)
    (hst' : j'.state ≠ .ready) : Kept s (jobs.modify id fun _ => j') :=
  ⟨h.mirror.frame (readyIn_modify hid hst hst'), h.accounts⟩

private theorem enqueue (h : Kept s jobs) (hid : jobs.get id = some job) (hst : job.state ≠ .ready)
    (hst' : j'.state = .ready) :
    Kept (s.enqueue id j' now config) (jobs.modify id fun _ => j') := by
  refine ⟨h.mirror.grow ?_ hst' (fun c _ hx => readyIn_modify_ne _ c hx) (fun c => ?_) _,
    h.accounts⟩
  · rw [Arena.get_modify_self, hid]
    rfl
  · rw [readyIn_iff hid]
    exact fun hr => hst hr.1

private theorem dequeue (h : Kept s jobs) (hid : jobs.get id = some job)
    (hst' : j'.state ≠ .ready) :
    Kept (s.dequeue id job) (jobs.modify id fun _ => j') :=
  ⟨h.mirror.drop hid (fun c _ hx => readyIn_modify_ne _ c hx)
    (not_readyIn_modify hid hst'), h.accounts⟩

private theorem dequeue_absent (h : Kept s jobs) (hid : jobs.get id = some job)
    (hst : job.state ≠ .ready) : Kept (s.dequeue id job) jobs := by
  refine ⟨h.mirror.drop hid (fun _ _ _ => Iff.rfl) (fun c => ?_), h.accounts⟩
  rw [readyIn_iff hid]
  exact fun hr => hst hr.1

private theorem charge (h : Kept s jobs) : Kept (s.charge job now config) jobs :=
  ⟨h.mirror, (FairShare.length_onDispatch _ _ _ _ _).trans_le h.accounts⟩

private theorem discharge (h : Kept s jobs) : Kept (s.discharge job now config) jobs :=
  ⟨h.mirror, (FairShare.length_onRelease _ _ _ _ _).trans_le h.accounts⟩

private theorem withDeps (h : Kept s jobs) (deps : DependencyTracker) :
    Kept { s with deps := deps } jobs :=
  ⟨h.mirror, h.accounts⟩

end Kept

theorem Kept.insert {jobs' : Arena Job} {job : Job} (h : Kept s jobs)
    (hi : jobs.insert job = some (jobs', id)) (hst : job.state ≠ .ready) : Kept s jobs' := by
  refine ⟨h.mirror.frame fun c x => ?_, h.accounts⟩
  by_cases hx : x = id
  · have hnone : ¬ ReadyIn jobs c x := by
      rintro ⟨j, hj, -, -⟩
      rw [hx, Arena.get_nextId (Arena.nextId_of_insert hi)] at hj
      exact nomatch hj
    have hget : jobs'.get x = some job := by rw [Arena.get_insert hi, if_pos hx]
    rw [readyIn_iff hget]
    exact iff_of_false (fun hr => hst hr.1) hnone
  · exact readyIn_congr (by rw [Arena.get_insert hi, if_neg hx]) c

theorem Kept.remove (h : Kept s jobs)
    (hst : ∀ job, jobs.get id = some job → job.state ≠ .ready) :
    Kept s (jobs.remove id).1 := by
  refine ⟨h.mirror.frame fun c x => ?_, h.accounts⟩
  by_cases hx : x = id
  · have hgone : ¬ ReadyIn (jobs.remove id).1 c x := by
      rintro ⟨j, hj, -, -⟩
      rw [Arena.get_remove, if_pos hx] at hj
      exact nomatch hj
    refine iff_of_false hgone ?_
    rintro ⟨j, hj, hr, -⟩
    exact hst j (hx ▸ hj) hr
  · exact readyIn_congr (by rw [Arena.get_remove, if_neg hx]) c

private theorem live_cases (jobs : Arena Job) (id : JobId) (kind : JobState → Bool) :
    (∃ job, jobs.get id = some job ∧ kind job.state = true) ∨
      ∀ job, jobs.get id = some job → kind job.state = false := by
  cases hg : jobs.get id with
  | none => exact Or.inr fun _ h => nomatch h
  | some job =>
    cases hk : kind job.state with
    | true => exact Or.inl ⟨job, rfl, hk⟩
    | false =>
      refine Or.inr fun j hj => ?_
      rw [Option.some.injEq] at hj
      exact hj ▸ hk

/-! Replayed dispatches and evictions. -/

theorem restoreRunning_ok (hid : jobs.get id = some job) (hst : job.state = .ready) :
    s.restoreRunning id jobs now config =
      ⟨(s.dequeue id job).charge (job.withState .running) now config,
        jobs.modify id fun _ => job.withState .running, .ok ()⟩ := by
  have hcan : job.state.canTransitionTo .running = true := by rw [hst]; rfl
  simp only [restoreRunning, hid, Job.tryTransition_of_can hcan]

private theorem restoreRunning_error (h : ∀ job, jobs.get id = some job → job.state ≠ .ready) :
    ∃ s' err, s.restoreRunning id jobs now config = ⟨s', jobs, .error err⟩ := by
  cases hg : jobs.get id with
  | none => exact ⟨s, .unknownJob id, by simp only [restoreRunning, hg]⟩
  | some job =>
    have hcan : job.state.canTransitionTo .running = false := by
      have := h job hg
      rw [Bool.eq_false_iff]
      exact fun hc => this (JobState.canTransitionTo_running.mp hc)
    exact ⟨s.dequeue id job, .transition ⟨job.state, .running⟩,
      by simp only [restoreRunning, hg, Job.tryTransition_of_not hcan]⟩

theorem preempt_ok (hid : jobs.get id = some job) (hst : job.state = .running) :
    s.preempt id jobs = ⟨s, jobs.modify id fun _ => job.withState .preempted, .ok ()⟩ := by
  have hcan : job.state.canTransitionTo .preempted = true := by rw [hst]; rfl
  simp only [preempt, hid, Job.tryTransition_of_can hcan]

theorem preempt_error (h : ∀ job, jobs.get id = some job → job.state ≠ .running) :
    ∃ err, s.preempt id jobs = ⟨s, jobs, .error err⟩ := by
  cases hg : jobs.get id with
  | none => exact ⟨.unknownJob id, by simp only [preempt, hg]⟩
  | some job =>
    have hcan : job.state.canTransitionTo .preempted = false := by
      rw [Bool.eq_false_iff]
      exact fun hc => h job hg (JobState.canTransitionTo_preempted.mp hc)
    exact ⟨.transition ⟨job.state, .preempted⟩,
      by simp only [preempt, hg, Job.tryTransition_of_not hcan]⟩

theorem requeue_ok (hid : jobs.get id = some job) (hq : job.state.isRequeuable = true) :
    s.requeue id jobs now config =
      ⟨(s.discharge (job.withState .ready) now config).enqueue id (job.withState .ready) now
          config, jobs.modify id fun _ => job.withState .ready, .ok ()⟩ := by
  by_cases hrun : job.state = .running
  · have hcan : (job.withState .preempted).state.canTransitionTo .ready = true := rfl
    simp only [requeue, hid, if_pos hrun, Job.tryTransition_of_can hcan, Job.withState_withState]
  · have hcan : job.state.canTransitionTo .ready = true := by
      revert hq hrun
      cases job.state <;> simp [JobState.isRequeuable, JobState.canTransitionTo]
    simp only [requeue, hid, if_neg hrun, Job.tryTransition_of_can hcan]

private theorem requeue_error (h : ∀ job, jobs.get id = some job → job.state.isRequeuable = false) :
    ∃ err, s.requeue id jobs now config = ⟨s, jobs, .error err⟩ := by
  cases hg : jobs.get id with
  | none => exact ⟨.unknownJob id, by simp only [requeue, hg]⟩
  | some job =>
    have hq := h job hg
    have hrun : job.state ≠ .running := fun hr => by rw [hr] at hq; cases hq
    have hcan : job.state.canTransitionTo .ready = false := by
      revert hq
      cases job.state <;> simp [JobState.isRequeuable, JobState.canTransitionTo]
    exact ⟨.transition ⟨job.state, .ready⟩,
      by simp only [requeue, hg, if_neg hrun, Job.tryTransition_of_not hcan]⟩

/-- The job an acknowledged eviction puts back in the queue. -/
def evictedJob (job : Job) : Job :=
  { job with state := .ready, preemptions := Word.saturatingAdd job.preemptions 1 }

theorem onPreempted_ok (hid : jobs.get id = some job) (hst : job.state = .preempted) :
    s.onPreempted id jobs now config =
      ⟨(s.discharge (evictedJob job) now config).enqueue id (evictedJob job) now config,
        jobs.modify id fun _ => evictedJob job, .ok ()⟩ := by
  have hcounted (j : Job) : (jobs.modify id fun _ => j).get id = some j := by
    rw [Arena.get_modify_self, hid]
    rfl
  simp only [onPreempted, hid, hst, ne_eq, not_true_eq_false, if_false]
  rw [requeue_ok (hcounted _) rfl, Arena.modify_modify]
  rfl

private theorem onPreempted_error (h : ∀ job, jobs.get id = some job → job.state ≠ .preempted) :
    ∃ err, s.onPreempted id jobs now config = ⟨s, jobs, .error err⟩ := by
  cases hg : jobs.get id with
  | none => exact ⟨.unknownJob id, by simp only [onPreempted, hg]⟩
  | some job =>
    exact ⟨.transition ⟨job.state, .ready⟩, by simp only [onPreempted, hg, if_pos (h job hg)]⟩

/-! Submission. -/

def classified (s : Scheduler) (fairshare : FairShare) (deps : DependencyTracker) (id : JobId)
    (job : Job) (now : VirtualTime) (config : CycleConfig) : Scheduler :=
  let s := { s with fairshare := fairshare, deps := deps }
  if job.state = .ready then s.enqueue id job now config else s

private theorem canTransitionTo_stateOf (r : Readiness) :
    JobState.submitted.canTransitionTo (stateOf r) = true := by
  cases r <;> rfl

theorem submit_ok {deps : DependencyTracker} {r : Readiness} {fairshare : FairShare}
    (hid : jobs.get id = some job) (hst : job.state = .submitted)
    (hf : s.fairshare.ensure job.account = .ok fairshare)
    (hreg : s.deps.register id job jobs = .ok (deps, r)) :
    s.submit id jobs now config =
      ⟨s.classified fairshare deps id (job.withState (stateOf r)) now config,
        jobs.modify id fun _ => job.withState (stateOf r), .ok (stateOf r)⟩ := by
  have hcan : job.state.canTransitionTo (stateOf r) = true := by
    rw [hst]
    exact canTransitionTo_stateOf r
  simp only [submit, hid, hst, ne_eq, not_true_eq_false, if_false, hf, hreg,
    Job.tryTransition_of_can hcan, classified, Job.state_withState]
  cases r <;> rfl

theorem submit_cases (s : Scheduler) (id : JobId) (jobs : Arena Job) (now : VirtualTime)
    (config : CycleConfig) :
    (jobs.get id = none ∧ s.submit id jobs now config = ⟨s, jobs, .error (.unknownJob id)⟩) ∨
    (∃ job, jobs.get id = some job ∧ job.state ≠ .submitted ∧
      s.submit id jobs now config = ⟨s, jobs, .error (.notSubmitted id job.state)⟩) ∨
    (∃ job a, jobs.get id = some job ∧ job.state = .submitted ∧
      s.fairshare.ensure job.account = .error a ∧
      s.submit id jobs now config = ⟨s, jobs, .error (.account a)⟩) ∨
    (∃ job fairshare d, jobs.get id = some job ∧ job.state = .submitted ∧
      s.fairshare.ensure job.account = .ok fairshare ∧ s.deps.register id job jobs = .error d ∧
      s.submit id jobs now config = ⟨{ s with fairshare }, jobs, .error (.dependency d)⟩) ∨
    ∃ job fairshare deps r, jobs.get id = some job ∧ job.state = .submitted ∧
      s.fairshare.ensure job.account = .ok fairshare ∧
      s.deps.register id job jobs = .ok (deps, r) ∧ s.submit id jobs now config =
        ⟨s.classified fairshare deps id (job.withState (stateOf r)) now config,
          jobs.modify id fun _ => job.withState (stateOf r), .ok (stateOf r)⟩ := by
  cases hid : jobs.get id with
  | none => exact .inl ⟨rfl, by simp only [submit, hid]⟩
  | some job =>
    by_cases hst : job.state = .submitted
    · cases hf : s.fairshare.ensure job.account with
      | error a =>
        refine .inr (.inr (.inl ⟨job, a, rfl, hst, hf, ?_⟩))
        simp only [submit, hid, hst, ne_eq, not_true_eq_false, if_false, hf]
      | ok fairshare =>
        cases hreg : s.deps.register id job jobs with
        | error d =>
          refine .inr (.inr (.inr (.inl ⟨job, fairshare, d, rfl, hst, hf, hreg, ?_⟩)))
          simp only [submit, hid, hst, ne_eq, not_true_eq_false, if_false, hf, hreg]
        | ok out =>
          exact .inr (.inr (.inr (.inr ⟨job, fairshare, out.1, out.2, rfl, hst, hf, hreg,
            submit_ok hid hst hf hreg⟩)))
    · refine .inr (.inl ⟨job, rfl, hst, ?_⟩)
      simp only [submit, hid, ne_eq, hst, not_false_eq_true, if_true]

/-- A submission succeeds only for a fresh job with a valid account and resolvable
dependencies. -/
theorem submit_inv {state : JobState} (h : (s.submit id jobs now config).result = .ok state) :
    ∃ job fairshare deps r, jobs.get id = some job ∧ job.state = .submitted ∧
      s.fairshare.ensure job.account = .ok fairshare ∧
      s.deps.register id job jobs = .ok (deps, r) ∧ state = stateOf r := by
  rcases submit_cases s id jobs now config with ⟨-, heq⟩ | ⟨_, -, -, heq⟩ | ⟨_, _, -, -, -, heq⟩ |
    ⟨_, _, _, -, -, -, -, heq⟩ | ⟨job, fairshare, deps, r, hid, hst, hf, hreg, heq⟩
  all_goals rw [heq] at h
  · cases h
  · cases h
  · cases h
  · cases h
  · exact ⟨job, fairshare, deps, r, hid, hst, hf, hreg, (Except.ok.inj h).symm⟩

/-- A submit of what was just stored. -/
theorem submit_fresh {before : Arena Job} {state : JobState}
    (fresh : before.insert job = some (jobs, id))
    (ok : (s.submit id jobs now config).result = .ok state) :
    ∃ fairshare deps r, jobs.get id = some job ∧ job.state = .submitted ∧
      s.fairshare.ensure job.account = .ok fairshare ∧
      s.deps.register id job jobs = .ok (deps, r) ∧ state = stateOf r ∧
      s.submit id jobs now config =
        ⟨s.classified fairshare deps id (job.withState (stateOf r)) now config,
          jobs.modify id fun _ => job.withState (stateOf r), .ok (stateOf r)⟩ := by
  obtain ⟨job', fairshare, deps, r, hid, hst, hf, hreg, hstate⟩ := submit_inv ok
  obtain rfl : job = job' := by simpa [Arena.get_insert fresh] using hid
  exact ⟨fairshare, deps, r, hid, hst, hf, hreg, hstate, submit_ok hid hst hf hreg⟩

theorem submit_error_frame {e : LifecycleError}
    (h : (s.submit id jobs now config).result = .error e) :
    (s.submit id jobs now config).scheduler.deps = s.deps ∧
      (s.submit id jobs now config).jobs = jobs := by
  rcases submit_cases s id jobs now config with ⟨-, heq⟩ | ⟨_, -, -, heq⟩ | ⟨_, _, -, -, -, heq⟩ |
    ⟨_, _, _, -, -, -, -, heq⟩ | ⟨_, _, _, _, -, -, -, -, heq⟩
  all_goals rw [heq] at h ⊢
  · exact ⟨rfl, rfl⟩
  · exact ⟨rfl, rfl⟩
  · exact ⟨rfl, rfl⟩
  · exact ⟨rfl, rfl⟩
  · cases h

/-- A submit of a live job is refused for its state, its account or its dependencies. -/
theorem submit_refused {e : LifecycleError} (hid : jobs.get id = some job)
    (h : (s.submit id jobs now config).result = .error e) :
    (∃ state, e = .notSubmitted id state) ∨ (∃ a, e = .account a) ∨ ∃ d, e = .dependency d := by
  rcases submit_cases s id jobs now config with ⟨hnone, -⟩ | ⟨_, -, -, heq⟩ |
    ⟨_, a, -, -, -, heq⟩ | ⟨_, _, d, -, -, -, -, heq⟩ | ⟨_, _, _, _, -, -, -, -, heq⟩
  · rw [hnone] at hid
    cases hid
  all_goals rw [heq] at h
  · exact .inl ⟨_, (Except.error.inj h).symm⟩
  · exact .inr (.inl ⟨a, (Except.error.inj h).symm⟩)
  · exact .inr (.inr ⟨d, (Except.error.inj h).symm⟩)
  · cases h

theorem deps_classified (s : Scheduler) (fairshare : FairShare) (deps : DependencyTracker)
    (id : JobId) (job : Job) (now : VirtualTime) (config : CycleConfig) :
    (s.classified fairshare deps id job now config).deps = deps := by
  unfold classified
  dsimp only
  split <;> rfl

theorem fairshare_classified (s : Scheduler) (fairshare : FairShare) (deps : DependencyTracker)
    (id : JobId) (job : Job) (now : VirtualTime) (config : CycleConfig) :
    (s.classified fairshare deps id job now config).fairshare = fairshare := by
  unfold classified
  dsimp only
  split <;> rfl

private theorem Kept.classified {fairshare : FairShare} {deps : DependencyTracker} {j' : Job}
    (h : Kept s jobs) (hid : jobs.get id = some job) (hst : job.state = .submitted)
    (hf : s.fairshare.ensure job.account = .ok fairshare) :
    Kept (s.classified fairshare deps id j' now config) (jobs.modify id fun _ => j') := by
  have hbase : Kept { s with fairshare := fairshare, deps := deps } jobs :=
    ⟨h.mirror, FairShare.length_ensure_le hf h.accounts⟩
  have hne : job.state ≠ .ready := by simp [hst]
  unfold Scheduler.classified
  dsimp only
  split
  · rename_i hready
    exact hbase.enqueue hid hne hready
  · rename_i hready
    exact hbase.rewrite hid hne hready

/-! Promotions and cascades. -/

/-- What one dependent's move does to the rest of the scheduler. -/
structure Moved (next : JobState) (ids : List JobId) (out out' : Scheduler × Arena Job) :
    Prop where
  jobs : out'.2 = out.2.modifyAll ids (Job.movedTo next)
  deps : out'.1.deps = out.1.deps
  fairshare : out'.1.fairshare = out.1.fairshare
  kept : Kept out.1 out.2 → Kept out'.1 out'.2

private theorem Moved.nil (next : JobState) (out : Scheduler × Arena Job) : Moved next [] out out :=
  ⟨rfl, rfl, rfl, fun h => h⟩

private theorem Moved.cons {next : JobState} {i : JobId} {ids : List JobId}
    {out₁ out₂ out₃ : Scheduler × Arena Job} (h : Moved next [i] out₁ out₂)
    (h' : Moved next ids out₂ out₃) : Moved next (i :: ids) out₁ out₃ := by
  refine ⟨?_, h'.deps.trans h.deps, h'.fairshare.trans h.fairshare, fun hk => h'.kept (h.kept hk)⟩
  rw [h'.jobs, h.jobs]
  rfl

private theorem modify_movedTo_of_can {dependent : JobId} {next : JobState}
    (hg : jobs.get dependent = some job) (hcan : job.state.canTransitionTo next = true) :
    (jobs.modify dependent fun _ => job.withState next) =
      jobs.modifyAll [dependent] (Job.movedTo next) := by
  refine Arena.modify_congr fun v hv => ?_
  rw [hg, Option.some.injEq] at hv
  rw [← hv, Job.movedTo_of_can hcan]

private theorem modifyAll_movedTo_of_not {dependent : JobId} {next : JobState}
    (h : ∀ job, jobs.get dependent = some job → job.state.canTransitionTo next = false) :
    jobs = jobs.modifyAll [dependent] (Job.movedTo next) :=
  (Arena.modify_eq_self fun v hv => Job.movedTo_of_not (h v hv)).symm

private theorem promoteOne_moved (now : VirtualTime) (config : CycleConfig)
    (out : Scheduler × Arena Job) (dependent : JobId) :
    Moved .ready [dependent] out (promoteOne now config out dependent) := by
  unfold promoteOne
  cases hg : out.2.get dependent with
  | none =>
    exact ⟨modifyAll_movedTo_of_not (by simp [hg]), rfl, rfl, fun h => h⟩
  | some job =>
    cases hcan : job.state.canTransitionTo .ready with
    | true =>
      have hst : job.state ≠ .ready := fun hr => by rw [hr] at hcan; cases hcan
      simp only [Job.tryTransition_of_can hcan]
      exact ⟨modify_movedTo_of_can hg hcan, rfl, rfl, fun h => h.enqueue hg hst rfl⟩
    | false =>
      simp only [Job.tryTransition_of_not hcan]
      exact ⟨modifyAll_movedTo_of_not (by simp [hg, hcan]), rfl, rfl, fun h => h⟩

private theorem cascadeOne_moved (out : Scheduler × Arena Job) (dependent : JobId) :
    Moved .cancelled [dependent] out (cascadeOne out dependent) := by
  unfold cascadeOne
  cases hg : out.2.get dependent with
  | none =>
    exact ⟨modifyAll_movedTo_of_not (by simp [hg]), rfl, rfl, fun h => h⟩
  | some job =>
    cases hcan : job.state.canTransitionTo .cancelled with
    | true =>
      simp only [Job.tryTransition_of_can hcan]
      refine ⟨modify_movedTo_of_can hg hcan, ?_, ?_, fun h => ?_⟩
      · split <;> rfl
      · split <;> rfl
      · split
        · exact h.dequeue hg (by simp)
        · rename_i hst
          exact h.rewrite hg hst (by simp)
    | false =>
      have hst : job.state ≠ .ready := fun hr => by rw [hr] at hcan; cases hcan
      simp only [Job.tryTransition_of_not hcan, if_neg hst]
      exact ⟨modifyAll_movedTo_of_not (by simp [hg, hcan]), rfl, rfl, fun h => h⟩

private theorem foldl_moved {next : JobState}
    {f : Scheduler × Arena Job → JobId → Scheduler × Arena Job}
    (hf : ∀ out i, Moved next [i] out (f out i)) (ids : List JobId) :
    ∀ out, Moved next ids out (ids.foldl f out) := by
  induction ids with
  | nil => exact Moved.nil next
  | cons i ids ih => exact fun out => (hf out i).cons (ih (f out i))

theorem onCompleted_ok (hid : jobs.get id = some job) (hw : job.state.onWorker = true) :
    ∃ s', s.onCompleted id jobs now config =
        ⟨s', (jobs.modify id fun _ => job.withState .completed).modifyAll
          (s.deps.onCompleted id).2 (Job.movedTo .ready), .ok (s.deps.onCompleted id).2⟩ ∧
      s'.deps = (s.deps.onCompleted id).1 ∧
      s'.fairshare = (s.discharge (job.withState .completed) now config).fairshare ∧
      (Kept s jobs → Kept s' ((jobs.modify id fun _ => job.withState .completed).modifyAll
        (s.deps.onCompleted id).2 (Job.movedTo .ready))) := by
  have hcan := JobState.canTransitionTo_completed.mpr hw
  have hne : job.state ≠ .ready := fun hr => by rw [hr] at hw; cases hw
  have hmoved := foldl_moved (promoteOne_moved now config) (s.deps.onCompleted id).2
    ({ s.discharge (job.withState .completed) now config with
      deps := (s.deps.onCompleted id).1 }, jobs.modify id fun _ => job.withState .completed)
  refine ⟨_, ?_, hmoved.deps, hmoved.fairshare, fun hk => ?_⟩
  · simp only [onCompleted, hid, Job.tryTransition_of_can hcan, deps_discharge]
    rw [← hmoved.jobs]
  · rw [← hmoved.jobs]
    exact hmoved.kept (((hk.rewrite hid hne (by simp)).discharge).withDeps _)

private theorem onCompleted_error (h : ∀ job, jobs.get id = some job → job.state.onWorker = false) :
    ∃ err, s.onCompleted id jobs now config = ⟨s, jobs, .error err⟩ := by
  cases hg : jobs.get id with
  | none => exact ⟨.unknownJob id, by simp only [onCompleted, hg]⟩
  | some job =>
    have hcan : job.state.canTransitionTo .completed = false := by
      rw [Bool.eq_false_iff, ne_eq, JobState.canTransitionTo_completed, h job hg]
      decide
    exact ⟨.transition ⟨job.state, .completed⟩,
      by simp only [onCompleted, hg, Job.tryTransition_of_not hcan]⟩

private theorem terminate_ok (s : Scheduler) (id : JobId) (jobs : Arena Job) :
    ∃ s', s.terminate id jobs =
        ⟨s', jobs.modifyAll (s.deps.onTerminated id).2 (Job.movedTo .cancelled),
          .ok (s.deps.onTerminated id).2⟩ ∧
      s'.deps = (s.deps.onTerminated id).1 ∧ s'.fairshare = s.fairshare ∧
      (Kept s jobs →
        Kept s' (jobs.modifyAll (s.deps.onTerminated id).2 (Job.movedTo .cancelled))) := by
  have hmoved := foldl_moved cascadeOne_moved (s.deps.onTerminated id).2
    ({ s with deps := (s.deps.onTerminated id).1 }, jobs)
  refine ⟨_, ?_, hmoved.deps, hmoved.fairshare, fun hk => ?_⟩
  · simp only [terminate]
    rw [← hmoved.jobs]
  · rw [← hmoved.jobs]
    exact hmoved.kept (hk.withDeps _)

theorem onFailed_ok (hid : jobs.get id = some job) (hw : job.state.onWorker = true) :
    ∃ s', s.onFailed id jobs now config =
        ⟨s', (jobs.modify id fun _ => job.withState .failed).modifyAll
          (s.deps.onTerminated id).2 (Job.movedTo .cancelled), .ok (s.deps.onTerminated id).2⟩ ∧
      s'.deps = (s.deps.onTerminated id).1 ∧
      s'.fairshare = (s.discharge (job.withState .failed) now config).fairshare ∧
      (Kept s jobs → Kept s' ((jobs.modify id fun _ => job.withState .failed).modifyAll
        (s.deps.onTerminated id).2 (Job.movedTo .cancelled))) := by
  have hcan := JobState.canTransitionTo_failed.mpr hw
  have hne : job.state ≠ .ready := fun hr => by rw [hr] at hw; cases hw
  obtain ⟨s', heq, hdeps, hfair, hkept⟩ := terminate_ok
    (s.discharge (job.withState .failed) now config) id
    (jobs.modify id fun _ => job.withState .failed)
  refine ⟨s', ?_, hdeps, hfair, fun hk => hkept (hk.rewrite hid hne (by simp)).discharge⟩
  simp only [onFailed, hid, Job.tryTransition_of_can hcan]
  exact heq

private theorem onFailed_error (h : ∀ job, jobs.get id = some job → job.state.onWorker = false) :
    ∃ err, s.onFailed id jobs now config = ⟨s, jobs, .error err⟩ := by
  cases hg : jobs.get id with
  | none => exact ⟨.unknownJob id, by simp only [onFailed, hg]⟩
  | some job =>
    have hcan : job.state.canTransitionTo .failed = false := by
      rw [Bool.eq_false_iff, ne_eq, JobState.canTransitionTo_failed, h job hg]
      decide
    exact ⟨.transition ⟨job.state, .failed⟩,
      by simp only [onFailed, hg, Job.tryTransition_of_not hcan]⟩

def uncharged (s : Scheduler) (id : JobId) (job : Job) (now : VirtualTime)
    (config : CycleConfig) : Scheduler :=
  let s := if job.state = .ready then s.dequeue id job else s
  if job.state.onWorker then s.discharge (job.withState .cancelled) now config else s

private theorem deps_uncharged (s : Scheduler) (id : JobId) (job : Job) (now : VirtualTime)
    (config : CycleConfig) : (s.uncharged id job now config).deps = s.deps := by
  unfold uncharged
  dsimp only
  split <;> split <;> rfl

theorem fairshare_uncharged (s : Scheduler) (id : JobId) (job : Job) (now : VirtualTime)
    (config : CycleConfig) : (s.uncharged id job now config).fairshare =
      if job.state.onWorker then
        s.fairshare.onRelease job.account job.request.cpuMillis now config.fairshare
      else s.fairshare := by
  unfold uncharged
  dsimp only
  split <;> split <;> rfl

private theorem Kept.uncharged (h : Kept s jobs) (hid : jobs.get id = some job) :
    Kept (s.uncharged id job now config) (jobs.modify id fun _ => job.withState .cancelled) := by
  unfold Scheduler.uncharged
  by_cases hst : job.state = .ready
  · have hoff : ¬ job.state.onWorker = true := by rw [hst]; decide
    simp only [if_pos hst, if_neg hoff]
    exact h.dequeue hid (by simp)
  · have hrewrite : Kept s (jobs.modify id fun _ => job.withState .cancelled) :=
      h.rewrite hid hst (by simp)
    simp only [if_neg hst]
    split
    · exact hrewrite.discharge
    · exact hrewrite

theorem cancel_ok (hid : jobs.get id = some job) (hopen : job.state.isTerminal = false) :
    ∃ s', s.cancel id jobs now config =
        ⟨s', (jobs.modify id fun _ => job.withState .cancelled).modifyAll
          (s.deps.onTerminated id).2 (Job.movedTo .cancelled), .ok (s.deps.onTerminated id).2⟩ ∧
      s'.deps = (s.deps.onTerminated id).1 ∧
      s'.fairshare = (s.uncharged id job now config).fairshare ∧
      (Kept s jobs → Kept s' ((jobs.modify id fun _ => job.withState .cancelled).modifyAll
        (s.deps.onTerminated id).2 (Job.movedTo .cancelled))) := by
  have hcan := JobState.canTransitionTo_cancelled.mpr hopen
  obtain ⟨s', heq, hdeps, hfair, hkept⟩ := terminate_ok (s.uncharged id job now config) id
    (jobs.modify id fun _ => job.withState .cancelled)
  rw [deps_uncharged] at heq hdeps hkept
  refine ⟨s', ?_, hdeps, hfair, fun hk => hkept (hk.uncharged hid)⟩
  simp only [cancel, hid, Job.tryTransition_of_can hcan]
  exact heq

private theorem cancel_error (h : ∀ job, jobs.get id = some job → job.state.isTerminal = true) :
    ∃ err, s.cancel id jobs now config = ⟨s, jobs, .error err⟩ := by
  cases hg : jobs.get id with
  | none => exact ⟨.unknownJob id, by simp only [cancel, hg]⟩
  | some job =>
    have hover := h job hg
    have hst : job.state ≠ .ready := fun hr => by rw [hr] at hover; cases hover
    have hcan : job.state.canTransitionTo .cancelled = false := by
      rw [Bool.eq_false_iff, ne_eq, JobState.canTransitionTo_cancelled, hover]
      decide
    exact ⟨.transition ⟨job.state, .cancelled⟩,
      by simp only [cancel, hg, Job.tryTransition_of_not hcan, if_neg hst]⟩

/-! What a call's success says about the job it was for. -/

/-- A call that fails on every other state succeeded on a live job in one of these. -/
private theorem live_of_ok {α : Type} {step : Step α} {a : α} (kind : JobState → Bool)
    (herror : (∀ job, jobs.get id = some job → kind job.state = false) →
      ∃ s' err, step = ⟨s', jobs, .error err⟩) (h : step.result = .ok a) :
    ∃ job, jobs.get id = some job ∧ kind job.state = true := by
  rcases live_cases jobs id kind with hlive | hno
  · exact hlive
  · obtain ⟨s', err, heq⟩ := herror hno
    rw [heq] at h
    exact nomatch h

theorem restoreRunning_inv {a : Unit} (h : (s.restoreRunning id jobs now config).result = .ok a) :
    ∃ job, jobs.get id = some job ∧ job.state = .ready := by
  have := live_of_ok (· == .ready)
    (fun hno => restoreRunning_error fun job hid => by simpa using hno job hid) h
  simpa using this

theorem preempt_inv {a : Unit} (h : (s.preempt id jobs).result = .ok a) :
    ∃ job, jobs.get id = some job ∧ job.state = .running := by
  have := live_of_ok (· == .running)
    (fun hno => ⟨s, preempt_error fun job hid => by simpa using hno job hid⟩) h
  simpa using this

theorem requeue_inv {a : Unit} (h : (s.requeue id jobs now config).result = .ok a) :
    ∃ job, jobs.get id = some job ∧ job.state.isRequeuable = true :=
  live_of_ok JobState.isRequeuable (fun hno => ⟨s, requeue_error hno⟩) h

theorem onPreempted_inv {a : Unit} (h : (s.onPreempted id jobs now config).result = .ok a) :
    ∃ job, jobs.get id = some job ∧ job.state = .preempted := by
  have := live_of_ok (· == .preempted)
    (fun hno => ⟨s, onPreempted_error fun job hid => by simpa using hno job hid⟩) h
  simpa using this

theorem onCompleted_inv {a : List JobId}
    (h : (s.onCompleted id jobs now config).result = .ok a) :
    ∃ job, jobs.get id = some job ∧ job.state.onWorker = true :=
  live_of_ok JobState.onWorker (fun hno => ⟨s, onCompleted_error hno⟩) h

theorem onFailed_inv {a : List JobId} (h : (s.onFailed id jobs now config).result = .ok a) :
    ∃ job, jobs.get id = some job ∧ job.state.onWorker = true :=
  live_of_ok JobState.onWorker (fun hno => ⟨s, onFailed_error hno⟩) h

theorem cancel_inv {a : List JobId} (h : (s.cancel id jobs now config).result = .ok a) :
    ∃ job, jobs.get id = some job ∧ job.state.isTerminal = false := by
  have := live_of_ok (fun st => !st.isTerminal)
    (fun hno => ⟨s, cancel_error fun job hid => by simpa using hno job hid⟩) h
  simpa using this

/-! A call succeeds, or changes nothing. -/

/-- The dichotomy from a call's behaviour on the states it accepts and on the rest. -/
private theorem cases_of_kind {α : Type} {step : Step α} (kind : JobState → Bool)
    (hok : ∀ job, jobs.get id = some job → kind job.state = true → ∃ a, step.result = .ok a)
    (herror : (∀ job, jobs.get id = some job → kind job.state = false) →
      ∃ err, step = ⟨s, jobs, .error err⟩) :
    (∃ a, step.result = .ok a) ∨ ((∀ job, jobs.get id = some job → kind job.state = false) ∧
      ∃ err, step = ⟨s, jobs, .error err⟩) := by
  rcases live_cases jobs id kind with ⟨job, hid, hk⟩ | hno
  · exact Or.inl (hok job hid hk)
  · exact Or.inr ⟨hno, herror hno⟩

theorem requeue_cases (s : Scheduler) (id : JobId) (jobs : Arena Job) (now : VirtualTime)
    (config : CycleConfig) : (∃ a, (s.requeue id jobs now config).result = .ok a) ∨
      ((∀ job, jobs.get id = some job → job.state.isRequeuable = false) ∧
        ∃ err, s.requeue id jobs now config = ⟨s, jobs, .error err⟩) := by
  refine cases_of_kind JobState.isRequeuable (fun job hid hq => ?_) requeue_error
  rw [requeue_ok hid hq]
  exact ⟨(), rfl⟩

theorem onPreempted_cases (s : Scheduler) (id : JobId) (jobs : Arena Job) (now : VirtualTime)
    (config : CycleConfig) : (∃ a, (s.onPreempted id jobs now config).result = .ok a) ∨
      ((∀ job, jobs.get id = some job → job.state ≠ .preempted) ∧
        ∃ err, s.onPreempted id jobs now config = ⟨s, jobs, .error err⟩) := by
  rcases live_cases jobs id (· == .preempted) with ⟨job, hid, hst⟩ | hno
  · rw [onPreempted_ok hid (by simpa using hst)]
    exact Or.inl ⟨(), rfl⟩
  · have hno : ∀ job, jobs.get id = some job → job.state ≠ .preempted := fun job hid => by
      simpa using hno job hid
    exact Or.inr ⟨hno, onPreempted_error hno⟩

theorem onCompleted_cases (s : Scheduler) (id : JobId) (jobs : Arena Job) (now : VirtualTime)
    (config : CycleConfig) : (∃ a, (s.onCompleted id jobs now config).result = .ok a) ∨
      ((∀ job, jobs.get id = some job → job.state.onWorker = false) ∧
        ∃ err, s.onCompleted id jobs now config = ⟨s, jobs, .error err⟩) := by
  refine cases_of_kind JobState.onWorker (fun job hid hw => ?_) onCompleted_error
  obtain ⟨s', heq, -⟩ := @onCompleted_ok s jobs id job now config hid hw
  rw [heq]
  exact ⟨_, rfl⟩

theorem onFailed_cases (s : Scheduler) (id : JobId) (jobs : Arena Job) (now : VirtualTime)
    (config : CycleConfig) : (∃ a, (s.onFailed id jobs now config).result = .ok a) ∨
      ((∀ job, jobs.get id = some job → job.state.onWorker = false) ∧
        ∃ err, s.onFailed id jobs now config = ⟨s, jobs, .error err⟩) := by
  refine cases_of_kind JobState.onWorker (fun job hid hw => ?_) onFailed_error
  obtain ⟨s', heq, -⟩ := @onFailed_ok s jobs id job now config hid hw
  rw [heq]
  exact ⟨_, rfl⟩

theorem cancel_cases (s : Scheduler) (id : JobId) (jobs : Arena Job) (now : VirtualTime)
    (config : CycleConfig) : (∃ a, (s.cancel id jobs now config).result = .ok a) ∨
      ((∀ job, jobs.get id = some job → job.state.isTerminal = true) ∧
        ∃ err, s.cancel id jobs now config = ⟨s, jobs, .error err⟩) := by
  rcases live_cases jobs id (fun st => !st.isTerminal) with ⟨job, hid, hopen⟩ | hno
  · obtain ⟨s', heq, -⟩ := @cancel_ok s jobs id job now config hid (by simpa using hopen)
    rw [heq]
    exact Or.inl ⟨_, rfl⟩
  · have hno : ∀ job, jobs.get id = some job → job.state.isTerminal = true := fun job hid => by
      simpa using hno job hid
    exact Or.inr ⟨hno, cancel_error hno⟩

theorem submit_of_checkSubmit {jobs' : Arena Job} {readiness : Readiness}
    (hcheck : s.checkSubmit id job jobs = .ok readiness)
    (hinsert : jobs.insert job = some (jobs', id)) (hst : job.state = .submitted) :
    (s.submit id jobs' now config).result = .ok (stateOf readiness) := by
  unfold checkSubmit at hcheck
  split at hcheck
  · exact nomatch hcheck
  rename_i haccount
  have hget : jobs'.get id = some job := by rw [Arena.get_insert hinsert, if_pos rfl]
  cases hc : DependencyTracker.classify id job jobs with
  | error err =>
    rw [hc] at hcheck
    exact nomatch hcheck
  | ok r =>
    rw [hc] at hcheck
    obtain rfl : r = readiness := Except.ok.inj hcheck
    obtain ⟨fairshare, hf⟩ := @FairShare.ensure_isOk s.fairshare job.account (by omega)
    have hc' : DependencyTracker.classify id job jobs' = .ok r := by
      rw [DependencyTracker.classify_insert hinsert]
      exact hc
    obtain ⟨deps, hreg⟩ := @DependencyTracker.register_of_classify s.deps _ _ _ _ hc'
    rw [submit_ok hget hst hf hreg]

/-! Every call keeps the ready set in step with the arena, whether it succeeds or not. -/

theorem Kept.restoreRunning (h : Kept s jobs) (id : JobId) (now : VirtualTime)
    (config : CycleConfig) : Kept (s.restoreRunning id jobs now config).scheduler
      (s.restoreRunning id jobs now config).jobs := by
  cases hg : jobs.get id with
  | none =>
    simp only [Scheduler.restoreRunning, hg]
    exact h
  | some job =>
    by_cases hst : job.state = .ready
    · rw [restoreRunning_ok hg hst]
      exact (h.dequeue hg (by simp)).charge
    · have hcan : job.state.canTransitionTo .running = false := by
        rw [Bool.eq_false_iff]
        exact fun hc => hst (JobState.canTransitionTo_running.mp hc)
      simp only [Scheduler.restoreRunning, hg, Job.tryTransition_of_not hcan]
      exact h.dequeue_absent hg hst

theorem Kept.preempt (h : Kept s jobs) (id : JobId) :
    Kept (s.preempt id jobs).scheduler (s.preempt id jobs).jobs := by
  rcases live_cases jobs id (· == .running) with ⟨job, hid, hst⟩ | hno
  · have hst : job.state = .running := by simpa using hst
    rw [preempt_ok hid hst]
    exact h.rewrite hid (by simp [hst]) (by simp)
  · obtain ⟨err, heq⟩ := @preempt_error s jobs id fun job hid => by simpa using hno job hid
    rw [heq]
    exact h

theorem Kept.requeue (h : Kept s jobs) (id : JobId) (now : VirtualTime) (config : CycleConfig) :
    Kept (s.requeue id jobs now config).scheduler (s.requeue id jobs now config).jobs := by
  rcases live_cases jobs id JobState.isRequeuable with ⟨job, hid, hq⟩ | hno
  · have hne : job.state ≠ .ready := fun hr => by rw [hr] at hq; cases hq
    rw [requeue_ok hid hq]
    exact h.discharge.enqueue hid hne rfl
  · obtain ⟨err, heq⟩ := @requeue_error s jobs id now config hno
    rw [heq]
    exact h

theorem Kept.onPreempted (h : Kept s jobs) (id : JobId) (now : VirtualTime)
    (config : CycleConfig) : Kept (s.onPreempted id jobs now config).scheduler
      (s.onPreempted id jobs now config).jobs := by
  rcases live_cases jobs id (· == .preempted) with ⟨job, hid, hst⟩ | hno
  · have hst : job.state = .preempted := by simpa using hst
    rw [onPreempted_ok hid hst]
    exact h.discharge.enqueue hid (by simp [hst]) rfl
  · obtain ⟨err, heq⟩ := @onPreempted_error s jobs id now config
      fun job hid => by simpa using hno job hid
    rw [heq]
    exact h

theorem Kept.submit (h : Kept s jobs) (id : JobId) (now : VirtualTime) (config : CycleConfig) :
    Kept (s.submit id jobs now config).scheduler (s.submit id jobs now config).jobs := by
  cases hg : jobs.get id with
  | none =>
    simp only [Scheduler.submit, hg]
    exact h
  | some job =>
    by_cases hst : job.state = .submitted
    · cases hf : s.fairshare.ensure job.account with
      | error e =>
        simp only [Scheduler.submit, hg, hst, hf, ne_eq, not_true_eq_false, if_false]
        exact h
      | ok fairshare =>
        cases hreg : s.deps.register id job jobs with
        | error e =>
          simp only [Scheduler.submit, hg, hst, hf, hreg, ne_eq, not_true_eq_false, if_false]
          exact ⟨h.mirror, FairShare.length_ensure_le hf h.accounts⟩
        | ok out =>
          rw [submit_ok hg hst hf hreg]
          exact h.classified hg hst hf
    · simp only [Scheduler.submit, hg, ne_eq, if_pos hst]
      exact h

theorem Kept.onCompleted (h : Kept s jobs) (id : JobId) (now : VirtualTime)
    (config : CycleConfig) : Kept (s.onCompleted id jobs now config).scheduler
      (s.onCompleted id jobs now config).jobs := by
  rcases live_cases jobs id JobState.onWorker with ⟨job, hid, hw⟩ | hno
  · obtain ⟨s', heq, -, -, hkept⟩ := @onCompleted_ok s jobs id job now config hid hw
    rw [heq]
    exact hkept h
  · obtain ⟨err, heq⟩ := @onCompleted_error s jobs id now config hno
    rw [heq]
    exact h

theorem Kept.onFailed (h : Kept s jobs) (id : JobId) (now : VirtualTime)
    (config : CycleConfig) : Kept (s.onFailed id jobs now config).scheduler
      (s.onFailed id jobs now config).jobs := by
  rcases live_cases jobs id JobState.onWorker with ⟨job, hid, hw⟩ | hno
  · obtain ⟨s', heq, -, -, hkept⟩ := @onFailed_ok s jobs id job now config hid hw
    rw [heq]
    exact hkept h
  · obtain ⟨err, heq⟩ := @onFailed_error s jobs id now config hno
    rw [heq]
    exact h

theorem Kept.cancel (h : Kept s jobs) (id : JobId) (now : VirtualTime) (config : CycleConfig) :
    Kept (s.cancel id jobs now config).scheduler (s.cancel id jobs now config).jobs := by
  rcases live_cases jobs id (fun st => !st.isTerminal) with ⟨job, hid, hopen⟩ | hno
  · obtain ⟨s', heq, -, -, hkept⟩ := @cancel_ok s jobs id job now config hid (by simpa using hopen)
    rw [heq]
    exact hkept h
  · obtain ⟨err, heq⟩ := @cancel_error s jobs id now config
      fun job hid => by simpa using hno job hid
    rw [heq]
    exact h

end Scheduler

end TaskerRT.Scheduling
