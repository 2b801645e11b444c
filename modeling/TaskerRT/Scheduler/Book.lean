/- module: TaskerRT/Scheduler/Book
   source: none (abstract layer over crates/tasker-core/src/engine/cycle.rs)
   digest: What each logged record does to the tracker and the arena, and what survives it. -/

import TaskerRT.Library.Chain
import TaskerRT.Scheduler.Exact
import TaskerRT.Scheduler.Mirrored
import TaskerRT.Wal.Record

set_option autoImplicit false

namespace TaskerRT.Scheduling

open Library Domain Cluster Policy Wal DependencyTracker

structure Book where
  deps : DependencyTracker
  jobs : Arena Job

namespace Book

variable {b b' : Book} {r : Record} {id : JobId} {job : Job}

def complete (b : Book) (id : JobId) (job : Job) : Book where
  deps := (b.deps.onCompleted id).1
  jobs := (b.jobs.modify id fun _ => job.withState .completed).modifyAll
    (b.deps.onCompleted id).2 (Job.movedTo .ready)

def terminate (b : Book) (id : JobId) (job : Job) (next : JobState) : Book where
  deps := (b.deps.onTerminated id).1
  jobs := (b.jobs.modify id fun _ => job.withState next).modifyAll
    (b.deps.onTerminated id).2 (Job.movedTo .cancelled)

/-- The effect of each record. An eviction counter may move when a job is requeued. -/
inductive Posts : Book → Record → Book → Prop where
  | submitted {b : Book} {jobs : Arena Job} {id : JobId} {job : Job} {deps : DependencyTracker}
      {readiness : Readiness} (fresh : b.jobs.insert job = some (jobs, id))
      (state : job.state = .submitted) (account : job.account.val < maxAccounts)
      (registered : b.deps.register id job jobs = .ok (deps, readiness)) :
      Posts b (.submitted id job)
        ⟨deps, jobs.modify id fun _ => job.withState (Scheduler.stateOf readiness)⟩
  | dispatched {b : Book} {id : JobId} {job : Job} (at_ : VirtualTime)
      (live : b.jobs.get id = some job) (state : job.state = .ready) :
      Posts b (.dispatched id at_) ⟨b.deps, b.jobs.modify id fun _ => job.withState .running⟩
  | completed {b : Book} {id : JobId} {job : Job} (at_ : VirtualTime)
      (live : b.jobs.get id = some job) (state : job.state.onWorker = true) :
      Posts b (.completed id at_) (b.complete id job)
  | failed {b : Book} {id : JobId} {job : Job} (at_ : VirtualTime)
      (live : b.jobs.get id = some job) (state : job.state.onWorker = true) :
      Posts b (.failed id at_) (b.terminate id job .failed)
  | cancelled {b : Book} {id : JobId} {job : Job} (at_ : VirtualTime)
      (live : b.jobs.get id = some job) (state : job.state.isTerminal = false) :
      Posts b (.cancelled id at_) (b.terminate id job .cancelled)
  | requeued {b : Book} {id : JobId} {job : Job} (at_ : VirtualTime) (preemptions : Word 8)
      (live : b.jobs.get id = some job) (state : job.state.isRequeuable = true) :
      Posts b (.requeued id at_)
        ⟨b.deps, b.jobs.modify id fun _ =>
          { job with state := .ready, preemptions := preemptions }⟩
  | preempted {b : Book} {id : JobId} {job : Job} (at_ : VirtualTime)
      (live : b.jobs.get id = some job) (state : job.state = .running) :
      Posts b (.preempted id at_) ⟨b.deps, b.jobs.modify id fun _ => job.withState .preempted⟩
  | forgotten {b : Book} {id : JobId} {job : Job} (live : b.jobs.get id = some job)
      (state : job.state.isTerminal = true) :
      Posts b (.forgotten id) ⟨b.deps, (b.jobs.remove id).1⟩

/-- What the dependency index needs of a record beyond its effect: only jobs from a worker are
requeued, and a forgotten handle is not the last of its slot, whose generation would wrap. -/
def Legal (b : Book) : Record → Prop
  | .requeued id _ => ∃ job, b.jobs.get id = some job ∧ job.state.onWorker = true
  | .forgotten id => id.generation ≠ Word.maxValue 32
  | _ => True

/-- A record posted where it is legal. -/
def Lawful (b : Book) (r : Record) (b' : Book) : Prop := Posts b r b' ∧ Legal b r

/-- A sound tracker over a well-formed arena whose open jobs have valid accounts. -/
structure Valid (b : Book) : Prop where
  wf : b.jobs.Wf
  sound : Sound b.deps b.jobs
  account : ∀ {id : JobId} {job : Job}, b.jobs.get id = some job →
    job.state.isTerminal = false → job.account.val < maxAccounts

theorem get_complete (hplaced : b.deps.OwnersPlaced) (hid : b.jobs.get id = some job)
    (x : JobId) :
    (b.complete id job).jobs.get x = if x = id then some (job.withState .completed)
      else if x ∈ (b.deps.onCompleted id).2 then (b.jobs.get x).map (Job.movedTo .ready)
      else b.jobs.get x := by
  have hself : (job.withState .completed).movedTo .ready = job.withState .completed :=
    Job.movedTo_of_not rfl
  show ((b.jobs.modify id _).modifyAll _ _).get x = _
  rw [Arena.get_modifyAll (nodup_onCompleted hplaced id)]
  by_cases hx : x = id
  · rw [if_pos hx, hx, Arena.get_modify_self, hid, Option.map_some, Option.map_some, hself]
    split <;> rfl
  · rw [if_neg hx, Arena.get_modify_ne _ hx]

theorem get_terminate (hid : b.jobs.get id = some job) (next : JobState) (x : JobId) :
    (b.terminate id job next).jobs.get x = if x = id then some (job.withState next)
      else if x ∈ (b.deps.onTerminated id).2 then (b.jobs.get x).map (Job.movedTo .cancelled)
      else b.jobs.get x := by
  have hself : id ∉ (b.deps.onTerminated id).2 := fun hmem => (mem_onTerminated.mp hmem).1 rfl
  show ((b.jobs.modify id _).modifyAll _ _).get x = _
  rw [Arena.get_modifyAll (nodup_onTerminated b.deps id)]
  by_cases hx : x = id
  · rw [if_pos hx, hx, if_neg hself, Arena.get_modify_self, hid]
    rfl
  · rw [if_neg hx, Arena.get_modify_ne _ hx]

/-- A job without what its lifecycle changes: its state and its eviction count. -/
def core (job : Job) : Job := { job with state := .submitted, preemptions := 0 }

@[simp] theorem core_withState (job : Job) (s : JobState) : core (job.withState s) = core job :=
  rfl

@[simp] theorem core_movedTo (job : Job) (s : JobState) : core (job.movedTo s) = core job := by
  unfold Job.movedTo
  split <;> rfl

theorem deps_of_core {j j' : Job} (h : core j' = core j) : j'.deps = j.deps :=
  (congrArg Job.deps h : (core j').deps = (core j).deps)

theorem account_of_core {j j' : Job} (h : core j' = core j) : j'.account = j.account :=
  (congrArg Job.account h : (core j').account = (core j).account)

/-- How a live job may relate to itself before a record: the same up to its lifecycle, and
untouched once it is over. -/
def Continues (j j' : Job) : Prop := core j' = core j ∧ (j.state.isTerminal = true → j' = j)

theorem Continues.refl (j : Job) : Continues j j := ⟨rfl, fun _ => rfl⟩

private theorem Continues.of_open {j j' : Job} (hcore : core j' = core j)
    (hopen : j.state.isTerminal = false) : Continues j j' :=
  ⟨hcore, fun h => absurd h (by simp [hopen])⟩

theorem Continues.movedTo (j : Job) (next : JobState) : Continues j (j.movedTo next) := by
  refine ⟨core_movedTo j next, fun h => ?_⟩
  apply Job.movedTo_of_not
  cases hcan : j.state.canTransitionTo next with
  | false => rfl
  | true => simp [JobState.not_terminal_of_canTransitionTo hcan] at h

private theorem continues_modify {jobs : Arena Job} {j' : Job} (hid : jobs.get id = some job)
    (hc : Continues job j') (x : JobId) :
    (jobs.modify id fun _ => j').get x = jobs.get x ∨
      ∃ j k, jobs.get x = some j ∧ (jobs.modify id fun _ => j').get x = some k ∧
        Continues j k := by
  by_cases hx : x = id
  · right
    refine ⟨job, j', hx ▸ hid, ?_, hc⟩
    rw [hx, Arena.get_modify_self, hid]
    rfl
  · exact Or.inl (Arena.get_modify_ne _ hx)

private theorem continues_batch {jobs jobs' : Arena Job} {ids : List JobId} {next target : JobState}
    (hid : jobs.get id = some job) (hopen : job.state.isTerminal = false)
    (hget : ∀ x, jobs'.get x = if x = id then some (job.withState next)
      else if x ∈ ids then (jobs.get x).map (Job.movedTo target) else jobs.get x) (x : JobId) :
    jobs'.get x = jobs.get x ∨
      ∃ j k, jobs.get x = some j ∧ jobs'.get x = some k ∧ Continues j k := by
  rw [hget x]
  by_cases hx : x = id
  · right
    rw [if_pos hx]
    exact ⟨job, _, hx ▸ hid, rfl, .of_open rfl hopen⟩
  · rw [if_neg hx]
    split
    · cases hg : jobs.get x with
      | none => exact Or.inl rfl
      | some j => exact Or.inr ⟨j, _, rfl, rfl, .movedTo j target⟩
    · exact Or.inl rfl

/-- Every live job after a record is a live job before it or the one just submitted, and only a
forgotten job is no longer live. -/
theorem Posts.frame (h : Posts b r b') (hplaced : b.deps.OwnersPlaced) (x : JobId) :
    b'.jobs.get x = b.jobs.get x ∨
      (∃ j k, b.jobs.get x = some j ∧ b'.jobs.get x = some k ∧ Continues j k) ∨
      (∃ job k, r = .submitted x job ∧ b.jobs.nextId = some x ∧ b'.jobs.get x = some k ∧
        core k = core job) ∨
      (r = .forgotten x ∧ b'.jobs.get x = none) := by
  cases h with
  | @submitted jobs id job deps readiness fresh state account registered =>
    by_cases hx : x = id
    · subst hx
      right; right; left
      refine ⟨job, job.withState (Scheduler.stateOf readiness), rfl, Arena.nextId_of_insert fresh,
        ?_, rfl⟩
      show (jobs.modify x _).get x = some (job.withState (Scheduler.stateOf readiness))
      rw [Arena.get_modify_self, Arena.get_insert fresh, if_pos rfl]
      rfl
    · left
      show (jobs.modify id _).get x = b.jobs.get x
      rw [Arena.get_modify_ne _ hx, Arena.get_insert fresh, if_neg hx]
  | @dispatched id job at_ live state =>
    rcases continues_modify live (.of_open (by rfl) (by rw [state]; rfl) :
      Continues job (job.withState .running)) x with hsame | hmoved
    · exact Or.inl hsame
    · exact Or.inr (Or.inl hmoved)
  | completed at_ live state =>
    rcases continues_batch live (JobState.not_terminal_of_onWorker state)
      (get_complete hplaced live) x with hsame | hmoved
    · exact Or.inl hsame
    · exact Or.inr (Or.inl hmoved)
  | failed at_ live state =>
    rcases continues_batch live (JobState.not_terminal_of_onWorker state)
      (get_terminate live .failed) x with hsame | hmoved
    · exact Or.inl hsame
    · exact Or.inr (Or.inl hmoved)
  | cancelled at_ live state =>
    rcases continues_batch live state (get_terminate live .cancelled) x with hsame | hmoved
    · exact Or.inl hsame
    · exact Or.inr (Or.inl hmoved)
  | @requeued id job at_ preemptions live state =>
    rcases continues_modify live (.of_open (by rfl) (JobState.not_terminal_of_isRequeuable state) :
      Continues job { job with state := .ready, preemptions := preemptions }) x with hsame | hmoved
    · exact Or.inl hsame
    · exact Or.inr (Or.inl hmoved)
  | @preempted id job at_ live state =>
    rcases continues_modify live (.of_open (by rfl) (by rw [state]; rfl) :
      Continues job (job.withState .preempted)) x with hsame | hmoved
    · exact Or.inl hsame
    · exact Or.inr (Or.inl hmoved)
  | @forgotten id job live state =>
    by_cases hx : x = id
    · subst hx
      right; right; right
      exact ⟨rfl, by rw [Arena.get_remove, if_pos rfl]⟩
    · left
      show (b.jobs.remove id).1.get x = _
      rw [Arena.get_remove, if_neg hx]

theorem Posts.issued (h : Posts b r b') (hl : Legal b r) {x : JobId} (hx : b.jobs.Issued x) :
    b'.jobs.Issued x := by
  cases h with
  | submitted fresh => exact Arena.issued_modify.mpr (Arena.issued_insert fresh hx)
  | dispatched | requeued | preempted => exact Arena.issued_modify.mpr hx
  | completed | failed | cancelled =>
    exact Arena.issued_modifyAll.mpr (Arena.issued_modify.mpr hx)
  | forgotten => exact Arena.issued_remove hl hx

private theorem Posts.wf (h : Posts b r b') (hwf : b.jobs.Wf) : b'.jobs.Wf := by
  cases h with
  | submitted fresh => exact (hwf.insert fresh).modify _ _
  | dispatched | requeued | preempted => exact hwf.modify _ _
  | completed | failed | cancelled => exact (hwf.modify _ _).modifyAll _ _
  | forgotten => exact hwf.remove _

private theorem shift_modify {jobs : Arena Job} {j' : Job} (hid : jobs.get id = some job)
    (hdeps : j'.deps = job.deps) (hc : job.state.isCleared = true)
    (hc' : j'.state.isCleared = true) (x : JobId) :
    (jobs.modify id fun _ => j').get x = jobs.get x ∨
      ∃ j k, jobs.get x = some j ∧ (jobs.modify id fun _ => j').get x = some k ∧
        k.deps = j.deps ∧ j.state.isCleared = true ∧ k.state.isCleared = true := by
  by_cases hx : x = id
  · right
    refine ⟨job, j', hx ▸ hid, ?_, hdeps, hc, hc'⟩
    rw [hx, Arena.get_modify_self, hid]
    rfl
  · exact Or.inl (Arena.get_modify_ne _ hx)

private theorem get_classified {jobs : Arena Job} {j' : Job} (hid : jobs.get id = some job)
    (x : JobId) : (jobs.modify id fun _ => j').get x = if x = id then some j' else jobs.get x := by
  rw [Arena.get_modify, hid]
  rfl

private theorem onWorker_of_legal {at_ : VirtualTime} (hl : Legal b (.requeued id at_))
    (live : b.jobs.get id = some job) : job.state.onWorker = true := by
  obtain ⟨j, hj, hw⟩ := hl
  rw [live, Option.some.injEq] at hj
  exact hj ▸ hw

theorem Posts.sound (h : Posts b r b') (hl : Legal b r) (hsound : Sound b.deps b.jobs) :
    Sound b'.deps b'.jobs := by
  have hissued {x : JobId} : b.jobs.Issued x → b'.jobs.Issued x := h.issued hl
  cases h with
  | submitted fresh state account registered =>
    have hget := Arena.get_insert fresh
    have hid := (hget _).trans (if_pos rfl)
    have hinserted := hsound.insert (Arena.not_issued_nextId (Arena.nextId_of_insert fresh))
      state hget fun x hx => Arena.issued_insert fresh hx
    exact hinserted.classified hid state registered (get_classified hid)
      fun x hx => Arena.issued_modify.mpr hx
  | dispatched at_ live state =>
    exact hsound.shift (shift_modify live rfl (by rw [state]; rfl) rfl) fun x => hissued
  | completed at_ live state =>
    exact hsound.complete live state (get_complete hsound.placed live) fun x => hissued
  | failed at_ live state =>
    exact hsound.terminate live (JobState.not_terminal_of_onWorker state) (Or.inl rfl)
      (get_terminate live .failed) fun x => hissued
  | cancelled at_ live state =>
    exact hsound.terminate live state (Or.inr rfl) (get_terminate live .cancelled)
      fun x => hissued
  | requeued at_ preemptions live state =>
    exact hsound.shift (shift_modify live rfl
      (JobState.isCleared_of_onWorker (onWorker_of_legal hl live)) rfl) fun x => hissued
  | preempted at_ live state =>
    exact hsound.shift (shift_modify live rfl (by rw [state]; rfl) rfl) fun x => hissued
  | forgotten live state =>
    refine hsound.remove (fun j hj => ?_) (Arena.get_remove b.jobs _) fun x => hissued
    rw [live, Option.some.injEq] at hj
    exact hj ▸ state

private theorem Posts.account (h : Posts b r b') (hv : Valid b) {x : JobId} {k : Job}
    (hx : b'.jobs.get x = some k) (hopen : k.state.isTerminal = false) :
    k.account.val < maxAccounts := by
  rcases h.frame hv.sound.placed x with
    hsame | ⟨j, k', hj, hk', hc⟩ | ⟨job, k', hr, -, hk', hcore⟩ | ⟨-, hnone⟩
  · exact hv.account (hsame ▸ hx) hopen
  · rw [hx, Option.some.injEq] at hk'
    subst hk'
    rw [account_of_core hc.1]
    refine hv.account hj ?_
    cases hover : j.state.isTerminal with
    | false => rfl
    | true => rw [hc.2 hover, hover] at hopen; exact hopen
  · rw [hx, Option.some.injEq] at hk'
    subst hk'
    rw [account_of_core hcore]
    cases h with
    | submitted fresh state account registered => cases hr; exact account
    | _ => cases hr
  · rw [hx] at hnone
    cases hnone

theorem Valid.posts (hv : Valid b) (h : Lawful b r b') : Valid b' :=
  ⟨h.1.wf hv.wf, h.1.sound h.2 hv.sound, h.1.account hv⟩

theorem exact_posts (hv : Valid b) (he : Exact b.deps b.jobs) (hlawful : Lawful b r b') :
    Exact b'.deps b'.jobs := by
  obtain ⟨h, hl⟩ := hlawful
  have hsound := hv.sound
  cases h with
  | @submitted jobs id job deps readiness fresh state account registered =>
    have hfresh := Arena.not_issued_nextId (Arena.nextId_of_insert fresh)
    have hget := Arena.get_insert fresh
    have hid := (hget id).trans (if_pos rfl)
    have hinserted := hsound.insert hfresh state hget fun x hx => Arena.issued_insert fresh hx
    refine (he.insert hsound hfresh state hget).classified hinserted hid ?_ registered
      (get_classified hid)
    -- No blocked job can name a handle that was not issued before.
    intro x j hx hst hmem
    rw [hget] at hx
    split at hx
    · rw [Option.some.injEq] at hx
      rw [← hx, state] at hst
      cases hst
    · exact hfresh (hsound.deps_issued hx (by simp [hst]) (by rw [hst]; rfl) id hmem)
  | dispatched at_ live state =>
    exact he.shift (shift_modify live rfl (by rw [state]; rfl) rfl)
  | completed at_ live state =>
    exact he.complete hsound live state (get_complete hsound.placed live)
  | failed at_ live state =>
    exact he.terminate hsound live (Or.inl rfl) (get_terminate live .failed)
  | cancelled at_ live state =>
    exact he.terminate hsound live (Or.inr rfl) (get_terminate live .cancelled)
  | requeued at_ preemptions live state =>
    exact he.shift (shift_modify live rfl
      (JobState.isCleared_of_onWorker (onWorker_of_legal hl live)) rfl)
  | preempted at_ live state =>
    exact he.shift (shift_modify live rfl (by rw [state]; rfl) rfl)
  | forgotten live state =>
    refine he.remove (fun j hj => ?_) (Arena.get_remove b.jobs _)
    rw [live, Option.some.injEq] at hj
    exact hj ▸ state

theorem movedTo_not_terminal {next : JobState} (hnext : next.isTerminal = false)
    (hopen : job.state.isTerminal = false) : (job.movedTo next).state.isTerminal = false := by
  unfold Job.movedTo
  split
  · exact hnext
  · exact hopen

theorem Posts.over (h : Posts b r b') (hplaced : b.deps.OwnersPlaced) {x : JobId}
    (hx : b.jobs.get x = some job) (hover : job.state.isTerminal = true)
    (hne : r ≠ .forgotten x) : b'.jobs.get x = some job := by
  rcases h.frame hplaced x with hsame | ⟨j, k, hj, hk, -, hcont⟩ | ⟨j, k, -, hnext, -⟩ |
    ⟨hrec, -⟩
  · rw [hsame, hx]
  · rw [hx, Option.some.injEq] at hj
    subst hj
    rw [hk, hcont hover]
  · rw [Arena.get_nextId hnext] at hx
    exact nomatch hx
  · exact absurd hrec hne

section

variable {s : Scheduler} {jobs : Arena Job} {id : JobId} {now : VirtualTime} {config : CycleConfig}

/-! What each scheduler call that succeeds posts. -/

theorem posts_submit {jobs' : Arena Job} {job : Job} {state : JobState}
    (fresh : jobs.insert job = some (jobs', id))
    (ok : (s.submit id jobs' now config).result = .ok state) :
    Posts ⟨s.deps, jobs⟩ (.submitted id job)
      ⟨(s.submit id jobs' now config).scheduler.deps, (s.submit id jobs' now config).jobs⟩ := by
  obtain ⟨fairshare, deps, readiness, -, hst, hf, hreg, -, hstep⟩ := Scheduler.submit_fresh fresh ok
  rw [hstep]
  dsimp only
  rw [Scheduler.deps_classified]
  exact .submitted fresh hst (FairShare.account_lt_of_ensure hf) hreg

theorem posts_onCompleted {promoted : List JobId}
    (ok : (s.onCompleted id jobs now config).result = .ok promoted) :
    Posts ⟨s.deps, jobs⟩ (.completed id now)
      ⟨(s.onCompleted id jobs now config).scheduler.deps,
        (s.onCompleted id jobs now config).jobs⟩ := by
  obtain ⟨job, hid, hw⟩ := Scheduler.onCompleted_inv ok
  obtain ⟨s', heq, hdeps, -, -⟩ := @Scheduler.onCompleted_ok s jobs id job now config hid hw
  simp only [heq, hdeps]
  exact .completed now hid hw

theorem posts_onFailed {cascade : List JobId}
    (ok : (s.onFailed id jobs now config).result = .ok cascade) :
    Posts ⟨s.deps, jobs⟩ (.failed id now)
      ⟨(s.onFailed id jobs now config).scheduler.deps,
        (s.onFailed id jobs now config).jobs⟩ := by
  obtain ⟨job, hid, hw⟩ := Scheduler.onFailed_inv ok
  obtain ⟨s', heq, hdeps, -, -⟩ := @Scheduler.onFailed_ok s jobs id job now config hid hw
  simp only [heq, hdeps]
  exact .failed now hid hw

theorem posts_cancel {cascade : List JobId}
    (ok : (s.cancel id jobs now config).result = .ok cascade) :
    Posts ⟨s.deps, jobs⟩ (.cancelled id now)
      ⟨(s.cancel id jobs now config).scheduler.deps, (s.cancel id jobs now config).jobs⟩ := by
  obtain ⟨job, hid, hopen⟩ := Scheduler.cancel_inv ok
  obtain ⟨s', heq, hdeps, -, -⟩ := @Scheduler.cancel_ok s jobs id job now config hid hopen
  simp only [heq, hdeps]
  exact .cancelled now hid hopen

theorem posts_requeue {u : Unit} (ok : (s.requeue id jobs now config).result = .ok u) :
    Posts ⟨s.deps, jobs⟩ (.requeued id now)
      ⟨(s.requeue id jobs now config).scheduler.deps, (s.requeue id jobs now config).jobs⟩ := by
  obtain ⟨job, hid, hq⟩ := Scheduler.requeue_inv ok
  simp only [Scheduler.requeue_ok hid hq]
  exact .requeued now job.preemptions hid hq

theorem posts_onPreempted {u : Unit} (ok : (s.onPreempted id jobs now config).result = .ok u) :
    Posts ⟨s.deps, jobs⟩ (.requeued id now)
      ⟨(s.onPreempted id jobs now config).scheduler.deps,
        (s.onPreempted id jobs now config).jobs⟩ := by
  obtain ⟨job, hid, hst⟩ := Scheduler.onPreempted_inv ok
  simp only [Scheduler.onPreempted_ok hid hst]
  exact .requeued now _ hid (by rw [hst]; rfl)

theorem posts_preempt {u : Unit} (now : VirtualTime)
    (ok : (s.preempt id jobs).result = .ok u) :
    Posts ⟨s.deps, jobs⟩ (.preempted id now)
      ⟨(s.preempt id jobs).scheduler.deps, (s.preempt id jobs).jobs⟩ := by
  obtain ⟨job, hid, hst⟩ := Scheduler.preempt_inv ok
  simp only [Scheduler.preempt_ok hid hst]
  exact .preempted now hid hst

private theorem chain_dispatched (deps : DependencyTracker) (now : VirtualTime) :
    ∀ {ids : List JobId} {jobs : Arena Job}, ids.Nodup →
      (∀ id ∈ ids, ∃ job, jobs.get id = some job ∧ job.state = .ready) →
      Chain Posts ⟨deps, jobs⟩ (ids.map fun id => .dispatched id now)
        ⟨deps, jobs.modifyAll ids (·.withState .running)⟩ := by
  intro ids
  induction ids with
  | nil => exact fun _ _ => .nil _
  | cons id ids ih =>
    intro jobs hnd hready
    obtain ⟨hid, hnd⟩ := List.nodup_cons.mp hnd
    obtain ⟨job, hjob, hst⟩ := hready id List.mem_cons_self
    have hstep : jobs.modify id (·.withState .running) =
        jobs.modify id fun _ => job.withState .running := by
      refine Arena.modify_congr fun v hv => ?_
      rw [hjob, Option.some.injEq] at hv
      rw [hv]
    refine .cons (.dispatched now hjob hst) ?_
    show Chain Posts _ _ ⟨deps, (jobs.modify id (·.withState .running)).modifyAll ids _⟩
    rw [hstep]
    refine ih hnd fun x hx => ?_
    have hne : x ≠ id := fun he => hid (he ▸ hx)
    rw [Arena.get_modify_ne _ hne]
    exact hready x (List.mem_cons_of_mem _ hx)

theorem posts_decisions {inventory : SlotInventory} {running : List RunningJob}
    {decisions : List DispatchDecision} {cycle : Scheduler.CycleResult}
    (hk : Scheduler.Kept s jobs)
    (ran : s.runCycle jobs inventory running now config decisions = some cycle) :
    ∃ new, cycle.decisions = decisions ++ new ∧
      Chain Posts ⟨s.deps, jobs⟩ ((new.map (·.job)).map fun id => .dispatched id now)
        ⟨cycle.scheduler.deps, cycle.jobs⟩ := by
  obtain ⟨new, hc⟩ := Scheduler.runCycle_cycled hk.mirror.faithful ran
  refine ⟨new, hc.decisions, ?_⟩
  simp only [hc.deps, hc.arena]
  refine chain_dispatched _ now hc.nodup fun id hid => ?_
  obtain ⟨d, hd, rfl⟩ := List.mem_map.mp hid
  obtain ⟨job, hjob, hst, -⟩ := hc.decided d hd
  exact ⟨job, hjob, hst⟩

theorem posts_runCycle {inventory : SlotInventory} {running : List RunningJob}
    {cycle : Scheduler.CycleResult} (hk : Scheduler.Kept s jobs)
    (ran : s.runCycle jobs inventory running now config [] = some cycle) :
    Chain Posts ⟨s.deps, jobs⟩ ((cycle.decisions.map (·.job)).map fun id => .dispatched id now)
      ⟨cycle.scheduler.deps, cycle.jobs⟩ := by
  obtain ⟨new, hnew, hchain⟩ := posts_decisions hk ran
  rw [hnew, List.nil_append]
  exact hchain

end

end Book

end TaskerRT.Scheduling
