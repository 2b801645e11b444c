/- module: TaskerRT/Scheduler/Cleared
   source: crates/tasker-core/src/engine/cycle.rs
   digest: Only a requeue of a waiting job can queue a job ahead of its dependencies. -/

import TaskerRT.Scheduler.Book
import TaskerRT.Scheduler.Refusal

set_option autoImplicit false

namespace TaskerRT.Scheduling

open Library Domain Cluster Policy Wal Book DependencyTracker

/-- One use of the scheduler's public interface. -/
inductive Usage where
  | submitted (job : Job) (now : VirtualTime) (config : CycleConfig)
  | called (call : Lifecycle)
  | cycled (now : VirtualTime) (config : CycleConfig)

/-- What each use does. A new job is inserted and at once submitted; a cycle may be given any
inventory, running list and decision buffer; an insertion or a cycle that panics has no
successor. -/
inductive Uses : Scheduler × Arena Job → Usage → Scheduler × Arena Job → Prop where
  | submitted {s : Scheduler} {jobs jobs' : Arena Job} {job : Job} {id : JobId}
      (now : VirtualTime) (config : CycleConfig) (fresh : job.state = .submitted)
      (inserted : jobs.insert job = some (jobs', id)) : Uses (s, jobs) (.submitted job now config)
        ((s.submit id jobs' now config).scheduler, (s.submit id jobs' now config).jobs)
  | called (s : Scheduler) (jobs : Arena Job) (call : Lifecycle) : Uses (s, jobs) (.called call)
        ((s.perform jobs call).scheduler, (s.perform jobs call).jobs)
  | cycled {s : Scheduler} {jobs : Arena Job} {inventory : SlotInventory}
      {running : List RunningJob} {now : VirtualTime} {config : CycleConfig}
      {decisions : List DispatchDecision} {result : Scheduler.CycleResult}
      (ran : s.runCycle jobs inventory running now config decisions = some result) :
      Uses (s, jobs) (.cycled now config) (result.scheduler, result.jobs)

def isWaiting (state : JobState) : Bool := state == .submitted || state == .blocked

/-- The use is not a requeue of a job that still waits. -/
def Usage.Spares (jobs : Arena Job) : Usage → Prop
  | .called (.requeue id _ _) => ∀ job, jobs.get id = some job → isWaiting job.state = false
  | _ => True

def SparingUse (out : Scheduler × Arena Job) (usage : Usage) (out' : Scheduler × Arena Job) :
    Prop :=
  Uses out usage out' ∧ usage.Spares out.2

variable {s s' : Scheduler} {jobs jobs' : Arena Job} {id : JobId} {job : Job} {now : VirtualTime}
  {config : CycleConfig}

private theorem sound_submit (h : Sound s.deps jobs) (id : JobId) (now : VirtualTime)
    (config : CycleConfig) : Sound (s.submit id jobs now config).scheduler.deps
      (s.submit id jobs now config).jobs := by
  cases hr : (s.submit id jobs now config).result with
  | error e =>
    obtain ⟨hdeps, hjobs⟩ := Scheduler.submit_error_frame hr
    rw [hdeps, hjobs]
    exact h
  | ok state =>
    obtain ⟨job, fairshare, deps, r, hid, hst, hf, hreg, -⟩ := Scheduler.submit_inv hr
    rw [Scheduler.submit_ok hid hst hf hreg]
    dsimp only
    rw [Scheduler.deps_classified]
    refine h.classified hid hst hreg (fun x => ?_) fun x hx => Arena.issued_modify.mpr hx
    rw [Arena.get_modify, hid]
    rfl

/-- A requeue that succeeds on a job that does not wait is one of a job on a worker. -/
private theorem legal_requeue {u : Unit}
    (hspare : (Usage.called (.requeue id now config)).Spares jobs)
    (ok : (s.requeue id jobs now config).result = .ok u) :
    Legal ⟨s.deps, jobs⟩ (.requeued id now) := by
  obtain ⟨job, hid, hq⟩ := Scheduler.requeue_inv ok
  refine ⟨job, hid, ?_⟩
  have hwait := hspare job hid
  revert hq hwait
  cases job.state <;> simp [isWaiting, JobState.isRequeuable, JobState.onWorker]

private theorem legal_onPreempted {u : Unit}
    (ok : (s.onPreempted id jobs now config).result = .ok u) :
    Legal ⟨s.deps, jobs⟩ (.requeued id now) := by
  obtain ⟨job, hid, hst⟩ := Scheduler.onPreempted_inv ok
  exact ⟨job, hid, by rw [hst]; rfl⟩

private theorem ok_of_settled {α : Type} {step : Step α} {u : Unit}
    (h : step.settled.result = .ok u) :
    ∃ a, step.result = .ok a := by
  unfold Step.settled at h
  cases hr : step.result with
  | error e =>
    rw [hr] at h
    cases h
  | ok a => exact ⟨a, rfl⟩

private theorem deps_setShares {account : AccountId} {shares : Word 32}
    (ok : s.setShares account shares = .ok s') : s'.deps = s.deps := by
  unfold Scheduler.setShares at ok
  split at ok
  · cases ok
  · obtain rfl := Except.ok.inj ok
    rfl

private theorem deps_restoreLedgers {ledgers : List Ledger}
    (ok : s.restoreLedgers ledgers = .ok s') :
    s'.deps = s.deps := by
  unfold Scheduler.restoreLedgers at ok
  split at ok
  · cases ok
  · obtain rfl := Except.ok.inj ok
    rfl

private theorem sound_ofExcept {out : Except LifecycleError Scheduler} (h : Sound s.deps jobs)
    (hout : ∀ s', out = .ok s' → s'.deps = s.deps) :
    Sound (Step.ofExcept s jobs out).scheduler.deps (Step.ofExcept s jobs out).jobs := by
  cases out with
  | error e => exact h
  | ok s' =>
    show Sound s'.deps jobs
    rw [hout s' rfl]
    exact h

private theorem sound_perform (hk : Scheduler.Kept s jobs) (h : Sound s.deps jobs)
    {call : Lifecycle}
    (hspare : (Usage.called call).Spares jobs) :
    Sound (s.perform jobs call).scheduler.deps (s.perform jobs call).jobs := by
  by_cases hcall : ∃ id now config, call = .submit id now config
  · obtain ⟨id, now, config, rfl⟩ := hcall
    exact sound_submit h id now config
  have hother : ∀ id now config, call ≠ .submit id now config :=
    fun id now config he => hcall ⟨id, now, config, he⟩
  cases hr : (s.perform jobs call).result with
  | error e =>
    obtain ⟨hs, hjobs⟩ := Scheduler.perform_unchanged hk.mirror.faithful hother hr
    rw [hs, hjobs]
    exact h
  | ok u =>
    cases call with
    | submit id now config => exact absurd rfl (hother id now config)
    | restoreRunning id now config =>
      obtain ⟨job, hid, hst⟩ := Scheduler.restoreRunning_inv hr
      have hposts : Posts ⟨s.deps, jobs⟩ (.dispatched id now) _ := .dispatched now hid hst
      rw [Scheduler.perform, Scheduler.restoreRunning_ok hid hst]
      exact hposts.sound trivial h
    | preempt id => exact (posts_preempt 0 hr).sound trivial h
    | onPreempted id now config => exact (posts_onPreempted hr).sound (legal_onPreempted hr) h
    | onCompleted id now config =>
      obtain ⟨promoted, ok⟩ := ok_of_settled hr
      exact (posts_onCompleted ok).sound trivial h
    | onFailed id now config =>
      obtain ⟨cascade, ok⟩ := ok_of_settled hr
      exact (posts_onFailed ok).sound trivial h
    | cancel id now config =>
      obtain ⟨cascade, ok⟩ := ok_of_settled hr
      exact (posts_cancel ok).sound trivial h
    | requeue id now config => exact (posts_requeue hr).sound (legal_requeue hspare hr) h
    | setShares account shares => exact sound_ofExcept h fun _ ok => deps_setShares ok
    | restoreLedgers ledgers => exact sound_ofExcept h fun _ ok => deps_restoreLedgers ok

/-- The ready set mirrors the arena, over a sound tracker. -/
structure Tended (out : Scheduler × Arena Job) : Prop where
  kept : Scheduler.Kept out.1 out.2
  sound : Sound out.1.deps out.2

private theorem tended_new : Tended (Scheduler.new, Arena.new) where
  kept := ⟨Mirror.of_none_ready fun c id ⟨job, hid, _⟩ => (by cases hid), Nat.zero_le _⟩
  sound := Sound.of_unclassified fun id job hid => by cases hid

private theorem Tended.use {out out' : Scheduler × Arena Job} {usage : Usage}
    (huse : SparingUse out usage out') (h : Tended out) : Tended out' := by
  obtain ⟨huse, hspare⟩ := huse
  cases huse with
  | @submitted s jobs jobs' job id now config fresh inserted =>
    have hkept := h.kept.insert inserted (by simp [fresh])
    have hsound := h.sound.insert (Arena.not_issued_nextId (Arena.nextId_of_insert inserted))
      fresh (Arena.get_insert inserted) fun x hx => Arena.issued_insert inserted hx
    exact ⟨hkept.submit id now config, sound_submit hsound id now config⟩
  | called s jobs call => exact ⟨h.kept.perform call, sound_perform h.kept h.sound hspare⟩
  | cycled ran =>
    obtain ⟨new, -, hchain⟩ := posts_decisions h.kept ran
    refine ⟨h.kept.runCycle ran, ?_⟩
    have hlawful : Chain Lawful _ _ _ := hchain.imp fun b r b' hr hposts => ⟨hposts, by
      obtain ⟨id, -, rfl⟩ := List.mem_map.mp hr
      trivial⟩
    exact hlawful.keeps (P := fun b => Sound b.deps b.jobs)
      (fun _ _ _ hstep hsound => hstep.1.sound hstep.2 hsound) h.sound

private theorem Tended.cleared (h : Tended (s, jobs)) {c : PriorityClass}
    (hheld : s.ready.Holds c id) :
    ∃ job, jobs.get id = some job ∧ ∀ dep ∈ job.deps, isPending jobs dep = false := by
  obtain ⟨job, hid, hst, -⟩ := (h.kept.mirror.holds_iff c id).mp hheld
  refine ⟨job, hid, fun dep hdep => ?_⟩
  rw [Bool.eq_false_iff]
  intro hpending
  obtain ⟨target, htarget, hopen⟩ := isPending_iff.mp hpending
  have hdone := h.sound.met hid (by rw [hst]; rfl) dep hdep target htarget
  rw [hdone] at hopen
  cases hopen

/-- Of the jobs that are not on a worker, a requeue refuses exactly those that do not wait. -/
private theorem requeue_refused_iff (hid : jobs.get id = some job)
    (hoff : job.state.onWorker = false) :
    s.requeue id jobs now config = ⟨s, jobs, .error (.transition ⟨job.state, .ready⟩)⟩ ↔
      isWaiting job.state = false := by
  constructor
  · intro hrefused
    rw [Bool.eq_false_iff]
    intro hwait
    have hq : job.state.isRequeuable = true := by
      revert hwait
      cases job.state <;> simp [isWaiting, JobState.isRequeuable]
    rw [Scheduler.requeue_ok hid hq] at hrefused
    cases congrArg Step.result hrefused
  · intro hwait
    have hrun : job.state ≠ .running := fun hr => by
      rw [hr] at hoff
      cases hoff
    have hcan : job.state.canTransitionTo .ready = false := by
      revert hoff hwait
      cases job.state <;> simp [isWaiting, JobState.onWorker, JobState.canTransitionTo]
    simp only [Scheduler.requeue, hid, if_neg hrun, Job.tryTransition_of_not hcan]

/-- As long as no job is requeued while it waits, a job in the ready set never has a dependency
that is live and not over; and such a requeue is refused without effect off a worker. -/
theorem queued_jobs_are_cleared {trace : List Usage}
    (h : Chain SparingUse (Scheduler.new, Arena.new) trace (s, jobs)) :
    (∀ c id, s.ready.Holds c id →
      ∃ job, jobs.get id = some job ∧ ∀ dep ∈ job.deps, isPending jobs dep = false) ∧
    ∀ id job now config, jobs.get id = some job → job.state.onWorker = false →
      (Usage.called (.requeue id now config)).Spares jobs →
      s.requeue id jobs now config = ⟨s, jobs, .error (.transition ⟨job.state, .ready⟩)⟩ := by
  have htended : Tended (s, jobs) := h.keeps (fun _ _ _ => Tended.use) tended_new
  refine ⟨fun c id hheld => htended.cleared hheld, fun id job now config hid hoff hspare => ?_⟩
  exact (requeue_refused_iff hid hoff).mpr (hspare job hid)

private theorem uses_submitted {out : Scheduler × Arena Job} (fresh : job.state = .submitted)
    (hroom : (out.2.insert job).isSome = true) :
    Uses out (.submitted job 0 sampleConfig) (submitted out job) := by
  obtain ⟨⟨jobs', id⟩, inserted⟩ := Option.isSome_iff_exists.mp hroom
  simp only [submitted, inserted]
  exact .submitted 0 sampleConfig fresh inserted

def secondJob : Job := { sampleJob .normal 1 10 with deps := [⟨0⟩] }

def waitingPair : Scheduler × Arena Job :=
  submitted (submitted (Scheduler.new, Arena.new) (sampleJob .normal 1 10)) secondJob

def called (out : Scheduler × Arena Job) (call : Lifecycle) : Scheduler × Arena Job :=
  ((out.1.perform out.2 call).scheduler, (out.1.perform out.2 call).jobs)

def releasedPair : Scheduler × Arena Job :=
  called (called waitingPair (.restoreRunning ⟨0⟩ 0 sampleConfig)) (.onCompleted ⟨0⟩ 0 sampleConfig)

/-- The second job of the pair is queued after the first completed, with nothing left to wait
for. -/
theorem queued_jobs_are_cleared_sample :
    releasedPair.2.get ⟨1⟩ = some (secondJob.withState .ready) ∧
      ∀ dep ∈ secondJob.deps, isPending releasedPair.2 dep = false := by
  have hrun : Chain SparingUse (Scheduler.new, Arena.new)
      [.submitted (sampleJob .normal 1 10) 0 sampleConfig, .submitted secondJob 0 sampleConfig,
        .called (.restoreRunning ⟨0⟩ 0 sampleConfig), .called (.onCompleted ⟨0⟩ 0 sampleConfig)]
      releasedPair :=
    .cons ⟨uses_submitted rfl (by decide +kernel), trivial⟩
      (.cons ⟨uses_submitted rfl (by decide +kernel), trivial⟩
        (.cons ⟨.called waitingPair.1 waitingPair.2 _, trivial⟩
          (.single ⟨.called _ _ _, trivial⟩)))
  have hget : releasedPair.2.get ⟨1⟩ = some (secondJob.withState .ready) := by decide +kernel
  have hheld : releasedPair.1.ready.Holds .normal ⟨1⟩ := by
    unfold ReadySet.Holds
    decide +kernel
  obtain ⟨job, hid, hcleared⟩ := (queued_jobs_are_cleared hrun).1 .normal ⟨1⟩ hheld
  obtain rfl := Option.some.inj (hget.symm.trans hid)
  exact ⟨hget, hcleared⟩

/-- Requeueing the blocked job of the pair succeeds and queues it while the first is live. -/
theorem requeue_bypasses_dependency :
    Chain Uses (Scheduler.new, Arena.new)
      [.submitted (sampleJob .normal 1 10) 0 sampleConfig, .submitted secondJob 0 sampleConfig,
        .called (.requeue ⟨1⟩ 0 sampleConfig)] (called waitingPair (.requeue ⟨1⟩ 0 sampleConfig)) ∧
    waitingPair.2.get ⟨1⟩ = some (secondJob.withState .blocked) ∧
    (waitingPair.1.requeue ⟨1⟩ waitingPair.2 0 sampleConfig).result = .ok () ∧
    (called waitingPair (.requeue ⟨1⟩ 0 sampleConfig)).1.ready.Holds .normal ⟨1⟩ ∧
    ⟨0⟩ ∈ secondJob.deps ∧
    isPending (called waitingPair (.requeue ⟨1⟩ 0 sampleConfig)).2 ⟨0⟩ = true := by
  refine ⟨?_, by decide +kernel, by decide +kernel, ?_, by decide, by decide +kernel⟩
  · exact .cons (uses_submitted rfl (by decide +kernel)) (.cons (uses_submitted rfl
      (by decide +kernel)) (.single (.called waitingPair.1 waitingPair.2 _)))
  · unfold ReadySet.Holds
    decide +kernel

end TaskerRT.Scheduling
