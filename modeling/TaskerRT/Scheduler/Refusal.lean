/- module: TaskerRT/Scheduler/Refusal
   source: crates/tasker-core/src/engine/cycle.rs
   digest: What a refused lifecycle call leaves behind, and that the submit check foretells one. -/

import TaskerRT.Scheduler.Mirrored

set_option autoImplicit false

namespace TaskerRT.Scheduling

open Library Domain Cluster Policy

/-- The calls that can be refused, with their arguments. -/
inductive Lifecycle where
  | submit (id : JobId) (now : VirtualTime) (config : CycleConfig)
  | restoreRunning (id : JobId) (now : VirtualTime) (config : CycleConfig)
  | preempt (id : JobId)
  | onPreempted (id : JobId) (now : VirtualTime) (config : CycleConfig)
  | onCompleted (id : JobId) (now : VirtualTime) (config : CycleConfig)
  | onFailed (id : JobId) (now : VirtualTime) (config : CycleConfig)
  | cancel (id : JobId) (now : VirtualTime) (config : CycleConfig)
  | requeue (id : JobId) (now : VirtualTime) (config : CycleConfig)
  | setShares (account : AccountId) (shares : Word 32)
  | restoreLedgers (ledgers : List Ledger)

/-- What a call leaves, with only its success or error as the result. -/
def Step.settled {α : Type} (step : Step α) : Step Unit :=
  ⟨step.scheduler, step.jobs, step.result.map fun _ => ()⟩

/-- The step of a call that touches the scheduler only when it succeeds. -/
def Step.ofExcept (s : Scheduler) (jobs : Arena Job) : Except LifecycleError Scheduler → Step Unit
  | .error e => ⟨s, jobs, .error e⟩
  | .ok s' => ⟨s', jobs, .ok ()⟩

def Scheduler.perform (s : Scheduler) (jobs : Arena Job) : Lifecycle → Step Unit
  | .submit id now config => (s.submit id jobs now config).settled
  | .restoreRunning id now config => s.restoreRunning id jobs now config
  | .preempt id => s.preempt id jobs
  | .onPreempted id now config => s.onPreempted id jobs now config
  | .onCompleted id now config => (s.onCompleted id jobs now config).settled
  | .onFailed id now config => (s.onFailed id jobs now config).settled
  | .cancel id now config => (s.cancel id jobs now config).settled
  | .requeue id now config => s.requeue id jobs now config
  | .setShares account shares => Step.ofExcept s jobs (s.setShares account shares)
  | .restoreLedgers ledgers => Step.ofExcept s jobs (s.restoreLedgers ledgers)

/-- The states calls lead to, from a new scheduler over an arena without queued jobs. As for
`Call`, the caller inserts new jobs and removes only terminal ones. -/
inductive Reachable : Scheduler → Arena Job → Prop where
  | start {jobs : Arena Job}
      (unqueued : ∀ id job, jobs.get id = some job → job.state ≠ .ready) :
      Reachable Scheduler.new jobs
  | call {s s' : Scheduler} {jobs jobs' : Arena Job} (before : Reachable s jobs)
      (made : Call (s, jobs) (s', jobs')) : Reachable s' jobs'
  | perform {s : Scheduler} {jobs : Arena Job} (before : Reachable s jobs) (call : Lifecycle) :
      Reachable (s.perform jobs call).scheduler (s.perform jobs call).jobs

namespace Scheduler

variable {s : Scheduler} {jobs : Arena Job} {id : JobId} {job : Job} {now : VirtualTime}
  {config : CycleConfig} {e : LifecycleError}

def Unchanged (s : Scheduler) (jobs : Arena Job) (call : Lifecycle) : Prop :=
  (s.perform jobs call).scheduler = s ∧ (s.perform jobs call).jobs = jobs

/-- A submission of a fresh job whose account is valid and has no ledger yet. -/
def OpensLedger (s : Scheduler) (jobs : Arena Job) : Lifecycle → Prop
  | .submit id _ _ => ∃ job, jobs.get id = some job ∧ job.state = .submitted ∧
      s.fairshare.ledgers.length ≤ job.account.val ∧ job.account.val < maxAccounts
  | _ => False

private theorem Kept.setShares {s' : Scheduler} {account : AccountId} {shares : Word 32}
    (h : Kept s jobs) (ok : s.setShares account shares = .ok s') : Kept s' jobs := by
  unfold Scheduler.setShares at ok
  cases hf : s.fairshare.setShares account shares with
  | error e =>
    rw [hf] at ok
    cases ok
  | ok fairshare =>
    rw [hf] at ok
    obtain rfl := Except.ok.inj ok
    refine ⟨h.mirror, ?_⟩
    unfold FairShare.setShares at hf
    cases he : s.fairshare.ensure account with
    | error e =>
      rw [he] at hf
      cases hf
    | ok grown =>
      have hle := FairShare.length_ensure_le he h.accounts
      simp only [he] at hf
      split at hf <;> obtain rfl := Except.ok.inj hf
      · exact hle
      · simpa using hle

private theorem Kept.restoreLedgers {s' : Scheduler} {ledgers : List Ledger} (h : Kept s jobs)
    (ok : s.restoreLedgers ledgers = .ok s') : Kept s' jobs := by
  unfold Scheduler.restoreLedgers FairShare.restore at ok
  by_cases hle : ledgers.length > maxAccounts
  · simp only [if_pos hle] at ok
    cases ok
  · simp only [if_neg hle] at ok
    obtain rfl := Except.ok.inj ok
    exact ⟨h.mirror, by simpa using hle⟩

private theorem Kept.ofExcept {out : Except LifecycleError Scheduler} (h : Kept s jobs)
    (hout : ∀ s', out = .ok s' → Kept s' jobs) :
    Kept (Step.ofExcept s jobs out).scheduler (Step.ofExcept s jobs out).jobs := by
  cases out with
  | error e => exact h
  | ok s' => exact hout s' rfl

theorem Kept.perform (h : Kept s jobs) (call : Lifecycle) :
    Kept (s.perform jobs call).scheduler (s.perform jobs call).jobs := by
  cases call with
  | submit id now config => exact h.submit id now config
  | restoreRunning id now config => exact h.restoreRunning id now config
  | preempt id => exact h.preempt id
  | onPreempted id now config => exact h.onPreempted id now config
  | onCompleted id now config => exact h.onCompleted id now config
  | onFailed id now config => exact h.onFailed id now config
  | cancel id now config => exact h.cancel id now config
  | requeue id now config => exact h.requeue id now config
  | setShares account shares => exact h.ofExcept fun _ ok => h.setShares ok
  | restoreLedgers ledgers => exact h.ofExcept fun _ ok => h.restoreLedgers ok

private theorem Kept.of_reachable (h : Reachable s jobs) : Kept s jobs := by
  induction h with
  | start unqueued =>
    exact ⟨Mirror.of_none_ready fun c id ⟨job, hid, hst, _⟩ => unqueued id job hid hst,
      Nat.zero_le _⟩
  | call _ made ih => exact made.kept ih
  | perform _ call ih => exact ih.perform call

private theorem dequeue_eq_self (hf : Faithful s.ready jobs) (hid : jobs.get id = some job)
    (hst : job.state ≠ .ready) : s.dequeue id job = s := by
  have habsent : id ∉ (s.ready.buckets job.priorityClass).ids := fun hmem =>
    hst (hf.live hmem hid).1
  have hbucket : (s.ready.buckets job.priorityClass).remove id =
      (s.ready.buckets job.priorityClass, false) := by
    unfold IndexedHeap.remove
    rw [(hf.wf job.priorityClass).slotOf_eq_none.mpr habsent]
  have hready : (s.ready.remove job.priorityClass id).1 = s.ready := by
    unfold ReadySet.remove
    rw [hbucket]
    exact ReadySet.setBucket_buckets _ _
  unfold dequeue
  rw [hready]

private theorem restoreRunning_unchanged (hf : Faithful s.ready jobs)
    (herr : (s.restoreRunning id jobs now config).result = .error e) :
    (s.restoreRunning id jobs now config).scheduler = s ∧
      (s.restoreRunning id jobs now config).jobs = jobs := by
  cases hid : jobs.get id with
  | none => simp only [restoreRunning, hid, and_self]
  | some job =>
    have hst : job.state ≠ .ready := fun hst => by
      rw [restoreRunning_ok hid hst] at herr
      cases herr
    have hcan : job.state.canTransitionTo .running = false := by
      rw [Bool.eq_false_iff]
      exact fun hc => hst (JobState.canTransitionTo_running.mp hc)
    simp only [restoreRunning, hid, Job.tryTransition_of_not hcan, dequeue_eq_self hf hid hst,
      and_self]

private theorem ensure_same {fairshare : FairShare} {account : AccountId}
    (hf : s.fairshare.ensure account = .ok fairshare)
    (hlen : ¬ s.fairshare.ledgers.length ≤ account.val) : fairshare = s.fairshare := by
  unfold FairShare.ensure at hf
  have hlt := FairShare.account_lt_of_ensure hf
  rw [if_neg (by omega), if_neg (by omega)] at hf
  exact (Except.ok.inj hf).symm

private theorem ensure_grows {fairshare : FairShare} {account : AccountId}
    (hf : s.fairshare.ensure account = .ok fairshare)
    (hlen : s.fairshare.ledgers.length ≤ account.val) : fairshare ≠ s.fairshare := by
  intro hsame
  have hgrown := FairShare.lt_length_ensure hf
  rw [hsame] at hgrown
  omega

/-- A refused submission changes the scheduler only by the ledgers it opened. -/
private theorem submit_unchanged_iff (herr : (s.submit id jobs now config).result = .error e) :
    ((s.submit id jobs now config).scheduler = s ∧ (s.submit id jobs now config).jobs = jobs) ↔
      ¬ s.OpensLedger jobs (.submit id now config) := by
  rcases submit_cases s id jobs now config with ⟨hid, heq⟩ | ⟨job, hid, hst, heq⟩ |
    ⟨job, a, hid, -, hf, heq⟩ | ⟨job, fairshare, d, hid, hst, hf, -, heq⟩ |
    ⟨_, _, _, _, -, -, -, -, heq⟩
  all_goals rw [heq]
  · refine iff_of_true ⟨rfl, rfl⟩ ?_
    rintro ⟨j, hj, -⟩
    rw [hid] at hj
    cases hj
  · refine iff_of_true ⟨rfl, rfl⟩ ?_
    rintro ⟨j, hj, hsub, -⟩
    obtain rfl := Option.some.inj (hid.symm.trans hj)
    exact hst hsub
  · refine iff_of_true ⟨rfl, rfl⟩ ?_
    rintro ⟨j, hj, -, -, hlt⟩
    obtain rfl := Option.some.inj (hid.symm.trans hj)
    have hmax := (FairShare.ensure_eq_error.mp hf).1
    omega
  · by_cases hlen : s.fairshare.ledgers.length ≤ job.account.val
    · refine iff_of_false (fun hsame => ?_)
        (not_not.mpr ⟨job, hid, hst, hlen, FairShare.account_lt_of_ensure hf⟩)
      exact ensure_grows hf hlen (congrArg Scheduler.fairshare hsame.1)
    · refine iff_of_true ⟨by rw [ensure_same hf hlen], rfl⟩ ?_
      rintro ⟨j, hj, -, hle, -⟩
      obtain rfl := Option.some.inj (hid.symm.trans hj)
      exact hlen hle
  · rw [heq] at herr
    cases herr

private theorem result_of_settled {α : Type} {step : Step α} (h : step.settled.result = .error e) :
    step.result = .error e := by
  unfold Step.settled at h
  cases hr : step.result with
  | error e' =>
    rw [hr] at h
    exact congrArg _ (Except.error.inj h)
  | ok a =>
    rw [hr] at h
    cases h

private theorem unchanged_of_cases {α : Type} {step : Step α} {P : Prop}
    (h : (∃ a, step.result = .ok a) ∨ (P ∧ ∃ err, step = ⟨s, jobs, .error err⟩))
    (herr : step.result = .error e) : step.scheduler = s ∧ step.jobs = jobs := by
  rcases h with ⟨a, hok⟩ | ⟨-, err, rfl⟩
  · rw [hok] at herr
    cases herr
  · exact ⟨rfl, rfl⟩

private theorem preempt_unchanged (herr : (s.preempt id jobs).result = .error e) :
    (s.preempt id jobs).scheduler = s ∧ (s.preempt id jobs).jobs = jobs := by
  obtain ⟨err, heq⟩ := @preempt_error s jobs id fun job hid hst => by
    rw [preempt_ok hid hst] at herr
    cases herr
  rw [heq]
  exact ⟨rfl, rfl⟩

private theorem ofExcept_unchanged {out : Except LifecycleError Scheduler}
    (herr : (Step.ofExcept s jobs out).result = .error e) :
    (Step.ofExcept s jobs out).scheduler = s ∧ (Step.ofExcept s jobs out).jobs = jobs := by
  cases out with
  | error e' => exact ⟨rfl, rfl⟩
  | ok s' => cases herr

theorem perform_unchanged (hf : Faithful s.ready jobs) {call : Lifecycle}
    (hcall : ∀ id now config, call ≠ .submit id now config)
    (herr : (s.perform jobs call).result = .error e) : s.Unchanged jobs call := by
  cases call with
  | submit id now config => exact absurd rfl (hcall id now config)
  | restoreRunning id now config => exact restoreRunning_unchanged hf herr
  | preempt id => exact preempt_unchanged herr
  | onPreempted id now config => exact unchanged_of_cases (onPreempted_cases _ _ _ _ _) herr
  | onCompleted id now config =>
    have hsame := unchanged_of_cases (onCompleted_cases s id jobs now config) (result_of_settled herr)
    exact hsame
  | onFailed id now config =>
    have hsame := unchanged_of_cases (onFailed_cases s id jobs now config) (result_of_settled herr)
    exact hsame
  | cancel id now config =>
    have hsame := unchanged_of_cases (cancel_cases s id jobs now config) (result_of_settled herr)
    exact hsame
  | requeue id now config => exact unchanged_of_cases (requeue_cases _ _ _ _ _) herr
  | setShares account shares => exact ofExcept_unchanged herr
  | restoreLedgers ledgers => exact ofExcept_unchanged herr

end Scheduler

/-- A refused call leaves no trace, unless it is a submission that opened ledgers on its way. -/
theorem refused_call_leaves_no_trace_iff {s : Scheduler} {jobs : Arena Job} {call : Lifecycle}
    {e : LifecycleError} (h : Reachable s jobs) (herr : (s.perform jobs call).result = .error e) :
    s.Unchanged jobs call ↔ ¬ s.OpensLedger jobs call := by
  by_cases hcall : ∃ id now config, call = .submit id now config
  · obtain ⟨id, now, config, rfl⟩ := hcall
    exact Scheduler.submit_unchanged_iff (Scheduler.result_of_settled herr)
  · have hcall : ∀ id now config, call ≠ .submit id now config :=
      fun id now config he => hcall ⟨id, now, config, he⟩
    have hkept := Scheduler.Kept.of_reachable h
    refine iff_of_true (Scheduler.perform_unchanged hkept.mirror.faithful hcall herr) ?_
    cases call with
    | submit id now config => exact absurd rfl (hcall id now config)
    | _ => exact fun hopens => hopens

/-- A job of account 3 that waits for a job that does not exist. -/
def strayJob : Job := { sampleJob .normal 1 10 with account := 3, deps := [⟨7⟩] }

def strayJobs : Arena Job := ⟨[.occupied 0 strayJob], none, 1⟩

private theorem reachable_strayJobs : Reachable Scheduler.new strayJobs := by
  have hinsert : (Arena.new : Arena Job).insert strayJob = some (strayJobs, ⟨0⟩) := by
    decide +kernel
  refine .call (.start fun id job hid => ?_) (.insert hinsert rfl)
  cases hid

/-- A handle that was never issued is refused by every call and nothing changes. -/
theorem refused_call_leaves_no_trace_iff_sample :
    Scheduler.new.Unchanged strayJobs (.cancel ⟨5⟩ 0 sampleConfig) := by
  refine (refused_call_leaves_no_trace_iff (e := .unknownJob ⟨5⟩) reachable_strayJobs
    (by decide +kernel)).mpr ?_
  exact fun hopens => hopens

/-- Submitting the stray job is refused, and four ledgers were opened for it. -/
theorem refused_submit_opens_ledgers :
    Reachable Scheduler.new strayJobs ∧
    (Scheduler.new.perform strayJobs (.submit ⟨0⟩ 0 sampleConfig)).result =
      .error (.dependency ⟨⟨0⟩, ⟨7⟩⟩) ∧
    Scheduler.new.fairshare.ledgers.length = 0 ∧
    (Scheduler.new.perform strayJobs
      (.submit ⟨0⟩ 0 sampleConfig)).scheduler.fairshare.ledgers.length = 4 ∧
    (Scheduler.new.perform strayJobs
      (.submit ⟨0⟩ 0 sampleConfig)).scheduler.fairshare.sharesTotal = 4 :=
  ⟨reachable_strayJobs, by decide +kernel, rfl, by decide +kernel, by decide +kernel⟩

/-- The check before a job exists gives the answer of the submission after it was inserted: the
same error, or the state the job is then in. -/
theorem checkSubmit_predicts_submit (s : Scheduler) {jobs : Arena Job} {id : JobId} {job : Job}
    (now : VirtualTime) (config : CycleConfig) (hnext : jobs.nextId = some id)
    (hst : job.state = .submitted) :
    ∃ jobs', jobs.insert job = some (jobs', id) ∧
      (s.submit id jobs' now config).result =
        (s.checkSubmit id job jobs).map Scheduler.stateOf ∧
      ∀ r, s.checkSubmit id job jobs = .ok r → (s.submit id jobs' now config).jobs.get id =
        some (job.withState (Scheduler.stateOf r)) := by
  obtain ⟨jobs', hinsert⟩ := Arena.insert_of_nextId job hnext
  have hget : jobs'.get id = some job := by rw [Arena.get_insert hinsert, if_pos rfl]
  have hclass : DependencyTracker.classify id job jobs' = DependencyTracker.classify id job jobs :=
    DependencyTracker.classify_insert hinsert
  by_cases hmax : maxAccounts ≤ job.account.val
  · have hcheck : s.checkSubmit id job jobs = .error (.account ⟨job.account⟩) := by
      simp only [Scheduler.checkSubmit, ge_iff_le, if_pos hmax]
    have hf : s.fairshare.ensure job.account = .error ⟨job.account⟩ :=
      FairShare.ensure_eq_error.mpr ⟨hmax, rfl⟩
    refine ⟨jobs', hinsert, ?_, fun r hok => ?_⟩
    · rw [hcheck]
      simp only [Scheduler.submit, hget, hst, ne_eq, not_true_eq_false, if_false, hf]
      rfl
    · rw [hcheck] at hok
      cases hok
  · obtain ⟨fairshare, hf⟩ := @FairShare.ensure_isOk s.fairshare job.account (by omega)
    cases hc : DependencyTracker.classify id job jobs with
    | error d =>
      have hcheck : s.checkSubmit id job jobs = .error (.dependency d) := by
        simp only [Scheduler.checkSubmit, ge_iff_le, if_neg hmax, hc]
      have hreg : s.deps.register id job jobs' = .error d := by
        unfold DependencyTracker.register
        rw [hclass, hc]
      refine ⟨jobs', hinsert, ?_, fun r hok => ?_⟩
      · rw [hcheck]
        simp only [Scheduler.submit, hget, hst, ne_eq, not_true_eq_false, if_false, hf, hreg]
        rfl
      · rw [hcheck] at hok
        cases hok
    | ok r =>
      have hcheck : s.checkSubmit id job jobs = .ok r := by
        simp only [Scheduler.checkSubmit, ge_iff_le, if_neg hmax, hc]
      obtain ⟨deps, hreg⟩ := @DependencyTracker.register_of_classify s.deps _ _ _ _ (hclass.trans hc)
      refine ⟨jobs', hinsert, ?_, fun r' hok => ?_⟩
      · rw [hcheck, Scheduler.submit_ok hget hst hf hreg]
        rfl
      · obtain rfl := Except.ok.inj (hcheck.symm.trans hok)
        rw [Scheduler.submit_ok hget hst hf hreg, Arena.get_modify_self, hget]
        rfl

/-- The stray job depends on a handle the arena never issued: both give that error. -/
theorem checkSubmit_predicts_submit_sample : ∃ jobs',
    (Arena.new : Arena Job).insert strayJob = some (jobs', ⟨0⟩) ∧
    (Scheduler.new.submit ⟨0⟩ jobs' 0 sampleConfig).result = .error (.dependency ⟨⟨0⟩, ⟨7⟩⟩) := by
  obtain ⟨jobs', hinsert, hresult, -⟩ := checkSubmit_predicts_submit Scheduler.new
    0 sampleConfig (by decide +kernel : (Arena.new : Arena Job).nextId = some ⟨0⟩)
    (rfl : strayJob.state = .submitted)
  exact ⟨jobs', hinsert, hresult⟩

end TaskerRT.Scheduling
