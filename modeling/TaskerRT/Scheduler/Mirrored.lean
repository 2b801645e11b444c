/- module: TaskerRT/Scheduler/Mirrored
   source: crates/tasker-core/src/engine/cycle.rs, crates/tasker-core/src/policy/ready_set.rs
   digest: Over every sequence of calls the ready set holds exactly the live ready jobs. -/

import TaskerRT.Policy.StoredSet
import TaskerRT.Scheduler.Accounting
import Mathlib.Logic.Relation

set_option autoImplicit false

namespace TaskerRT.Scheduling

open Library Domain Cluster Policy

/-- One call on a scheduler and the arena its caller owns, with any arguments. The caller
inserts new jobs and removes only terminal ones; a cycle that panics has no successor. -/
inductive Call : Scheduler × Arena Job → Scheduler × Arena Job → Prop where
  | insert {s : Scheduler} {jobs jobs' : Arena Job} {job : Job} {id : JobId}
      (inserted : jobs.insert job = some (jobs', id)) (fresh : job.state = .submitted) :
      Call (s, jobs) (s, jobs')
  | remove {s : Scheduler} {jobs : Arena Job} (id : JobId)
      (terminal : ∀ job, jobs.get id = some job → job.state.isTerminal = true) :
      Call (s, jobs) (s, (jobs.remove id).1)
  | submit (s : Scheduler) (jobs : Arena Job) (id : JobId) (now : VirtualTime)
      (config : CycleConfig) : Call (s, jobs)
        ((s.submit id jobs now config).scheduler, (s.submit id jobs now config).jobs)
  | runCycle {s : Scheduler} {jobs : Arena Job} {inventory : SlotInventory}
      {running : List RunningJob} {now : VirtualTime} {config : CycleConfig}
      {decisions : List DispatchDecision} {result : Scheduler.CycleResult}
      (ran : s.runCycle jobs inventory running now config decisions = some result) :
      Call (s, jobs) (result.scheduler, result.jobs)
  | onCompleted (s : Scheduler) (jobs : Arena Job) (id : JobId) (now : VirtualTime)
      (config : CycleConfig) : Call (s, jobs)
        ((s.onCompleted id jobs now config).scheduler, (s.onCompleted id jobs now config).jobs)
  | onFailed (s : Scheduler) (jobs : Arena Job) (id : JobId) (now : VirtualTime)
      (config : CycleConfig) : Call (s, jobs)
        ((s.onFailed id jobs now config).scheduler, (s.onFailed id jobs now config).jobs)
  | cancel (s : Scheduler) (jobs : Arena Job) (id : JobId) (now : VirtualTime)
      (config : CycleConfig) : Call (s, jobs)
        ((s.cancel id jobs now config).scheduler, (s.cancel id jobs now config).jobs)
  | preempt (s : Scheduler) (jobs : Arena Job) (id : JobId) : Call (s, jobs)
        ((s.preempt id jobs).scheduler, (s.preempt id jobs).jobs)
  | onPreempted (s : Scheduler) (jobs : Arena Job) (id : JobId) (now : VirtualTime)
      (config : CycleConfig) : Call (s, jobs)
        ((s.onPreempted id jobs now config).scheduler, (s.onPreempted id jobs now config).jobs)
  | requeue (s : Scheduler) (jobs : Arena Job) (id : JobId) (now : VirtualTime)
      (config : CycleConfig) : Call (s, jobs)
        ((s.requeue id jobs now config).scheduler, (s.requeue id jobs now config).jobs)
  | restoreRunning (s : Scheduler) (jobs : Arena Job) (id : JobId) (now : VirtualTime)
      (config : CycleConfig) : Call (s, jobs)
        ((s.restoreRunning id jobs now config).scheduler,
          (s.restoreRunning id jobs now config).jobs)

namespace Scheduler

variable {s : Scheduler} {jobs : Arena Job}

theorem length_chargeEach (jobs : Arena Job) (now : VirtualTime) (config : CycleConfig)
    (ds : List DispatchDecision) : ∀ f : FairShare,
    (chargeEach jobs now config ds f).ledgers.length = f.ledgers.length := by
  induction ds with
  | nil => exact fun _ => rfl
  | cons d ds ih =>
    intro f
    refine (ih _).trans ?_
    show (Option.elim (jobs.get d.job) f _).ledgers.length = f.ledgers.length
    cases jobs.get d.job with
    | none => rfl
    | some job => exact FairShare.length_onDispatch _ _ _ _ _

theorem Kept.runCycle {inventory : SlotInventory} {running : List RunningJob} {now : VirtualTime}
    {config : CycleConfig} {decisions : List DispatchDecision} {result : CycleResult}
    (h : Kept s jobs)
    (hrun : s.runCycle jobs inventory running now config decisions = some result) :
    Kept result.scheduler result.jobs := by
  obtain ⟨new, hc⟩ := runCycle_cycled h.mirror.faithful hrun
  refine ⟨hc.mirror h.mirror, ?_⟩
  rw [hc.fairshare, length_chargeEach, FairShare.length_refresh]
  exact h.accounts

end Scheduler

theorem Call.kept {out out' : Scheduler × Arena Job} (h : Call out out')
    (hk : Scheduler.Kept out.1 out.2) : Scheduler.Kept out'.1 out'.2 := by
  cases h with
  | insert inserted fresh => exact hk.insert inserted (by simp [fresh])
  | remove id terminal =>
    refine hk.remove fun job hjob hr => ?_
    have hover := terminal job hjob
    rw [hr] at hover
    exact nomatch hover
  | submit s jobs id now config => exact hk.submit id now config
  | runCycle ran => exact hk.runCycle ran
  | onCompleted s jobs id now config => exact hk.onCompleted id now config
  | onFailed s jobs id now config => exact hk.onFailed id now config
  | cancel s jobs id now config => exact hk.cancel id now config
  | preempt s jobs id => exact hk.preempt id
  | onPreempted s jobs id now config => exact hk.onPreempted id now config
  | requeue s jobs id now config => exact hk.requeue id now config
  | restoreRunning s jobs id now config => exact hk.restoreRunning id now config

private theorem Call.kept_run {jobs : Arena Job} {out : Scheduler × Arena Job}
    (hnone : ∀ c id, ¬ ReadyIn jobs c id)
    (h : Relation.ReflTransGen Call (Scheduler.new, jobs) out) : Scheduler.Kept out.1 out.2 := by
  induction h with
  | refl => exact ⟨Mirror.of_none_ready hnone, Nat.zero_le _⟩
  | tail _ call ih => exact call.kept ih

/-- Over an arena of fewer than 2^32 slots, the stored set behind a mirroring one can take every
live job. -/
theorem Mirror.proper {ready : Stored.ReadySet} {jobs : Arena Job} {id : JobId} {job : Job}
    (h : Mirror ready.view jobs) (hid : jobs.get id = some job)
    (hshort : jobs.slots.length < 2 ^ 32) (c : PriorityClass) (score : Score) :
    ready.Proper (.insert c id score) := by
  have hlive : ∀ y, ready.view.Holds c y → ∃ j, jobs.get y = some j := fun y hy =>
    ((h.holds_iff c y).mp hy).imp fun j hj => hj.1
  refine ⟨fun y hy hs => (hlive y hy).elim fun j hj => Arena.eq_of_get_of_slot hj hid hs,
    fun hout => ?_⟩
  have hall : ∀ x ∈ id :: (ready.buckets c).ids, ∃ j, jobs.get x = some j := by
    intro x hx
    rcases List.mem_cons.mp hx with rfl | hx
    · exact ⟨job, hid⟩
    · exact hlive x hx
  -- Live jobs have slots of their own, so there are no more of them than slots.
  have hnodup : ((id :: (ready.buckets c).ids).map JobId.slot).Nodup := by
    refine List.Nodup.map_on (fun x hx y hy hs => ?_)
      (List.nodup_cons.mpr ⟨hout, (h.wf c).nodup⟩)
    obtain ⟨j, hj⟩ := hall x hx
    obtain ⟨k, hk⟩ := hall y hy
    exact Arena.eq_of_get_of_slot hj hk hs
  have hsub : (id :: (ready.buckets c).ids).map JobId.slot ⊆ List.range jobs.slots.length := by
    intro i hi
    obtain ⟨x, hx, rfl⟩ := List.mem_map.mp hi
    obtain ⟨j, hj⟩ := hall x hx
    exact List.mem_range.mpr (Arena.slot_lt_of_get hj)
  have hle := (List.subperm_of_subset hnodup hsub).length_le
  rw [List.length_map, List.length_cons, List.length_range] at hle
  exact hle.trans_lt hshort

/-- After any calls on an arena that started without ready jobs, the ready set contains an id
if and only if the job is live and ready, once, and in the bucket of its class. -/
theorem ready_set_mirrors_states {jobs : Arena Job} {out : Scheduler × Arena Job}
    (hnone : ∀ id job, jobs.get id = some job → job.state ≠ .ready)
    (h : Relation.ReflTransGen Call (Scheduler.new, jobs) out) (id : JobId) :
    ((∃ c, out.1.ready.Holds c id) ↔ ∃ job, out.2.get id = some job ∧ job.state = .ready) ∧
    (∀ job, out.2.get id = some job → job.state = .ready →
      (out.1.ready.buckets job.priorityClass).ids.count id = 1 ∧
      ∀ c, c ≠ job.priorityClass → id ∉ (out.1.ready.buckets c).ids) := by
  have hk := (Call.kept_run (fun c x ⟨j, hj, hr, _⟩ => hnone x j hj hr) h).mirror
  refine ⟨⟨?_, ?_⟩, fun job hjob hst => ⟨?_, fun c hc hmem => ?_⟩⟩
  · rintro ⟨c, hc⟩
    obtain ⟨job, hjob, hst, -⟩ := (hk.holds_iff c id).mp hc
    exact ⟨job, hjob, hst⟩
  · rintro ⟨job, hjob, hst⟩
    exact ⟨job.priorityClass, (hk.holds_iff _ id).mpr ⟨job, hjob, hst, rfl⟩⟩
  · have hheld : out.1.ready.Holds job.priorityClass id :=
      (hk.holds_iff _ id).mpr ⟨job, hjob, hst, rfl⟩
    exact List.count_eq_one_of_mem (hk.wf job.priorityClass).nodup hheld
  · obtain ⟨j, hj, -, hclass⟩ := (hk.holds_iff c id).mp hmem
    rw [hjob, Option.some.injEq] at hj
    exact hc (by rw [← hclass, hj])

private theorem calls_submitted {out : Scheduler × Arena Job} (job : Job)
    (fresh : job.state = .submitted) (hroom : (out.2.insert job).isSome = true) :
    Relation.ReflTransGen Call out (submitted out job) := by
  obtain ⟨⟨jobs', id⟩, inserted⟩ := Option.isSome_iff_exists.mp hroom
  simp only [submitted, inserted]
  exact .tail (.single (.insert inserted fresh)) (.submit out.1 jobs' id 0 sampleConfig)

private theorem calls_delayQueue :
    Relation.ReflTransGen Call (Scheduler.new, Arena.new) delayQueue := by
  have hrunning := (@calls_submitted (Scheduler.new, Arena.new) (sampleJob .normal 1 100) rfl
    (by decide +kernel)).tail (.restoreRunning _ _ ⟨0⟩ 0 sampleConfig)
  exact ((hrunning.trans (calls_submitted (sampleJob .urgent 1 10) rfl (by decide +kernel))).trans
    (calls_submitted (sampleJob .high 3 10) rfl (by decide +kernel))).trans
    (calls_submitted (sampleJob .normal 1 50) rfl (by decide +kernel))

/-- After a cycle over the queue, the job it started is in no bucket, and the one that was too large
is found once in its own. -/
theorem ready_set_mirrors_states_sample : ∃ result, delayResult 100 = some result ∧
    (∀ c, ¬ result.scheduler.ready.Holds c ⟨1⟩) ∧
    (result.scheduler.ready.buckets .high).ids.count ⟨2⟩ = 1 := by
  have hlook : (delayResult 100).any (fun result => (result.jobs.get ⟨1⟩).all (·.state ≠ .ready) &&
      (result.jobs.get ⟨2⟩).any fun job => job.state = .ready && job.priorityClass = .high) =
        true := by decide +kernel
  obtain ⟨result, hrun, hlook⟩ := (Option.any_eq_true _ _).mp hlook
  simp only [Bool.and_eq_true, Option.all_eq_true, Option.any_eq_true, decide_eq_true_eq] at hlook
  obtain ⟨hstarted, job, hjob, hready, hclass⟩ := hlook
  have hempty : ∀ id job, (Arena.new : Arena Job).get id = some job → job.state ≠ .ready :=
    fun id job hid => nomatch hid
  have hmirrors := ready_set_mirrors_states hempty (calls_delayQueue.tail (.runCycle hrun))
  refine ⟨result, hrun, fun c hc => ?_, ?_⟩
  · obtain ⟨started, hget, hst⟩ := (hmirrors ⟨1⟩).1.mp ⟨c, hc⟩
    exact hstarted started hget hst
  · exact hclass ▸ ((hmirrors ⟨2⟩).2 job hjob hready).1

end TaskerRT.Scheduling
