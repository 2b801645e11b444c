/- module: TaskerRT/Daemon/Replay
   source: crates/taskerd/src/engine.rs (apply)
   digest: Replaying the log of an engine that started empty rebuilds the engine. -/

import TaskerRT.Daemon.Recovery
import TaskerRT.Daemon.Tidy
import TaskerRT.Domain.Mapped

set_option autoImplicit false

namespace TaskerRT.Daemon

open Library Domain Cluster Policy Scheduling Wal Book DependencyTracker

/-- A job without its eviction count, which the log does not carry. -/
def uncounted (job : Job) : Job := { job with preemptions := 0 }

end TaskerRT.Daemon

namespace TaskerRT.Scheduling.Book

open Library Domain Cluster Policy Wal DependencyTracker Daemon

structure Twin (b b' : Book) : Prop where
  deps : b'.deps = b.deps
  jobs : b'.jobs.map uncounted = b.jobs.map uncounted

variable {b b' : Book} {id : JobId} {job : Job}

theorem Twin.get_eq (h : Twin b b') (id : JobId) :
    (b'.jobs.get id).map uncounted = (b.jobs.get id).map uncounted := by
  rw [← Arena.get_map, ← Arena.get_map, h.jobs]

private theorem Twin.get_some (h : Twin b b') (hid : b.jobs.get id = some job) :
    ∃ job', b'.jobs.get id = some job' ∧ uncounted job' = uncounted job := by
  have := h.get_eq id
  rw [hid] at this
  exact Option.map_eq_some_iff.mp this

theorem state_of_uncounted {j j' : Job} (h : uncounted j' = uncounted j) : j'.state = j.state :=
  (congrArg Job.state h : (uncounted j').state = (uncounted j).state)

private theorem Twin.state_eq (h : Twin b b') (id : JobId) :
    (b'.jobs.get id).map Job.state = (b.jobs.get id).map Job.state := by
  have := congrArg (Option.map Job.state) (h.get_eq id)
  rwa [Option.map_map, Option.map_map] at this

private theorem Twin.readyIn (h : Twin b b') (c : PriorityClass) (id : JobId) :
    ReadyIn b'.jobs c id ↔ ReadyIn b.jobs c id := by
  have hside : ∀ jobs : Arena Job, ReadyIn jobs c id ↔
      ∃ job, (jobs.get id).map uncounted = some job ∧ job.state = .ready ∧
        job.priorityClass = c := by
    intro jobs
    refine ⟨fun ⟨job, hjob, hst, hc⟩ => ⟨uncounted job, by rw [hjob]; rfl, hst, hc⟩, ?_⟩
    intro ⟨job, hjob, hst, hc⟩
    obtain ⟨j, hj, rfl⟩ := Option.map_eq_some_iff.mp hjob
    exact ⟨j, hj, hst, hc⟩
  rw [hside, hside, h.get_eq id]

theorem uncounted_withState {j j' : Job} (h : uncounted j' = uncounted j) (s : JobState) :
    uncounted (j'.withState s) = uncounted (j.withState s) :=
  congrArg (Job.withState · s) h

theorem uncounted_movedTo (s : JobState) (j : Job) :
    uncounted (j.movedTo s) = (uncounted j).movedTo s := by
  unfold Job.movedTo
  show uncounted (if j.state.canTransitionTo s then _ else _) =
    if j.state.canTransitionTo s then _ else _
  split <;> rfl

private theorem map_modify_eq {a a' : Arena Job} {k k' : Job}
    (h : a'.map uncounted = a.map uncounted)
    (hk : uncounted k' = uncounted k) :
    (a'.modify id fun _ => k').map uncounted = (a.modify id fun _ => k).map uncounted := by
  have hside : ∀ {a₁ : Arena Job} {k₁ : Job}, uncounted k₁ = uncounted k →
      (a₁.modify id fun _ => k₁).map uncounted =
        (a₁.map uncounted).modify id fun _ => uncounted k :=
    fun hk₁ => Arena.modify_map fun _ _ => hk₁
  rw [hside hk, hside rfl, h]

private theorem map_modifyAll_eq {a a' : Arena Job} (h : a'.map uncounted = a.map uncounted)
    (ids : List JobId) (s : JobState) :
    (a'.modifyAll ids (Job.movedTo s)).map uncounted =
      (a.modifyAll ids (Job.movedTo s)).map uncounted := by
  rw [Arena.modifyAll_map (uncounted_movedTo s), Arena.modifyAll_map (uncounted_movedTo s), h]

private theorem Twin.complete {job' : Job} (h : Twin b b') (hu : uncounted job' = uncounted job) :
    Twin (b.complete id job) (b'.complete id job') := by
  refine ⟨?_, ?_⟩
  · show (b'.deps.onCompleted id).1 = (b.deps.onCompleted id).1
    rw [h.deps]
  · show (((b'.jobs.modify id _).modifyAll (b'.deps.onCompleted id).2 _).map uncounted) = _
    rw [h.deps]
    exact map_modifyAll_eq (map_modify_eq h.jobs (uncounted_withState hu _)) _ _

private theorem Twin.terminate {job' : Job} (h : Twin b b') (hu : uncounted job' = uncounted job)
    (next : JobState) : Twin (b.terminate id job next) (b'.terminate id job' next) := by
  refine ⟨?_, ?_⟩
  · show (b'.deps.onTerminated id).1 = (b.deps.onTerminated id).1
    rw [h.deps]
  · show (((b'.jobs.modify id _).modifyAll (b'.deps.onTerminated id).2 _).map uncounted) = _
    rw [h.deps]
    exact map_modifyAll_eq (map_modify_eq h.jobs (uncounted_withState hu _)) _ _

end TaskerRT.Scheduling.Book

namespace TaskerRT.Daemon

open Library Domain Cluster Policy Scheduling Wal Book DependencyTracker

namespace Roster

variable {config : CycleConfig} {r : Roster} {b b' : Book} {record : Record}

private theorem replayed_ok {α : Type} {step : Step α} {scheduler : Scheduler} {jobs : Arena Job}
    {a : α}
    (h : step = ⟨scheduler, jobs, .ok a⟩) (note : Roster → α → Roster) :
    r.replayed step note = .ok (note { r with scheduler := scheduler, jobs := jobs } a) := by
  subst h
  rfl

private theorem submitted_twin {jobs : Arena Job} {id : JobId} {job : Job}
    {deps : DependencyTracker} {readiness : Readiness}
    (fresh : b.jobs.insert job = some (jobs, id)) (state : job.state = .submitted)
    (account : job.account.val < maxAccounts)
    (registered : b.deps.register id job jobs = .ok (deps, readiness)) (ht : Twin b r.book)
    (hk : Scheduler.Kept r.scheduler r.jobs) :
    ∃ r', r.applyRecord config (.submitted id job) = some (.ok r') ∧
      Twin ⟨deps, jobs.modify id fun _ => job.withState (Scheduler.stateOf readiness)⟩ r'.book ∧
      Scheduler.Kept r'.scheduler r'.jobs := by
  have hjobs : r.jobs.map uncounted = b.jobs.map uncounted := ht.jobs
  have hdeps : r.scheduler.deps = b.deps := ht.deps
  have hnext : r.jobs.nextId = some id := by
    rw [← Arena.nextId_map uncounted, hjobs, Arena.nextId_map, Arena.nextId_of_insert fresh]
  obtain ⟨jobs', hinsert⟩ := Arena.insert_of_nextId job hnext
  have hmap : jobs'.map uncounted = jobs.map uncounted := by
    have h₁ := @Arena.insert_map _ _ uncounted _ _ _ _ hinsert
    rw [hjobs, @Arena.insert_map _ _ uncounted _ _ _ _ fresh] at h₁
    exact (Prod.mk.inj (Option.some.inj h₁)).1.symm
  have hget : jobs'.get id = some job := by rw [Arena.get_insert hinsert, if_pos rfl]
  obtain ⟨fairshare, hf⟩ := @FairShare.ensure_isOk r.scheduler.fairshare job.account account
  have hreg : r.scheduler.deps.register id job jobs' = .ok (deps, readiness) := by
    rw [hdeps, ← registered]
    exact register_congr rfl (@Twin.state_eq ⟨deps, jobs⟩ ⟨deps, jobs'⟩ ⟨rfl, hmap⟩)
  have hsubmit := @Scheduler.submit_ok r.scheduler jobs' id job job.submitTime config deps
    readiness fairshare hget state hf hreg
  have hkept := (hk.insert hinsert (by simp [state])).submit id job.submitTime config
  rw [hsubmit] at hkept
  let r' : Roster := { r with
    scheduler := r.scheduler.classified fairshare deps id
      (job.withState (Scheduler.stateOf readiness)) job.submitTime config
    jobs := jobs'.modify id fun _ => job.withState (Scheduler.stateOf readiness) }
  refine ⟨r'.noteIf (Scheduler.stateOf readiness) id job.submitTime, ?_, ⟨?_, ?_⟩, ?_⟩
  · simp only [applyRecord, hnext, hinsert, Option.bind_eq_bind, Option.bind_some, ne_eq,
      not_true_eq_false, if_false]
    rw [replayed_ok hsubmit]
    rfl
  · show (r'.noteIf _ id _).scheduler.deps = deps
    rw [scheduler_noteIf]
    exact Scheduler.deps_classified _ _ _ _ _ _ _
  · show (r'.noteIf _ id _).jobs.map uncounted = _
    rw [jobs_noteIf]
    exact map_modify_eq hmap rfl
  · rw [scheduler_noteIf, jobs_noteIf]
    exact hkept

theorem applyRecord_twin (config : CycleConfig) (h : Posts b record b') (ht : Twin b r.book)
    (hk : Scheduler.Kept r.scheduler r.jobs) : ∃ r', r.applyRecord config record = some (.ok r') ∧
      Twin b' r'.book ∧ Scheduler.Kept r'.scheduler r'.jobs := by
  have hlive {id : JobId} {job : Job} (hid : b.jobs.get id = some job) :
      ∃ job', r.jobs.get id = some job' ∧ uncounted job' = uncounted job := ht.get_some hid
  cases h with
  | submitted fresh state account registered =>
    exact submitted_twin fresh state account registered ht hk
  | @dispatched id job at_ live state =>
    obtain ⟨job', hid, hu⟩ := hlive live
    have hok := @Scheduler.restoreRunning_ok r.scheduler r.jobs id job' at_ config hid
      ((state_of_uncounted hu).trans state)
    have hkept := hk.restoreRunning id at_ config
    rw [hok] at hkept
    exact ⟨_, congrArg some (replayed_ok hok _),
      ⟨ht.deps, map_modify_eq ht.jobs (uncounted_withState hu _)⟩, hkept⟩
  | @completed id job at_ live state =>
    obtain ⟨job', hid, hu⟩ := hlive live
    obtain ⟨s', hok, hdeps, -, hkept⟩ := @Scheduler.onCompleted_ok r.scheduler r.jobs id job' at_
      config hid (by rw [state_of_uncounted hu, state])
    have htwin : Twin (b.complete id job) (r.book.complete id job') := ht.complete hu
    exact ⟨_, congrArg some (replayed_ok hok _), ⟨hdeps.trans htwin.deps, htwin.jobs⟩, hkept hk⟩
  | @failed id job at_ live state =>
    obtain ⟨job', hid, hu⟩ := hlive live
    obtain ⟨s', hok, hdeps, -, hkept⟩ := @Scheduler.onFailed_ok r.scheduler r.jobs id job' at_
      config hid (by rw [state_of_uncounted hu, state])
    have htwin : Twin (b.terminate id job .failed) (r.book.terminate id job' .failed) :=
      ht.terminate hu _
    exact ⟨_, congrArg some (replayed_ok hok _), ⟨hdeps.trans htwin.deps, htwin.jobs⟩, hkept hk⟩
  | @cancelled id job at_ live state =>
    obtain ⟨job', hid, hu⟩ := hlive live
    obtain ⟨s', hok, hdeps, -, hkept⟩ := @Scheduler.cancel_ok r.scheduler r.jobs id job' at_
      config hid (by rw [state_of_uncounted hu, state])
    have htwin : Twin (b.terminate id job .cancelled) (r.book.terminate id job' .cancelled) :=
      ht.terminate hu _
    exact ⟨_, congrArg some (replayed_ok hok _), ⟨hdeps.trans htwin.deps, htwin.jobs⟩, hkept hk⟩
  | @requeued id job at_ preemptions live state =>
    obtain ⟨job', hid, hu⟩ := hlive live
    have hok := @Scheduler.requeue_ok r.scheduler r.jobs id job' at_ config hid
      (by rw [state_of_uncounted hu, state])
    have hkept := hk.requeue id at_ config
    rw [hok] at hkept
    exact ⟨_, congrArg some (replayed_ok hok _),
      ⟨ht.deps, map_modify_eq ht.jobs (uncounted_withState hu .ready)⟩, hkept⟩
  | @preempted id job at_ live state =>
    obtain ⟨job', hid, hu⟩ := hlive live
    have hok := @Scheduler.preempt_ok r.scheduler r.jobs id job' hid
      ((state_of_uncounted hu).trans state)
    have hkept := hk.preempt id
    rw [hok] at hkept
    exact ⟨_, congrArg some (replayed_ok hok _),
      ⟨ht.deps, map_modify_eq ht.jobs (uncounted_withState hu _)⟩, hkept⟩
  | @forgotten id job live state =>
    obtain ⟨job', hid, hu⟩ := hlive live
    refine ⟨_, rfl, ⟨ht.deps, ?_⟩, hk.remove fun j hj hr => ?_⟩
    · show (r.jobs.remove id).1.map uncounted = (b.jobs.remove id).1.map uncounted
      rw [Arena.remove_map, Arena.remove_map, show r.jobs.map uncounted = _ from ht.jobs]
    · rw [hid, Option.some.injEq] at hj
      subst hj
      rw [← state_of_uncounted hu, hr] at state
      exact nomatch state

private theorem applyEach_twin (config : CycleConfig) {records : List Record}
    (h : Chain Posts b records b') : ∀ {r : Roster} (latest : VirtualTime),
      Twin b r.book → Scheduler.Kept r.scheduler r.jobs →
      ∃ r' latest', applyEach config records r latest = some (.ok (r', latest')) ∧
        Twin b' r'.book ∧ Scheduler.Kept r'.scheduler r'.jobs := by
  induction h with
  | nil => exact fun {r} latest ht hk => ⟨r, latest, rfl, ht, hk⟩
  | @cons _ _ _ record records head _ ih =>
    intro r latest ht hk
    obtain ⟨r₁, happly, ht₁, hk₁⟩ := applyRecord_twin config head ht hk
    obtain ⟨r₂, latest₂, htail, ht₂, hk₂⟩ :=
      ih (max latest (recordTime record)) ht₁ hk₁
    refine ⟨r₂, latest₂, ?_, ht₂, hk₂⟩
    simp only [applyEach, apply, happly, Option.bind_eq_bind, Option.bind_some]
    exact htail

end Roster

namespace Engine

section

variable [Crc32] {e e' : Engine} {inputs : List Input}

/-- Along any run from a tidy engine, the records logged meanwhile tell what happened. -/
private theorem posts_of_steps (h : Chain Steps e inputs e') : e.toRoster.Tidy →
    e'.toRoster.Tidy ∧ ∃ records, e'.logged = e.logged.map (· ++ records) ∧
      Chain Posts e.toRoster.book records e'.toRoster.book := by
  induction h with
  | nil e =>
    refine fun ht => ⟨ht, [], ?_, .nil _⟩
    cases e.logged <;> simp
  | cons head _ ih =>
    intro ht
    obtain ⟨events, hturns⟩ := head.turns
    obtain ⟨ht', hposts⟩ := ht.chain hturns.does
    obtain ⟨hend, records, hlogged, htail⟩ := ih ht'
    rw [← flatMap_records] at hposts
    refine ⟨hend, _, ?_, hposts.append htail⟩
    rw [hlogged, hturns.logged, Option.map_map]
    exact congrArg (Option.map · _) (funext fun _ => List.append_assoc _ _ _)

/-- Replaying what an engine that started empty has logged rebuilds its slot table, free list,
jobs, ready ids and dependency index; only eviction counts may differ. -/
theorem log_replay_rebuilds (config : DaemonConfig) (rotateBytes : Nat) (journal : Journal)
    (h : Chain Steps (withJournal config (Journal.new rotateBytes)) inputs e) :
    ∃ records r latest, e.logged = some records ∧
      Roster.applyEach config.cycle records (withJournal config journal).toRoster 0 =
        some (.ok (r, latest)) ∧
      r.jobs.slots.map (Slot.map uncounted) = e.jobs.slots.map (Slot.map uncounted) ∧
      r.jobs.freeHead = e.jobs.freeHead ∧
      (∀ id, (∃ c, r.scheduler.ready.Holds c id) ↔ ∃ c, e.scheduler.ready.Holds c id) ∧
      r.scheduler.deps = e.scheduler.deps := by
  obtain ⟨htidy, records, hlogged, hposts⟩ := posts_of_steps h (tidy_build config _)
  have hstart := tidy_build config (some journal)
  obtain ⟨r, latest, happly, htwin, hkept⟩ := Roster.applyEach_twin config.cycle hposts 0
    (r := (withJournal config journal).toRoster) ⟨rfl, rfl⟩ hstart.kept
  have hfree : (r.jobs.map uncounted).freeHead = (e.jobs.map uncounted).freeHead :=
    congrArg Arena.freeHead htwin.jobs
  refine ⟨records, r, latest, ?_, happly, congrArg Arena.slots htwin.jobs, hfree, fun id => ?_,
    htwin.deps⟩
  · rw [hlogged]
    rfl
  · exact exists_congr fun c => (hkept.mirror.holds_iff c id).trans ((htwin.readyIn c id).trans
      (htidy.kept.mirror.holds_iff c id).symm)

end

/-- A chain of two jobs, run to the end of the first one. -/
def replayInputs : List Input :=
  [(sampleSubmit .normal 1 []).sent 0, (sampleSubmit .normal 1 [⟨0⟩]).sent 1,
    (sampleJoin 4).sent 2, tickAt 3, (Command.completed ⟨0⟩).sent 4, tickAt 5]

attribute [local instance] Crc32.ieee

theorem log_replay_rebuilds_sample :
    ∃ e, run (withJournal sampleDaemon (Journal.new 4096)) replayInputs = some e ∧
      e.logged.map List.length = some 6 ∧
      ∃ records r latest, e.logged = some records ∧
        Roster.applyEach sampleConfig records (withJournal sampleDaemon (Journal.new 0)).toRoster 0
          = some (.ok (r, latest)) ∧
        r.jobs.slots.map (Slot.map uncounted) = e.jobs.slots.map (Slot.map uncounted) ∧
        r.jobs.freeHead = e.jobs.freeHead ∧
        (∀ id, (∃ c, r.scheduler.ready.Holds c id) ↔ ∃ c, e.scheduler.ready.Holds c id) ∧
        r.scheduler.deps = e.scheduler.deps := by
  have hlen : (run (withJournal sampleDaemon (Journal.new 4096)) replayInputs).bind
      (fun e => e.logged.map List.length) = some 6 := by decide +kernel
  obtain ⟨e, hrun, hlogged⟩ := Option.bind_eq_some_iff.mp hlen
  exact ⟨e, hrun, hlogged,
    @log_replay_rebuilds Crc32.ieee _ _ sampleDaemon 4096 (Journal.new 0)
      (chain_of_run hrun)⟩

end Engine

end TaskerRT.Daemon
