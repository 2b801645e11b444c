/- module: TaskerRT/Daemon/Act
   source: crates/taskerd/src/engine.rs
   digest: What the engine can do to its roster, one logged transition at a time. -/

import TaskerRT.Daemon.Engine
import TaskerRT.Scheduler.Book

set_option autoImplicit false

namespace TaskerRT.Daemon

open Library Domain Cluster Policy Scheduling Wal Book

/-- One thing the engine does to its roster. A lost worker's job is `requeued`, one whose
eviction was confirmed `evicted`; the log tells the two apart no longer. -/
inductive Act where
  | submitted (id : JobId) (job : Job)
  | dispatched (ids : List JobId) (now : VirtualTime)
  | completed (id : JobId) (now : VirtualTime)
  | failed (id : JobId) (now : VirtualTime)
  | cancelled (id : JobId) (now : VirtualTime)
  | requeued (id : JobId) (now : VirtualTime)
  | evicted (id : JobId) (now : VirtualTime)
  | preempted (id : JobId) (now : VirtualTime)
  | forgotten (id : JobId)
  | dropped (id : JobId)

def Act.records : Act → List Record
  | submitted id job => [.submitted id job]
  | dispatched ids now => ids.map fun id => .dispatched id now
  | completed id now => [.completed id now]
  | failed id now => [.failed id now]
  | cancelled id now => [.cancelled id now]
  | requeued id now | evicted id now => [.requeued id now]
  | preempted id now => [.preempted id now]
  | forgotten id => [.forgotten id]
  | dropped _ => []

/-- What an act leaves of a job, its state and its evictions apart. -/
def Act.leaves : Act → JobId → Option Job → Option Job
  | .submitted id job, x, old => if x = id then some (core job) else old
  | .forgotten id, x, old => if x = id then none else old
  | _, _, old => old

namespace Roster

def book (r : Roster) : Book := ⟨r.scheduler.deps, r.jobs⟩

/-- The engine's lifecycle calls, each where it succeeds. -/
inductive Does (config : CycleConfig) : Roster → Act → Roster → Prop where
  | submitted {r : Roster} {jobs : Arena Job} {id : JobId} {job : Job} {state : JobState}
      (now : VirtualTime) (fresh : r.jobs.insert job = some (jobs, id))
      (new : job.state = .submitted) (unevicted : job.preemptions = 0)
      (ok : (r.scheduler.submit id jobs now config).result = .ok state) :
      Does config r (.submitted id job)
        (({ r with jobs := jobs }.adoptStep (r.scheduler.submit id jobs now config)).noteIf
          state id now)
  | dispatched {r : Roster} {inventory : SlotInventory} {running : List RunningJob}
      {now : VirtualTime} {cycle : Scheduler.CycleResult}
      (ran : r.scheduler.runCycle r.jobs inventory running now config [] = some cycle) :
      Does config r (.dispatched (cycle.decisions.map (·.job)) now)
        { r with scheduler := cycle.scheduler, jobs := cycle.jobs }
  | completed {r : Roster} {id : JobId} {promoted : List JobId} (now : VirtualTime)
      (ok : (r.scheduler.onCompleted id r.jobs now config).result = .ok promoted) :
      Does config r (.completed id now)
        ((r.adoptStep (r.scheduler.onCompleted id r.jobs now config)).noteTerminal id now)
  | failed {r : Roster} {id : JobId} {cascade : List JobId} (now : VirtualTime)
      (ok : (r.scheduler.onFailed id r.jobs now config).result = .ok cascade) :
      Does config r (.failed id now)
        (((r.adoptStep (r.scheduler.onFailed id r.jobs now config)).noteTerminal id now).noteAll
          cascade now)
  | cancelled {r : Roster} {id : JobId} {cascade : List JobId} (now : VirtualTime)
      (ok : (r.scheduler.cancel id r.jobs now config).result = .ok cascade) :
      Does config r (.cancelled id now)
        (((r.adoptStep (r.scheduler.cancel id r.jobs now config)).noteTerminal id now).noteAll
          cascade now)
  | requeued {r : Roster} {id : JobId} {u : Unit} (now : VirtualTime)
      (ok : (r.scheduler.requeue id r.jobs now config).result = .ok u) :
      Does config r (.requeued id now) (r.adoptStep (r.scheduler.requeue id r.jobs now config))
  | evicted {r : Roster} {id : JobId} {u : Unit} (now : VirtualTime)
      (ok : (r.scheduler.onPreempted id r.jobs now config).result = .ok u) :
      Does config r (.evicted id now)
        (r.adoptStep (r.scheduler.onPreempted id r.jobs now config))
  | preempted {r : Roster} {id : JobId} {u : Unit} (now : VirtualTime)
      (ok : (r.scheduler.preempt id r.jobs).result = .ok u) :
      Does config r (.preempted id now) (r.adoptStep (r.scheduler.preempt id r.jobs))
  | forgotten {r : Roster} {at_ : VirtualTime} {id : JobId} {job : Job}
      {rest : List (VirtualTime × JobId)} (front : r.terminal = (at_, id) :: rest)
      (live : r.jobs.get id = some job) :
      Does config r (.forgotten id) { r with jobs := (r.jobs.remove id).1, terminal := rest }
  | dropped {r : Roster} {at_ : VirtualTime} {id : JobId} {rest : List (VirtualTime × JobId)}
      (front : r.terminal = (at_, id) :: rest) (gone : r.jobs.get id = none) :
      Does config r (.dropped id) { r with terminal := rest }

variable {config : CycleConfig} {r r' : Roster} {act : Act}

@[simp] theorem jobs_noteIf (r : Roster) (state : JobState) (id : JobId) (at_ : VirtualTime) :
    (r.noteIf state id at_).jobs = r.jobs := by
  unfold noteIf
  split <;> rfl

@[simp] theorem scheduler_noteIf (r : Roster) (state : JobState) (id : JobId)
    (at_ : VirtualTime) : (r.noteIf state id at_).scheduler = r.scheduler := by
  unfold noteIf
  split <;> rfl

def Noted (r : Roster) : Prop :=
  ∀ p ∈ r.terminal, ∀ job, r.jobs.get p.2 = some job → job.state.isTerminal = true

private theorem get_core_of_map {a a' : Arena Job} (h : a'.map core = a.map core) (x : JobId) :
    (a'.get x).map core = (a.get x).map core := by
  rw [← Arena.get_map, h, Arena.get_map]

private theorem map_core_modify {a : Arena Job} {id : JobId} {job job' : Job}
    (hid : a.get id = some job) (hcore : core job' = core job) :
    (a.modify id fun _ => job').map core = a.map core := by
  refine Arena.map_modify_eq fun v hv => ?_
  obtain rfl := Option.some.inj (hid.symm.trans hv)
  exact hcore

private theorem map_core_batch {a : Arena Job} {id : JobId} {job job' : Job} (next : JobState)
    (hid : a.get id = some job) (hcore : core job' = core job) (ids : List JobId) :
    ((a.modify id fun _ => job').modifyAll ids (Job.movedTo next)).map core = a.map core := by
  rw [Arena.map_modifyAll_eq (fun v => core_movedTo v next) ids]
  exact map_core_modify hid hcore

theorem Does.get_core (h : Does config r act r') (x : JobId) :
    (r'.jobs.get x).map core = act.leaves x ((r.jobs.get x).map core) := by
  cases h with
  | @submitted jobs id job state now fresh new unevicted ok =>
    obtain ⟨job', fairshare, deps, readiness, hid, hst, hf, hreg, -⟩ := Scheduler.submit_inv ok
    rw [jobs_noteIf]
    simp only [adoptStep, Scheduler.submit_ok hid hst hf hreg]
    rw [get_core_of_map (map_core_modify hid (core_withState _ _)), Arena.get_insert fresh]
    simp only [Act.leaves]
    split <;> rfl
  | dispatched ran =>
    obtain ⟨_, -, -, -, hmap⟩ := Scheduler.runCycle_grown ran
    exact get_core_of_map (hmap fun _ _ => core_withState _ _) x
  | @completed id promoted now ok =>
    obtain ⟨job, hid, hw⟩ := Scheduler.onCompleted_inv ok
    obtain ⟨s', heq, -⟩ := @Scheduler.onCompleted_ok r.scheduler r.jobs id job now config hid hw
    simp only [noteTerminal, adoptStep, heq]
    exact get_core_of_map (map_core_batch .ready hid (core_withState _ _) _) x
  | @failed id cascade now ok =>
    obtain ⟨job, hid, hw⟩ := Scheduler.onFailed_inv ok
    obtain ⟨s', heq, -⟩ := @Scheduler.onFailed_ok r.scheduler r.jobs id job now config hid hw
    simp only [noteTerminal, noteAll, adoptStep, heq]
    exact get_core_of_map (map_core_batch .cancelled hid (core_withState _ _) _) x
  | @cancelled id cascade now ok =>
    obtain ⟨job, hid, hopen⟩ := Scheduler.cancel_inv ok
    obtain ⟨s', heq, -⟩ := @Scheduler.cancel_ok r.scheduler r.jobs id job now config hid hopen
    simp only [noteTerminal, noteAll, adoptStep, heq]
    exact get_core_of_map (map_core_batch .cancelled hid (core_withState _ _) _) x
  | @requeued id u now ok =>
    obtain ⟨job, hid, hq⟩ := Scheduler.requeue_inv ok
    simp only [adoptStep, Scheduler.requeue_ok hid hq]
    exact get_core_of_map (map_core_modify hid (core_withState _ _)) x
  | @evicted id u now ok =>
    obtain ⟨job, hid, hst⟩ := Scheduler.onPreempted_inv ok
    simp only [adoptStep, Scheduler.onPreempted_ok hid hst]
    have hcore : core (Scheduler.evictedJob job) = core job := rfl
    exact get_core_of_map (map_core_modify hid hcore) x
  | @preempted id u now ok =>
    obtain ⟨job, hid, hst⟩ := Scheduler.preempt_inv ok
    simp only [adoptStep, Scheduler.preempt_ok hid hst]
    exact get_core_of_map (map_core_modify hid (core_withState _ _)) x
  | @forgotten at_ id job rest front live =>
    rw [Arena.get_remove]
    simp only [Act.leaves]
    split <;> rfl
  | dropped => rfl

theorem Does.posts (h : Does config r act r') (hk : Scheduler.Kept r.scheduler r.jobs)
    (hn : r.Noted) : Chain Posts r.book act.records r'.book := by
  cases h with
  | submitted now fresh new unevicted ok =>
    refine .single ?_
    simp only [book, scheduler_noteIf, jobs_noteIf, adoptStep]
    exact posts_submit fresh ok
  | dispatched ran => exact posts_runCycle hk ran
  | completed now ok => exact .single (posts_onCompleted ok)
  | failed now ok => exact .single (posts_onFailed ok)
  | cancelled now ok => exact .single (posts_cancel ok)
  | requeued now ok => exact .single (posts_requeue ok)
  | evicted now ok => exact .single (posts_onPreempted ok)
  | preempted now ok => exact .single (posts_preempt now ok)
  | @forgotten at_ id job rest front live =>
    exact .single (.forgotten live (hn _ (by rw [front]; exact List.mem_cons_self) job live))
  | dropped => exact .nil _

theorem Does.kept (h : Does config r act r') (hk : Scheduler.Kept r.scheduler r.jobs)
    (hn : r.Noted) : Scheduler.Kept r'.scheduler r'.jobs := by
  cases h with
  | @submitted jobs id job state now fresh new unevicted ok =>
    rw [scheduler_noteIf, jobs_noteIf]
    exact (hk.insert fresh (by simp [new])).submit id now config
  | dispatched ran => exact hk.runCycle ran
  | completed now ok => exact hk.onCompleted _ now config
  | failed now ok => exact hk.onFailed _ now config
  | cancelled now ok => exact hk.cancel _ now config
  | requeued now ok => exact hk.requeue _ now config
  | evicted now ok => exact hk.onPreempted _ now config
  | preempted now ok => exact hk.preempt _
  | @forgotten at_ id job rest front live =>
    refine hk.remove fun j hj hr => ?_
    have hover := hn _ (by rw [front]; exact List.mem_cons_self) j hj
    rw [hr] at hover
    exact nomatch hover
  | dropped => exact hk

end Roster

end TaskerRT.Daemon
