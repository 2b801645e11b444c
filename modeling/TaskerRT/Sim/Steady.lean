/- module: TaskerRT/Sim/Steady
   source: crates/tasker-sim/src/sim.rs, crates/tasker-sim/src/invariants.rs
   digest: The invariant behind the checker, and the events and cycles that keep it. -/

import TaskerRT.Scheduler.Settled
import TaskerRT.Sim.Simulation

set_option autoImplicit false

namespace TaskerRT.Sim

open Library Domain Cluster Policy Scheduling Wal Book DependencyTracker

namespace Simulation

def book (sim : Simulation) : Book := ⟨sim.scheduler.deps, sim.jobs⟩

def runningIds (sim : Simulation) : List JobId := sim.running.map (·.job)

/-- What holds between any two events: the ready set and the running set mirror the arena, each
job once, the dependency index is exact, every handle is live and every slot is within its
capacity. -/
structure Steady (sim : Simulation) : Prop where
  kept : Scheduler.Kept sim.scheduler sim.jobs
  settled : Settled sim.book
  live : AllLive sim.book
  worked : ∀ x, x ∈ sim.runningIds ↔ Worked sim.book x
  nodup : sim.runningIds.Nodup
  slots : ∀ r ∈ sim.running, r.slot < sim.inventory.slots.length
  within : ∀ s ∈ sim.inventory.slots, s.Within

variable {sim : Simulation}

section Check

private theorem forM_ok {α : Type} {f : α → Except Violation Unit} {xs : List α}
    (h : ∀ x ∈ xs, f x = .ok ()) : xs.forM f = .ok () := by
  induction xs with
  | nil => rfl
  | cons x xs ih =>
    have hrest := ih fun y hy => h y (List.mem_cons_of_mem _ hy)
    show (f x >>= fun _ => xs.forM f) = .ok ()
    rw [h x List.mem_cons_self, hrest]
    rfl

private theorem mem_iter (h : sim.Steady) {entry : JobId × Job} :
    entry ∈ sim.jobs.iter ↔ sim.jobs.get entry.1 = some entry.2 :=
  Arena.mem_iter h.settled.valid.wf.bound

private theorem checkJob_ok (h : sim.Steady) {entry : JobId × Job}
    (hentry : entry ∈ sim.jobs.iter) :
    sim.checkJob entry = .ok () := by
  obtain ⟨id, job⟩ := entry
  have hjob : sim.jobs.get id = some job := (mem_iter h).mp hentry
  have hworker : job.state.onWorker = true →
      job.deps.find? (fun dep => !sim.isDone dep) = none := by
    intro hw
    rw [List.find?_eq_none]
    intro dep hdep
    have hissued := h.settled.valid.sound.deps_issued hjob (h.settled.classified id job hjob)
      (JobState.not_terminal_of_onWorker hw) dep hdep
    obtain ⟨target, htarget⟩ := h.live dep hissued
    have hdone := h.settled.valid.sound.met hjob (JobState.isCleared_of_onWorker hw) dep hdep
      target htarget
    have hget : sim.jobs.get dep = some target := htarget
    simp [isDone, hget, hdone]
  unfold checkJob
  cases hst : job.state with
  | running | preempted => simp only [hworker (by rw [hst]; rfl)]
  | blocked =>
    have hopen : job.state.isTerminal = false := by rw [hst]; rfl
    obtain ⟨dep, hdep, hpending⟩ := (h.settled.blocked_iff hjob hopen).mp hst
    obtain ⟨target, htarget, htopen⟩ := isPending_iff.mp hpending
    have hget : sim.jobs.get dep = some target := htarget
    have hwaits : job.deps.all sim.isOver = false := by
      rw [List.all_eq_false]
      exact ⟨dep, hdep, by simp [isOver, hget, htopen]⟩
    simp [hwaits]
  | _ => simp only

theorem Steady.check_ok (h : sim.Steady) : sim.check = .ok () := by
  have hlen : sim.jobs.slots.length ≤ 2 ^ 32 := h.settled.valid.wf.bound
  have hpending : _ = sim.scheduler.pending := (h.kept.mirror.len_eq hlen).symm
  have hrunning : sim.jobs.iter.countP (fun entry => entry.2.state.onWorker) =
      sim.running.length := by
    rw [← (Arena.length_le_countP hlen h.nodup fun x hx => (h.worked x).mp hx).2.mpr
      fun x job hget hon => (h.worked x).mpr ⟨job, hget, hon⟩]
    exact List.length_map _
  have hslot : ∀ r ∈ sim.running, sim.isOnSlot r.job = true := by
    intro r hr
    obtain ⟨job, hjob, hw⟩ := (h.worked r.job).mp (List.mem_map_of_mem hr)
    have hget : sim.jobs.get r.job = some job := hjob
    simp [isOnSlot, hget, hw]
  have hslots : ∀ slot ∈ sim.inventory.slots.zipIdx, checkSlot slot = .ok () := by
    intro slot hmem
    have hwithin := h.within slot.1 (List.fst_mem_of_mem_zipIdx hmem)
    exact if_pos hwithin
  unfold check
  rw [forM_ok fun entry hentry => checkJob_ok h hentry]
  simp only [bind, Except.bind]
  rw [forM_ok hslots, hrunning, hpending, List.all_eq_true.mpr hslot]
  simp

theorem Steady.checked_ok (h : sim.Steady) : sim.checked = .ok sim := by
  unfold checked
  rw [h.check_ok]
  split <;> rfl

end Check

section Keep

/-- A lawful record that forgets nothing, with the running set and the slots to match. -/
private theorem Steady.of_lawful {sim' : Simulation} {record : Record} (h : sim.Steady)
    (hl : Lawful sim.book record sim'.book) (hkeep : ∀ id, record ≠ .forgotten id)
    (hk : Scheduler.Kept sim'.scheduler sim'.jobs)
    (hrunning : ∀ x, x ∈ sim'.runningIds ↔
      (x ∈ sim.runningIds ∧ frees x record = false) ∨ starts x record = true)
    (hnd : sim'.runningIds.Nodup)
    (hslots : ∀ r ∈ sim'.running, r.slot < sim'.inventory.slots.length)
    (hwithin : ∀ s ∈ sim'.inventory.slots, s.Within) : sim'.Steady := by
  refine ⟨hk, h.settled.posts hl, h.live.posts h.settled.valid hl.1 hkeep, ?_, hnd, hslots,
    hwithin⟩
  intro x
  rw [hrunning x, hl.worked h.settled.valid x, h.worked x]

private theorem worked_of_isOnSlot {id : JobId} (h : sim.isOnSlot id = true) :
    Worked sim.book id := by
  obtain ⟨job, hjob, hw⟩ := (Option.any_eq_true _ _).mp h
  exact ⟨job, hjob, hw⟩

private theorem within_release {inventory inventory' : SlotInventory} {slot : SlotIndex}
    {resources : Resources} (h : inventory.release slot resources = .ok inventory')
    (hw : ∀ s ∈ inventory.slots, s.Within) : ∀ s ∈ inventory'.slots, s.Within := by
  obtain ⟨s, hs, rfl⟩ := SlotInventory.updateSlot_eq_ok.mp h
  intro t ht
  rcases List.mem_or_eq_of_mem_set ht with ht | rfl
  · exact hw t ht
  · have hold := Resources.fitsWithin_iff_amount.mp (hw s (List.mem_of_getElem? hs))
    apply Resources.fitsWithin_iff_amount.mpr
    intro d
    have hd := hold d
    simp only [Resources.amount_saturatingSub]
    omega

private theorem Steady.release (h : sim.Steady) {id : JobId} (hid : Worked sim.book id) :
    ∃ running inventory,
      sim.release id = .ok { sim with running := running, inventory := inventory } ∧
      (id :: running.map (·.job)).Perm sim.runningIds ∧
      (∀ r ∈ running, r.slot < inventory.slots.length) ∧ ∀ s ∈ inventory.slots, s.Within := by
  cases hf : sim.running.find? (·.job = id) with
  | none =>
    obtain ⟨r, hr, hjob⟩ := List.mem_map.mp ((h.worked id).mpr hid)
    exact absurd hjob (by simpa using List.find?_eq_none.mp hf r hr)
  | some r =>
    have hperm := swapRemove_findIdx_perm hf
    have hjob : r.job = id := by simpa using List.find?_some hf
    obtain ⟨inventory, hrelease⟩ := SlotInventory.updateSlot_of_lt
      (fun s => { s with allocated := s.allocated.saturatingSub r.resources })
      (h.slots r (List.mem_of_find?_eq_some hf))
    have hrelease : sim.inventory.release r.slot r.resources = .ok inventory := hrelease
    have hlength : inventory.slots.length = sim.inventory.slots.length := by
      obtain ⟨s, -, rfl⟩ := SlotInventory.updateSlot_eq_ok.mp hrelease
      exact List.length_set
    refine ⟨swapRemove sim.running (sim.running.findIdx (·.job = id)), inventory, ?_, ?_, ?_,
      within_release hrelease h.within⟩
    · simp only [Simulation.release, hf, hrelease]
    · have hids := hperm.map (·.job)
      rwa [List.map_cons, hjob] at hids
    · intro t ht
      rw [hlength]
      exact h.slots t (hperm.subset (List.mem_cons_of_mem _ ht))

private theorem adopt_ok {α : Type} {step : Step α} {a : α} (sim : Simulation)
    (hok : step.result = .ok a) :
    sim.adopt step = .ok { sim with scheduler := step.scheduler, jobs := step.jobs } := by
  simp only [adopt, hok]

private theorem Steady.ends {α : Type} {step : Step α} {a : α} {record : Record} {id : JobId}
    (h : sim.Steady) (hid : Worked sim.book id) (hok : step.result = .ok a)
    (hl : Lawful sim.book record ⟨step.scheduler.deps, step.jobs⟩)
    (hk : Scheduler.Kept step.scheduler step.jobs)
    (hrecord : ∀ x, frees x record = decide (id = x) ∧ starts x record = false)
    (hkeep : ∀ id, record ≠ .forgotten id) :
    ∃ running inventory sim',
      sim.release id = .ok { sim with running := running, inventory := inventory } ∧
      ({ sim with running := running, inventory := inventory } : Simulation).adopt step =
        .ok sim' ∧ sim'.Steady := by
  obtain ⟨running, inventory, hrelease, hperm, hslots, hwithin⟩ := h.release hid
  have hnd := List.nodup_cons.mp (hperm.nodup_iff.mpr h.nodup)
  refine ⟨running, inventory, _, hrelease, adopt_ok _ hok, ?_⟩
  refine h.of_lawful hl hkeep hk ?_ hnd.2 hslots hwithin
  intro x
  have hmem : x ∈ running.map (·.job) ↔ x ∈ sim.runningIds ∧ id ≠ x := by
    rw [← hperm.mem_iff, List.mem_cons]
    constructor
    · intro hx
      exact ⟨Or.inr hx, fun he => hnd.1 (he ▸ hx)⟩
    · intro ⟨hx, hne⟩
      exact hx.resolve_left (Ne.symm hne)
  rw [(hrecord x).1, (hrecord x).2, decide_eq_false_iff_not]
  simp only [Bool.false_eq_true, or_false]
  exact hmem

theorem Steady.stays {record : Record} {scheduler : Scheduler} {jobs : Arena Job}
    (h : sim.Steady) (hl : Lawful sim.book record ⟨scheduler.deps, jobs⟩)
    (hk : Scheduler.Kept scheduler jobs) (hkeep : ∀ id, record ≠ .forgotten id)
    (hfree : ∀ x ∈ sim.runningIds, frees x record = false)
    (hstart : ∀ x, starts x record = false) :
    ({ sim with scheduler := scheduler, jobs := jobs } : Simulation).Steady := by
  refine h.of_lawful hl hkeep hk ?_ h.nodup h.slots h.within
  intro x
  rw [hstart x]
  simp only [Bool.false_eq_true, or_false]
  exact ⟨fun hx => ⟨hx, hfree x hx⟩, And.left⟩

theorem Steady.frame {sim' : Simulation} (h : sim.Steady) (hscheduler : sim'.scheduler = sim.scheduler)
    (hjobs : sim'.jobs = sim.jobs) (hrunning : sim'.running = sim.running)
    (hinventory : sim'.inventory = sim.inventory) : sim'.Steady := by
  have hbook : sim'.book = sim.book := by rw [book, book, hscheduler, hjobs]
  have hids : sim'.runningIds = sim.runningIds := by rw [runningIds, runningIds, hrunning]
  refine ⟨?_, hbook ▸ h.settled, hbook ▸ h.live, ?_, hids ▸ h.nodup, ?_, ?_⟩
  · rw [hscheduler, hjobs]
    exact h.kept
  · rw [hids, hbook]
    exact h.worked
  · rw [hrunning, hinventory]
    exact h.slots
  · rw [hinventory]
    exact h.within

end Keep

end Simulation

/-- The script's own fault: a forward reference, a submit refused for its state, its account or
its dependencies, or more jobs than the arena has handles. -/
def Halt.FromScript : Halt → Prop
  | .error (.forwardDependency _) | .panic .arenaFull => True
  | .error (.lifecycle (.notSubmitted _ _)) | .error (.lifecycle (.account _))
  | .error (.lifecycle (.dependency _)) => True
  | _ => False

namespace Simulation

variable {sim : Simulation}

/-- Where something ends: steady, or halted by the script. -/
def Holds {α : Type} (view : α → Simulation) : Except Halt α → Prop
  | .ok out => (view out).Steady
  | .error halt => halt.FromScript

section Deliver

private theorem resolve_fromScript {deps : List Nat} {halt : Halt} :
    sim.resolve deps = .error halt → halt.FromScript := by
  induction deps with
  | nil => exact fun h => nomatch h
  | cons index deps ih =>
    intro h
    simp only [resolve] at h
    split at h
    · obtain rfl := Except.error.inj h
      trivial
    · cases hrest : sim.resolve deps with
      | error e =>
        rw [hrest] at h
        obtain rfl := Except.error.inj h
        exact ih hrest
      | ok handles =>
        rw [hrest] at h
        exact nomatch h

private theorem Steady.submit (h : sim.Steady) (job : Job) (deps : List Nat) (outcome : Outcome) :
    Holds id (sim.apply (.submit job deps outcome)) := by
  simp only [apply]
  cases hresolve : sim.resolve deps with
  | error halt => exact resolve_fromScript hresolve
  | ok handles =>
    simp only [bind, Except.bind]
    cases hinsert : sim.jobs.insert { job with deps := handles } with
    | none => exact trivial
    | some out =>
      obtain ⟨jobs, x⟩ := out
      simp only [adopt]
      cases hok : (sim.scheduler.submit x jobs sim.clock sim.config).result with
      | error e =>
        have hget := Arena.get_insert hinsert x
        rw [if_pos rfl] at hget
        rcases Scheduler.submit_refused hget hok with ⟨_, rfl⟩ | ⟨_, rfl⟩ | ⟨_, rfl⟩
        all_goals exact trivial
      | ok state =>
        obtain ⟨-, -, -, -, hst, -⟩ := Scheduler.submit_fresh hinsert hok
        have hne : ({ job with deps := handles } : Job).state ≠ .ready := by
          rw [hst]
          exact fun he => nomatch he
        have hposts := posts_submit hinsert hok
        have hkept := (h.kept.insert hinsert hne).submit x sim.clock sim.config
        have hsteady := h.stays ⟨hposts, trivial⟩ hkept (fun _ he => nomatch he) (fun _ _ => rfl)
          fun _ => rfl
        exact hsteady.frame rfl rfl rfl rfl

private theorem Steady.complete (h : sim.Steady) (x : JobId) (run : Word 32) :
    Holds id (sim.apply (.complete x run)) := by
  simp only [apply]
  split
  · rename_i hcurrent
    obtain ⟨job, hjob, hon⟩ := worked_of_isOnSlot (Bool.and_eq_true_iff.mp hcurrent).1
    obtain ⟨s', heq, -⟩ :=
      @Scheduler.onCompleted_ok sim.scheduler sim.jobs x job sim.clock sim.config hjob hon
    have hok : (sim.scheduler.onCompleted x sim.jobs sim.clock sim.config).result =
        .ok (sim.scheduler.deps.onCompleted x).2 := by rw [heq]
    obtain ⟨running, inventory, sim', hrelease, hadopt, hsteady⟩ := h.ends ⟨job, hjob, hon⟩ hok
      ⟨posts_onCompleted hok, trivial⟩ (h.kept.onCompleted x sim.clock sim.config)
      (fun _ => ⟨rfl, rfl⟩) fun _ he => nomatch he
    simp only [hrelease, bind, Except.bind, hadopt]
    exact hsteady
  · exact h

private theorem Steady.fail (h : sim.Steady) (x : JobId) (run : Word 32) :
    Holds id (sim.apply (.fail x run)) := by
  simp only [apply]
  split
  · rename_i hcurrent
    obtain ⟨job, hjob, hon⟩ := worked_of_isOnSlot (Bool.and_eq_true_iff.mp hcurrent).1
    obtain ⟨s', heq, -⟩ :=
      @Scheduler.onFailed_ok sim.scheduler sim.jobs x job sim.clock sim.config hjob hon
    have hok : (sim.scheduler.onFailed x sim.jobs sim.clock sim.config).result =
        .ok (sim.scheduler.deps.onTerminated x).2 := by rw [heq]
    obtain ⟨running, inventory, sim', hrelease, hadopt, hsteady⟩ := h.ends ⟨job, hjob, hon⟩ hok
      ⟨posts_onFailed hok, trivial⟩ (h.kept.onFailed x sim.clock sim.config)
      (fun _ => ⟨rfl, rfl⟩) fun _ he => nomatch he
    simp only [hrelease, bind, Except.bind, hadopt]
    exact hsteady
  · exact h

private theorem Steady.preempted (h : sim.Steady) (x : JobId) (run : Word 32) :
    Holds id (sim.apply (.preempted x run)) := by
  simp only [apply]
  split
  · rename_i hguard
    obtain ⟨job, hjob, hst⟩ := (Option.any_eq_true _ _).mp (Bool.and_eq_true_iff.mp hguard).1
    have hst : job.state = .preempted := of_decide_eq_true hst
    have hw : Worked sim.book x := ⟨job, hjob, by rw [hst]; rfl⟩
    have hok : (sim.scheduler.onPreempted x sim.jobs sim.clock sim.config).result = .ok () := by
      rw [Scheduler.onPreempted_ok hjob hst]
    obtain ⟨running, inventory, sim', hrelease, hadopt, hsteady⟩ := h.ends hw hok
      ⟨posts_onPreempted hok, hw⟩ (h.kept.onPreempted x sim.clock sim.config)
      (fun _ => ⟨rfl, rfl⟩) fun _ he => nomatch he
    simp only [hrelease, bind, Except.bind, hadopt]
    exact hsteady
  · exact h

/-- A cancel that does not hit a job in its eviction grace. -/
def spared (sim : Simulation) : Event → Bool
  | .cancel submitIndex => (sim.handles[submitIndex]?).all fun x =>
      (sim.jobs.get x).all fun job => job.state ≠ .preempted
  | _ => true

private theorem Steady.cancel (h : sim.Steady) {submitIndex : Nat}
    (hspared : sim.spared (.cancel submitIndex) = true) :
    Holds id (sim.apply (.cancel submitIndex)) := by
  simp only [apply]
  simp only [spared] at hspared
  cases hhandle : sim.handles[submitIndex]? with
  | none => exact trivial
  | some x =>
    simp only [hhandle, Option.all_some] at hspared
    simp only
    cases hjob : sim.jobs.get x with
    | none => exact h
    | some job =>
      simp only [hjob, Option.all_some, decide_eq_true_eq] at hspared
      simp only
      split
      · exact h
      · rename_i hopen
        have hopen : job.state.isTerminal = false := Bool.eq_false_iff.mpr hopen
        obtain ⟨s', heq, -⟩ :=
          @Scheduler.cancel_ok sim.scheduler sim.jobs x job sim.clock sim.config hjob hopen
        have hok : (sim.scheduler.cancel x sim.jobs sim.clock sim.config).result =
            .ok (sim.scheduler.deps.onTerminated x).2 := by rw [heq]
        have hlawful := (⟨posts_cancel hok, trivial⟩ : Lawful sim.book (.cancelled x sim.clock) _)
        have hkept := h.kept.cancel x sim.clock sim.config
        by_cases hrunning : job.state = .running
        · obtain ⟨running, inventory, sim', hrelease, hadopt, hsteady⟩ :=
            h.ends ⟨job, hjob, by rw [hrunning]; rfl⟩ hok hlawful hkept (fun _ => ⟨rfl, rfl⟩)
              fun _ he => nomatch he
          simp only [if_pos hrunning, hrelease, bind, Except.bind, hadopt]
          exact hsteady
        · -- Neither running nor in its grace, the job is on no slot.
          have hoff : x ∉ sim.runningIds := by
            intro hmem
            obtain ⟨job', hjob', hw⟩ := (h.worked x).mp hmem
            obtain rfl := Option.some.inj (hjob.symm.trans hjob')
            cases hst : job.state with
            | running => exact hrunning hst
            | preempted => exact hspared hst
            | _ => rw [hst] at hw; exact nomatch hw
          simp only [if_neg hrunning, bind, Except.bind, adopt_ok sim hok]
          refine h.stays hlawful hkept (fun _ he => nomatch he) ?_ fun _ => rfl
          intro y hy
          exact decide_eq_false fun he => hoff (he ▸ hy)

/-- Every event keeps a simulation steady that cancels no job in its eviction grace. -/
theorem Steady.apply (h : sim.Steady) {event : Event} (hspared : sim.spared event = true) :
    Holds id (sim.apply event) := by
  cases event with
  | submit job deps outcome => exact h.submit job deps outcome
  | cancel submitIndex => exact h.cancel hspared
  | complete x run => exact h.complete x run
  | fail x run => exact h.fail x run
  | preempted x run => exact h.preempted x run

end Deliver

end Simulation

end TaskerRT.Sim
