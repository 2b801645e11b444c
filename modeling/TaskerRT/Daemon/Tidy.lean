/- module: TaskerRT/Daemon/Tidy
   source: crates/taskerd/src/engine.rs, crates/tasker-core/src/policy/eligibility.rs
   digest: From an empty engine on, only jobs that are over are ever forgotten. -/

import TaskerRT.Daemon.Run

set_option autoImplicit false

namespace TaskerRT.Scheduling.Book

open Library Domain Cluster Policy Wal DependencyTracker

variable {b b' : Book} {record : Record} {x : JobId} {job : Job}

/-- Whatever the tracker tracks is live and can still end. -/
structure Tracked (b : Book) : Prop where
  placed : b.deps.OwnersPlaced
  live : ∀ x, b.deps.isTracked x = true → ∃ job, b.jobs.get x = some job ∧
    job.state.isTerminal = false

/-- Registration tracks the new job and its pending dependencies, nothing else. -/
private theorem Tracked.registered {jobs : Arena Job} {id : JobId} {deps : DependencyTracker}
    {readiness : Readiness} (h : Tracked b) (fresh : b.jobs.insert job = some (jobs, id))
    (hreg : b.deps.register id job jobs = .ok (deps, readiness)) :
    Tracked ⟨deps, jobs.modify id fun _ => job.withState (Scheduler.stateOf readiness)⟩ := by
  have hget : jobs.get id = some job := by rw [Arena.get_insert fresh, if_pos rfl]
  have hnone : b.jobs.get id = none := Arena.get_nextId (Arena.nextId_of_insert fresh)
  -- A job tracked before is another one, and its entry did not change.
  have hold : ∀ y, b.deps.isTracked y = true → ∃ j,
      (jobs.modify id fun _ => job.withState (Scheduler.stateOf readiness)).get y = some j ∧
        j.state.isTerminal = false := by
    intro y hy
    obtain ⟨j, hj, hopen⟩ := h.live y hy
    have hne : y ≠ id := by
      rintro rfl
      rw [hnone] at hj
      exact nomatch hj
    exact ⟨j, by rw [Arena.get_modify_ne _ hne, Arena.get_insert fresh, if_neg hne, hj], hopen⟩
  rcases register_spec hreg hget with ⟨-, ⟨-, rfl⟩ | ⟨hnc, hr⟩⟩
  · exact ⟨h.placed, hold⟩
  have howner : ∀ i y, (deps.rowAt i).owner = some y → y.slot = i ∧ ∃ j,
      (jobs.modify id fun _ => job.withState (Scheduler.stateOf readiness)).get y = some j ∧
        j.state.isTerminal = false := by
    intro i y hy
    by_cases hi : i = id.slot
    · subst hi
      rw [hr.own, Option.some.injEq] at hy
      subst hy
      refine ⟨rfl, job.withState (Scheduler.stateOf readiness), ?_, ?_⟩
      · rw [Arena.get_modify_self, hget]
        rfl
      · cases readiness with
        | ready | blocked => rfl
        | cancelled => exact absurd rfl hnc
    · by_cases hd : ∃ d ∈ job.deps, isPending jobs d = true ∧ d.slot = i
      · obtain ⟨d, hmem, hp, rfl⟩ := hd
        obtain ⟨j, hj, hopen⟩ := isPending_iff.mp hp
        have hbase : (b.deps.baseRow d).owner = some d := by
          unfold baseRow
          split
          · assumption
          · rfl
        rw [hr.pending d hmem hp] at hy
        obtain rfl : d = y := Option.some.inj (hbase.symm.trans hy)
        have hne : d ≠ id := fun he => hi (by rw [he])
        exact ⟨rfl, j, by rw [Arena.get_modify_ne _ hne, hj], hopen⟩
      · rw [hr.other i hi fun d hmem hp hs => hd ⟨d, hmem, hp, hs⟩] at hy
        have hslot := h.placed i y hy
        subst hslot
        exact ⟨rfl, hold y (isTracked_iff.mpr hy)⟩
  exact ⟨fun i y hy => (howner i y hy).1, fun y hy => (howner _ y (isTracked_iff.mp hy)).2⟩

private theorem Tracked.modify {id : JobId} {j' : Job} (h : Tracked b)
    (hopen : j'.state.isTerminal = false) :
    Tracked ⟨b.deps, b.jobs.modify id fun _ => j'⟩ := by
  refine ⟨h.placed, fun y hy => ?_⟩
  obtain ⟨j, hj, hj'⟩ := h.live y hy
  by_cases hne : y = id
  · subst hne
    exact ⟨j', by rw [Arena.get_modify_self, hj]; rfl, hopen⟩
  · exact ⟨j, by rw [Arena.get_modify_ne _ hne, hj], hj'⟩

private theorem Tracked.terminate {id : JobId} {next : JobState} (h : Tracked b)
    (hid : b.jobs.get id = some job) : Tracked (b.terminate id job next) := by
  refine ⟨placed_onTerminated h.placed id, fun y hy => ?_⟩
  obtain ⟨ht, hn⟩ := isTracked_onTerminated.mp hy
  obtain ⟨j, hj, hopen⟩ := h.live y ht
  have hne : y ≠ id := fun he => hn (.root (by rw [he]; exact List.mem_singleton_self id) ht)
  refine ⟨j, ?_, hopen⟩
  rw [get_terminate hid, if_neg hne, if_neg fun hmem => hn (mem_onTerminated.mp hmem).2, hj]

private theorem Tracked.posts (ht : Tracked b) (h : Posts b record b') : Tracked b' := by
  cases h with
  | submitted fresh state account registered => exact ht.registered fresh registered
  | dispatched at_ live state => exact ht.modify rfl
  | @completed id job at_ live state =>
    refine ⟨placed_onCompleted ht.placed id, fun y hy => ?_⟩
    obtain ⟨hy, hne⟩ := (isTracked_onCompleted ht.placed).mp hy
    obtain ⟨j, hj, hopen⟩ := ht.live y hy
    rw [get_complete ht.placed live, if_neg hne, hj]
    split
    · exact ⟨_, rfl, movedTo_not_terminal rfl hopen⟩
    · exact ⟨j, rfl, hopen⟩
  | failed at_ live state => exact ht.terminate live
  | cancelled at_ live state => exact ht.terminate live
  | requeued at_ preemptions live state => exact ht.modify rfl
  | preempted at_ live state => exact ht.modify rfl
  | @forgotten id job live state =>
    refine ⟨ht.placed, fun y hy => ?_⟩
    obtain ⟨j, hj, hopen⟩ := ht.live y hy
    have hne : y ≠ id := by
      rintro rfl
      rw [live, Option.some.injEq] at hj
      rw [hj, hopen] at state
      exact nomatch state
    exact ⟨j, by rw [Arena.get_remove, if_neg hne, hj], hopen⟩

end TaskerRT.Scheduling.Book

namespace TaskerRT.Daemon

open Library Domain Cluster Policy Scheduling Wal Book DependencyTracker

namespace Roster

variable {config : CycleConfig} {r r' : Roster} {act : Act}

/-- The ready set mirrors the arena, the tracker tracks open jobs, and the retention queue holds
each job that is over and still live once. -/
structure Tidy (r : Roster) : Prop where
  kept : Scheduler.Kept r.scheduler r.jobs
  tracked : Tracked r.book
  noted : ∀ p ∈ r.terminal, ∃ job, r.jobs.get p.2 = some job ∧ job.state.isTerminal = true
  nodup : (r.terminal.map (·.2)).Nodup

private theorem Tidy.toNoted (h : Tidy r) : r.Noted := by
  intro p hp job hjob
  obtain ⟨j, hj, hover⟩ := h.noted p hp
  rw [hjob, Option.some.injEq] at hj
  exact hj ▸ hover

private theorem over_of_chain {b b' : Book} {records : List Record} {x : JobId} {job : Job}
    (h : Chain Posts b records b') (hover : job.state.isTerminal = true) :
    Tracked b → .forgotten x ∉ records → b.jobs.get x = some job →
      b'.jobs.get x = some job := by
  induction h with
  | nil => exact fun _ _ hx => hx
  | cons head _ ih =>
    intro ht hno hx
    obtain ⟨hhead, htail⟩ := not_or.mp (mt List.mem_cons.mpr hno)
    exact ih (ht.posts head) htail (head.over ht.placed hx hover fun he => hhead he.symm)

private theorem ended_nodup (t : DependencyTracker) (id : JobId) (now : VirtualTime) :
    (([(now, id)] ++ (t.onTerminated id).2.map fun x => (now, x)).map (·.2)).Nodup := by
  have hmap : ([(now, id)] ++ (t.onTerminated id).2.map fun x => (now, x)).map (·.2) =
      id :: (t.onTerminated id).2 := by
    simp [Function.comp_def]
  rw [hmap, List.nodup_cons]
  exact ⟨fun hmem => (mem_onTerminated.mp hmem).1 rfl, nodup_onTerminated t id⟩

/-- A job that ends, and everything it cancels, was open before and is over afterwards. -/
private theorem ended_over {id : JobId} {job : Job} {next : JobState}
    (hid : r.jobs.get id = some job) (hopen : job.state.isTerminal = false)
    (hnext : next.isTerminal = true) (now : VirtualTime)
    (hcascade : ∀ x ∈ (r.scheduler.deps.onTerminated id).2, ∃ j, r.jobs.get x = some j ∧
      j.state.isTerminal = false) :
    ∀ p ∈ [(now, id)] ++ (r.scheduler.deps.onTerminated id).2.map fun x => (now, x),
      (∃ j, (r.book.terminate id job next).jobs.get p.2 = some j ∧ j.state.isTerminal = true) ∧
        ∀ j, r.jobs.get p.2 = some j → j.state.isTerminal = false := by
  intro p hp
  rcases List.mem_append.mp hp with hp | hp
  · rw [List.mem_singleton.mp hp]
    refine ⟨⟨job.withState next, ?_, hnext⟩, fun j hj => ?_⟩
    · rw [get_terminate hid, if_pos rfl]
    · rw [hid, Option.some.injEq] at hj
      exact hj ▸ hopen
  · obtain ⟨x, hx, rfl⟩ := List.mem_map.mp hp
    obtain ⟨j, hj, hj'⟩ := hcascade x hx
    refine ⟨⟨j.withState .cancelled, ?_, rfl⟩, fun j' hj'' => ?_⟩
    · show (r.book.terminate id job next).jobs.get x = _
      have hmoved := Job.movedTo_of_can (JobState.canTransitionTo_cancelled.mpr hj')
      have hx' : x ∈ (r.book.deps.onTerminated id).2 := hx
      rw [get_terminate hid, if_neg (mem_onTerminated.mp hx).1, if_pos hx',
        show r.book.jobs.get x = some j from hj, Option.map_some, hmoved]
    · rw [hj, Option.some.injEq] at hj''
      exact hj'' ▸ hj'

/-- How an act changes the retention queue: it takes the front off, or it forgets nothing and
adds what just ended. -/
inductive Queues (r : Roster) : Act → Roster → Prop where
  | forgotten {r' : Roster} {at_ : VirtualTime} {id : JobId}
      (front : r.terminal = (at_, id) :: r'.terminal) (jobs : r'.jobs = (r.jobs.remove id).1) :
      Queues r (.forgotten id) r'
  | dropped {r' : Roster} {at_ : VirtualTime} {id : JobId}
      (front : r.terminal = (at_, id) :: r'.terminal) (same : r'.book = r.book) :
      Queues r (.dropped id) r'
  | extended {r' : Roster} {act : Act} {added : List (VirtualTime × JobId)}
      (keeps : ∀ x, .forgotten x ∉ act.records) (queue : r'.terminal = r.terminal ++ added)
      (nodup : (added.map (·.2)).Nodup)
      (ended : ∀ p ∈ added, (∃ job, r'.jobs.get p.2 = some job ∧ job.state.isTerminal = true) ∧
        ∀ job, r.jobs.get p.2 = some job → job.state.isTerminal = false) : Queues r act r'

private theorem Queues.same (hkeeps : ∀ x, .forgotten x ∉ act.records)
    (hqueue : r'.terminal = r.terminal) : Queues r act r' :=
  .extended hkeeps (hqueue.trans (List.append_nil _).symm) List.nodup_nil (by simp)

theorem Does.queues (hd : r.Does config act r') (hplaced : r.scheduler.deps.OwnersPlaced)
    (hcascade : ∀ id job, r.jobs.get id = some job →
      ∀ x ∈ (r.scheduler.deps.onTerminated id).2, ∃ j, r.jobs.get x = some j ∧
        j.state.isTerminal = false) : Queues r act r' := by
  cases hd with
  | @submitted jobs id job state now fresh new unevicted ok =>
    obtain ⟨_, _, readiness, hget, -, -, -, rfl, hstep⟩ := Scheduler.submit_fresh fresh ok
    unfold noteIf
    split
    · rename_i hover
      refine .extended (by simp [Act.records]) rfl (List.nodup_singleton _) fun p hp => ?_
      rw [List.mem_singleton.mp hp]
      refine ⟨⟨job.withState (Scheduler.stateOf readiness), ?_, hover⟩, fun j hj => ?_⟩
      · simp only [noteTerminal, adoptStep]
        rw [hstep]
        dsimp only
        rw [Arena.get_modify_self, hget]
        rfl
      · rw [Arena.get_nextId (Arena.nextId_of_insert fresh)] at hj
        cases hj
    · exact .same (by simp [Act.records]) rfl
  | dispatched => exact .same (by simp [Act.records]) rfl
  | @completed id promoted now ok =>
    obtain ⟨job, hid, hw⟩ := Scheduler.onCompleted_inv ok
    obtain ⟨s', heq, -⟩ := @Scheduler.onCompleted_ok r.scheduler r.jobs id job now config hid hw
    refine .extended (by simp [Act.records]) rfl (List.nodup_singleton _) fun p hp => ?_
    rw [List.mem_singleton.mp hp]
    refine ⟨⟨job.withState .completed, ?_, rfl⟩, fun j hj => ?_⟩
    · simp only [noteTerminal, adoptStep, heq]
      exact (@get_complete r.book id job hplaced hid id).trans (if_pos rfl)
    · rw [hid, Option.some.injEq] at hj
      exact hj ▸ JobState.not_terminal_of_onWorker hw
  | @failed id cascade now ok =>
    obtain ⟨job, hid, hw⟩ := Scheduler.onFailed_inv ok
    obtain ⟨s', heq, -⟩ := @Scheduler.onFailed_ok r.scheduler r.jobs id job now config hid hw
    rw [heq] at ok
    obtain rfl := Except.ok.inj ok
    refine .extended (by simp [Act.records]) (List.append_assoc _ _ _) (ended_nodup _ id now)
      fun p hp => ?_
    simp only [noteTerminal, noteAll, adoptStep, heq]
    exact ended_over hid (JobState.not_terminal_of_onWorker hw) rfl now (hcascade id job hid) p hp
  | @cancelled id cascade now ok =>
    obtain ⟨job, hid, hopen⟩ := Scheduler.cancel_inv ok
    obtain ⟨s', heq, -⟩ := @Scheduler.cancel_ok r.scheduler r.jobs id job now config hid hopen
    rw [heq] at ok
    obtain rfl := Except.ok.inj ok
    refine .extended (by simp [Act.records]) (List.append_assoc _ _ _) (ended_nodup _ id now)
      fun p hp => ?_
    simp only [noteTerminal, noteAll, adoptStep, heq]
    exact ended_over hid hopen rfl now (hcascade id job hid) p hp
  | requeued | evicted | preempted => exact .same (by simp [Act.records]) rfl
  | forgotten front live => exact .forgotten front rfl
  | dropped front gone => exact .dropped front rfl

theorem Tidy.does (h : Tidy r) (hd : r.Does config act r') : Tidy r' := by
  have hposts := hd.posts h.kept h.toNoted
  have hkept := hd.kept h.kept h.toNoted
  have htracked : Tracked r'.book := hposts.keeps (fun _ _ _ hp ht => ht.posts hp) h.tracked
  -- Everything reached by a cascade is tracked, so it is live and open.
  have hcascade : ∀ id job, r.jobs.get id = some job →
      ∀ x ∈ (r.scheduler.deps.onTerminated id).2, ∃ j, r.jobs.get x = some j ∧
        j.state.isTerminal = false :=
    fun id job _ x hx => h.tracked.live x (mem_onTerminated.mp hx).2.tracked
  cases hd.queues h.tracked.placed hcascade with
  | @forgotten _ at_ id front jobs =>
    have hnd := h.nodup
    rw [front, List.map_cons, List.nodup_cons] at hnd
    refine ⟨hkept, htracked, fun p hp => ?_, hnd.2⟩
    obtain ⟨j, hj, hover⟩ := h.noted p (front ▸ List.mem_cons_of_mem _ hp)
    have hne : p.2 ≠ id := fun he => hnd.1 (List.mem_map.mpr ⟨p, hp, he⟩)
    exact ⟨j, by rw [jobs, Arena.get_remove, if_neg hne, hj], hover⟩
  | @dropped _ at_ id front same =>
    have hnd := h.nodup
    rw [front, List.map_cons, List.nodup_cons] at hnd
    have hjobs : r'.jobs = r.jobs := congrArg Book.jobs same
    exact ⟨hkept, htracked, fun p hp => hjobs ▸ h.noted p (front ▸ List.mem_cons_of_mem _ hp),
      hnd.2⟩
  | @extended _ _ added keeps queue nodup ended =>
    refine ⟨hkept, htracked, fun p hp => ?_, ?_⟩
    · rw [queue] at hp
      rcases List.mem_append.mp hp with hp | hp
      · obtain ⟨job, hjob, hover⟩ := h.noted p hp
        exact ⟨job, over_of_chain hposts hover h.tracked (keeps _) hjob, hover⟩
      · exact (ended p hp).1
    · rw [queue, List.map_append, List.nodup_append]
      refine ⟨h.nodup, nodup, fun x hx y hy hxy => ?_⟩
      obtain ⟨p, hp, rfl⟩ := List.mem_map.mp hx
      obtain ⟨q, hq, rfl⟩ := List.mem_map.mp hy
      obtain ⟨job, hjob, hover⟩ := h.noted p hp
      rw [(ended q hq).2 job (hxy ▸ hjob)] at hover
      exact nomatch hover

/-- A tidy roster stays tidy, and the records tell the whole story of its book. -/
theorem Tidy.chain (h : Tidy r) {acts : List Act} (hd : Chain (Does config) r acts r') :
    Tidy r' ∧ Chain Posts r.book (acts.flatMap Act.records) r'.book :=
  hd.simulate (fun _ _ _ hd h => ⟨h.does hd, hd.posts h.kept h.toNoted⟩) h

end Roster

namespace Engine

variable {e e' : Engine} {input : Input} {events : List Event}

theorem flatMap_records (events : List Event) :
    events.flatMap Event.records = (events.flatMap Event.acts).flatMap Act.records := by
  rw [List.flatMap_assoc]
  rfl

theorem Turns.does (h : Turns e input events e') :
    Chain (Roster.Does e.cycle) e.toRoster (events.flatMap Event.acts) e'.toRoster :=
  (h.chain.simulate (fun _ _ _ ht _ => ⟨trivial, ht.does⟩) trivial).2

theorem withShares_spec (shares : List (Word 32 × Word 32)) : ∀ s : Scheduler,
    (withShares s shares).ready = s.ready ∧ (withShares s shares).deps = s.deps ∧
      (∀ i, (withShares s shares).fairshare.runningCpu i = s.fairshare.runningCpu i) ∧
      (s.fairshare.ledgers.length ≤ maxAccounts →
        (withShares s shares).fairshare.ledgers.length ≤ maxAccounts) := by
  induction shares with
  | nil => exact fun _ => ⟨rfl, rfl, fun _ => rfl, fun h => h⟩
  | cons entry shares ih =>
    intro s
    cases hset : s.fairshare.setShares entry.1 entry.2 with
    | error err =>
      have heq : withShares s (entry :: shares) = withShares s shares := by
        simp only [withShares, List.foldl_cons, Scheduler.setShares, hset]
      rw [heq]
      exact ih s
    | ok fairshare =>
      have heq : withShares s (entry :: shares) =
          withShares { s with fairshare := fairshare } shares := by
        simp only [withShares, List.foldl_cons, Scheduler.setShares, hset]
      obtain ⟨hcpu, hlen⟩ := FairShare.setShares_spec hset
      obtain ⟨hready, hdeps, hcpu', hlen'⟩ := ih { s with fairshare := fairshare }
      rw [heq]
      exact ⟨hready, hdeps, fun i => (hcpu' i).trans (hcpu i), fun h => hlen' (hlen h)⟩

theorem tidy_build (config : DaemonConfig) (journal : Option Journal) :
    (build config journal).toRoster.Tidy := by
  obtain ⟨hready, hdeps, -, hlen⟩ := withShares_spec config.shares Scheduler.new
  have hnone : ∀ x job, (Arena.new : Arena Job).get x ≠ some job := fun _ _ h => nomatch h
  refine ⟨⟨?_, hlen (Nat.zero_le _)⟩, ⟨?_, ?_⟩, by simp [build], by simp [build]⟩
  · show Mirror (withShares Scheduler.new config.shares).ready Arena.new
    rw [hready]
    exact .of_none_ready fun c x ⟨job, hjob, _⟩ => hnone x job hjob
  · show (withShares Scheduler.new config.shares).deps.OwnersPlaced
    rw [hdeps]
    intro i b hb
    simp [Scheduler.new, DependencyTracker.new, rowAt, Table.read, TrackerRow.vacant] at hb
  · show ∀ x, (withShares Scheduler.new config.shares).deps.isTracked x = true → _
    rw [hdeps]
    intro x hx
    simp [Scheduler.new, DependencyTracker.new, isTracked, rowAt, Table.read,
      TrackerRow.vacant] at hx

variable [Crc32]

theorem Steps.tidy (h : e.Steps input e') (ht : e.toRoster.Tidy) : e'.toRoster.Tidy := by
  obtain ⟨events, hturns⟩ := h.turns
  exact (ht.chain hturns.does).1

end Engine

end TaskerRT.Daemon
