/- module: TaskerRT/Daemon/Retained
   source: crates/taskerd/src/engine.rs (note_terminal, forget_expired, restore_snapshot, apply)
   digest: The retention queue holds every job that is over and live, once, in live runs and after
     any recovery. -/

import TaskerRT.Daemon.Restored

set_option autoImplicit false

namespace TaskerRT.Domain.Arena

universe u

private theorem issued_map {α β : Type u} (f : α → β) (a : Arena α) (x : JobId) :
    (a.map f).Issued x ↔ a.Issued x := by
  unfold Issued
  rw [getElem?_map_slots]
  rcases a.slots[x.slot]? with _ | (⟨g, v⟩ | ⟨g, n⟩) <;> exact Iff.rfl

end TaskerRT.Domain.Arena

namespace TaskerRT.Daemon

open Library Domain Cluster Policy Scheduling Wal Book DependencyTracker

/-- What a cascade can reach over stored edges is open or gone for good. It is weaker than `Sound`:
it survives records that no live engine writes. -/
structure EdgesOpen (t : DependencyTracker) (jobs : Arena Job) : Prop where
  placed : t.OwnersPlaced
  edge : ∀ {a b : JobId}, t.isTracked a = true → b ∈ (t.rowAt a.slot).dependents →
    t.isTracked b = true →
      jobs.Issued b ∧ ∀ job, jobs.get b = some job → job.state.isTerminal = false

private theorem EdgesOpen.of_sound {t : DependencyTracker} {jobs : Arena Job} (h : Sound t jobs) :
    EdgesOpen t jobs := by
  refine ⟨h.placed, fun {a b} ha hab hb => ⟨(h.edge_known ha hab).1, fun job hjob => ?_⟩⟩
  obtain ⟨j, hj, hopen⟩ := h.edge_alive ha hab hb
  obtain rfl := Option.some.inj (hj.symm.trans hjob)
  exact hopen

private theorem EdgesOpen.cascade {t : DependencyTracker} {jobs : Arena Job} {id x : JobId}
    (h : EdgesOpen t jobs) (hx : x ∈ (t.onTerminated id).2) :
    jobs.Issued x ∧ ∀ job, jobs.get x = some job → job.state.isTerminal = false := by
  obtain ⟨hne, hreach⟩ := mem_onTerminated.mp hx
  cases hreach with
  | root hv ht => exact absurd (List.mem_singleton.mp hv) hne
  | edge hv hw ht => exact h.edge hv.tracked hw ht

namespace Roster

variable {config : CycleConfig} {r r' : Roster} {added : List JobId} {id : JobId} {job : Job}

def queue (r : Roster) : List JobId := r.terminal.map (·.2)

def Queued (r : Roster) (added : List JobId) (r' : Roster) : Prop :=
  ∃ new, r'.terminal = r.terminal ++ new ∧ new.map (·.2) = added

private theorem Queued.queue_eq (h : Queued r added r') : r'.queue = r.queue ++ added := by
  obtain ⟨new, hterminal, rfl⟩ := h
  rw [queue, hterminal, List.map_append]
  rfl

private theorem queued_none (h : r'.terminal = r.terminal) : Queued r [] r' :=
  ⟨[], h.trans (List.append_nil _).symm, rfl⟩

private theorem queued_noteTerminal (h : r'.terminal = r.terminal) (id : JobId)
    (at_ : VirtualTime) :
    Queued r [id] (r'.noteTerminal id at_) :=
  ⟨[(at_, id)], by rw [noteTerminal, h], rfl⟩

private theorem queued_noteAll (h : r'.terminal = r.terminal) (id : JobId) (ids : List JobId)
    (at_ : VirtualTime) : Queued r (id :: ids) ((r'.noteTerminal id at_).noteAll ids at_) :=
  ⟨(at_, id) :: ids.map fun x => (at_, x), by rw [noteAll, noteTerminal, h, List.append_assoc]; rfl,
    by simp [Function.comp_def]⟩

private theorem queued_noteIf (h : r'.terminal = r.terminal) (state : JobState) (id : JobId)
    (at_ : VirtualTime) :
    Queued r (if state.isTerminal then [id] else []) (r'.noteIf state id at_) := by
  unfold noteIf
  split
  · exact queued_noteTerminal h id at_
  · exact queued_none h

/-- What is in the queue and live is over, and what is over and live is in it, once. -/
structure Retained (r : Roster) : Prop where
  edges : EdgesOpen r.scheduler.deps r.jobs
  noted : ∀ x ∈ r.queue, r.jobs.Issued x ∧
    ∀ job, r.jobs.get x = some job → job.state.isTerminal = true
  once : ∀ x job, r.jobs.get x = some job → r.queue.count x ≤ 1
  complete : ∀ x job, r.jobs.get x = some job → job.state.isTerminal = true → x ∈ r.queue

/-- A change that ends the jobs it adds to the queue, and no others. A handle that is live
afterwards was live before, or is new. -/
structure Ends (r : Roster) (added : List JobId) (r' : Roster) : Prop where
  issued : ∀ x, r.jobs.Issued x → r'.jobs.Issued x
  frame : ∀ x job', r'.jobs.get x = some job' →
    (¬ r.jobs.Issued x ∧ (job'.state.isTerminal = true → x ∈ added)) ∨
      ∃ job, r.jobs.get x = some job ∧
        (x ∉ added → job'.state.isTerminal = job.state.isTerminal)
  queued : Queued r added r'
  nodup : added.Nodup
  ended : ∀ x ∈ added, r'.jobs.Issued x ∧
    (∀ job', r'.jobs.get x = some job' → job'.state.isTerminal = true) ∧
    ∀ job, r.jobs.get x = some job → job.state.isTerminal = false

private theorem Retained.ends (h : Retained r) (he : Ends r added r')
    (hedges : EdgesOpen r'.scheduler.deps r'.jobs) : Retained r' := by
  -- What is added was not in the queue, unless it is gone.
  have hnew : ∀ x ∈ added, ∀ job', r'.jobs.get x = some job' → x ∉ r.queue := by
    intro x hx job' hlive hmem
    obtain ⟨hissued, hover⟩ := h.noted x hmem
    rcases he.frame x job' hlive with ⟨hfresh, -⟩ | ⟨job, hjob, -⟩
    · exact hfresh hissued
    · have hopen := (he.ended x hx).2.2 job hjob
      rw [hover job hjob] at hopen
      exact nomatch hopen
  refine ⟨hedges, fun x hx => ?_, fun x job' hlive => ?_, fun x job' hlive hover => ?_⟩
  · rw [he.queued.queue_eq] at hx
    by_cases hadd : x ∈ added
    · exact ⟨(he.ended x hadd).1, (he.ended x hadd).2.1⟩
    · obtain ⟨hissued, hover⟩ := h.noted x ((List.mem_append.mp hx).resolve_right hadd)
      refine ⟨he.issued x hissued, fun job' hlive => ?_⟩
      rcases he.frame x job' hlive with ⟨hfresh, -⟩ | ⟨job, hjob, hsame⟩
      · exact absurd hissued hfresh
      · rw [hsame hadd]
        exact hover job hjob
  · rw [he.queued.queue_eq, List.count_append]
    by_cases hadd : x ∈ added
    · have hzero := List.count_eq_zero.mpr (hnew x hadd job' hlive)
      have hone := List.nodup_iff_count_le_one.mp he.nodup x
      omega
    · rw [List.count_eq_zero.mpr hadd, Nat.add_zero]
      rcases he.frame x job' hlive with ⟨hfresh, -⟩ | ⟨job, hjob, -⟩
      · rw [List.count_eq_zero.mpr fun hmem => hfresh (h.noted x hmem).1]
        exact Nat.zero_le 1
      · exact h.once x job hjob
  · rw [he.queued.queue_eq, List.mem_append]
    by_cases hadd : x ∈ added
    · exact Or.inr hadd
    · rcases he.frame x job' hlive with ⟨-, hin⟩ | ⟨job, hjob, hsame⟩
      · exact Or.inr (hin hover)
      · rw [hsame hadd] at hover
        exact Or.inl (h.complete x job hjob hover)

/-- Edges after a change that only takes rows away, those of what it ends among them. -/
private theorem Ends.edges {t t' : DependencyTracker} (he : Ends r added r')
    (h : EdgesOpen t r.jobs)
    (hplaced : t'.OwnersPlaced) (hsub : ∀ a, t'.isTracked a = true → t.isTracked a = true ∧
      (r.jobs.Issued a → a ∉ added) ∧
      (t'.rowAt a.slot).dependents = (t.rowAt a.slot).dependents) : EdgesOpen t' r'.jobs := by
  refine ⟨hplaced, fun {a b} ha hab hb => ?_⟩
  obtain ⟨ha, -, hrow⟩ := hsub a ha
  obtain ⟨hb, hadd, -⟩ := hsub b hb
  obtain ⟨hissued, hopen⟩ := h.edge ha (hrow ▸ hab) hb
  refine ⟨he.issued b hissued, fun job' hlive => ?_⟩
  rcases he.frame b job' hlive with ⟨hfresh, -⟩ | ⟨job, hjob, hsame⟩
  · exact absurd hissued hfresh
  · rw [hsame (hadd hissued)]
    exact hopen job hjob

/-- A change that ends what it adds to the queue and leaves the edges right. -/
def Settles (r r' : Roster) : Prop :=
  ∃ added, Ends r added r' ∧ EdgesOpen r'.scheduler.deps r'.jobs

private theorem Retained.settles (h : Retained r) (hs : Settles r r') : Retained r' := by
  obtain ⟨added, hends, hedges⟩ := hs
  exact h.ends hends hedges

private theorem Ends.settles (he : Ends r [] r') (h : EdgesOpen r.scheduler.deps r.jobs)
    (hdeps : r'.scheduler.deps = r.scheduler.deps) : Settles r r' := by
  refine ⟨[], he, ?_⟩
  rw [hdeps]
  exact he.edges h h.placed fun a ha => ⟨ha, fun _ => List.not_mem_nil, rfl⟩

private theorem ends_modify {job' : Job} (hid : r.jobs.get id = some job)
    (hopen : job.state.isTerminal = false) (hopen' : job'.state.isTerminal = false)
    (hjobs : r'.jobs = r.jobs.modify id fun _ => job') (hqueue : r'.terminal = r.terminal) :
    Ends r [] r' := by
  refine ⟨fun x hx => ?_, fun x j hx => ?_, queued_none hqueue, List.nodup_nil,
    fun x hx => nomatch hx⟩
  · rw [hjobs]
    exact Arena.issued_modify.mpr hx
  · right
    rw [hjobs, Arena.get_modify] at hx
    split at hx
    · rename_i heq
      rw [hid] at hx
      obtain rfl := Option.some.inj hx
      exact ⟨job, heq ▸ hid, fun _ => by rw [hopen, hopen']⟩
    · exact ⟨j, hx, fun _ => rfl⟩

private theorem ends_complete (hplaced : r.scheduler.deps.OwnersPlaced)
    (hid : r.jobs.get id = some job)
    (hopen : job.state.isTerminal = false) (hjobs : r'.jobs = (r.book.complete id job).jobs)
    (hqueue : Queued r [id] r') : Ends r [id] r' := by
  have hget : ∀ x, r'.jobs.get x = if x = id then some (job.withState .completed)
      else if x ∈ (r.scheduler.deps.onCompleted id).2 then (r.jobs.get x).map (Job.movedTo .ready)
      else r.jobs.get x := by
    intro x
    rw [hjobs]
    exact @get_complete r.book id job hplaced hid x
  refine ⟨fun x hx => ?_, fun x j hx => ?_, hqueue, List.nodup_singleton _, fun x hx => ?_⟩
  · rw [hjobs]
    exact Arena.issued_modifyAll.mpr (Arena.issued_modify.mpr hx)
  · right
    rw [hget] at hx
    split at hx
    · rename_i heq
      exact ⟨job, heq ▸ hid, fun hnot => absurd (List.mem_singleton.mpr heq) hnot⟩
    · split at hx
      · obtain ⟨j₀, hj₀, rfl⟩ := Option.map_eq_some_iff.mp hx
        refine ⟨j₀, hj₀, fun _ => ?_⟩
        cases hover : j₀.state.isTerminal with
        | false => exact movedTo_not_terminal rfl hover
        | true =>
          have hsame : j₀.movedTo .ready = j₀ := (Continues.movedTo j₀ .ready).2 hover
          rw [hsame, hover]
      · exact ⟨j, hx, fun _ => rfl⟩
  · rw [List.mem_singleton.mp hx]
    have hself : r'.jobs.get id = some (job.withState .completed) := by rw [hget, if_pos rfl]
    refine ⟨Arena.issued_of_get hself, fun j hj => ?_, fun j hj => ?_⟩
    · obtain rfl := Option.some.inj (hself.symm.trans hj)
      rfl
    · obtain rfl := Option.some.inj (hid.symm.trans hj)
      exact hopen

private theorem ends_terminate {next : JobState} (hedges : EdgesOpen r.scheduler.deps r.jobs)
    (hid : r.jobs.get id = some job) (hopen : job.state.isTerminal = false)
    (hnext : next.isTerminal = true) (hjobs : r'.jobs = (r.book.terminate id job next).jobs)
    (hqueue : Queued r (id :: (r.scheduler.deps.onTerminated id).2) r') :
    Ends r (id :: (r.scheduler.deps.onTerminated id).2) r' := by
  have hget : ∀ x, r'.jobs.get x = if x = id then some (job.withState next)
      else if x ∈ (r.scheduler.deps.onTerminated id).2 then
        (r.jobs.get x).map (Job.movedTo .cancelled)
      else r.jobs.get x := by
    intro x
    rw [hjobs]
    exact @get_terminate r.book id job hid next x
  have hself : r'.jobs.get id = some (job.withState next) := by rw [hget, if_pos rfl]
  have hissued : ∀ x, r.jobs.Issued x → r'.jobs.Issued x := by
    intro x hx
    rw [hjobs]
    exact Arena.issued_modifyAll.mpr (Arena.issued_modify.mpr hx)
  refine ⟨hissued, fun x j hx => ?_, hqueue, ?_, fun x hx => ?_⟩
  · right
    rw [hget] at hx
    split at hx
    · rename_i heq
      exact ⟨job, heq ▸ hid, fun hnot => absurd (heq ▸ List.mem_cons_self) hnot⟩
    · split at hx
      · rename_i hmem
        obtain ⟨j₀, hj₀, -⟩ := Option.map_eq_some_iff.mp hx
        exact ⟨j₀, hj₀, fun hnot => absurd (List.mem_cons_of_mem _ hmem) hnot⟩
      · exact ⟨j, hx, fun _ => rfl⟩
  · exact List.nodup_cons.mpr
      ⟨fun hmem => (mem_onTerminated.mp hmem).1 rfl, nodup_onTerminated _ id⟩
  · rcases List.mem_cons.mp hx with rfl | hmem
    · refine ⟨Arena.issued_of_get hself, fun j hj => ?_, fun j hj => ?_⟩
      · obtain rfl := Option.some.inj (hself.symm.trans hj)
        exact hnext
      · obtain rfl := Option.some.inj (hid.symm.trans hj)
        exact hopen
    · obtain ⟨hx, hx'⟩ := hedges.cascade hmem
      refine ⟨hissued x hx, fun j hj => ?_, hx'⟩
      rw [hget, if_neg (mem_onTerminated.mp hmem).1, if_pos hmem] at hj
      obtain ⟨j₀, hj₀, rfl⟩ := Option.map_eq_some_iff.mp hj
      rw [Job.movedTo_of_can (JobState.canTransitionTo_cancelled.mpr (hx' j₀ hj₀))]
      rfl

private theorem ends_submit {jobs : Arena Job} {state : JobState}
    (fresh : r.jobs.insert job = some (jobs, id))
    (hjobs : r'.jobs = jobs.modify id fun _ => job.withState state)
    (hqueue : Queued r (if state.isTerminal then [id] else []) r') :
    Ends r (if state.isTerminal then [id] else []) r' := by
  have hnext := Arena.nextId_of_insert fresh
  have hget : ∀ x, r'.jobs.get x = if x = id then some (job.withState state)
      else r.jobs.get x := by
    intro x
    rw [hjobs, Arena.get_modify, Arena.get_insert fresh, Arena.get_insert fresh, if_pos rfl]
    split
    · rfl
    · rfl
  have hself : r'.jobs.get id = some (job.withState state) := by rw [hget, if_pos rfl]
  refine ⟨fun x hx => ?_, fun x j hx => ?_, hqueue, ?_, fun x hx => ?_⟩
  · rw [hjobs]
    exact Arena.issued_modify.mpr (Arena.issued_insert fresh hx)
  · rw [hget] at hx
    split at hx
    · rename_i heq
      left
      obtain rfl := Option.some.inj hx
      refine ⟨heq ▸ Arena.not_issued_nextId hnext, fun hover => ?_⟩
      have hover : state.isTerminal = true := hover
      rw [if_pos hover, heq]
      exact List.mem_singleton_self id
    · exact Or.inr ⟨j, hx, fun _ => rfl⟩
  · split
    · exact List.nodup_singleton _
    · exact List.nodup_nil
  · split at hx
    · rename_i hover
      rw [List.mem_singleton.mp hx]
      refine ⟨Arena.issued_of_get hself, fun j hj => ?_, fun j hj => ?_⟩
      · obtain rfl := Option.some.inj (hself.symm.trans hj)
        exact hover
      · rw [Arena.get_nextId hnext] at hj
        exact nomatch hj
    · exact nomatch hx

/-- Edges after a registration: the new ones lead to the new job, and what it made tracked is
open. -/
private theorem edges_registered {jobs : Arena Job} {t : DependencyTracker}
    (h : EdgesOpen r.scheduler.deps r.jobs) (fresh : r.jobs.insert job = some (jobs, id))
    (hr : Registered r.scheduler.deps id job jobs t) {next : JobState}
    (hnext : next.isTerminal = false) :
    EdgesOpen t (jobs.modify id fun _ => job.withState next) := by
  have hget : ∀ x, (jobs.modify id fun _ => job.withState next).get x =
      if x = id then some (job.withState next) else r.jobs.get x := by
    intro x
    rw [Arena.get_modify, Arena.get_insert fresh, Arena.get_insert fresh, if_pos rfl]
    split
    · rfl
    · rfl
  have hself : (jobs.modify id fun _ => job.withState next).get id =
      some (job.withState next) := by rw [hget, if_pos rfl]
  -- What was open before, and the job itself, is open now.
  have hid : (jobs.modify id fun _ => job.withState next).Issued id ∧
      ∀ j, (jobs.modify id fun _ => job.withState next).get id = some j →
        j.state.isTerminal = false := by
    refine ⟨Arena.issued_of_get hself, fun j hj => ?_⟩
    obtain rfl := Option.some.inj (hself.symm.trans hj)
    exact hnext
  have hold : ∀ x, r.jobs.Issued x →
      (∀ j, r.jobs.get x = some j → j.state.isTerminal = false) →
      (jobs.modify id fun _ => job.withState next).Issued x ∧
        ∀ j, (jobs.modify id fun _ => job.withState next).get x = some j →
          j.state.isTerminal = false := by
    intro x hx hopen
    have hne : x ≠ id := hx.ne_nextId (Arena.nextId_of_insert fresh)
    refine ⟨Arena.issued_modify.mpr (Arena.issued_insert fresh hx), fun j hj => ?_⟩
    rw [hget, if_neg hne] at hj
    exact hopen j hj
  have hpending : ∀ d, isPending jobs d = true →
      (jobs.modify id fun _ => job.withState next).Issued d ∧
        ∀ j, (jobs.modify id fun _ => job.withState next).get d = some j →
          j.state.isTerminal = false := by
    intro d hp
    obtain ⟨j, hj, hopen⟩ := isPending_iff.mp hp
    by_cases hd : d = id
    · exact hd ▸ hid
    · rw [Arena.get_insert fresh, if_neg hd] at hj
      refine hold d (Arena.issued_of_get hj) fun j' hj' => ?_
      obtain rfl := Option.some.inj (hj.symm.trans hj')
      exact hopen
  have hbase : ∀ d, (r.scheduler.deps.baseRow d).owner = some d := by
    intro d
    unfold baseRow
    split
    · assumption
    · rfl
  have hrows : ∀ i, (i = id.slot) ∨ (∃ d ∈ job.deps, isPending jobs d = true ∧ d.slot = i) ∨
      t.rowAt i = r.scheduler.deps.rowAt i := by
    intro i
    by_cases hi : i = id.slot
    · exact Or.inl hi
    by_cases hd : ∃ d ∈ job.deps, isPending jobs d = true ∧ d.slot = i
    · exact Or.inr (Or.inl hd)
    · exact Or.inr (Or.inr (hr.other i hi fun d hmem hp hs => hd ⟨d, hmem, hp, hs⟩))
  -- An old edge that still counts leads to something open.
  have hedge : ∀ {a b : JobId}, r.scheduler.deps.isTracked a = true →
      b ∈ (r.scheduler.deps.rowAt a.slot).dependents → t.isTracked b = true →
      (jobs.modify id fun _ => job.withState next).Issued b ∧
        ∀ j, (jobs.modify id fun _ => job.withState next).get b = some j →
          j.state.isTerminal = false := by
    intro a b ha hab hb
    rw [isTracked_iff] at hb
    rcases hrows b.slot with hs | ⟨d, hmem, hp, hs⟩ | hsame
    · rw [hs, hr.own] at hb
      exact Option.some.inj hb ▸ hid
    · rw [← hs, hr.pending d hmem hp] at hb
      obtain rfl : d = b := Option.some.inj ((hbase d).symm.trans hb)
      exact hpending d hp
    · rw [hsame] at hb
      obtain ⟨hissued, hopen⟩ := h.edge ha hab (isTracked_iff.mpr hb)
      exact hold b hissued hopen
  refine ⟨fun i y hy => ?_, fun {a b} ha hab hb => ?_⟩
  · rcases hrows i with rfl | ⟨d, hmem, hp, rfl⟩ | hsame
    · rw [hr.own] at hy
      exact congrArg JobId.slot (Option.some.inj hy).symm
    · rw [hr.pending d hmem hp] at hy
      exact congrArg JobId.slot (Option.some.inj ((hbase d).symm.trans hy)).symm
    · exact h.placed i y (hsame ▸ hy)
  · rcases hrows a.slot with hs | ⟨d, hmem, hp, hs⟩ | hsame
    · rw [hs, hr.own] at hab
      cases hab
    · rw [← hs, hr.pending d hmem hp] at hab
      rcases List.mem_append.mp hab with hab | hab
      · by_cases hown : (r.scheduler.deps.rowAt d.slot).owner = some d
        · rw [baseRow, if_pos hown] at hab
          exact hedge (isTracked_iff.mpr hown) hab hb
        · rw [baseRow, if_neg hown] at hab
          cases hab
      · exact (List.eq_of_mem_replicate hab) ▸ hid
    · rw [hsame] at hab
      refine hedge (isTracked_iff.mpr ?_) hab hb
      rw [← hsame]
      exact isTracked_iff.mp ha

/-! Every lifecycle call keeps the queue right, whoever makes it. -/

variable {now : VirtualTime}

private theorem settles_submit {jobs : Arena Job} {state : JobState}
    (h : EdgesOpen r.scheduler.deps r.jobs)
    (fresh : r.jobs.insert job = some (jobs, id))
    (ok : (r.scheduler.submit id jobs now config).result = .ok state) :
    Settles r (({ r with jobs := jobs }.adoptStep (r.scheduler.submit id jobs now config)).noteIf
      state id now) := by
  obtain ⟨_, deps, readiness, hget, -, -, hreg, rfl, hstep⟩ := Scheduler.submit_fresh fresh ok
  have hends := @ends_submit r (({ r with jobs := jobs }.adoptStep
      (r.scheduler.submit id jobs now config)).noteIf (Scheduler.stateOf readiness) id now) id job
    jobs (Scheduler.stateOf readiness) fresh (by rw [jobs_noteIf, adoptStep, hstep])
    (queued_noteIf rfl _ _ _)
  have hdeps : (({ r with jobs := jobs }.adoptStep (r.scheduler.submit id jobs now config)).noteIf
      (Scheduler.stateOf readiness) id now).scheduler.deps = deps := by
    rw [scheduler_noteIf, adoptStep, hstep]
    exact Scheduler.deps_classified ..
  refine ⟨_, hends, ?_⟩
  rw [hdeps]
  rcases (register_spec hreg hget).2 with ⟨rfl, rfl⟩ | ⟨hnc, hregistered⟩
  · refine hends.edges h h.placed fun a ha => ⟨ha, fun hissued hmem => ?_, rfl⟩
    exact hissued.ne_nextId (Arena.nextId_of_insert fresh) (List.mem_singleton.mp hmem)
  · rw [jobs_noteIf, adoptStep, hstep]
    refine edges_registered h fresh hregistered ?_
    cases readiness with
    | ready | blocked => rfl
    | cancelled => exact absurd rfl hnc

private theorem settles_onCompleted {promoted : List JobId} (h : EdgesOpen r.scheduler.deps r.jobs)
    (ok : (r.scheduler.onCompleted id r.jobs now config).result = .ok promoted) :
    Settles r ((r.adoptStep (r.scheduler.onCompleted id r.jobs now config)).noteTerminal id
      now) := by
  obtain ⟨job, hid, hw⟩ := Scheduler.onCompleted_inv ok
  obtain ⟨s', heq, hdeps, -, -⟩ :=
    @Scheduler.onCompleted_ok r.scheduler r.jobs id job now config hid hw
  have hends := @ends_complete r ((r.adoptStep
      (r.scheduler.onCompleted id r.jobs now config)).noteTerminal id now) id job h.placed hid
    (JobState.not_terminal_of_onWorker hw) (by simp only [noteTerminal, adoptStep, heq]; rfl)
    (queued_noteTerminal rfl _ _)
  refine ⟨_, hends, hends.edges h ?_ ?_⟩
  · simp only [noteTerminal, adoptStep, heq, hdeps]
    exact placed_onCompleted h.placed id
  · intro a ha
    simp only [noteTerminal, adoptStep, heq, hdeps] at ha ⊢
    obtain ⟨ha, hne⟩ := (isTracked_onCompleted h.placed).mp ha
    refine ⟨ha, fun _ => mt List.mem_singleton.mp hne, ?_⟩
    rw [rowAt_onCompleted h.placed ha hne]

private theorem settles_terminated {next : JobState} (h : EdgesOpen r.scheduler.deps r.jobs)
    (hid : r.jobs.get id = some job) (hopen : job.state.isTerminal = false)
    (hnext : next.isTerminal = true) (hjobs : r'.jobs = (r.book.terminate id job next).jobs)
    (hdeps : r'.scheduler.deps = (r.scheduler.deps.onTerminated id).1)
    (hqueue : Queued r (id :: (r.scheduler.deps.onTerminated id).2) r') :
    Settles r r' := by
  have hends := ends_terminate h hid hopen hnext hjobs hqueue
  refine ⟨_, hends, hends.edges h ?_ fun a ha => ?_⟩
  · rw [hdeps]
    exact placed_onTerminated h.placed id
  · rw [hdeps] at ha ⊢
    obtain ⟨htracked, hnot⟩ := isTracked_onTerminated.mp ha
    refine ⟨htracked, fun _ hmem => hnot ?_, by rw [rowAt_onTerminated ha]⟩
    rcases List.mem_cons.mp hmem with rfl | hmem
    · exact .root (List.mem_singleton_self a) htracked
    · exact (mem_onTerminated.mp hmem).2

private theorem settles_onFailed {cascade : List JobId} (h : EdgesOpen r.scheduler.deps r.jobs)
    (ok : (r.scheduler.onFailed id r.jobs now config).result = .ok cascade) :
    Settles r (((r.adoptStep (r.scheduler.onFailed id r.jobs now config)).noteTerminal id
      now).noteAll cascade now) := by
  obtain ⟨job, hid, hw⟩ := Scheduler.onFailed_inv ok
  obtain ⟨s', heq, hdeps, -, -⟩ :=
    @Scheduler.onFailed_ok r.scheduler r.jobs id job now config hid hw
  rw [heq] at ok ⊢
  obtain rfl := Except.ok.inj ok
  exact settles_terminated h hid (JobState.not_terminal_of_onWorker hw) rfl rfl hdeps
    (queued_noteAll rfl _ _ _)

private theorem settles_cancel {cascade : List JobId} (h : EdgesOpen r.scheduler.deps r.jobs)
    (ok : (r.scheduler.cancel id r.jobs now config).result = .ok cascade) :
    Settles r (((r.adoptStep (r.scheduler.cancel id r.jobs now config)).noteTerminal id
      now).noteAll cascade now) := by
  obtain ⟨job, hid, hopen⟩ := Scheduler.cancel_inv ok
  obtain ⟨s', heq, hdeps, -, -⟩ :=
    @Scheduler.cancel_ok r.scheduler r.jobs id job now config hid hopen
  rw [heq] at ok ⊢
  obtain rfl := Except.ok.inj ok
  exact settles_terminated h hid hopen rfl rfl hdeps (queued_noteAll rfl _ _ _)

private theorem settles_requeue {u : Unit} (h : EdgesOpen r.scheduler.deps r.jobs)
    (ok : (r.scheduler.requeue id r.jobs now config).result = .ok u) :
    Settles r (r.adoptStep (r.scheduler.requeue id r.jobs now config)) := by
  obtain ⟨job, hid, hq⟩ := Scheduler.requeue_inv ok
  rw [Scheduler.requeue_ok hid hq]
  have hopen := JobState.not_terminal_of_isRequeuable hq
  exact Ends.settles (@ends_modify r _ id job (job.withState .ready) hid hopen rfl rfl rfl) h rfl

private theorem settles_onPreempted {u : Unit} (h : EdgesOpen r.scheduler.deps r.jobs)
    (ok : (r.scheduler.onPreempted id r.jobs now config).result = .ok u) :
    Settles r (r.adoptStep (r.scheduler.onPreempted id r.jobs now config)) := by
  obtain ⟨job, hid, hst⟩ := Scheduler.onPreempted_inv ok
  rw [Scheduler.onPreempted_ok hid hst]
  have hopen : job.state.isTerminal = false := by
    rw [hst]
    rfl
  exact Ends.settles (@ends_modify r _ id job (Scheduler.evictedJob job) hid hopen rfl rfl rfl) h
    rfl

private theorem settles_preempt {u : Unit} (h : EdgesOpen r.scheduler.deps r.jobs)
    (ok : (r.scheduler.preempt id r.jobs).result = .ok u) :
    Settles r (r.adoptStep (r.scheduler.preempt id r.jobs)) := by
  obtain ⟨job, hid, hst⟩ := Scheduler.preempt_inv ok
  rw [Scheduler.preempt_ok hid hst]
  have hopen : job.state.isTerminal = false := by
    rw [hst]
    rfl
  exact Ends.settles (@ends_modify r _ id job (job.withState .preempted) hid hopen rfl rfl rfl) h
    rfl

private theorem settles_restoreRunning {u : Unit} (h : EdgesOpen r.scheduler.deps r.jobs)
    (ok : (r.scheduler.restoreRunning id r.jobs now config).result = .ok u) :
    Settles r (r.adoptStep (r.scheduler.restoreRunning id r.jobs now config)) := by
  obtain ⟨job, hid, hst⟩ := Scheduler.restoreRunning_inv ok
  rw [Scheduler.restoreRunning_ok hid hst]
  have hopen : job.state.isTerminal = false := by
    rw [hst]
    rfl
  exact Ends.settles (@ends_modify r _ id job (job.withState .running) hid hopen rfl rfl rfl) h rfl

private theorem settles_runCycle {inventory : SlotInventory} {running : List RunningJob}
    {cycle : Scheduler.CycleResult} (h : EdgesOpen r.scheduler.deps r.jobs)
    (ran : r.scheduler.runCycle r.jobs inventory running now config [] = some cycle) :
    Settles r { r with scheduler := cycle.scheduler, jobs := cycle.jobs } := by
  obtain ⟨_, -, -, -, hmap⟩ := Scheduler.runCycle_grown ran
  have hover := hmap (f := fun job => job.state.isTerminal) fun job hcan => by
    rw [JobState.not_terminal_of_canTransitionTo hcan]
    rfl
  have hends : Ends r [] { r with scheduler := cycle.scheduler, jobs := cycle.jobs } := by
    refine ⟨fun x hx => ?_, fun x job' hx => Or.inr ?_, queued_none rfl, List.nodup_nil,
      fun x hx => nomatch hx⟩
    · rw [← Arena.issued_map fun job => job.state.isTerminal] at hx ⊢
      rwa [hover]
    · have hsame := congrArg (·.get x) hover
      simp only [Arena.get_map] at hsame
      rw [show cycle.jobs.get x = some job' from hx, Option.map_some] at hsame
      obtain ⟨job, hjob, heq⟩ := Option.map_eq_some_iff.mp hsame.symm
      exact ⟨job, hjob, fun _ => heq.symm⟩
  exact hends.settles h (Scheduler.runCycle_deps ran)

private theorem settles_remove (h : EdgesOpen r.scheduler.deps r.jobs)
    (hwrap : id.generation = Word.maxValue 32 → r.jobs.get id = none) :
    Settles r { r with jobs := (r.jobs.remove id).1 } := by
  have hends : Ends r [] { r with jobs := (r.jobs.remove id).1 } := by
    refine ⟨fun x hx => ?_, fun x job' hx => Or.inr ⟨job', ?_, fun _ => rfl⟩, queued_none rfl,
      List.nodup_nil, fun x hx => nomatch hx⟩
    · by_cases hlast : id.generation = Word.maxValue 32
      · rw [Arena.remove_of_stale (hwrap hlast)]
        exact hx
      · exact Arena.issued_remove hlast hx
    · have hx : (r.jobs.remove id).1.get x = some job' := hx
      rw [Arena.get_remove] at hx
      split at hx
      · exact nomatch hx
      · exact hx
  exact hends.settles h rfl

private theorem Retained.pop {at_ : VirtualTime} {rest : List (VirtualTime × JobId)}
    (h : Retained r)
    (front : r.terminal = (at_, id) :: rest) (gone : r.jobs.get id = none) :
    Retained { r with terminal := rest } := by
  have hqueue : r.queue = id :: ({ r with terminal := rest } : Roster).queue := by
    simp [queue, front]
  refine ⟨h.edges, fun x hx => h.noted x (hqueue ▸ List.mem_cons_of_mem _ hx), fun x job hx => ?_,
    fun x job hx hover => ?_⟩
  · have hone := h.once x job hx
    rw [hqueue] at hone
    exact Nat.le_trans List.count_le_count_cons hone
  · have hmem := h.complete x job hx hover
    rw [hqueue] at hmem
    refine (List.mem_cons.mp hmem).resolve_left fun heq => ?_
    rw [heq, show r.jobs.get id = none from gone] at hx
    exact nomatch hx

/-- Every act of the live engine ends what it adds to the queue, or takes the front off it. -/
private theorem Does.settles {act : Act} (h : EdgesOpen r.scheduler.deps r.jobs)
    (hd : r.Does config act r') : Settles r r' ∨
      ∃ at_ id, r.terminal = (at_, id) :: r'.terminal ∧ r'.jobs = (r.jobs.remove id).1 ∧
        r'.scheduler = r.scheduler ∧ (act = .forgotten id ∨ r.jobs.get id = none) := by
  cases hd with
  | submitted now fresh new unevicted ok => exact Or.inl (settles_submit h fresh ok)
  | dispatched ran => exact Or.inl (settles_runCycle h ran)
  | completed now ok => exact Or.inl (settles_onCompleted h ok)
  | failed now ok => exact Or.inl (settles_onFailed h ok)
  | cancelled now ok => exact Or.inl (settles_cancel h ok)
  | requeued now ok => exact Or.inl (settles_requeue h ok)
  | evicted now ok => exact Or.inl (settles_onPreempted h ok)
  | preempted now ok => exact Or.inl (settles_preempt h ok)
  | forgotten front live => exact Or.inr ⟨_, _, front, rfl, rfl, Or.inl rfl⟩
  | dropped front gone =>
    refine Or.inr ⟨_, _, front, ?_, rfl, Or.inr gone⟩
    rw [Arena.remove_of_stale gone]

private theorem Retained.does {act : Act} (h : Retained r) (hd : r.Does config act r')
    (hwrap : ∀ id, act = .forgotten id → id.generation ≠ Word.maxValue 32) : Retained r' := by
  rcases hd.settles h.edges with hs | ⟨at_, id, front, hjobs, hscheduler, hid⟩
  · exact h.settles hs
  · have hremoved := h.settles (settles_remove h.edges fun hlast =>
      hid.resolve_left fun hact => hwrap id hact hlast)
    have hgone : (r.jobs.remove id).1.get id = none := by rw [Arena.get_remove, if_pos rfl]
    have hpopped := hremoved.pop front hgone
    rw [← hjobs, ← hscheduler] at hpopped
    exact hpopped

/-! Replay and snapshots. -/

/-- A removal after which the slot would issue its first handle again. -/
def Wraps (r : Roster) : Record → Prop
  | .forgotten id => id.generation = Word.maxValue 32 ∧ r.jobs.get id ≠ none
  | _ => False

/-- No record of a tail is such a removal where it is replayed. -/
def NeverWraps (config : CycleConfig) : List Record → Roster → Prop
  | [], _ => True
  | record :: rest, r => ¬ r.Wraps record ∧
    ∀ r', r.applyRecord config record = some (.ok r') → NeverWraps config rest r'

private theorem settles_applyRecord {record : Record} (h : EdgesOpen r.scheduler.deps r.jobs)
    (hwrap : ¬ r.Wraps record) (hok : r.applyRecord config record = some (.ok r')) :
    Settles r r' := by
  cases record with
  | submitted id job =>
    simp only [applyRecord, Option.bind_eq_bind, Option.bind_eq_some_iff] at hok
    obtain ⟨next, hnext, hok⟩ := hok
    split at hok
    · cases hok
    · rename_i heq
      obtain rfl : next = id := not_not.mp heq
      obtain ⟨⟨jobs, id⟩, hinsert, hok⟩ := Option.bind_eq_some_iff.mp hok
      obtain rfl : id = next := Option.some.inj ((Arena.nextId_of_insert hinsert).symm.trans hnext)
      obtain ⟨state, hsubmit, rfl⟩ := replayed_eq_ok (Option.some.inj hok)
      exact settles_submit h hinsert hsubmit
  | dispatched id at_ =>
    obtain ⟨u, hstep, rfl⟩ := replayed_eq_ok (Option.some.inj hok)
    exact settles_restoreRunning h hstep
  | completed id at_ =>
    obtain ⟨promoted, hstep, rfl⟩ := replayed_eq_ok (Option.some.inj hok)
    exact settles_onCompleted h hstep
  | failed id at_ =>
    obtain ⟨cascade, hstep, rfl⟩ := replayed_eq_ok (Option.some.inj hok)
    exact settles_onFailed h hstep
  | cancelled id at_ =>
    obtain ⟨cascade, hstep, rfl⟩ := replayed_eq_ok (Option.some.inj hok)
    exact settles_cancel h hstep
  | requeued id at_ =>
    obtain ⟨u, hstep, rfl⟩ := replayed_eq_ok (Option.some.inj hok)
    exact settles_requeue h hstep
  | preempted id at_ =>
    obtain ⟨u, hstep, rfl⟩ := replayed_eq_ok (Option.some.inj hok)
    exact settles_preempt h hstep
  | forgotten id =>
    obtain rfl := Except.ok.inj (Option.some.inj hok)
    exact settles_remove h fun hlast => not_not.mp fun hlive => hwrap ⟨hlast, hlive⟩

private theorem Retained.applyEach {records : List Record} :
    ∀ {r : Roster} {latest latest' : VirtualTime}, Retained r → NeverWraps config records r →
      applyEach config records r latest = some (.ok (r', latest')) → Retained r' := by
  induction records with
  | nil =>
    intro r latest latest' h _ hok
    obtain ⟨rfl, -⟩ := Prod.mk.inj (Except.ok.inj (Option.some.inj hok))
    exact h
  | cons record records ih =>
    intro r latest latest' h hwrap hok
    obtain ⟨r₁, latest₁, hhead, htail⟩ := applyEach_cons hok
    exact ih (h.settles (settles_applyRecord h.edges hwrap.1 hhead)) (hwrap.2 r₁ hhead) htail

/-- Half way through a loaded arena: what is over is in the queue or still to come, and nothing is
in both or twice in one. -/
structure Listed (r : Roster) (rest : List JobId) : Prop where
  complete : ∀ x job, r.jobs.get x = some job → job.state.isTerminal = true →
    x ∈ r.queue ++ rest
  nodup : (r.queue ++ rest).Nodup

private theorem Listed.note {rest : List JobId} (h : Listed r (id :: rest)) (at_ : VirtualTime) :
    Listed (r.noteTerminal id at_) rest := by
  have hqueue : (r.noteTerminal id at_).queue ++ rest = r.queue ++ id :: rest := by
    rw [(queued_noteTerminal rfl id at_ : Queued r [id] _).queue_eq, List.append_assoc]
    rfl
  refine ⟨fun x job hx hover => ?_, hqueue ▸ h.nodup⟩
  rw [hqueue]
  exact h.complete x job hx hover

private theorem Listed.pass {rest : List JobId} (h : Listed r (id :: rest))
    (hopen : ∀ job, r.jobs.get id = some job → job.state.isTerminal = false) : Listed r rest := by
  refine ⟨fun x job hx hover => ?_, h.nodup.sublist ?_⟩
  · rcases List.mem_append.mp (h.complete x job hx hover) with hmem | hmem
    · exact List.mem_append_left _ hmem
    · refine List.mem_append_right _ ((List.mem_cons.mp hmem).resolve_left fun heq => ?_)
      rw [hopen job (heq ▸ hx)] at hover
      exact nomatch hover
  · exact (List.sublist_cons_self id rest).append_left r.queue

private theorem Listed.step {rest : List JobId} {at_ : VirtualTime} {state : JobState}
    (h : Listed r (id :: rest))
    (hok : (r.scheduler.submit id r.jobs at_ config).result = .ok state) :
    Listed ((r.adoptStep (r.scheduler.submit id r.jobs at_ config)).noteIf state id at_) rest := by
  obtain ⟨job, fairshare, deps, readiness, hid, hst, hf, hreg, rfl⟩ := Scheduler.submit_inv hok
  have hstep := @Scheduler.submit_ok r.scheduler r.jobs id job at_ config deps readiness fairshare
    hid hst hf hreg
  -- Only the job itself changes, and it is next in the list anyway.
  have hlisted : Listed (r.adoptStep (r.scheduler.submit id r.jobs at_ config)) (id :: rest) := by
    refine ⟨fun x j hx hover => ?_, h.nodup⟩
    rw [adoptStep, hstep] at hx
    rw [Arena.get_modify] at hx
    split at hx
    · rename_i heq
      rw [heq]
      exact List.mem_append_right _ List.mem_cons_self
    · exact h.complete x j hx hover
  unfold noteIf
  split
  · exact hlisted.note at_
  · rename_i hover
    refine hlisted.pass fun j hj => ?_
    rw [adoptStep, hstep] at hj
    rw [Arena.get_modify_self, hid] at hj
    obtain rfl := Option.some.inj hj
    exact Bool.eq_false_iff.mpr hover

private theorem Listed.submitEach {at_ : VirtualTime} {rest : List (JobId × JobState)} :
    ∀ {r : Roster}, Listed r (rest.map Prod.fst) → submitEach config at_ rest r = .ok r' →
      Listed r' [] := by
  induction rest with
  | nil =>
    intro r h hok
    exact Except.ok.inj hok ▸ h
  | cons p rest ih =>
    intro r h hok
    obtain ⟨id, state⟩ := p
    unfold Roster.submitEach at hok
    split at hok
    · exact ih (h.note at_) hok
    · dsimp only at hok
      split at hok
      · exact nomatch hok
      · rename_i state' hresult
        exact ih (h.step hresult) hok

private theorem Retained.restoreRunningEach {at_ : VirtualTime} {ids : List JobId} : ∀ {r : Roster},
    Retained r → restoreRunningEach config at_ ids r = .ok r' → Retained r' := by
  induction ids with
  | nil =>
    intro r h hok
    exact Except.ok.inj hok ▸ h
  | cons id ids ih =>
    intro r h hok
    unfold Roster.restoreRunningEach at hok
    dsimp only at hok
    split at hok
    · exact nomatch hok
    · rename_i u hresult
      exact ih (h.settles (settles_restoreRunning h.edges hresult)) hok

private theorem Retained.requeues {now : VirtualTime} {wanted : Job → Bool} {ids : List JobId}
    {acts : List Act} (h : Requeues config now wanted r ids acts r') :
    Retained r → Retained r' := by
  induction h with
  | nil => exact id
  | done live want hd rest ih =>
    intro h
    cases hd with
    | requeued _ ok => exact ih (h.settles (settles_requeue h.edges ok))
  | skipped no rest ih => exact ih

private theorem retained_of_restoreSnapshot {snapshot : Snapshot} {at_ : VirtualTime}
    (hready : r.scheduler.ready = ReadySet.new) (hdeps : r.scheduler.deps = DependencyTracker.new)
    (haccounts : r.scheduler.fairshare.ledgers.length ≤ maxAccounts) (hqueue : r.terminal = [])
    (hlen : snapshot.slots.length ≤ 2 ^ 32)
    (h : r.restoreSnapshot config snapshot = .ok (r', at_)) : Retained r' := by
  obtain ⟨jobs, r₁, r₂, scheduler, hparts, hsubmit, hrunning, hledgers, rfl, -⟩ :=
    restoreSnapshot_eq_ok.mp h
  have hload := loading_start hlen hparts hready hdeps haccounts
  rw [← hqueue] at hload
  have hsane := hload.submitEach hsubmit
  have hnone : ({ r with jobs := jobs } : Roster).queue = [] := by simp [queue, hqueue]
  have hlisted : Listed r₁ [] := by
    refine Listed.submitEach ⟨fun x job hx _ => ?_, ?_⟩ hsubmit
    · rw [hnone, List.nil_append, List.map_map]
      have hmem := (Arena.mem_iter hload.wf.bound).mpr hx
      exact List.mem_map.mpr ⟨(x, job), hmem, rfl⟩
    · rw [hnone, List.nil_append]
      exact hload.nodup
  have hretained : Retained r₁ := by
    refine ⟨.of_sound hsane.valid.sound, fun x hx => ?_, fun x job _ => ?_,
      fun x job hx hover => ?_⟩
    · obtain ⟨p, hp, rfl⟩ := List.mem_map.mp hx
      exact hsane.noted p hp
    · have hnodup := hlisted.nodup
      rw [List.append_nil] at hnodup
      exact List.nodup_iff_count_le_one.mp hnodup x
    · have hmem := hlisted.complete x job hx hover
      rwa [List.append_nil] at hmem
  have h₂ := hretained.restoreRunningEach hrunning
  obtain ⟨-, -, hdeps', -⟩ := restoreLedgers_eq_ok hledgers
  exact ⟨hdeps' ▸ h₂.edges, h₂.noted, h₂.once, h₂.complete⟩

/-- `x` is over and waits behind entries of `ahead` only, or is gone for good. -/
structure Waits (ahead : List (VirtualTime × JobId)) (x : JobId) (r : Roster) : Prop where
  issued : r.jobs.Issued x
  waiting : ∀ job, r.jobs.get x = some job → job.state.isTerminal = true ∧
    ∃ front back, r.terminal = front ++ back ∧ x ∈ front.map (·.2) ∧ ∀ p ∈ front, p ∈ ahead

private theorem Retained.waits {x : JobId} (h : Retained r) (hx : r.jobs.get x = some job)
    (hover : job.state.isTerminal = true) : Waits r.terminal x r := by
  refine ⟨Arena.issued_of_get hx, fun job' hx' => ?_⟩
  obtain rfl := Option.some.inj (hx.symm.trans hx')
  exact ⟨hover, r.terminal, [], (List.append_nil _).symm, h.complete x job hx hover, fun p hp => hp⟩

private theorem Waits.does {ahead : List (VirtualTime × JobId)} {x : JobId} {act : Act}
    (hw : Waits ahead x r) (h : Retained r) (hd : r.Does config act r')
    (hwrap : ∀ id, act = .forgotten id → id.generation ≠ Word.maxValue 32) :
    Waits ahead x r' := by
  rcases hd.settles h.edges with ⟨added, hends, -⟩ | ⟨at_, id, hfront, hjobs, -, hid⟩
  · refine ⟨hends.issued x hw.issued, fun job' hx' => ?_⟩
    rcases hends.frame x job' hx' with ⟨hfresh, -⟩ | ⟨job, hx, hsame⟩
    · exact absurd hw.issued hfresh
    obtain ⟨hover, front, back, hterminal, hmem, hahead⟩ := hw.waiting job hx
    have hnot : x ∉ added := by
      intro hadd
      rw [(hends.ended x hadd).2.2 job hx] at hover
      exact nomatch hover
    obtain ⟨new, hnew, -⟩ := hends.queued
    refine ⟨(hsame hnot).trans hover, front, back ++ new, ?_, hmem, hahead⟩
    rw [hnew, hterminal, List.append_assoc]
  · have hissued : r'.jobs.Issued x := by
      rw [hjobs]
      rcases hid with hact | hgone
      · exact Arena.issued_remove (hwrap id hact) hw.issued
      · rw [Arena.remove_of_stale hgone]
        exact hw.issued
    refine ⟨hissued, fun job' hx' => ?_⟩
    rw [hjobs, Arena.get_remove] at hx'
    split at hx'
    · exact nomatch hx'
    rename_i hne
    obtain ⟨hover, front, back, hterminal, hmem, hahead⟩ := hw.waiting job' hx'
    rw [hfront] at hterminal
    cases front with
    | nil => exact nomatch hmem
    | cons p front =>
      obtain ⟨rfl, hrest⟩ := List.cons.inj hterminal
      refine ⟨hover, front, back, hrest, ?_, fun p hp => hahead p (List.mem_cons_of_mem _ hp)⟩
      exact (List.mem_cons.mp hmem).resolve_left hne

private theorem Does.live {x : JobId} {act : Act} (hd : r.Does config act r')
    (hx : r.jobs.get x = some job) (hne : act ≠ .forgotten x) :
    ∃ job', r'.jobs.get x = some job' := by
  have hcore := hd.get_core x
  rw [hx, Option.map_some] at hcore
  have hsome : ∃ core', (r'.jobs.get x).map core = some core' := by
    rw [hcore]
    cases act with
    | submitted id new =>
      simp only [Act.leaves]
      split
      · exact ⟨_, rfl⟩
      · exact ⟨_, rfl⟩
    | forgotten id =>
      have hother : x ≠ id := fun heq => hne (by rw [heq])
      simp only [Act.leaves, if_neg hother]
      exact ⟨_, rfl⟩
    | _ => exact ⟨_, rfl⟩
  obtain ⟨core', hcore'⟩ := hsome
  obtain ⟨job', hjob', -⟩ := Option.map_eq_some_iff.mp hcore'
  exact ⟨job', hjob'⟩

private theorem forgotten_of_chain {x : JobId} {acts : List Act}
    (h : Chain (Does config) r acts r') : ∀ {job : Job}, r.jobs.get x = some job →
      r'.jobs.get x = none → .forgotten x ∈ acts := by
  induction h with
  | nil =>
    intro job hx hgone
    rw [hx] at hgone
    exact nomatch hgone
  | @cons r₁ r₂ r₃ act acts head tail ih =>
    intro job hx hgone
    by_cases hact : act = .forgotten x
    · exact hact ▸ List.mem_cons_self
    · obtain ⟨job', hx'⟩ := head.live hx hact
      exact List.mem_cons_of_mem _ (ih hx' hgone)

end Roster

namespace Engine

variable {e e₁ e₂ : Engine} {input : Input} {inputs : List Input} {events : List Event}

def UnwrappedDoes (config : CycleConfig) (r : Roster) (act : Act) (r' : Roster) : Prop :=
  r.Does config act r' ∧ ∀ id, act = .forgotten id → id.generation ≠ Word.maxValue 32

private theorem Turns.unwrappedDoes (h : Turns e input events e₁) (hw : e.NoWrap input) :
    Chain (UnwrappedDoes e.cycle) e.toRoster (events.flatMap Event.acts) e₁.toRoster := by
  have hchain := h.chain.imp fun c ev c' hmem ht =>
    (⟨ht, h.unwrapped hw ev hmem⟩ : c.Takes e.cycle ev c' ∧
      ∀ id, ev = .acted (.forgotten id) → id.generation ≠ Word.maxValue 32)
  refine (hchain.simulate (P := fun _ => True) (fun c ev c' ht _ => ⟨trivial, ?_⟩) trivial).2
  refine ht.1.does.imp fun r act r' hmem hd => ⟨hd, fun id hact => ?_⟩
  rcases ht.1.act_cases hmem with hevent | ⟨_, _, heq⟩
  · exact ht.2 id (hact ▸ hevent)
  · rw [hact] at heq
    exact nomatch heq

private theorem Turns.removed (h : Turns e input events e₁) {x : JobId} {job : Job}
    (hx : e.jobs.get x = some job) (hgone : e₁.jobs.get x = none) :
    ∃ now outbox room, input = .tick now outbox room ∧ x ∈ e.expired now := by
  have hmem := Roster.forgotten_of_chain h.does hx hgone
  obtain ⟨ev, hev, hact⟩ := List.mem_flatMap.mp hmem
  obtain ⟨c, c', ht⟩ := h.chain.mem hev
  have hevent : ev = .acted (.forgotten x) := by
    rcases ht.act_cases hact with hevent | ⟨_, _, heq⟩
    · exact hevent
    · exact nomatch heq
  have hcause := h.cause ev hev
  rw [hevent] at hcause
  cases input with
  | command => exact absurd hcause not_false
  | tick now outbox room => exact ⟨now, outbox, room, rfl, hcause.2 x rfl⟩
  | quiesce => exact absurd hcause not_false

private theorem mem_queue_of_expired {now : VirtualTime} {x : JobId} (h : x ∈ e.expired now) :
    x ∈ e.toRoster.queue := by
  obtain ⟨p, hp, rfl⟩ := List.mem_map.mp h
  exact List.mem_map_of_mem (( List.takeWhile_prefix _).subset hp)

/-- No removal of the tail is the last its slot can take. -/
def TailUnwrapped (config : DaemonConfig) (recovered : Recovered) (journal : Journal) : Prop :=
  match recovered.snapshot with
  | none => Roster.NeverWraps config.cycle recovered.records (withJournal config journal).toRoster
  | some snapshot => ∀ r at_,
    (withJournal config journal).toRoster.restoreSnapshot config.cycle snapshot = .ok (r, at_) →
      Roster.NeverWraps config.cycle recovered.records r

private theorem retained_build (config : DaemonConfig) (journal : Option Journal) :
    (build config journal).toRoster.Retained := by
  have hs := (sane_build config journal).roster
  have hnone : ∀ x job, (build config journal).jobs.get x ≠ some job := fun x job hx => nomatch hx
  exact ⟨.of_sound hs.valid.sound, by simp [Roster.queue, build], fun x job hx =>
    absurd hx (hnone x job), fun x job hx => absurd hx (hnone x job)⟩

section

variable [Crc32]

/-- An engine as the daemon opens it: fresh, or recovered from whatever is on disk. -/
inductive Opens : Engine → Prop where
  | fresh (config : DaemonConfig) (journal : Option Journal) : Opens (build config journal)
  | recovered {files files' : Directory} {recovered : Recovered} {config : DaemonConfig}
      {journal : Journal} {e : Engine} (found : Store.recover files = .ok (recovered, files'))
      (unwrapped : TailUnwrapped config recovered journal)
      (ok : recover config recovered journal = some (.ok e)) : Opens e

private theorem Opens.retained (h : e.Opens) : e.toRoster.Retained := by
  cases h with
  | fresh config journal => exact retained_build config journal
  | @recovered files files' recovered config journal e found unwrapped ok =>
    obtain ⟨r, latest, c, hreload, hsettle, rfl, -⟩ := recover_eq_ok ok
    have hbuild := (sane_build config (some journal)).roster
    have hroster : r.Retained := by
      unfold Roster.reload at hreload
      unfold TailUnwrapped at unwrapped
      cases hsnap : recovered.snapshot with
      | none =>
        rw [hsnap] at hreload unwrapped
        exact (retained_build config (some journal)).applyEach unwrapped hreload
      | some snapshot =>
        rw [hsnap] at hreload unwrapped
        dsimp only at hreload unwrapped
        split at hreload
        · exact nomatch hreload
        · rename_i r₀ at_ hrestore
          obtain ⟨hready, hdeps, -, -⟩ := withShares_spec config.shares Scheduler.new
          have h₀ := Roster.retained_of_restoreSnapshot hready hdeps hbuild.kept.accounts rfl
            (Nat.le_of_lt (slots_of_recover found hsnap)) hrestore
          exact h₀.applyEach (unwrapped _ _ hrestore) hreload
    obtain ⟨r', hrequeue, heq⟩ := Core.settle_eq_ok.mp hsettle
    rw [heq]
    exact .requeues (Roster.requeueEvicting_requeues hrequeue) hroster

private theorem SafeSteps.retained (h : e.SafeSteps input e₁) (hr : e.toRoster.Retained) :
    e₁.toRoster.Retained := by
  obtain ⟨events, hturns⟩ := h.1.turns
  exact (hturns.unwrappedDoes h.2).keeps (P := Roster.Retained)
    (fun _ _ _ hd hr => hr.does hd.1 hd.2) hr

private theorem SafeSteps.waits {ahead : List (VirtualTime × JobId)} {x : JobId}
    (h : e.SafeSteps input e₁) (hr : e.toRoster.Retained) (hw : e.toRoster.Waits ahead x) :
    e₁.toRoster.Waits ahead x := by
  obtain ⟨events, hturns⟩ := h.1.turns
  refine ((hturns.unwrappedDoes h.2).keeps
    (P := fun r => r.Retained ∧ r.Waits ahead x) (fun _ _ _ hd hp => ?_) ⟨hr, hw⟩).2
  exact ⟨hp.1.does hd.1 hd.2, hp.2.does hp.1 hd.1 hd.2⟩

private theorem tick_forgets {ahead : List (VirtualTime × JobId)} {x : JobId} {now : VirtualTime}
    {outbox : Outbox} {room : Bool} (h : e.SafeSteps (.tick now outbox room) e₁)
    (hr : e.toRoster.Retained) (hw : e.toRoster.Waits ahead x)
    (hdue : ∀ p ∈ ahead, e.retain ≤ Word.saturatingSub now p.1) : e₁.jobs.get x = none := by
  cases hx : e₁.jobs.get x with
  | none => rfl
  | some job =>
    -- It still waits behind something due, which the tick would have taken off.
    obtain ⟨-, front, back, hterminal, hmem, hahead⟩ := (h.waits hr hw).waiting job hx
    obtain ⟨⟨host, outcome⟩, htick, rfl⟩ := Option.map_eq_some_iff.mp h.1
    have hqueue := Host.tick_terminal htick
    cases front with
    | nil => exact nomatch hmem
    | cons p front =>
      have hlater := List.head?_dropWhile_not
        (fun p => !decide (Word.saturatingSub now p.1 < e.retain)) e.terminal
      rw [← hqueue, hterminal, List.cons_append, List.head?_cons] at hlater
      have hlt : Word.saturatingSub now p.1 < e.retain := by simpa using hlater
      exact absurd hlt (Nat.not_lt.mpr (hdue p (hahead p List.mem_cons_self)))

private theorem retain_of_run (h : Chain SafeSteps e inputs e₁) : e₁.retain = e.retain := by
  induction h with
  | nil => rfl
  | cons head _ ih =>
    obtain ⟨events, hturns⟩ := head.1.turns
    exact ih.trans hturns.retain

/-- Retention forgets exactly what is over: the live jobs of the queue are those that are over,
each once; a turn takes nothing else out of the arena; and a job that is over is gone after the
first tick for which everything queued by then is due. -/
theorem retention_forgets_what_is_over {start : Engine} (hstart : start.Opens)
    (hrun : Chain SafeSteps start inputs e) :
    (∀ x, (x ∈ e.toRoster.queue ∧ ∃ job, e.jobs.get x = some job) ↔
      ∃ job, e.jobs.get x = some job ∧ job.state.isTerminal = true) ∧
    (∀ x job, e.jobs.get x = some job → job.state.isTerminal = true →
      e.toRoster.queue.count x = 1) ∧
    (∀ input e₁, e.Steps input e₁ → ∀ x job, e.jobs.get x = some job →
      e₁.jobs.get x = none → job.state.isTerminal = true) ∧
    ∀ x job, e.jobs.get x = some job → job.state.isTerminal = true →
      ∀ more e₁ now outbox room e₂, Chain SafeSteps e more e₁ →
        e₁.SafeSteps (.tick now outbox room) e₂ →
        (∀ p ∈ e.terminal, e.retain ≤ Word.saturatingSub now p.1) → e₂.jobs.get x = none := by
  have hr : e.toRoster.Retained := hrun.keeps (P := fun e => e.toRoster.Retained)
    (fun _ _ _ hstep hr => SafeSteps.retained hstep hr) hstart.retained
  refine ⟨fun x => ⟨fun ⟨hmem, job, hx⟩ => ?_, fun ⟨job, hx, hover⟩ => ?_⟩,
    fun x job hx hover => ?_, fun input e₁ hstep x job hx hgone => ?_,
    fun x job hx hover more e₁ now outbox room e₂ hmore htick hdue => ?_⟩
  · exact ⟨job, hx, (hr.noted x hmem).2 job hx⟩
  · exact ⟨hr.complete x job hx hover, job, hx⟩
  · have hone := hr.once x job hx
    have hpos := List.count_pos_iff.mpr (hr.complete x job hx hover)
    omega
  · obtain ⟨events, hturns⟩ := hstep.turns
    obtain ⟨now, outbox, room, -, hmem⟩ := hturns.removed hx hgone
    exact (hr.noted x (mem_queue_of_expired hmem)).2 job hx
  · obtain ⟨hr₁, hw₁⟩ := hmore.keeps
      (P := fun e₁ => e₁.toRoster.Retained ∧ e₁.toRoster.Waits e.terminal x)
      (fun _ _ _ hstep hp => ⟨hstep.retained hp.1, hstep.waits hp.1 hp.2⟩) ⟨hr, hr.waits hx hover⟩
    refine tick_forgets htick hr₁ hw₁ fun p hp => ?_
    rw [retain_of_run hmore]
    exact hdue p hp

end

/-- Two jobs, the second waiting for the first, and the first is cancelled. -/
def doomedInputs : List Input :=
  [(sampleSubmit .normal 1 []).sent 0, (sampleSubmit .normal 1 [⟨0⟩]).sent 1,
    (Command.cancel ⟨0⟩ 0).sent 2]

attribute [local instance] Crc32.ieee

theorem retention_forgets_sample : ∃ e e₁, safeRun (Engine.new sampleDaemon)
    doomedInputs = some e ∧ SafeSteps e (tickAt 3) e₁ ∧
    e.toRoster.queue.count ⟨1⟩ = 1 ∧ e₁.jobs.get ⟨1⟩ = none := by
  have hlook : (safeRun (Engine.new sampleDaemon) doomedInputs).any (fun e =>
      (e.jobs.get ⟨1⟩).any (fun job => job.state.isTerminal) && decide (e.NoWrap (tickAt 3)) &&
      decide (∀ p ∈ e.terminal, e.retain ≤ Word.saturatingSub 3 p.1) &&
      (step e (tickAt 3)).isSome) = true := by
    decide +kernel
  obtain ⟨e, hrun, hlook⟩ := (Option.any_eq_true _ _).mp hlook
  simp only [Bool.and_eq_true, Option.any_eq_true, decide_eq_true_eq,
    Option.isSome_iff_exists] at hlook
  obtain ⟨⟨⟨⟨job, hget, hover⟩, hwrap⟩, hdue⟩, e₁, hstep⟩ := hlook
  have hchain := chain_of_safeRun hrun
  obtain ⟨-, honce, -, hforgets⟩ := @retention_forgets_what_is_over e doomedInputs Crc32.ieee
    (Engine.new sampleDaemon) (@Opens.fresh Crc32.ieee sampleDaemon none) hchain
  exact ⟨e, e₁, hrun, ⟨hstep, hwrap⟩, honce ⟨1⟩ job hget hover,
    hforgets ⟨1⟩ job hget hover [] e 3 _ _ e₁ (.nil e) ⟨hstep, hwrap⟩ hdue⟩

end Engine

end TaskerRT.Daemon
