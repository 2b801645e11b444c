/- module: TaskerRT/Daemon/Followed
   source: crates/taskerd/src/engine.rs (apply, recover)
   digest: A replayed book follows the live one record by record, whatever index it starts with. -/

import TaskerRT.Daemon.Reloaded
import TaskerRT.Daemon.Replay

set_option autoImplicit false

namespace TaskerRT.Scheduling.Book

open Library Domain Cluster Policy Wal DependencyTracker Daemon

variable {b b' b₁ b₁' : Book} {record : Record} {records : List Record} {x y id : JobId}
  {job : Job}

/-- In a settled book, who is promoted can be read off the arena: the blocked jobs with nothing
else left to wait for. -/
private theorem Settled.mem_promoted (hs : Settled b) (hid : b.jobs.get id = some job)
    (hopen : job.state.isTerminal = false) :
    x ∈ (b.deps.onCompleted id).2 ↔ ∃ j, b.jobs.get x = some j ∧ j.state = .blocked ∧
      id ∈ j.deps ∧ ∀ d ∈ j.deps, isPending b.jobs d = true → d = id := by
  have hpid : isPending b.jobs id = true := isPending_iff.mpr ⟨job, hid, hopen⟩
  -- Both sides compare the entries still pending with those that name `id`.
  have hcount : ∀ {j : Job}, b.jobs.get x = some j → j.state = .blocked →
      (b.deps.dependentsOf id).count x = j.deps.count id := by
    intro j hj hst
    by_cases hmem : id ∈ j.deps
    · rw [dependentsOf, if_pos (hs.exact_.edge hj hst hmem hpid).1]
      exact hs.exact_.count_eq hs.valid.sound hj hst hmem hpid
    · have hle := hs.valid.sound.count_dependentsOf_le hj (a := id)
      rw [List.count_eq_zero_of_not_mem hmem] at hle ⊢
      omega
  rw [mem_onCompleted hs.valid.sound.placed]
  constructor
  · rintro ⟨htracked, hpos, hle⟩
    have hmem : x ∈ (b.deps.onCompleted id).2 :=
      (mem_onCompleted hs.valid.sound.placed).mpr ⟨htracked, hpos, hle⟩
    obtain ⟨j, hj, hst⟩ := hs.valid.sound.promoted_blocked hid hmem
    rw [hs.exact_.unsatisfied_eq hs.valid.sound hj hst] at hpos hle
    rw [hcount hj hst] at hle
    refine ⟨j, hj, hst, List.count_pos_iff.mp (by omega), fun d hd hp => ?_⟩
    by_contra hne
    have hlt : j.deps.count id < pendingCount b.jobs j.deps := by
      refine countP_lt_countP (fun a _ ha => ?_) hd hp (by simpa using hne)
      rw [beq_iff_eq.mp ha]
      exact hpid
    omega
  · rintro ⟨j, hj, hst, hmem, honly⟩
    have hle : pendingCount b.jobs j.deps ≤ j.deps.count id := by
      unfold pendingCount List.count
      rw [← List.countP_congr (p := fun a => isPending b.jobs a && true)]
      · refine List.countP_mono_left fun a ha hp => ?_
        rw [Bool.and_true] at hp
        simpa using honly a ha hp
      · simp
    refine ⟨hs.valid.sound.blocked_tracked hj hst, ?_, ?_⟩
    · rw [hs.exact_.unsatisfied_eq hs.valid.sound hj hst]
      exact hs.exact_.waits hj hst
    · rw [hs.exact_.unsatisfied_eq hs.valid.sound hj hst, hcount hj hst]
      exact hle

/-- In a settled book, a cascade is what is open and depends on its cause, however indirectly. -/
private theorem Settled.mem_cascade (hs : Settled b) (hid : b.jobs.get id = some job)
    (hopen : job.state.isTerminal = false) :
    x ∈ (b.deps.onTerminated id).2 ↔ x ≠ id ∧ ∃ j, b.jobs.get x = some j ∧
      j.state.isTerminal = false ∧ Relation.TransGen (DependsOn b.jobs) x id := by
  rw [mem_onTerminated]
  refine and_congr_right fun hne => ⟨fun hreach => ?_, ?_⟩
  · obtain ⟨j, hj, hst⟩ := (hs.valid.sound.reach_blocked hid hreach).resolve_left hne
    refine ⟨j, hj, by rw [hst]; rfl, ?_⟩
    -- Every edge of the cascade is a listed dependency.
    have hpath : x = id ∨ Relation.TransGen (DependsOn b.jobs) x id := by
      clear hne hj hst
      induction hreach with
      | root hv _ => exact Or.inl (List.mem_singleton.mp hv)
      | @edge v w hv hw ht ih =>
        right
        obtain ⟨jv, hjv⟩ : ∃ jv, b.jobs.get v = some jv := by
          rcases hs.valid.sound.reach_blocked hid hv with rfl | ⟨jv, hjv, -⟩
          · exact ⟨job, hid⟩
          · exact ⟨jv, hjv⟩
        obtain ⟨jw, hjw, -⟩ := hs.valid.sound.edge_blocked hv.tracked hjv hw ht
        have hdep : DependsOn b.jobs w v :=
          ⟨jw, hjw, hs.valid.sound.mem_deps_of_edge hv.tracked hjw hw⟩
        rcases ih with rfl | hpath
        · exact .single hdep
        · exact .head hdep hpath
    exact hpath.resolve_left hne
  · rintro ⟨j, hj, hnt, hpath⟩
    exact (hs.reach (isPending_iff.mpr ⟨job, hid, hopen⟩) hpath j hj hnt).2

/-! A book that replays another one. -/

/-- How replay sees a live job: one that was in its grace when the snapshot was taken queues. -/
def seen (grace : List JobId) (x : JobId) (job : Job) : Job :=
  if x ∈ grace then resumed job else job

/-- `b'` holds what `b` holds, with the jobs that were in their grace queued instead, and up to
eviction counts. Its dependency index is its own. -/
structure Follows (grace : List JobId) (b b' : Book) : Prop where
  outline : (b'.jobs.map fun _ => PUnit.unit) = b.jobs.map fun _ => PUnit.unit
  get : ∀ x, (b'.jobs.get x).map uncounted =
    (b.jobs.get x).map fun job => uncounted (seen grace x job)
  held : ∀ x ∈ grace, b.jobs.Issued x ∧
    ∀ job, b.jobs.get x = some job → job.state = .preempted ∨ job.state.isTerminal = true

/-- A record replay can take although the jobs in `grace` are queued where it is replayed. -/
def Tolerated (grace : List JobId) : Record → Prop
  | .completed id _ | .failed id _ | .requeued id _ => id ∉ grace
  | _ => True

instance (grace : List JobId) : (record : Record) → Decidable (Tolerated grace record)
  | .completed id _ | .failed id _ | .requeued id _ => inferInstanceAs (Decidable (id ∉ grace))
  | .submitted _ _ | .dispatched _ _ | .cancelled _ _ | .preempted _ _ | .forgotten _ =>
    inferInstanceAs (Decidable True)

theorem tolerated_nil (record : Record) : Tolerated [] record := by
  cases record <;> first | trivial | exact List.not_mem_nil

variable {grace : List JobId}

theorem resumed_of_ne (h : job.state ≠ .preempted) : resumed job = job := if_neg h

theorem seen_of_ne (grace : List JobId) (x : JobId) (h : job.state ≠ .preempted) :
    seen grace x job = job := by
  unfold seen
  rw [resumed_of_ne h, ite_self]

private theorem seen_withState (grace : List JobId) (x : JobId) (job : Job) {s : JobState}
    (h : s ≠ .preempted) : seen grace x (job.withState s) = job.withState s :=
  seen_of_ne grace x h

private theorem seen_of_not_mem (h : x ∉ grace) (job : Job) : seen grace x job = job := if_neg h

private theorem deps_seen (grace : List JobId) (x : JobId) (job : Job) :
    (seen grace x job).deps = job.deps := by
  unfold seen
  split
  · exact Roster.deps_resumed job
  · rfl

private theorem isTerminal_seen (grace : List JobId) (x : JobId) (job : Job) :
    (seen grace x job).state.isTerminal = job.state.isTerminal := by
  unfold seen
  split
  · exact Roster.isTerminal_resumed job
  · rfl

private theorem withState_seen (grace : List JobId) (x : JobId) (job : Job) (s : JobState) :
    (seen grace x job).withState s = job.withState s := by
  unfold seen resumed
  split
  · split <;> rfl
  · rfl

private theorem blocked_seen : (seen grace x job).state = .blocked ↔ job.state = .blocked := by
  unfold seen
  split
  · exact Roster.blocked_resumed
  · rfl

private theorem deps_of_uncounted {j j' : Job} (h : uncounted j' = uncounted j) :
    j'.deps = j.deps :=
  (congrArg Job.deps h : (uncounted j').deps = (uncounted j).deps)

private theorem Follows.get_some (h : Follows grace b b') (hx : b.jobs.get x = some job) :
    ∃ job', b'.jobs.get x = some job' ∧ uncounted job' = uncounted (seen grace x job) := by
  have hget := h.get x
  rw [hx] at hget
  exact Option.map_eq_some_iff.mp hget

private theorem Follows.get_back (h : Follows grace b b') {job' : Job}
    (hx : b'.jobs.get x = some job') :
    ∃ job, b.jobs.get x = some job ∧ uncounted job' = uncounted (seen grace x job) := by
  have hget := h.get x
  rw [hx] at hget
  obtain ⟨job, hjob, heq⟩ := Option.map_eq_some_iff.mp hget.symm
  exact ⟨job, hjob, heq.symm⟩

private theorem Follows.get_same (h : Follows grace b b') (hx : b.jobs.get x = some job)
    (hne : job.state ≠ .preempted ∨ x ∉ grace) :
    ∃ job', b'.jobs.get x = some job' ∧ uncounted job' = uncounted job := by
  obtain ⟨job', hjob', hu⟩ := h.get_some hx
  refine ⟨job', hjob', hu.trans (congrArg uncounted ?_)⟩
  rcases hne with hne | hmem
  · exact seen_of_ne grace x hne
  · exact seen_of_not_mem hmem job

private theorem Follows.isPending_eq (h : Follows grace b b') (a : JobId) :
    isPending b'.jobs a = isPending b.jobs a := by
  apply Bool.eq_iff_iff.mpr
  rw [isPending_iff, isPending_iff]
  constructor
  · rintro ⟨job', hjob', hopen⟩
    obtain ⟨job, hjob, hu⟩ := h.get_back hjob'
    rw [state_of_uncounted hu, isTerminal_seen] at hopen
    exact ⟨job, hjob, hopen⟩
  · rintro ⟨job, hjob, hopen⟩
    obtain ⟨job', hjob', hu⟩ := h.get_some hjob
    refine ⟨job', hjob', ?_⟩
    rw [state_of_uncounted hu, isTerminal_seen]
    exact hopen

/-- A property of jobs that neither the grace nor the eviction count touches holds of the same
ids. -/
theorem Follows.exists_iff (h : Follows grace b b') {P : Job → Prop}
    (hP : ∀ {j j' : Job}, uncounted j' = uncounted (seen grace x j) → (P j' ↔ P j)) :
    (∃ j', b'.jobs.get x = some j' ∧ P j') ↔ ∃ j, b.jobs.get x = some j ∧ P j := by
  constructor
  · rintro ⟨job', hjob', hprop⟩
    obtain ⟨job, hjob, hu⟩ := h.get_back hjob'
    exact ⟨job, hjob, (hP hu).mp hprop⟩
  · rintro ⟨job, hjob, hprop⟩
    obtain ⟨job', hjob', hu⟩ := h.get_some hjob
    exact ⟨job', hjob', (hP hu).mpr hprop⟩

private theorem Follows.dependsOn_eq (h : Follows grace b b') :
    DependsOn b'.jobs = DependsOn b.jobs := by
  ext x y
  refine h.exists_iff fun {j j'} hu => ?_
  rw [deps_of_uncounted hu, deps_seen]

private theorem Follows.promoted_iff (h : Follows grace b b') (hs : Settled b) (hs' : Settled b')
    {job' : Job} (hid : b.jobs.get id = some job) (hid' : b'.jobs.get id = some job')
    (hopen : job.state.isTerminal = false) (hopen' : job'.state.isTerminal = false) :
    x ∈ (b'.deps.onCompleted id).2 ↔ x ∈ (b.deps.onCompleted id).2 := by
  rw [hs.mem_promoted hid hopen, hs'.mem_promoted hid' hopen']
  simp only [h.isPending_eq]
  refine h.exists_iff fun {j j'} hu => ?_
  rw [deps_of_uncounted hu, deps_seen, state_of_uncounted hu, blocked_seen]

private theorem Follows.cascade_iff (h : Follows grace b b') (hs : Settled b) (hs' : Settled b')
    {job' : Job} (hid : b.jobs.get id = some job) (hid' : b'.jobs.get id = some job')
    (hopen : job.state.isTerminal = false) (hopen' : job'.state.isTerminal = false) :
    x ∈ (b'.deps.onTerminated id).2 ↔ x ∈ (b.deps.onTerminated id).2 := by
  rw [hs.mem_cascade hid hopen, hs'.mem_cascade hid' hopen', h.dependsOn_eq]
  refine and_congr_right fun _ => h.exists_iff fun {j j'} hu => ?_
  rw [state_of_uncounted hu, isTerminal_seen]

/-- A job in its grace stays there until it ends, on records that are tolerated. -/
private theorem Follows.held_posts (h : Follows grace b b') (hv : Valid b) (hl : Lawful b record b₁)
    (ht : Tolerated grace record) : ∀ x ∈ grace, b₁.jobs.Issued x ∧
      ∀ job, b₁.jobs.get x = some job → job.state = .preempted ∨ job.state.isTerminal = true := by
  intro x hx
  obtain ⟨hissued, hstate⟩ := h.held x hx
  refine ⟨hl.1.issued hl.2 hissued, fun job hjob => ?_⟩
  have hshift := hl.shift hv x
  rw [hjob] at hshift
  generalize hold : b.jobs.get x = old at hshift hstate
  cases hshift with
  | same entry other => exact hstate job rfl
  | @born submitted readiness =>
    -- A handle given out before is not given out again.
    cases hl.1 with
    | submitted fresh => exact absurd rfl (hissued.ne_nextId (Arena.nextId_of_insert fresh))
  | started at_ ready => rcases hstate _ rfl with hst | hst <;> rw [ready] at hst <;> cases hst
  | completed | failed | requeued => exact absurd hx ht
  | cancelled at_ unended => exact Or.inr rfl
  | preempted at_ running => exact Or.inl rfl
  | promoted at_ other blocked =>
    rcases hstate _ rfl with hst | hst <;> rw [blocked] at hst <;> cases hst
  | doomed at_ other cause blocked => exact Or.inr rfl

private theorem classify_map_resumed (id : JobId) (job : Job) (jobs : Arena Job) :
    classify id job (jobs.map resumed) = classify id job jobs := by
  unfold classify
  generalize 0 = pending
  generalize job.deps = deps
  induction deps generalizing pending with
  | nil => rfl
  | cons dep deps ih =>
    unfold classifyLoop
    rw [Arena.get_map]
    split
    · rfl
    · cases jobs.get dep with
      | none => rfl
      | some target =>
        simp only [Option.map_some, resumed]
        cases hst : target.state <;> simp [hst, ih]

private theorem Follows.classify_eq (h : Follows grace b b') (id : JobId) (job : Job) :
    classify id job b'.jobs = classify id job b.jobs := by
  rw [← classify_map_resumed id job b'.jobs, ← classify_map_resumed id job b.jobs]
  refine classify_congr rfl fun dep _ => ?_
  rw [Arena.get_map, Arena.get_map, Option.map_map, Option.map_map]
  have hresumed : ∀ {j j' : Job}, uncounted j' = uncounted (seen grace dep j) →
      (resumed j').state = (resumed j).state := by
    intro j j' hu
    have hst := state_of_uncounted hu
    unfold resumed seen at *
    by_cases hj : j.state = .preempted
    · by_cases hmem : dep ∈ grace <;> simp_all [resumed]
    · rw [resumed_of_ne hj, ite_self] at hst
      simp [hst, hj]
  cases hdep : b.jobs.get dep with
  | none =>
    have hget := h.get dep
    rw [hdep, Option.map_none, Option.map_eq_none_iff] at hget
    rw [hget]
  | some j =>
    obtain ⟨j', hj', hu⟩ := h.get_some hdep
    rw [hj']
    exact congrArg some (hresumed hu)

private theorem Follows.modified (h : Follows grace b b') {deps deps' : DependencyTracker}
    {job' k k' : Job} (hid : b.jobs.get id = some job) (hid' : b'.jobs.get id = some job')
    (hk : uncounted k' = uncounted (seen grace id k))
    (hheld : ∀ x ∈ grace, (b.jobs.modify id fun _ => k).Issued x ∧
      ∀ j, (b.jobs.modify id fun _ => k).get x = some j →
        j.state = .preempted ∨ j.state.isTerminal = true) :
    Follows grace ⟨deps, b.jobs.modify id fun _ => k⟩ ⟨deps', b'.jobs.modify id fun _ => k'⟩ := by
  refine ⟨?_, fun x => ?_, hheld⟩
  · rw [Arena.outline_modify, Arena.outline_modify]
    exact h.outline
  · by_cases hx : x = id
    · subst hx
      rw [Arena.get_modify_self, Arena.get_modify_self, hid, hid']
      exact congrArg some hk
    · rw [Arena.get_modify_ne _ hx, Arena.get_modify_ne _ hx]
      exact h.get x

private theorem Follows.batch (h : Follows grace b b') {ids ids' : List JobId} {k k' : Job}
    {s : JobState} (hs : s ≠ .preempted) (hcan : JobState.blocked.canTransitionTo s = true)
    (hget : ∀ x, b₁.jobs.get x = if x = id then some k
      else if x ∈ ids then (b.jobs.get x).map (Job.movedTo s) else b.jobs.get x)
    (hget' : ∀ x, b₁'.jobs.get x = if x = id then some k'
      else if x ∈ ids' then (b'.jobs.get x).map (Job.movedTo s) else b'.jobs.get x)
    (hk : uncounted k' = uncounted (seen grace id k)) (hids : ∀ x, x ∈ ids' ↔ x ∈ ids)
    (hblocked : ∀ x ∈ ids, x = id ∨ ∃ j, b.jobs.get x = some j ∧ j.state = .blocked) (x : JobId) :
    (b₁'.jobs.get x).map uncounted =
      (b₁.jobs.get x).map fun job => uncounted (seen grace x job) := by
  rw [hget, hget']
  simp only [hids]
  by_cases hx : x = id
  · rw [if_pos hx, if_pos hx, hx]
    exact congrArg some hk
  · rw [if_neg hx, if_neg hx]
    by_cases hmem : x ∈ ids
    · rw [if_pos hmem, if_pos hmem]
      obtain ⟨j, hj, hst⟩ := (hblocked x hmem).resolve_left hx
      have hne : j.state ≠ .preempted := by rw [hst]; decide
      obtain ⟨j', hj', hu⟩ := h.get_same hj (Or.inl hne)
      have hmoved : (j.movedTo s).state ≠ .preempted := by
        rw [Job.movedTo_of_can (hst ▸ hcan)]
        exact hs
      rw [hj, hj', Option.map_some, Option.map_some, Option.map_some, Option.map_some,
        seen_of_ne grace x hmoved, uncounted_movedTo, uncounted_movedTo, hu]
    · rw [if_neg hmem, if_neg hmem]
      exact h.get x

private theorem Follows.terminated (h : Follows grace b b') (hs : Settled b) (hs' : Settled b')
    {job' : Job} (hid : b.jobs.get id = some job) (hid' : b'.jobs.get id = some job')
    (hu : uncounted job' = uncounted (seen grace id job)) (hopen : job.state.isTerminal = false)
    {next : JobState} (hnext : next ≠ .preempted)
    (hheld : ∀ x ∈ grace, (b.terminate id job next).jobs.Issued x ∧
      ∀ j, (b.terminate id job next).jobs.get x = some j →
        j.state = .preempted ∨ j.state.isTerminal = true) :
    Follows grace (b.terminate id job next) (b'.terminate id job' next) := by
  have hopen' : job'.state.isTerminal = false := by
    rw [state_of_uncounted hu, isTerminal_seen]
    exact hopen
  refine ⟨?_, ?_, hheld⟩
  · show ((Arena.modifyAll _ _ _).map _) = (Arena.modifyAll _ _ _).map _
    rw [Arena.outline_modifyAll, Arena.outline_modifyAll, Arena.outline_modify, Arena.outline_modify]
    exact h.outline
  · refine h.batch (by decide) rfl (get_terminate hid next) (get_terminate hid' next) ?_
      (fun x => h.cascade_iff hs hs' hid hid' hopen hopen')
      fun x hx => hs.valid.sound.reach_blocked hid (mem_onTerminated.mp hx).2
    rw [seen_withState grace id job hnext, uncounted_withState hu next, withState_seen]

/-- Whatever the live book posts, a book that follows it can post, and follows on. -/
private theorem Follows.posts (h : Follows grace b b') (hs : Settled b) (hs' : Settled b')
    (hl : Lawful b record b₁) (ht : Tolerated grace record) :
    ∃ b₁', Lawful b' record b₁' ∧ Follows grace b₁ b₁' := by
  have hheld := h.held_posts hs.valid hl ht
  have hpre : ∀ {s : JobState} {j : Job}, s ≠ .preempted → j.state = s → j.state ≠ .preempted :=
    fun hne hst => hst ▸ hne
  obtain ⟨hposts, hlegal⟩ := hl
  cases hposts with
  | @submitted jobs id job deps readiness fresh state account registered =>
    have hnext : b'.jobs.nextId = some id := by
      rw [← Arena.nextId_map fun _ => PUnit.unit, h.outline, Arena.nextId_map,
        Arena.nextId_of_insert fresh]
    obtain ⟨jobs', fresh'⟩ := Arena.insert_of_nextId job hnext
    have hclass : classify id job jobs' = .ok readiness := by
      rw [classify_insert fresh', h.classify_eq, ← classify_insert fresh]
      exact (register_spec registered (by rw [Arena.get_insert fresh, if_pos rfl])).1
    obtain ⟨deps', registered'⟩ := @register_of_classify b'.deps id job jobs' readiness hclass
    refine ⟨_, ⟨.submitted fresh' state account registered', trivial⟩, ⟨?_, fun x => ?_, hheld⟩⟩
    · rw [Arena.outline_modify, Arena.outline_modify]
      have h₁ := @Arena.insert_map _ _ (fun _ => PUnit.unit) _ _ _ _ fresh'
      rw [h.outline, @Arena.insert_map _ _ (fun _ => PUnit.unit) _ _ _ _ fresh] at h₁
      exact (Prod.mk.inj (Option.some.inj h₁)).1.symm
    · by_cases hx : x = id
      · subst hx
        have hne : Scheduler.stateOf readiness ≠ .preempted := by cases readiness <;> decide
        rw [Arena.get_modify_self, Arena.get_modify_self, Arena.get_insert fresh,
          Arena.get_insert fresh', if_pos rfl, if_pos rfl]
        exact congrArg (fun j => some (uncounted j)) (seen_withState grace x job hne).symm
      · rw [Arena.get_modify_ne _ hx, Arena.get_modify_ne _ hx, Arena.get_insert fresh,
          Arena.get_insert fresh', if_neg hx, if_neg hx]
        exact h.get x
  | @dispatched id job at_ live state =>
    obtain ⟨job', live', hu⟩ := h.get_same live (Or.inl (hpre (by decide) state))
    refine ⟨_, ⟨.dispatched at_ live' ((state_of_uncounted hu).trans state), trivial⟩,
      h.modified live live' ?_ hheld⟩
    rw [seen_withState grace id job (by decide)]
    exact uncounted_withState hu _
  | @completed id job at_ live state =>
    obtain ⟨job', live', hu⟩ := h.get_same live (Or.inr ht)
    have hopen := JobState.not_terminal_of_onWorker state
    have hstate := state_of_uncounted hu
    refine ⟨_, ⟨.completed at_ live' (hstate ▸ state), trivial⟩, ⟨?_, ?_, hheld⟩⟩
    · show ((Arena.modifyAll _ _ _).map _) = (Arena.modifyAll _ _ _).map _
      rw [Arena.outline_modifyAll, Arena.outline_modifyAll, Arena.outline_modify, Arena.outline_modify]
      exact h.outline
    · refine h.batch (by decide) rfl (get_complete hs.valid.sound.placed live)
        (get_complete hs'.valid.sound.placed live') ?_
        (fun x => h.promoted_iff hs hs' live live' hopen (hstate ▸ hopen))
        fun x hx => Or.inr (hs.valid.sound.promoted_blocked live hx)
      rw [seen_withState grace id job (by decide)]
      exact uncounted_withState hu _
  | @failed id job at_ live state =>
    obtain ⟨job', live', hu⟩ := h.get_same live (Or.inr ht)
    exact ⟨_, ⟨.failed at_ live' ((state_of_uncounted hu).symm ▸ state), trivial⟩,
      h.terminated hs hs' live live' (hu.trans (congrArg uncounted (seen_of_not_mem ht job).symm))
        (JobState.not_terminal_of_onWorker state) (by decide) hheld⟩
  | @cancelled id job at_ live state =>
    obtain ⟨job', live', hu⟩ := h.get_some live
    refine ⟨_, ⟨.cancelled at_ live' ?_, trivial⟩,
      h.terminated hs hs' live live' hu state (by decide) hheld⟩
    rw [state_of_uncounted hu, isTerminal_seen]
    exact state
  | @requeued id job at_ preemptions live state =>
    obtain ⟨job', live', hu⟩ := h.get_same live (Or.inr ht)
    obtain ⟨j, hj, hworker⟩ := hlegal
    obtain rfl := Option.some.inj (live.symm.trans hj)
    have hstate := state_of_uncounted hu
    refine ⟨_, ⟨.requeued at_ preemptions live' (hstate ▸ state), job', live', hstate ▸ hworker⟩,
      h.modified live live' ?_ hheld⟩
    rw [seen_of_not_mem ht]
    exact uncounted_withState hu .ready
  | @preempted id job at_ live state =>
    have hmem : id ∉ grace := by
      intro hmem
      rcases (h.held id hmem).2 job live with hst | hst <;> rw [state] at hst <;> cases hst
    obtain ⟨job', live', hu⟩ := h.get_same live (Or.inr hmem)
    refine ⟨_, ⟨.preempted at_ live' ((state_of_uncounted hu).trans state), trivial⟩,
      h.modified live live' ?_ hheld⟩
    rw [seen_of_not_mem hmem]
    exact uncounted_withState hu _
  | @forgotten id job live state =>
    obtain ⟨job', live', hu⟩ := h.get_some live
    refine ⟨_, ⟨.forgotten live' ?_, hlegal⟩, ⟨?_, fun x => ?_, hheld⟩⟩
    · rw [state_of_uncounted hu, isTerminal_seen]
      exact state
    · show ((b'.jobs.remove id).1.map _) = (b.jobs.remove id).1.map _
      rw [Arena.remove_map, Arena.remove_map, h.outline]
    · show (((b'.jobs.remove id).1.get x).map _) = ((b.jobs.remove id).1.get x).map _
      rw [Arena.get_remove, Arena.get_remove]
      split
      · rfl
      · exact h.get x

private theorem Follows.twin (h : Follows grace b b') (ht : Twin b' b₁') : Follows grace b b₁' := by
  refine ⟨?_, fun x => (ht.get_eq x).trans (h.get x), h.held⟩
  rw [← Arena.outline_map uncounted, ht.jobs, Arena.outline_map]
  exact h.outline

theorem Follows.noSelfDeps (h : Follows grace b b')
    (hself : b.NoSelfDeps) : b'.NoSelfDeps := by
  intro x j' hj' hopen
  obtain ⟨j, hj, hu⟩ := h.get_back hj'
  rw [state_of_uncounted hu, isTerminal_seen] at hopen
  rw [deps_of_uncounted hu, deps_seen]
  exact hself x j hj hopen

end TaskerRT.Scheduling.Book

namespace TaskerRT.Daemon

open Library Domain Cluster Policy Scheduling Wal Book DependencyTracker

namespace Roster

variable {grace : List JobId} {b b₁ : Book} {r r' : Roster} {record : Record}
  {records : List Record} {config : CycleConfig}

def Fresh : Record → Prop
  | .submitted _ job => job.preemptions = 0
  | _ => True

private theorem fits_of_lawful (h : Lawful r.book record b₁) (hfresh : Fresh record) :
    r.Fits record := by
  obtain ⟨hposts, hlegal⟩ := h
  cases hposts with
  | submitted => exact hfresh
  | requeued => exact hlegal
  | forgotten live state => exact ⟨hlegal, _, live, state⟩
  | dispatched | completed | failed | cancelled | preempted => trivial

private theorem follows_applyRecord (config : CycleConfig) (h : Follows grace b r.book)
    (hs : Settled b)
    (hs' : Settled r.book) (hsane : Sane r) (hl : Lawful b record b₁) (hfresh : Fresh record)
    (ht : Tolerated grace record) : r.Fits record ∧ ∃ r',
      r.applyRecord config record = some (.ok r') ∧ Sane r' ∧ Settled r'.book ∧
        Follows grace b₁ r'.book := by
  obtain ⟨b₁', hl', hfollows⟩ := h.posts hs hs' hl ht
  obtain ⟨r', happly, htwin, -⟩ := applyRecord_twin config hl'.1 ⟨rfl, rfl⟩ hsane.kept
  have hfits := fits_of_lawful hl' hfresh
  obtain ⟨hlawful, hsane'⟩ := hsane.replay hfits happly
  exact ⟨hfits, r', happly, hsane', hs'.posts hlawful, hfollows.twin htwin⟩

private theorem replayed_error {α : Type} {step : Step α} {note : Roster → α → Roster}
    (h : ∀ a, step.result ≠ .ok a) :
    ∃ err, some (r.replayed step note) = some (.error (.lifecycle err)) := by
  unfold replayed
  cases hresult : step.result with
  | ok a => exact absurd hresult (h a)
  | error err => exact ⟨err, rfl⟩

/-- A job that was in its grace is queued on replay, so nothing a worker reports of it replays. -/
private theorem refused_of_grace (config : CycleConfig) (h : Follows grace b r.book)
    (hl : Lawful b record b₁) (ht : ¬ Tolerated grace record) :
    ∃ err, r.applyRecord config record = some (.error (.lifecycle err)) := by
  -- What is live and on a worker, and was in its grace, is in it still.
  have hready : ∀ {id : JobId} {job : Job}, id ∈ grace → b.jobs.get id = some job →
      job.state.isTerminal = false → ∀ j, r.jobs.get id = some j → j.state = .ready := by
    intro id job hmem hid hopen j hj
    obtain ⟨j', hj', hu⟩ := h.get_some hid
    obtain rfl := Option.some.inj (hj.symm.trans hj')
    have hst := ((h.held id hmem).2 job hid).resolve_right (by rw [hopen]; decide)
    rw [state_of_uncounted hu]
    unfold seen resumed
    rw [if_pos hmem, if_pos hst]
    rfl
  obtain ⟨hposts, -⟩ := hl
  cases hposts with
  | @completed id job at_ live state =>
    have hmem : id ∈ grace := not_not.mp ht
    refine replayed_error fun promoted hok => ?_
    obtain ⟨j, hj, hworker⟩ := Scheduler.onCompleted_inv hok
    rw [hready hmem live (JobState.not_terminal_of_onWorker state) j hj] at hworker
    cases hworker
  | @failed id job at_ live state =>
    have hmem : id ∈ grace := not_not.mp ht
    refine replayed_error fun cascade hok => ?_
    obtain ⟨j, hj, hworker⟩ := Scheduler.onFailed_inv hok
    rw [hready hmem live (JobState.not_terminal_of_onWorker state) j hj] at hworker
    cases hworker
  | @requeued id job at_ preemptions live state =>
    have hmem : id ∈ grace := not_not.mp ht
    refine replayed_error fun u hok => ?_
    obtain ⟨j, hj, hqueue⟩ := Scheduler.requeue_inv hok
    rw [hready hmem live (JobState.not_terminal_of_isRequeuable state) j hj] at hqueue
    cases hqueue
  | submitted | dispatched | cancelled | preempted | forgotten => exact absurd trivial ht

/-- A tail replays to the end exactly when all of it is tolerated; otherwise recovery reports an
illegal lifecycle call. -/
theorem follows_applyEach (config : CycleConfig) (h : Chain Lawful b records b₁) :
    ∀ {r : Roster} (latest : VirtualTime), Follows grace b r.book → Settled b → Settled r.book →
      Sane r → (∀ record ∈ records, Fresh record) →
      ((∀ record ∈ records, Tolerated grace record) → AllFit config records r ∧ ∃ r' latest',
        applyEach config records r latest = some (.ok (r', latest')) ∧ Sane r' ∧
          Settled r'.book ∧ Follows grace b₁ r'.book) ∧
      ((¬ ∀ record ∈ records, Tolerated grace record) → ∃ err,
        applyEach config records r latest = some (.error (.lifecycle err))) := by
  induction h with
  | nil b =>
    intro r latest hf _ hs' hsane _
    exact ⟨fun _ => ⟨trivial, r, latest, rfl, hsane, hs', hf⟩,
      fun hno => absurd (fun record hmem => absurd hmem List.not_mem_nil) hno⟩
  | @cons b b₂ b₁ record records head _ ih =>
    intro r latest hf hs hs' hsane hfresh
    have hrest : ∀ rec ∈ records, Fresh rec := fun rec hmem =>
      hfresh rec (List.mem_cons_of_mem _ hmem)
    by_cases ht : Tolerated grace record
    · obtain ⟨hfits, r₂, happly, hsane₂, hs₂, hf₂⟩ := follows_applyRecord config hf hs hs' hsane
        head (hfresh record List.mem_cons_self) ht
      have hstep : applyEach config (record :: records) r latest =
          applyEach config records r₂ (max latest (recordTime record)) := by
        simp only [applyEach, apply, happly, Option.bind_eq_bind, Option.bind_some]
        rfl
      rw [hstep, List.forall_mem_cons, and_iff_right ht]
      obtain ⟨hgood, hbad⟩ := ih _ hf₂ (hs.posts head) hs₂ hsane₂ hrest
      refine ⟨fun hall => ⟨⟨hfits, fun r' happly' => ?_⟩, (hgood hall).2⟩, hbad⟩
      obtain rfl := Except.ok.inj (Option.some.inj (happly.symm.trans happly'))
      exact (hgood hall).1
    · obtain ⟨err, happly⟩ := refused_of_grace config hf head ht
      refine ⟨fun hall => absurd (hall record List.mem_cons_self) ht, fun _ => ⟨err, ?_⟩⟩
      simp only [applyEach, apply, happly, Option.bind_eq_bind, Option.bind_some]
      rfl

end Roster

end TaskerRT.Daemon
