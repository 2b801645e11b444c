/- module: TaskerRT/Scheduler/Exact
   source: crates/tasker-core/src/policy/eligibility.rs, crates/tasker-core/src/engine/cycle.rs
   digest: With no edge lost, blocked jobs wait for exactly their live non-terminal entries. -/

import TaskerRT.Scheduler.Sound

set_option autoImplicit false

namespace TaskerRT.Scheduling

open Library Domain Policy DependencyTracker

/-- The other half of the agreement: every entry that is still pending has its edge, and
nothing else is counted. -/
structure Exact (t : DependencyTracker) (jobs : Arena Job) : Prop where
  counted : ∀ {b : JobId} {j : Job}, jobs.get b = some j → j.state = .blocked →
    (t.rowAt b.slot).unsatisfied ≤ pendingCount jobs j.deps
  edge : ∀ {b a : JobId} {j : Job}, jobs.get b = some j → j.state = .blocked → a ∈ j.deps →
    isPending jobs a = true →
      t.isTracked a = true ∧ j.deps.count a ≤ (t.rowAt a.slot).dependents.count b
  waits : ∀ {b : JobId} {j : Job}, jobs.get b = some j → j.state = .blocked →
    0 < pendingCount jobs j.deps

namespace Exact

variable {t : DependencyTracker} {jobs jobs' : Arena Job} {id : JobId} {job : Job}

theorem of_no_blocked (h : ∀ b j, jobs.get b = some j → j.state ≠ .blocked) : Exact t jobs :=
  ⟨fun hb hs => absurd hs (h _ _ hb), fun hb hs => absurd hs (h _ _ hb),
    fun hb hs => absurd hs (h _ _ hb)⟩

private theorem pendingCount_congr {deps : List JobId}
    (h : ∀ a ∈ deps, isPending jobs' a = isPending jobs a) :
    pendingCount jobs' deps = pendingCount jobs deps :=
  List.countP_congr fun a ha => by rw [h a ha]

theorem unsatisfied_eq (hs : Sound t jobs) (h : Exact t jobs) {b : JobId} {j : Job}
    (hb : jobs.get b = some j) (hst : j.state = .blocked) :
    (t.rowAt b.slot).unsatisfied = pendingCount jobs j.deps := by
  have h₁ := hs.unmet_le hb hst
  have h₂ := h.counted hb hst
  have h₃ := pendingCount_le_unmetCount jobs j.deps
  omega

theorem count_eq (hs : Sound t jobs) (h : Exact t jobs) {b a : JobId} {j : Job}
    (hb : jobs.get b = some j) (hst : j.state = .blocked) (ha : a ∈ j.deps)
    (hp : isPending jobs a = true) :
    (t.rowAt a.slot).dependents.count b = j.deps.count a := by
  obtain ⟨ht, hle⟩ := h.edge hb hst ha hp
  exact le_antisymm (hs.edge_count ht hb) hle

theorem entry_cases (hs : Sound t jobs) (h : Exact t jobs) {b a : JobId} {j ja : Job}
    (hb : jobs.get b = some j) (hst : j.state = .blocked) (ha : a ∈ j.deps)
    (hja : jobs.get a = some ja) : ja.state = .completed ∨ ja.state.isTerminal = false := by
  by_contra hcon
  obtain ⟨hnc, hterm⟩ := not_or.mp hcon
  have hnp : isPending jobs a ≠ true := fun hp => by
    obtain ⟨ja', hja', hnt⟩ := isPending_iff.mp hp
    rw [hja] at hja'
    cases Option.some.inj hja'
    exact hterm hnt
  have hlt : pendingCount jobs j.deps < unmetCount jobs j.deps :=
    countP_lt_countP (fun _ _ => isUnmet_of_isPending) ha (isUnmet_iff.mpr ⟨ja, hja, hnc⟩) hnp
  have h₁ := hs.unmet_le hb hst
  have h₂ := h.counted hb hst
  omega

theorem insert (hs : Sound t jobs) (h : Exact t jobs) (hfresh : ¬ jobs.Issued id)
    (hst : job.state = .submitted)
    (hget : ∀ x, jobs'.get x = if x = id then some job else jobs.get x) : Exact t jobs' := by
  have back : ∀ {b : JobId} {j : Job}, jobs'.get b = some j → j.state = .blocked →
      jobs.get b = some j ∧ ∀ a ∈ j.deps, isPending jobs' a = isPending jobs a := by
    intro b j hb hblocked
    have hne : b ≠ id := by
      rintro rfl
      rw [hget, if_pos rfl] at hb
      cases Option.some.inj hb
      rw [hst] at hblocked
      cases hblocked
    rw [hget, if_neg hne] at hb
    refine ⟨hb, fun a ha => ?_⟩
    have hi := hs.deps_issued hb (by rw [hblocked]; decide) (by rw [hblocked]; decide) a ha
    simp only [isPending, hget, if_neg fun he : a = id => hfresh (he ▸ hi)]
  refine ⟨?_, ?_, ?_⟩
  · intro b j hb hblocked
    obtain ⟨hb', hp⟩ := back hb hblocked
    rw [pendingCount_congr hp]
    exact h.counted hb' hblocked
  · intro b a j hb hblocked ha hpa
    obtain ⟨hb', hp⟩ := back hb hblocked
    exact h.edge hb' hblocked ha (hp a ha ▸ hpa)
  · intro b j hb hblocked
    obtain ⟨hb', hp⟩ := back hb hblocked
    rw [pendingCount_congr hp]
    exact h.waits hb' hblocked

theorem classified {t' : DependencyTracker} {r : Readiness} (hs : Sound t jobs)
    (h : Exact t jobs) (hid : jobs.get id = some job)
    (hnone : ∀ b j, jobs.get b = some j → j.state = .blocked → id ∉ j.deps)
    (hreg : t.register id job jobs = .ok (t', r))
    (hget : ∀ x, jobs'.get x =
      if x = id then some (job.withState (Scheduler.stateOf r)) else jobs.get x) :
    Exact t' jobs' := by
  obtain ⟨hclass, hcases⟩ := register_spec hreg hid
  have hpend : ∀ {a : JobId}, a ≠ id → isPending jobs' a = isPending jobs a := by
    intro a hne
    simp only [isPending, hget, if_neg hne]
  have hpend_all : ∀ {deps : List JobId}, id ∉ deps →
      pendingCount jobs' deps = pendingCount jobs deps :=
    fun hnot => pendingCount_congr fun a ha => hpend fun he => hnot (he ▸ ha)
  have back : ∀ {b : JobId} {j : Job}, jobs'.get b = some j → j.state = .blocked →
      (b = id ∧ j = job.withState (Scheduler.stateOf r)) ∨ (b ≠ id ∧ jobs.get b = some j) := by
    intro b j hb _
    rw [hget] at hb
    split at hb
    · exact Or.inl ⟨‹_›, (Option.some.inj hb).symm⟩
    · exact Or.inr ⟨‹_›, hb⟩
  rcases hcases with ⟨rfl, rfl⟩ | ⟨hr, hreg'⟩
  · refine ⟨?_, ?_, ?_⟩
    · intro b j hb hblocked
      rcases back hb hblocked with ⟨_, rfl⟩ | ⟨_, hb'⟩
      · cases hblocked
      · rw [hpend_all (hnone b j hb' hblocked)]
        exact h.counted hb' hblocked
    · intro b a j hb hblocked ha hpa
      rcases back hb hblocked with ⟨_, rfl⟩ | ⟨_, hb'⟩
      · cases hblocked
      · rw [hpend fun he => hnone b j hb' hblocked (he ▸ ha)] at hpa
        exact h.edge hb' hblocked ha hpa
    · intro b j hb hblocked
      rcases back hb hblocked with ⟨_, rfl⟩ | ⟨_, hb'⟩
      · cases hblocked
      · rw [hpend_all (hnone b j hb' hblocked)]
        exact h.waits hb' hblocked
  · obtain ⟨hres, hready⟩ := (classify_eq_ok hr).mp hclass
    have hself : id ∉ job.deps := fun hmem => (hres id hmem).1 rfl
    refine ⟨?_, ?_, ?_⟩
    · intro b j hb hblocked
      rcases back hb hblocked with ⟨rfl, rfl⟩ | ⟨hne, hb'⟩
      · rw [hreg'.own, Job.deps_withState, hpend_all hself]
      · rw [hpend_all (hnone b j hb' hblocked)]
        obtain ⟨n, hrow⟩ := hreg'.row_of_tracked hid hb' hne (hs.blocked_tracked hb' hblocked)
        rw [hrow]
        exact h.counted hb' hblocked
    · intro b a j hb hblocked ha hpa
      rcases back hb hblocked with ⟨rfl, rfl⟩ | ⟨hne, hb'⟩
      · rw [Job.deps_withState] at ha ⊢
        rw [hpend fun he => hself (he ▸ ha)] at hpa
        rw [isTracked_iff, hreg'.pending a ha hpa]
        refine ⟨owner_baseRow t a, ?_⟩
        rw [List.count_append, List.count_replicate_self]
        omega
      · have hane : a ≠ id := fun he => hnone b j hb' hblocked (he ▸ ha)
        rw [hpend hane] at hpa
        obtain ⟨ht, hle⟩ := h.edge hb' hblocked ha hpa
        obtain ⟨ja, hja, _⟩ := isPending_iff.mp hpa
        obtain ⟨n, hrow⟩ := hreg'.row_of_tracked hid hja hane ht
        rw [isTracked_iff, hrow]
        refine ⟨isTracked_iff.mp ht, ?_⟩
        rw [List.count_append]
        omega
    · intro b j hb hblocked
      rcases back hb hblocked with ⟨rfl, rfl⟩ | ⟨_, hb'⟩
      · rw [Job.deps_withState, hpend_all hself]
        by_contra hz
        rw [if_pos (by omega)] at hready
        rw [hready] at hblocked
        cases hblocked
      · rw [hpend_all (hnone b j hb' hblocked)]
        exact h.waits hb' hblocked

private theorem frame (h : Exact t jobs)
    (hblocked : ∀ {b : JobId} {j : Job}, jobs'.get b = some j → j.state = .blocked →
      jobs.get b = some j)
    (hpend : ∀ a, isPending jobs' a = isPending jobs a) : Exact t jobs' := by
  refine ⟨?_, ?_, ?_⟩
  · intro b j hb hs
    rw [pendingCount_congr fun a _ => hpend a]
    exact h.counted (hblocked hb hs) hs
  · intro b a j hb hs ha hpa
    exact h.edge (hblocked hb hs) hs ha (hpend a ▸ hpa)
  · intro b j hb hs
    rw [pendingCount_congr fun a _ => hpend a]
    exact h.waits (hblocked hb hs) hs

theorem shift (h : Exact t jobs)
    (hget : ∀ x, jobs'.get x = jobs.get x ∨ ∃ j j', jobs.get x = some j ∧ jobs'.get x = some j' ∧
      j'.deps = j.deps ∧ j.state.isCleared = true ∧ j'.state.isCleared = true) :
    Exact t jobs' := by
  have hopen : ∀ {s : JobState}, s.isCleared = true → s.isTerminal = false := by
    intro s hc
    cases s <;> first | rfl | cases hc
  refine h.frame ?_ ?_
  · intro b j hb hs
    rcases hget b with he | ⟨_, j', _, hj', _, _, hc⟩
    · exact he ▸ hb
    · rw [hj'] at hb
      cases Option.some.inj hb
      rw [hs] at hc
      cases hc
  · intro a
    rcases hget a with he | ⟨j, j', hj, hj', _, hc, hc'⟩
    · simp only [isPending, he]
    · simp only [isPending, hj, hj', hopen hc, hopen hc']

theorem remove (h : Exact t jobs)
    (hover : ∀ j, jobs.get id = some j → j.state.isTerminal = true)
    (hget : ∀ x, jobs'.get x = if x = id then none else jobs.get x) : Exact t jobs' := by
  refine h.frame ?_ ?_
  · intro b j hb _
    rw [hget] at hb
    split at hb
    · cases hb
    · exact hb
  · intro a
    by_cases he : a = id
    · subst he
      cases hj : jobs.get a with
      | none => simp [isPending, hget, hj]
      | some j => simp [isPending, hget, hj, hover j hj]
    · simp only [isPending, hget, if_neg he]

/-- Completing a job and promoting the dependents whose last dependency it was. -/
theorem complete (hs : Sound t jobs) (h : Exact t jobs) (hid : jobs.get id = some job)
    (hw : job.state.onWorker = true)
    (hget : ∀ x, jobs'.get x = if x = id then some (job.withState .completed)
      else if x ∈ (t.onCompleted id).2 then (jobs.get x).map (Job.movedTo .ready)
      else jobs.get x) : Exact (t.onCompleted id).1 jobs' := by
  have hpid : isPending jobs id = true :=
    isPending_iff.mpr ⟨job, hid, JobState.not_terminal_of_onWorker hw⟩
  have back : ∀ {b : JobId} {j : Job}, jobs'.get b = some j → j.state = .blocked →
      b ≠ id ∧ b ∉ (t.onCompleted id).2 ∧ jobs.get b = some j := by
    intro b j hb hst
    rw [hget] at hb
    split at hb
    · cases Option.some.inj hb
      cases hst
    · rename_i hne
      split at hb
      · rename_i hp
        obtain ⟨j₀, hj₀, hs₀⟩ := hs.promoted_blocked hid hp
        rw [hj₀, Option.map_some, Option.some.injEq, Job.movedTo_of_can (by rw [hs₀]; rfl)] at hb
        rw [← hb] at hst
        cases hst
      · exact ⟨hne, ‹_›, hb⟩
  have hpend : ∀ a, isPending jobs' a = (isPending jobs a && !decide (a = id)) := by
    intro a
    by_cases he : a = id
    · subst he
      simp [isPending, hget, JobState.isTerminal]
    · simp only [he, decide_false, Bool.not_false, Bool.and_true, isPending, hget, if_false]
      split
      · rename_i hp
        split at hp
        · rename_i hprom
          rw [Option.map_eq_none_iff.mp hp]
        · rw [hp]
      · rename_i j' hp
        split at hp
        · rename_i hprom
          obtain ⟨j, hj, hst⟩ := hs.promoted_blocked hid hprom
          rw [hj, Option.map_some, Option.some.injEq, Job.movedTo_of_can (by rw [hst]; rfl)] at hp
          rw [hj, ← hp]
          simp [hst, JobState.isTerminal]
        · rw [hp]
  have hcount : ∀ deps : List JobId,
      pendingCount jobs deps = pendingCount jobs' deps + deps.count id := by
    intro deps
    induction deps with
    | nil => rfl
    | cons a deps ih =>
      simp only [pendingCount, List.countP_cons, List.count_cons, hpend] at ih ⊢
      by_cases he : a = id
      · subst he
        simp only [hpid, decide_true, Bool.not_true, Bool.and_false, Bool.false_eq_true,
          if_false, beq_self_eq_true, if_true]
        omega
      · simp only [he, decide_false, Bool.not_false, Bool.and_true, beq_iff_eq, if_false]
        omega
  have hedges : ∀ {b : JobId} {j : Job}, jobs.get b = some j → j.state = .blocked →
      j.deps.count id ≤ (t.dependentsOf id).count b := by
    intro b j hb hst
    by_cases hmem : id ∈ j.deps
    · obtain ⟨ht, hle⟩ := h.edge hb hst hmem hpid
      rwa [dependentsOf, if_pos ht]
    · rw [List.count_eq_zero_of_not_mem hmem]
      exact Nat.zero_le _
  refine ⟨?_, ?_, ?_⟩
  · intro b j hb hst
    obtain ⟨hne, _, hb'⟩ := back hb hst
    rw [rowAt_onCompleted hs.placed (hs.blocked_tracked hb' hst) hne]
    have h₁ := h.counted hb' hst
    have h₂ := hedges hb' hst
    have h₃ := hcount j.deps
    simp only
    omega
  · intro b a j hb hst ha hpa
    obtain ⟨_, _, hb'⟩ := back hb hst
    rw [hpend, Bool.and_eq_true] at hpa
    have hne : a ≠ id := by simpa using hpa.2
    obtain ⟨ht, hle⟩ := h.edge hb' hst ha hpa.1
    rw [rowAt_onCompleted hs.placed ht hne]
    exact ⟨(isTracked_onCompleted hs.placed).mpr ⟨ht, hne⟩, hle⟩
  · -- a blocked job with nothing left would have been promoted
    intro b j hb hst
    obtain ⟨_, hnp, hb'⟩ := back hb hst
    by_contra hz
    apply hnp
    have h₁ := h.unsatisfied_eq hs hb' hst
    have h₂ := hedges hb' hst
    have h₃ := hcount j.deps
    have h₄ := h.waits hb' hst
    exact (mem_onCompleted hs.placed).mpr ⟨hs.blocked_tracked hb' hst, by omega, by omega⟩

theorem terminate {next : JobState} (hs : Sound t jobs) (h : Exact t jobs)
    (hid : jobs.get id = some job) (hnext : next = .failed ∨ next = .cancelled)
    (hget : ∀ x, jobs'.get x = if x = id then some (job.withState next)
      else if x ∈ (t.onTerminated id).2 then (jobs.get x).map (Job.movedTo .cancelled)
      else jobs.get x) : Exact (t.onTerminated id).1 jobs' := by
  have hnew : jobs'.get id = some (job.withState next) := by rw [hget, if_pos rfl]
  have hterm : next.isTerminal = true := by
    rcases hnext with rfl | rfl <;> rfl
  have back : ∀ {b : JobId} {j : Job}, jobs'.get b = some j → j.state.isTerminal = false →
      b ≠ id ∧ ¬ Reach t [id] b ∧ jobs.get b = some j := by
    intro b j hb hnt
    rw [hget] at hb
    split at hb
    · cases Option.some.inj hb
      rw [Job.state_withState, hterm] at hnt
      cases hnt
    · rename_i hne
      split at hb
      · rename_i hp
        obtain ⟨j₀, hj₀, hs₀⟩ := (hs.reach_blocked hid (mem_onTerminated.mp hp).2).resolve_left hne
        rw [hj₀, Option.map_some, Option.some.injEq, Job.movedTo_of_can (by rw [hs₀]; rfl)] at hb
        rw [← hb] at hnt
        cases hnt
      · rename_i hp
        exact ⟨hne, fun hr => hp (mem_onTerminated.mpr ⟨hne, hr⟩), hb⟩
  -- a pending entry of a job left blocked lies outside the cascade
  have hpend : ∀ {b : JobId} {j : Job}, jobs'.get b = some j → j.state = .blocked →
      ∀ a ∈ j.deps, isPending jobs' a = isPending jobs a := by
    intro b j hb hst a ha
    obtain ⟨_, hnr, hb'⟩ := back hb (by rw [hst]; rfl)
    rw [Bool.eq_iff_iff]
    constructor
    · intro hp
      obtain ⟨ja, hja, hnt⟩ := isPending_iff.mp hp
      exact isPending_iff.mpr ⟨ja, (back hja hnt).2.2, hnt⟩
    · intro hp
      obtain ⟨ht, hle⟩ := h.edge hb' hst ha hp
      obtain ⟨ja, hja, hnt⟩ := isPending_iff.mp hp
      have hedge : b ∈ (t.rowAt a.slot).dependents :=
        List.count_pos_iff.mp (lt_of_lt_of_le (List.count_pos_iff.mpr ha) hle)
      have hra : ¬ Reach t [id] a := fun hr =>
        hnr (.edge hr hedge (hs.blocked_tracked hb' hst))
      have hne : a ≠ id := by
        rintro rfl
        exact hra (.root (List.mem_singleton.mpr rfl) ht)
      refine isPending_iff.mpr ⟨ja, ?_, hnt⟩
      rw [hget, if_neg hne, if_neg fun hp => hra (mem_onTerminated.mp hp).2, hja]
  refine ⟨?_, ?_, ?_⟩
  · intro b j hb hst
    obtain ⟨_, hnr, hb'⟩ := back hb (by rw [hst]; rfl)
    rw [pendingCount_congr (hpend hb hst), rowAt_onTerminated
      (isTracked_onTerminated.mpr ⟨hs.blocked_tracked hb' hst, hnr⟩)]
    exact h.counted hb' hst
  · intro b a j hb hst ha hpa
    obtain ⟨_, hnr, hb'⟩ := back hb (by rw [hst]; rfl)
    obtain ⟨ja, hja, hnt⟩ := isPending_iff.mp hpa
    obtain ⟨_, hra, _⟩ := back hja hnt
    obtain ⟨ht, hle⟩ := h.edge hb' hst ha (hpend hb hst a ha ▸ hpa)
    have ht' := isTracked_onTerminated.mpr ⟨ht, hra⟩
    rw [rowAt_onTerminated ht']
    exact ⟨ht', hle⟩
  · intro b j hb hst
    obtain ⟨_, _, hb'⟩ := back hb (by rw [hst]; rfl)
    rw [pendingCount_congr (hpend hb hst)]
    exact h.waits hb' hst

end Exact

end TaskerRT.Scheduling
