/- module: TaskerRT/Scheduler/Sound
   source: crates/tasker-core/src/policy/eligibility.rs, crates/tasker-core/src/engine/cycle.rs
   digest: The tracker never lets a job run before its dependencies, whatever edges were lost. -/

import TaskerRT.Scheduler.Cycle

set_option autoImplicit false

namespace TaskerRT.Scheduling

open Library Domain Policy DependencyTracker

def isUnmet (jobs : Arena Job) (dep : JobId) : Bool :=
  match jobs.get dep with
  | none => false
  | some target => !decide (target.state = .completed)

/-- Entries of a dependency list that are live and not completed. -/
def unmetCount (jobs : Arena Job) (deps : List JobId) : Nat := deps.countP (isUnmet jobs)

theorem isUnmet_iff {jobs : Arena Job} {dep : JobId} :
    isUnmet jobs dep = true ↔ ∃ job, jobs.get dep = some job ∧ job.state ≠ .completed := by
  unfold isUnmet
  cases jobs.get dep with
  | none => simp
  | some job => simp

theorem isUnmet_of_isPending {jobs : Arena Job} {dep : JobId} (h : isPending jobs dep = true) :
    isUnmet jobs dep = true := by
  obtain ⟨job, hget, hnt⟩ := isPending_iff.mp h
  refine isUnmet_iff.mpr ⟨job, hget, ?_⟩
  intro he
  rw [he] at hnt
  cases hnt

theorem pendingCount_le_unmetCount (jobs : Arena Job) (deps : List JobId) :
    pendingCount jobs deps ≤ unmetCount jobs deps :=
  List.countP_mono_left fun _ _ h => isUnmet_of_isPending h

/-- The tracker agrees with the arena on the safe side: counts never fall below what is
still unmet, so a job past its dependencies really has none left. Edges may be missing. -/
structure Sound (t : DependencyTracker) (jobs : Arena Job) : Prop where
  placed : t.OwnersPlaced
  owner_open : ∀ {a : JobId} {j : Job}, t.isTracked a = true → jobs.get a = some j →
    j.state ≠ .completed
  blocked_tracked : ∀ {b : JobId} {j : Job}, jobs.get b = some j → j.state = .blocked →
    t.isTracked b = true
  edge_known : ∀ {a b : JobId}, t.isTracked a = true → b ∈ (t.rowAt a.slot).dependents →
    jobs.Issued b ∧ ∀ j, jobs.get b = some j → j.state ≠ .submitted
  edge_alive : ∀ {a b : JobId}, t.isTracked a = true → b ∈ (t.rowAt a.slot).dependents →
    t.isTracked b = true → ∃ j, jobs.get b = some j ∧ j.state.isTerminal = false
  edge_count : ∀ {a b : JobId} {j : Job}, t.isTracked a = true → jobs.get b = some j →
    (t.rowAt a.slot).dependents.count b ≤ j.deps.count a
  unmet_le : ∀ {b : JobId} {j : Job}, jobs.get b = some j → j.state = .blocked →
    unmetCount jobs j.deps ≤ (t.rowAt b.slot).unsatisfied
  met : ∀ {b : JobId} {j : Job}, jobs.get b = some j → j.state.isCleared = true →
    ∀ a ∈ j.deps, ∀ ja, jobs.get a = some ja → ja.state = .completed
  deps_issued : ∀ {b : JobId} {j : Job}, jobs.get b = some j → j.state ≠ .submitted →
    j.state.isTerminal = false → ∀ a ∈ j.deps, jobs.Issued a

namespace Sound

variable {t : DependencyTracker} {jobs jobs' : Arena Job} {id : JobId} {job : Job}

theorem of_unclassified
    (h : ∀ id job, jobs.get id = some job → job.state = .submitted ∨ job.state.isTerminal = true) :
    Sound DependencyTracker.new jobs := by
  have hrow : ∀ i, DependencyTracker.new.rowAt i = TrackerRow.vacant := fun i => by
    simp [DependencyTracker.new, rowAt, Table.read]
  have hnot : ∀ a, DependencyTracker.new.isTracked a ≠ true := fun a ha => by
    rw [isTracked_iff, hrow] at ha
    cases ha
  have hcleared : ∀ s : JobState, s = .submitted ∨ s.isTerminal = true → s.isCleared ≠ true := by
    intro s
    cases s <;> decide
  refine ⟨?_, fun ha => absurd ha (hnot _), ?_, fun ha => absurd ha (hnot _),
    fun ha => absurd ha (hnot _), fun ha => absurd ha (hnot _), ?_, ?_, ?_⟩
  · intro i b hb
    rw [hrow] at hb
    cases hb
  · intro b j hb hs
    rcases h b j hb with h' | h' <;> rw [hs] at h' <;> cases h'
  · intro b j hb hs
    rcases h b j hb with h' | h' <;> rw [hs] at h' <;> cases h'
  · intro b j hb hs
    exact absurd hs (hcleared _ (h b j hb))
  · intro b j hb hs hnt
    rcases h b j hb with h' | h'
    · exact absurd h' hs
    · rw [h'] at hnt
      cases hnt

theorem mem_deps_of_edge (h : Sound t jobs) {a b : JobId} {j : Job} (ha : t.isTracked a = true)
    (hb : jobs.get b = some j) (he : b ∈ (t.rowAt a.slot).dependents) : a ∈ j.deps := by
  have hle := h.edge_count ha hb
  have hpos := List.count_pos_iff.mpr he
  exact List.count_pos_iff.mp (by omega)

theorem edge_blocked (h : Sound t jobs) {a b : JobId} {ja : Job} (ha : t.isTracked a = true)
    (hja : jobs.get a = some ja) (he : b ∈ (t.rowAt a.slot).dependents)
    (hb : t.isTracked b = true) : ∃ j, jobs.get b = some j ∧ j.state = .blocked := by
  obtain ⟨j, hj, hnt⟩ := h.edge_alive ha he hb
  refine ⟨j, hj, ?_⟩
  rcases JobState.cases_of_not_terminal hnt with hs | hs | hs
  · exact absurd hs ((h.edge_known ha he).2 j hj)
  · exact hs
  · exact absurd (h.met hj hs a (h.mem_deps_of_edge ha hj he) ja hja) (h.owner_open ha hja)

theorem reach_blocked (h : Sound t jobs) (hid : jobs.get id = some job) {v : JobId}
    (hv : Reach t [id] v) : v = id ∨ ∃ j, jobs.get v = some j ∧ j.state = .blocked := by
  induction hv with
  | root hv _ => exact Or.inl (List.mem_singleton.mp hv)
  | @edge v w hv hw ht ih =>
    obtain ⟨j, hj⟩ : ∃ j, jobs.get v = some j := by
      rcases ih with rfl | ⟨j, hj, _⟩
      · exact ⟨job, hid⟩
      · exact ⟨j, hj⟩
    exact Or.inr (h.edge_blocked hv.tracked hj hw ht)

private theorem mem_dependentsOf {t : DependencyTracker} {a b : JobId} :
    b ∈ t.dependentsOf a ↔ t.isTracked a = true ∧ b ∈ (t.rowAt a.slot).dependents := by
  unfold dependentsOf
  split
  · simp [*]
  · simp [*]

theorem count_dependentsOf_le (h : Sound t jobs) {a b : JobId} {j : Job}
    (hb : jobs.get b = some j) : (t.dependentsOf a).count b ≤ j.deps.count a := by
  unfold dependentsOf
  split
  · exact h.edge_count ‹_› hb
  · exact Nat.zero_le _

theorem promoted_blocked (h : Sound t jobs) (hid : jobs.get id = some job) {b : JobId}
    (hb : b ∈ (t.onCompleted id).2) : ∃ j, jobs.get b = some j ∧ j.state = .blocked := by
  obtain ⟨htb, hpos, hle⟩ := (mem_onCompleted h.placed).mp hb
  have hmem : b ∈ t.dependentsOf id := List.count_pos_iff.mp (by omega)
  obtain ⟨ht, he⟩ := mem_dependentsOf.mp hmem
  exact h.edge_blocked ht hid he htb

theorem insert (h : Sound t jobs) (hfresh : ¬ jobs.Issued id) (hs : job.state = .submitted)
    (hget : ∀ x, jobs'.get x = if x = id then some job else jobs.get x)
    (hissued : ∀ x, jobs.Issued x → jobs'.Issued x) : Sound t jobs' := by
  have hold : ∀ {x : JobId}, x ≠ id → jobs'.get x = jobs.get x := fun hx => by
    rw [hget, if_neg hx]
  have hnew : jobs'.get id = some job := by rw [hget, if_pos rfl]
  have cases_get : ∀ {x : JobId} {j : Job}, jobs'.get x = some j →
      (x = id ∧ j = job) ∨ (x ≠ id ∧ jobs.get x = some j) := by
    intro x j hx
    by_cases he : x = id
    · subst he
      rw [hnew] at hx
      exact Or.inl ⟨rfl, (Option.some.inj hx).symm⟩
    · exact Or.inr ⟨he, by rwa [hold he] at hx⟩
  have hunmet : ∀ deps : List JobId, (∀ a ∈ deps, jobs.Issued a) →
      unmetCount jobs' deps = unmetCount jobs deps := by
    intro deps hd
    apply List.countP_congr
    intro a ha
    have hne : a ≠ id := fun he => hfresh (he ▸ hd a ha)
    simp only [isUnmet, hold hne]
  refine ⟨h.placed, ?_, ?_, ?_, ?_, ?_, ?_, ?_, ?_⟩
  · intro a j ha hj
    rcases cases_get hj with ⟨rfl, rfl⟩ | ⟨_, hj⟩
    · rw [hs]
      decide
    · exact h.owner_open ha hj
  · intro b j hb hst
    rcases cases_get hb with ⟨rfl, rfl⟩ | ⟨_, hb⟩
    · rw [hs] at hst
      cases hst
    · exact h.blocked_tracked hb hst
  · intro a b ha hb
    obtain ⟨hi, hsub⟩ := h.edge_known ha hb
    refine ⟨hissued b hi, fun j hj => ?_⟩
    rcases cases_get hj with ⟨rfl, rfl⟩ | ⟨_, hj⟩
    · exact absurd hi hfresh
    · exact hsub j hj
  · intro a b ha hb htb
    obtain ⟨j, hj, hnt⟩ := h.edge_alive ha hb htb
    have hne : b ≠ id := fun he => hfresh (he ▸ Arena.issued_of_get hj)
    exact ⟨j, by rw [hold hne, hj], hnt⟩
  · intro a b j ha hb
    rcases cases_get hb with ⟨rfl, rfl⟩ | ⟨_, hb⟩
    · rw [List.count_eq_zero_of_not_mem fun hmem => hfresh (h.edge_known ha hmem).1]
      omega
    · exact h.edge_count ha hb
  · intro b j hb hst
    rcases cases_get hb with ⟨rfl, rfl⟩ | ⟨_, hb⟩
    · rw [hs] at hst
      cases hst
    · rw [hunmet _ (h.deps_issued hb (by rw [hst]; decide) (by rw [hst]; decide))]
      exact h.unmet_le hb hst
  · intro b j hb hst a ha ja hja
    rcases cases_get hb with ⟨rfl, rfl⟩ | ⟨_, hb⟩
    · rw [hs] at hst
      cases hst
    · have hi := h.deps_issued hb (by rintro he; rw [he] at hst; cases hst)
        (by cases hst' : j.state <;> rw [hst'] at hst <;> first | rfl | cases hst) a ha
      have hne : a ≠ id := fun he => hfresh (he ▸ hi)
      rw [hold hne] at hja
      exact h.met hb hst a ha ja hja
  · intro b j hb hst hnt a ha
    rcases cases_get hb with ⟨rfl, rfl⟩ | ⟨_, hb⟩
    · exact absurd hs hst
    · exact hissued a (h.deps_issued hb hst hnt a ha)

private theorem unmetCount_congr {deps : List JobId}
    (h : ∀ a ∈ deps, isUnmet jobs' a = isUnmet jobs a) :
    unmetCount jobs' deps = unmetCount jobs deps :=
  List.countP_congr fun a ha => by rw [h a ha]

theorem classified {t' : DependencyTracker} {r : Readiness} (h : Sound t jobs)
    (hid : jobs.get id = some job) (hs : job.state = .submitted)
    (hreg : t.register id job jobs = .ok (t', r))
    (hget : ∀ x, jobs'.get x =
      if x = id then some (job.withState (Scheduler.stateOf r)) else jobs.get x)
    (hissued : ∀ x, jobs.Issued x → jobs'.Issued x) : Sound t' jobs' := by
  obtain ⟨hclass, hcases⟩ := register_spec hreg hid
  have hold : ∀ {x : JobId}, x ≠ id → jobs'.get x = jobs.get x := fun hx => by
    rw [hget, if_neg hx]
  have hnew : jobs'.get id = some (job.withState (Scheduler.stateOf r)) := by
    rw [hget, if_pos rfl]
  have cases_get : ∀ {x : JobId} {j : Job}, jobs'.get x = some j →
      (x = id ∧ j = job.withState (Scheduler.stateOf r)) ∨ (x ≠ id ∧ jobs.get x = some j) := by
    intro x j hx
    by_cases he : x = id
    · subst he
      rw [hnew] at hx
      exact Or.inl ⟨rfl, (Option.some.inj hx).symm⟩
    · exact Or.inr ⟨he, by rwa [hold he] at hx⟩
  have hopen : Scheduler.stateOf r ≠ .completed ∧ Scheduler.stateOf r ≠ .submitted := by
    cases r <;> decide
  have hunmet : ∀ a, isUnmet jobs' a = isUnmet jobs a := by
    intro a
    by_cases he : a = id
    · subst he
      simp [isUnmet, hnew, hid, hs, hopen.1]
    · simp only [isUnmet, hold he]
  -- no job that is past its dependencies names the one being classified
  have hmet_old : ∀ {b : JobId} {j : Job}, jobs.get b = some j → j.state.isCleared = true →
      ∀ a ∈ j.deps, ∀ ja, jobs'.get a = some ja → ja.state = .completed := by
    intro b j hb hst a ha ja hja
    rcases cases_get hja with ⟨rfl, rfl⟩ | ⟨_, hja⟩
    · have := h.met hb hst a ha job hid
      rw [hs] at this
      cases this
    · exact h.met hb hst a ha ja hja
  rcases hcases with ⟨rfl, rfl⟩ | ⟨hr, hreg'⟩
  · refine ⟨h.placed, ?_, ?_, ?_, ?_, ?_, ?_, ?_, ?_⟩
    · intro a j ha hj
      rcases cases_get hj with ⟨rfl, rfl⟩ | ⟨_, hj⟩
      · exact hopen.1
      · exact h.owner_open ha hj
    · intro b j hb hst
      rcases cases_get hb with ⟨rfl, rfl⟩ | ⟨_, hb⟩
      · cases hst
      · exact h.blocked_tracked hb hst
    · intro a b ha hb
      obtain ⟨hi, hsub⟩ := h.edge_known ha hb
      refine ⟨hissued b hi, fun j hj => ?_⟩
      rcases cases_get hj with ⟨rfl, rfl⟩ | ⟨_, hj⟩
      · exact hopen.2
      · exact hsub j hj
    · intro a b ha hb htb
      obtain ⟨j, hj, hnt⟩ := h.edge_alive ha hb htb
      have hne : b ≠ id := by
        rintro rfl
        exact (h.edge_known ha hb).2 job hid hs
      exact ⟨j, by rw [hold hne, hj], hnt⟩
    · intro a b j ha hb
      rcases cases_get hb with ⟨rfl, rfl⟩ | ⟨_, hb⟩
      · rw [Job.deps_withState]
        exact h.edge_count ha hid
      · exact h.edge_count ha hb
    · intro b j hb hst
      rw [unmetCount_congr fun a _ => hunmet a]
      rcases cases_get hb with ⟨rfl, rfl⟩ | ⟨_, hb⟩
      · cases hst
      · exact h.unmet_le hb hst
    · intro b j hb hst
      rcases cases_get hb with ⟨rfl, rfl⟩ | ⟨_, hb⟩
      · cases hst
      · exact hmet_old hb hst
    · intro b j hb hst hnt a ha
      rcases cases_get hb with ⟨rfl, rfl⟩ | ⟨_, hb⟩
      · cases hnt
      · exact hissued a (h.deps_issued hb hst hnt a ha)
  · obtain ⟨hres, hready⟩ := (classify_eq_ok hr).mp hclass
    have hpend_ne : ∀ d ∈ job.deps, isPending jobs d = true → d.slot ≠ id.slot := by
      intro d hd hp hslot
      obtain ⟨target, htarget, _⟩ := isPending_iff.mp hp
      exact (hres d hd).1 (Arena.eq_of_get_of_slot htarget hid hslot)
    -- every row is the new job's, a pending dependency's, or as before
    have row_cases : ∀ i, (i = id.slot ∧ t'.rowAt i = ⟨some id, pendingCount jobs job.deps, []⟩) ∨
        (∃ d ∈ job.deps, isPending jobs d = true ∧ i = d.slot ∧ i ≠ id.slot ∧
          t'.rowAt i = { t.baseRow d with dependents :=
            (t.baseRow d).dependents ++ List.replicate (job.deps.count d) id }) ∨
        (i ≠ id.slot ∧ t'.rowAt i = t.rowAt i) := by
      intro i
      by_cases hi : i = id.slot
      · exact Or.inl ⟨hi, hi ▸ hreg'.own⟩
      · by_cases hex : ∃ d ∈ job.deps, isPending jobs d = true ∧ d.slot = i
        · obtain ⟨d, hd, hp, rfl⟩ := hex
          exact Or.inr (Or.inl ⟨d, hd, hp, rfl, hi, hreg'.pending d hd hp⟩)
        · exact Or.inr (Or.inr ⟨hi, hreg'.other i hi fun d hd hp he => hex ⟨d, hd, hp, he⟩⟩)
    have base_deps : ∀ {d b : JobId}, b ∈ (t.baseRow d).dependents →
        t.isTracked d = true ∧ b ∈ (t.rowAt d.slot).dependents := by
      intro d b hb
      unfold baseRow at hb
      split at hb
      · rename_i ho
        exact ⟨isTracked_iff.mpr ho, hb⟩
      · cases hb
    have no_edge : ∀ {a : JobId}, t.isTracked a = true → id ∉ (t.rowAt a.slot).dependents :=
      fun ha hmem => (h.edge_known ha hmem).2 job hid hs
    -- a tracked job and the edges it now stores
    have tracked_cases : ∀ {a : JobId}, t'.isTracked a = true →
        (a = id ∧ (t'.rowAt a.slot).dependents = []) ∨
        (a ≠ id ∧ isPending jobs a = true ∧ a ∈ job.deps ∧ (t'.rowAt a.slot).dependents =
          (t.baseRow a).dependents ++ List.replicate (job.deps.count a) id) ∨
        (a ≠ id ∧ t.isTracked a = true ∧ t'.rowAt a.slot = t.rowAt a.slot) := by
      intro a ha
      rw [isTracked_iff] at ha
      rcases row_cases a.slot with ⟨_, hrow⟩ | ⟨d, hd, hp, _, hne, hrow⟩ | ⟨hne, hrow⟩
      · rw [hrow] at ha
        cases Option.some.inj ha
        exact Or.inl ⟨rfl, by rw [hrow]⟩
      · rw [hrow] at ha
        simp only [owner_baseRow, Option.some.injEq] at ha
        subst ha
        exact Or.inr (Or.inl ⟨fun he => hne (he ▸ rfl), hp, hd, by rw [hrow]⟩)
      · rw [hrow] at ha
        exact Or.inr (Or.inr ⟨fun he => hne (he ▸ rfl), isTracked_iff.mpr ha, hrow⟩)
    have keeps : ∀ {b : JobId} {j : Job}, jobs.get b = some j → b ≠ id → t.isTracked b = true →
        t'.isTracked b = true ∧ (t'.rowAt b.slot).unsatisfied = (t.rowAt b.slot).unsatisfied := by
      intro b j hb hne htb
      obtain ⟨n, hrow⟩ := hreg'.row_of_tracked hid hb hne htb
      rw [isTracked_iff, hrow]
      exact ⟨isTracked_iff.mp htb, rfl⟩
    have pending_open : ∀ {a : JobId}, isPending jobs a = true → a ≠ id →
        ∃ j, jobs'.get a = some j ∧ j.state.isTerminal = false := by
      intro a hp hne
      obtain ⟨j, hj, hnt⟩ := isPending_iff.mp hp
      exact ⟨j, by rw [hold hne, hj], hnt⟩
    refine ⟨?_, ?_, ?_, ?_, ?_, ?_, ?_, ?_, ?_⟩
    · intro i b hb
      rcases row_cases i with ⟨hi, hrow⟩ | ⟨d, _, _, hi, _, hrow⟩ | ⟨_, hrow⟩ <;> rw [hrow] at hb
      · cases Option.some.inj hb
        exact hi.symm
      · simp only [owner_baseRow, Option.some.injEq] at hb
        rw [← hb, hi]
      · exact h.placed i b hb
    · intro a j ha hj
      rcases tracked_cases ha with ⟨rfl, _⟩ | ⟨hne, hp, _⟩ | ⟨hne, ht, _⟩
      · rw [hnew] at hj
        cases Option.some.inj hj
        exact hopen.1
      · obtain ⟨j', hj', hnt⟩ := pending_open hp hne
        rw [hj'] at hj
        cases Option.some.inj hj
        intro he
        rw [he] at hnt
        cases hnt
      · rw [hold hne] at hj
        exact h.owner_open ht hj
    · intro b j hb hst
      rcases cases_get hb with ⟨rfl, rfl⟩ | ⟨hne, hb⟩
      · exact isTracked_iff.mpr (by rw [hreg'.own])
      · exact (keeps hb hne (h.blocked_tracked hb hst)).1
    · intro a b ha hb
      have hnew_known : jobs'.Issued id ∧ ∀ j, jobs'.get id = some j → j.state ≠ .submitted := by
        refine ⟨hissued id (Arena.issued_of_get hid), fun j hj => ?_⟩
        rw [hnew] at hj
        cases Option.some.inj hj
        exact hopen.2
      have hold_known : ∀ {c : JobId}, t.isTracked c = true → b ∈ (t.rowAt c.slot).dependents →
          jobs'.Issued b ∧ ∀ j, jobs'.get b = some j → j.state ≠ .submitted := by
        intro c hc hb
        obtain ⟨hi, hsub⟩ := h.edge_known hc hb
        have hne : b ≠ id := fun he => no_edge hc (he ▸ hb)
        exact ⟨hissued b hi, fun j hj => hsub j (by rwa [hold hne] at hj)⟩
      rcases tracked_cases ha with ⟨rfl, hdeps⟩ | ⟨_, _, _, hdeps⟩ | ⟨_, ht, hrow⟩
      · rw [hdeps] at hb
        cases hb
      · rw [hdeps] at hb
        rcases List.mem_append.mp hb with hb | hb
        · obtain ⟨ht, hb⟩ := base_deps hb
          exact hold_known ht hb
        · rw [(List.mem_replicate.mp hb).2]
          exact hnew_known
      · rw [hrow] at hb
        exact hold_known ht hb
    · intro a b ha hb htb
      rcases tracked_cases htb with ⟨rfl, _⟩ | ⟨hne, hp, _⟩ | ⟨hne, ht, _⟩
      · refine ⟨_, hnew, ?_⟩
        cases r with
        | ready => rfl
        | blocked => rfl
        | cancelled => exact absurd rfl hr
      · exact pending_open hp hne
      · have hedge : ∃ c, t.isTracked c = true ∧ b ∈ (t.rowAt c.slot).dependents := by
          rcases tracked_cases ha with ⟨rfl, hdeps⟩ | ⟨_, _, _, hdeps⟩ | ⟨_, hta, hrow⟩
          · rw [hdeps] at hb
            cases hb
          · rw [hdeps] at hb
            rcases List.mem_append.mp hb with hb | hb
            · exact ⟨a, base_deps hb⟩
            · exact absurd (List.mem_replicate.mp hb).2 hne
          · exact ⟨a, hta, by rwa [hrow] at hb⟩
        obtain ⟨c, hc, hb⟩ := hedge
        obtain ⟨j, hj, hnt⟩ := h.edge_alive hc hb ht
        exact ⟨j, by rw [hold hne, hj], hnt⟩
    · intro a b j ha hb
      have hdeps_eq : ∀ {c : JobId}, t.isTracked c = true → b ≠ id →
          (t.rowAt c.slot).dependents.count b ≤ j.deps.count c := by
        intro c hc hne
        rw [hold hne] at hb
        exact h.edge_count hc hb
      have hbase : ∀ {c : JobId}, b ≠ id → (t.baseRow c).dependents.count b ≤ j.deps.count c := by
        intro c hne
        by_cases hc : t.isTracked c = true
        · have := hdeps_eq hc hne
          rwa [baseRow, if_pos (isTracked_iff.mp hc)]
        · rw [baseRow, if_neg fun ho => hc (isTracked_iff.mpr ho)]
          exact Nat.zero_le _
      rcases tracked_cases ha with ⟨rfl, hdeps⟩ | ⟨_, _, _, hdeps⟩ | ⟨_, ht, hrow⟩
      · rw [hdeps]
        exact Nat.zero_le _
      · rw [hdeps, List.count_append, List.count_replicate]
        by_cases hne : b = id
        · subst hne
          rw [hnew] at hb
          cases Option.some.inj hb
          rw [List.count_eq_zero_of_not_mem fun hmem => ?_]
          · simp
          · obtain ⟨ht, hmem⟩ := base_deps hmem
            exact no_edge ht hmem
        · rw [if_neg (by simpa using Ne.symm hne)]
          exact hbase hne
      · rw [hrow]
        by_cases hne : b = id
        · subst hne
          rw [List.count_eq_zero_of_not_mem (no_edge ht)]
          exact Nat.zero_le _
        · exact hdeps_eq ht hne
    · intro b j hb hst
      rw [unmetCount_congr fun a _ => hunmet a]
      rcases cases_get hb with ⟨rfl, rfl⟩ | ⟨hne, hb⟩
      · rw [hreg'.own]
        apply List.countP_mono_left
        intro a ha hun
        obtain ⟨ja, hja, hnc⟩ := isUnmet_iff.mp hun
        obtain ⟨_, target, htarget, hf, hcc⟩ := hres a ha
        rw [hja] at htarget
        cases Option.some.inj htarget
        refine isPending_iff.mpr ⟨ja, hja, ?_⟩
        cases hst : ja.state <;> rw [hst] at hnc hf hcc <;> first | rfl | exact absurd rfl ‹_›
      · rw [(keeps hb hne (h.blocked_tracked hb hst)).2]
        exact h.unmet_le hb hst
    · intro b j hb hst
      rcases cases_get hb with ⟨rfl, rfl⟩ | ⟨_, hb⟩
      · intro a ha ja hja
        rw [Job.deps_withState] at ha
        obtain ⟨hne, target, htarget, hf, hcc⟩ := hres a ha
        rw [hold hne, htarget] at hja
        obtain rfl := Option.some.inj hja
        have hzero : pendingCount jobs job.deps = 0 := by
          by_contra hz
          rw [if_neg hz] at hready
          rw [hready] at hst
          cases hst
        have hnp : isPending jobs a ≠ true := fun hp => by
          have := List.countP_pos_iff.mpr ⟨a, ha, hp⟩
          rw [pendingCount] at hzero
          omega
        by_contra hnc
        apply hnp
        refine isPending_iff.mpr ⟨target, htarget, ?_⟩
        cases hst : target.state <;> rw [hst] at hnc hf hcc <;> first | rfl | exact absurd rfl ‹_›
      · exact hmet_old hb hst
    · intro b j hb hst hnt a ha
      rcases cases_get hb with ⟨rfl, rfl⟩ | ⟨_, hb⟩
      · obtain ⟨_, target, htarget, _⟩ := hres a ha
        exact hissued a (Arena.issued_of_get htarget)
      · exact hissued a (h.deps_issued hb hst hnt a ha)

/-- Dispatching, evicting and requeueing move jobs between cleared states only. -/
theorem shift (h : Sound t jobs)
    (hget : ∀ x, jobs'.get x = jobs.get x ∨ ∃ j j', jobs.get x = some j ∧ jobs'.get x = some j' ∧
      j'.deps = j.deps ∧ j.state.isCleared = true ∧ j'.state.isCleared = true)
    (hissued : ∀ x, jobs.Issued x → jobs'.Issued x) : Sound t jobs' := by
  have back : ∀ {x : JobId} {j' : Job}, jobs'.get x = some j' → ∃ j, jobs.get x = some j ∧
      j'.deps = j.deps ∧
        (j'.state = j.state ∨ (j.state.isCleared = true ∧ j'.state.isCleared = true)) := by
    intro x j' hx
    rcases hget x with he | ⟨j, j'', hj, hj'', hd, hc, hc'⟩
    · exact ⟨j', he ▸ hx, rfl, Or.inl rfl⟩
    · rw [hj''] at hx
      cases Option.some.inj hx
      exact ⟨j, hj, hd, Or.inr ⟨hc, hc'⟩⟩
  have hunmet : ∀ a, isUnmet jobs' a = isUnmet jobs a := by
    intro a
    rcases hget a with he | ⟨j, j', hj, hj', _, hc, hc'⟩
    · simp only [isUnmet, he]
    · simp only [isUnmet, hj, hj']
      congr 1
      rw [decide_eq_decide]
      constructor <;> intro he <;> simp only [he] at hc hc' <;> contradiction
  refine ⟨h.placed, ?_, ?_, ?_, ?_, ?_, ?_, ?_, ?_⟩
  · intro a j' ha hj'
    obtain ⟨j, hj, _, hst | ⟨_, hc⟩⟩ := back hj'
    · rw [hst]
      exact h.owner_open ha hj
    · intro he
      rw [he] at hc
      cases hc
  · intro b j' hb hst
    obtain ⟨j, hj, _, he | ⟨_, hc⟩⟩ := back hb
    · exact h.blocked_tracked hj (he ▸ hst)
    · rw [hst] at hc
      cases hc
  · intro a b ha hb
    obtain ⟨hi, hsub⟩ := h.edge_known ha hb
    refine ⟨hissued b hi, fun j' hj' => ?_⟩
    obtain ⟨j, hj, _, he | ⟨_, hc⟩⟩ := back hj'
    · rw [he]
      exact hsub j hj
    · intro he
      rw [he] at hc
      cases hc
  · intro a b ha hb htb
    obtain ⟨j, hj, hnt⟩ := h.edge_alive ha hb htb
    rcases hget b with he | ⟨_, j', _, hj', _, _, hc⟩
    · exact ⟨j, he ▸ hj, hnt⟩
    · refine ⟨j', hj', ?_⟩
      cases hs : j'.state <;> rw [hs] at hc <;> first | rfl | cases hc
  · intro a b j' ha hb
    obtain ⟨j, hj, hd, _⟩ := back hb
    rw [hd]
    exact h.edge_count ha hj
  · intro b j' hb hst
    obtain ⟨j, hj, hd, he | ⟨_, hc⟩⟩ := back hb
    · rw [unmetCount_congr fun a _ => hunmet a, hd]
      exact h.unmet_le hj (he ▸ hst)
    · rw [hst] at hc
      cases hc
  · intro b j' hb hst a ha ja' hja'
    obtain ⟨j, hj, hd, hstate⟩ := back hb
    have hc : j.state.isCleared = true := by
      rcases hstate with he | ⟨hc, _⟩
      · rw [← he]
        exact hst
      · exact hc
    obtain ⟨ja, hja, _, he | ⟨hca, _⟩⟩ := back hja'
    · rw [he]
      exact h.met hj hc a (hd ▸ ha) ja hja
    · rw [h.met hj hc a (hd ▸ ha) ja hja] at hca
      cases hca
  · intro b j' hb hst hnt a ha
    obtain ⟨j, hj, hd, hstate⟩ := back hb
    rw [hd] at ha
    apply hissued
    rcases hstate with he | ⟨hc, _⟩
    · rw [he] at hst hnt
      exact h.deps_issued hj hst hnt a ha
    · refine h.deps_issued hj ?_ ?_ a ha
      · intro he
        rw [he] at hc
        cases hc
      · cases hs : j.state <;> rw [hs] at hc <;> first | rfl | cases hc

theorem remove (h : Sound t jobs) (hover : ∀ j, jobs.get id = some j → j.state.isTerminal = true)
    (hget : ∀ x, jobs'.get x = if x = id then none else jobs.get x)
    (hissued : ∀ x, jobs.Issued x → jobs'.Issued x) : Sound t jobs' := by
  have back : ∀ {x : JobId} {j : Job}, jobs'.get x = some j → jobs.get x = some j := by
    intro x j hx
    rw [hget] at hx
    split at hx
    · cases hx
    · exact hx
  have hunmet : ∀ deps : List JobId, unmetCount jobs' deps ≤ unmetCount jobs deps := by
    intro deps
    apply List.countP_mono_left
    intro a _ ha
    obtain ⟨j, hj, hc⟩ := isUnmet_iff.mp ha
    exact isUnmet_iff.mpr ⟨j, back hj, hc⟩
  refine ⟨h.placed, fun ha hj => h.owner_open ha (back hj),
    fun hb hst => h.blocked_tracked (back hb) hst, ?_, ?_,
    fun ha hb => h.edge_count ha (back hb),
    fun hb hst => (hunmet _).trans (h.unmet_le (back hb) hst),
    fun hb hst a ha ja hja => h.met (back hb) hst a ha ja (back hja),
    fun hb hst hnt a ha => hissued a (h.deps_issued (back hb) hst hnt a ha)⟩
  · intro a b ha hb
    obtain ⟨hi, hsub⟩ := h.edge_known ha hb
    exact ⟨hissued b hi, fun j hj => hsub j (back hj)⟩
  · intro a b ha hb htb
    obtain ⟨j, hj, hnt⟩ := h.edge_alive ha hb htb
    refine ⟨j, ?_, hnt⟩
    rw [hget, if_neg]
    · exact hj
    · rintro rfl
      rw [hover j hj] at hnt
      cases hnt

/-- Completing a job and promoting the dependents whose last dependency it was. -/
theorem complete (h : Sound t jobs) (hid : jobs.get id = some job)
    (hw : job.state.onWorker = true)
    (hget : ∀ x, jobs'.get x = if x = id then some (job.withState .completed)
      else if x ∈ (t.onCompleted id).2 then (jobs.get x).map (Job.movedTo .ready)
      else jobs.get x)
    (hissued : ∀ x, jobs.Issued x → jobs'.Issued x) : Sound (t.onCompleted id).1 jobs' := by
  have hopen : job.state ≠ .completed := by
    intro he
    rw [he] at hw
    cases hw
  have hnew : jobs'.get id = some (job.withState .completed) := by rw [hget, if_pos rfl]
  -- a job afterwards: the completed one, a promoted one, or as before
  have back : ∀ {x : JobId} {j' : Job}, jobs'.get x = some j' →
      (x = id ∧ j' = job.withState .completed) ∨
      (x ≠ id ∧ x ∈ (t.onCompleted id).2 ∧ ∃ j, jobs.get x = some j ∧ j.state = .blocked ∧
        j' = j.withState .ready) ∨
      (x ≠ id ∧ x ∉ (t.onCompleted id).2 ∧ jobs.get x = some j') := by
    intro x j' hx
    by_cases he : x = id
    · subst he
      rw [hnew] at hx
      exact Or.inl ⟨rfl, (Option.some.inj hx).symm⟩
    · rw [hget, if_neg he] at hx
      split at hx
      · rename_i hp
        obtain ⟨j, hj, hs⟩ := h.promoted_blocked hid hp
        rw [hj, Option.map_some, Option.some.injEq, Job.movedTo_of_can (by rw [hs]; rfl)] at hx
        exact Or.inr (Or.inl ⟨he, hp, j, hj, hs, hx.symm⟩)
      · rename_i hp
        exact Or.inr (Or.inr ⟨he, hp, hx⟩)
  have forth : ∀ {x : JobId} {j : Job}, x ≠ id → jobs.get x = some j →
      ∃ j', jobs'.get x = some j' ∧ j'.deps = j.deps ∧ (j'.state = j.state ∨
        (j.state = .blocked ∧ j'.state = .ready)) := by
    intro x j he hx
    by_cases hp : x ∈ (t.onCompleted id).2
    · obtain ⟨j₀, hj₀, hs⟩ := h.promoted_blocked hid hp
      rw [hx] at hj₀
      cases Option.some.inj hj₀
      refine ⟨j.withState .ready, ?_, rfl, Or.inr ⟨hs, rfl⟩⟩
      rw [hget, if_neg he, if_pos hp, hx, Option.map_some, Job.movedTo_of_can (by rw [hs]; rfl)]
    · exact ⟨j, by rw [hget, if_neg he, if_neg hp, hx], rfl, Or.inl rfl⟩
  have hunmet : ∀ a, isUnmet jobs' a = (isUnmet jobs a && !decide (a = id)) := by
    intro a
    by_cases he : a = id
    · subst he
      simp [isUnmet, hnew]
    · simp only [he, decide_false, Bool.not_false, Bool.and_true]
      cases hx : jobs.get a with
      | none => simp [isUnmet, hget, he, hx]
      | some j =>
        obtain ⟨j', hj', _, hst | ⟨hb, hr⟩⟩ := forth he hx
        · simp only [isUnmet, hx, hj', hst]
        · simp only [isUnmet, hx, hj', hb, hr]
          rfl
  have hcount : ∀ deps : List JobId,
      unmetCount jobs deps = unmetCount jobs' deps + deps.count id := by
    have hself : isUnmet jobs id = true := isUnmet_iff.mpr ⟨job, hid, hopen⟩
    intro deps
    induction deps with
    | nil => rfl
    | cons a deps ih =>
      simp only [unmetCount, List.countP_cons, List.count_cons, hunmet] at ih ⊢
      by_cases he : a = id
      · subst he
        simp only [hself, decide_true, Bool.not_true, Bool.and_false, Bool.false_eq_true,
          if_false, beq_self_eq_true, if_true]
        omega
      · simp only [he, decide_false, Bool.not_false, Bool.and_true, beq_iff_eq, if_false]
        omega
  have hopen' : ∀ {x : JobId} {j' : Job}, x ≠ id → jobs'.get x = some j' →
      (∀ j, jobs.get x = some j → j.state ≠ .completed) → j'.state ≠ .completed := by
    intro x j' hne hx hold
    rcases back hx with ⟨he, _⟩ | ⟨_, _, j, _, _, rfl⟩ | ⟨_, _, hj⟩
    · exact absurd he hne
    · exact fun he => by cases he
    · exact hold j' hj
  refine ⟨placed_onCompleted h.placed id, ?_, ?_, ?_, ?_, ?_, ?_, ?_, ?_⟩
  · intro a j' ha hj'
    obtain ⟨hta, hne⟩ := (isTracked_onCompleted h.placed).mp ha
    exact hopen' hne hj' fun j hj => h.owner_open hta hj
  · intro b j' hb hst
    rcases back hb with ⟨_, rfl⟩ | ⟨_, _, j, _, _, rfl⟩ | ⟨hne, _, hj⟩
    · cases hst
    · cases hst
    · exact (isTracked_onCompleted h.placed).mpr ⟨h.blocked_tracked hj hst, hne⟩
  · intro a b ha hb
    obtain ⟨hta, hne⟩ := (isTracked_onCompleted h.placed).mp ha
    rw [rowAt_onCompleted h.placed hta hne] at hb
    obtain ⟨hi, hsub⟩ := h.edge_known hta hb
    refine ⟨hissued b hi, fun j' hj' => ?_⟩
    rcases back hj' with ⟨_, rfl⟩ | ⟨_, _, j, _, _, rfl⟩ | ⟨_, _, hj⟩
    · exact fun he => by cases he
    · exact fun he => by cases he
    · exact hsub j' hj
  · intro a b ha hb htb
    obtain ⟨hta, hne⟩ := (isTracked_onCompleted h.placed).mp ha
    obtain ⟨htb, hneb⟩ := (isTracked_onCompleted h.placed).mp htb
    rw [rowAt_onCompleted h.placed hta hne] at hb
    obtain ⟨j, hj, hnt⟩ := h.edge_alive hta hb htb
    obtain ⟨j', hj', _, hst | ⟨_, hr⟩⟩ := forth hneb hj
    · exact ⟨j', hj', by rw [hst]; exact hnt⟩
    · exact ⟨j', hj', by rw [hr]; rfl⟩
  · intro a b j' ha hb
    obtain ⟨hta, hne⟩ := (isTracked_onCompleted h.placed).mp ha
    rw [rowAt_onCompleted h.placed hta hne]
    rcases back hb with ⟨rfl, rfl⟩ | ⟨_, _, j, hj, _, rfl⟩ | ⟨_, _, hj⟩
    · rw [Job.deps_withState]
      exact h.edge_count hta hid
    · rw [Job.deps_withState]
      exact h.edge_count hta hj
    · exact h.edge_count hta hj
  · intro b j' hb hst
    rcases back hb with ⟨_, rfl⟩ | ⟨_, _, j, _, _, rfl⟩ | ⟨hne, _, hj⟩
    · cases hst
    · cases hst
    · rw [rowAt_onCompleted h.placed (h.blocked_tracked hj hst) hne]
      have h₁ := h.unmet_le hj hst
      have h₂ := h.count_dependentsOf_le (a := id) hj
      have h₃ := hcount j'.deps
      simp only
      omega
  · intro b j' hb hst a ha ja' hja'
    rcases back hb with ⟨_, rfl⟩ | ⟨_, hp, j, hj, hs, rfl⟩ | ⟨_, _, hj⟩
    · cases hst
    · -- the edges of the completed job used up everything still unmet
      obtain ⟨_, _, hle⟩ := (mem_onCompleted h.placed).mp hp
      have h₁ := h.unmet_le hj hs
      have h₂ := h.count_dependentsOf_le (a := id) hj
      have h₃ := hcount j.deps
      have hzero : unmetCount jobs' j.deps = 0 := by omega
      by_contra hnc
      have := List.countP_pos_iff.mpr ⟨a, ha, isUnmet_iff.mpr ⟨ja', hja', hnc⟩⟩
      rw [Job.deps_withState] at this
      rw [unmetCount] at hzero
      omega
    · rcases back hja' with ⟨_, rfl⟩ | ⟨_, _, ja, hja, hsa, rfl⟩ | ⟨_, _, hja⟩
      · rfl
      · rw [h.met hj hst a ha ja hja] at hsa
        cases hsa
      · exact h.met hj hst a ha ja' hja
  · intro b j' hb hst hnt a ha
    rcases back hb with ⟨_, rfl⟩ | ⟨_, _, j, hj, hs, rfl⟩ | ⟨_, _, hj⟩
    · cases hnt
    · exact hissued a (h.deps_issued hj (by rw [hs]; decide) (by rw [hs]; decide) a ha)
    · exact hissued a (h.deps_issued hj hst hnt a ha)

theorem terminate {next : JobState} (h : Sound t jobs) (hid : jobs.get id = some job)
    (hnt : job.state.isTerminal = false) (hnext : next = .failed ∨ next = .cancelled)
    (hget : ∀ x, jobs'.get x = if x = id then some (job.withState next)
      else if x ∈ (t.onTerminated id).2 then (jobs.get x).map (Job.movedTo .cancelled)
      else jobs.get x)
    (hissued : ∀ x, jobs.Issued x → jobs'.Issued x) : Sound (t.onTerminated id).1 jobs' := by
  have hopen : job.state ≠ .completed := by
    intro he
    rw [he] at hnt
    cases hnt
  have hnew : jobs'.get id = some (job.withState next) := by rw [hget, if_pos rfl]
  -- a job afterwards: ended just now, or as before and outside the cascade
  have back : ∀ {x : JobId} {j' : Job}, jobs'.get x = some j' →
      (∃ j, jobs.get x = some j ∧ j'.deps = j.deps ∧ j.state ≠ .completed ∧
        (j'.state = .failed ∨ j'.state = .cancelled)) ∨
      (¬ Reach t [id] x ∧ x ≠ id ∧ jobs.get x = some j') := by
    intro x j' hx
    by_cases he : x = id
    · subst he
      rw [hnew] at hx
      cases Option.some.inj hx
      exact Or.inl ⟨job, hid, rfl, hopen, hnext⟩
    · rw [hget, if_neg he] at hx
      split at hx
      · rename_i hp
        obtain ⟨j, hj, hs⟩ := (h.reach_blocked hid (mem_onTerminated.mp hp).2).resolve_left he
        rw [hj, Option.map_some, Option.some.injEq, Job.movedTo_of_can (by rw [hs]; rfl)] at hx
        exact Or.inl ⟨j, hj, by rw [← hx]; rfl, by rw [hs]; decide, Or.inr (by rw [← hx]; rfl)⟩
      · rename_i hp
        exact Or.inr ⟨fun hr => hp (mem_onTerminated.mpr ⟨he, hr⟩), he, hx⟩
  have forth : ∀ {x : JobId} {j : Job}, jobs.get x = some j → ¬ Reach t [id] x → x ≠ id →
      jobs'.get x = some j := by
    intro x j hx hr he
    rw [hget, if_neg he, if_neg fun hp => hr (mem_onTerminated.mp hp).2, hx]
  have hunmet : ∀ a, isUnmet jobs' a = isUnmet jobs a := by
    intro a
    cases hx : jobs'.get a with
    | some j' =>
      rcases back hx with ⟨j, hj, _, hc, hst⟩ | ⟨_, _, hj⟩
      · have hc' : j'.state ≠ .completed := by
          rcases hst with hst | hst <;> rw [hst] <;> decide
        simp only [isUnmet, hx, hj, hc, hc', decide_false]
      · simp only [isUnmet, hx, hj]
    | none =>
      have hnone : jobs.get a = none := by
        by_cases he : a = id
        · subst he
          rw [hnew] at hx
          cases hx
        · rw [hget, if_neg he] at hx
          split at hx
          · exact Option.map_eq_none_iff.mp hx
          · exact hx
      simp only [isUnmet, hx, hnone]
  refine ⟨placed_onTerminated h.placed id, ?_, ?_, ?_, ?_, ?_, ?_, ?_, ?_⟩
  · intro a j' ha hj'
    rcases back hj' with ⟨_, _, _, _, hst⟩ | ⟨_, _, hj⟩
    · rcases hst with hst | hst <;> rw [hst] <;> decide
    · exact h.owner_open (isTracked_onTerminated.mp ha).1 hj
  · intro b j' hb hst
    rcases back hb with ⟨_, _, _, _, hst'⟩ | ⟨hr, _, hj⟩
    · rcases hst' with hst' | hst' <;> rw [hst'] at hst <;> cases hst
    · exact isTracked_onTerminated.mpr ⟨h.blocked_tracked hj hst, hr⟩
  · intro a b ha hb
    rw [rowAt_onTerminated ha] at hb
    obtain ⟨hi, hsub⟩ := h.edge_known (isTracked_onTerminated.mp ha).1 hb
    refine ⟨hissued b hi, fun j' hj' => ?_⟩
    rcases back hj' with ⟨_, _, _, _, hst⟩ | ⟨_, _, hj⟩
    · rcases hst with hst | hst <;> rw [hst] <;> decide
    · exact hsub j' hj
  · intro a b ha hb htb
    rw [rowAt_onTerminated ha] at hb
    obtain ⟨htb', hr⟩ := isTracked_onTerminated.mp htb
    obtain ⟨j, hj, hnt'⟩ := h.edge_alive (isTracked_onTerminated.mp ha).1 hb htb'
    have hne : b ≠ id := by
      rintro rfl
      exact hr (.root (List.mem_singleton.mpr rfl) htb')
    exact ⟨j, forth hj hr hne, hnt'⟩
  · intro a b j' ha hb
    rw [rowAt_onTerminated ha]
    rcases back hb with ⟨j, hj, hd, _⟩ | ⟨_, _, hj⟩
    · rw [hd]
      exact h.edge_count (isTracked_onTerminated.mp ha).1 hj
    · exact h.edge_count (isTracked_onTerminated.mp ha).1 hj
  · intro b j' hb hst
    rw [unmetCount_congr fun a _ => hunmet a]
    rcases back hb with ⟨_, _, _, _, hst'⟩ | ⟨hr, _, hj⟩
    · rcases hst' with hst' | hst' <;> rw [hst'] at hst <;> cases hst
    · rw [rowAt_onTerminated (isTracked_onTerminated.mpr ⟨h.blocked_tracked hj hst, hr⟩)]
      exact h.unmet_le hj hst
  · intro b j' hb hst a ha ja' hja'
    rcases back hb with ⟨_, _, _, _, hst'⟩ | ⟨_, _, hj⟩
    · rcases hst' with hst' | hst' <;> rw [hst'] at hst <;> cases hst
    · rcases back hja' with ⟨ja, hja, _, hc, _⟩ | ⟨_, _, hja⟩
      · exact absurd (h.met hj hst a ha ja hja) hc
      · exact h.met hj hst a ha ja' hja
  · intro b j' hb hst hnt' a ha
    rcases back hb with ⟨_, _, _, _, hst'⟩ | ⟨_, _, hj⟩
    · rcases hst' with hst' | hst' <;> rw [hst'] at hnt' <;> cases hnt'
    · exact hissued a (h.deps_issued hj hst hnt' a ha)

end Sound

end TaskerRT.Scheduling
