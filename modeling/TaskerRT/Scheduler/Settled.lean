/- module: TaskerRT/Scheduler/Settled
   source: none (abstract layer over crates/tasker-core/src/policy/eligibility.rs)
   digest: Along lawful records, counts and edges stay exact and failures reach all dependents. -/

import TaskerRT.Scheduler.Shift

set_option autoImplicit false

namespace TaskerRT.Scheduling

open Library Domain Cluster Policy Wal DependencyTracker

/-- `x` lists `y` among its dependencies. -/
def DependsOn (jobs : Arena Job) (x y : JobId) : Prop :=
  ∃ job, jobs.get x = some job ∧ y ∈ job.deps

def InState (jobs : Arena Job) (s : JobState) (y : JobId) : Prop :=
  ∃ job, jobs.get y = some job ∧ job.state = s

namespace Book

variable {b b' : Book} {record : Record} {records : List Record} {x y id : JobId} {job : Job}

/-- A valid book of an engine that classifies every job as it comes in: counts and edges are
exact, and a completed job's dependencies have completed. -/
structure Settled (b : Book) : Prop where
  valid : Valid b
  exact_ : Exact b.deps b.jobs
  classified : ∀ x job, b.jobs.get x = some job → job.state ≠ .submitted
  met : ∀ x job, b.jobs.get x = some job → job.state = .completed → ∀ a ∈ job.deps,
    b.jobs.Issued a ∧ ∀ ja, b.jobs.get a = some ja → ja.state = .completed

theorem Settled.posts (hs : Settled b) (h : Lawful b record b') : Settled b' := by
  refine ⟨hs.valid.posts h, exact_posts hs.valid hs.exact_ h, fun x job hjob hst => ?_,
    fun x job hjob hst a ha => ?_⟩
  · have hshift := h.shift hs.valid x
    rw [hjob] at hshift
    generalize hold : b.jobs.get x = old at hshift
    cases hshift with
    | same entry other => exact hs.classified x job hold hst
    | born readiness => cases readiness <;> exact nomatch hst
    | _ => exact nomatch hst
  · -- Either it was completed before, or it just left its worker.
    have hbefore : b.jobs.Issued a ∧ ∀ ja, b.jobs.get a = some ja → ja.state = .completed := by
      have hshift := h.shift hs.valid x
      rw [hjob] at hshift
      generalize hold : b.jobs.get x = old at hshift
      cases hshift with
      | same entry other => exact hs.met x job hold hst a ha
      | @completed j at_ worked =>
        have hcleared := JobState.isCleared_of_onWorker worked
        exact ⟨hs.valid.sound.deps_issued hold (hs.classified x j hold)
          (JobState.not_terminal_of_onWorker worked) a ha,
          hs.valid.sound.met hold hcleared a ha⟩
      | born readiness => cases readiness <;> exact nomatch hst
      | _ => exact nomatch hst
    exact h.1.noted (P := fun j => j.state = .completed)
      (fun {j k} hc hj => by rw [hc.2 (by rw [hj]; rfl)]; exact hj) h.2
      hs.valid.sound.placed hbefore

theorem Settled.blocked_iff (hs : Settled b) (hx : b.jobs.get x = some job)
    (hopen : job.state.isTerminal = false) :
    job.state = .blocked ↔ ∃ dep ∈ job.deps, isPending b.jobs dep = true := by
  constructor
  · intro hst
    exact List.countP_pos_iff.mp (hs.exact_.waits hx hst)
  · intro ⟨dep, hdep, hp⟩
    rcases JobState.cases_of_not_terminal hopen with hst | hst | hst
    · exact absurd hst (hs.classified x job hx)
    · exact hst
    · obtain ⟨target, htarget, hnt⟩ := isPending_iff.mp hp
      rw [hs.valid.sound.met hx hst dep hdep target htarget] at hnt
      exact nomatch hnt

theorem Settled.unsatisfied_eq (hs : Settled b) (hx : b.jobs.get x = some job)
    (hst : job.state = .blocked) :
    b.deps.unsatisfied x = some (pendingCount b.jobs job.deps) := by
  unfold DependencyTracker.unsatisfied
  rw [if_pos (hs.valid.sound.blocked_tracked hx hst),
    hs.exact_.unsatisfied_eq hs.valid.sound hx hst]

theorem Settled.entry (hs : Settled b) (hx : b.jobs.get x = some job)
    (hopen : job.state.isTerminal = false) (hy : y ∈ job.deps) {jy : Job}
    (hjy : b.jobs.get y = some jy) : jy.state = .completed ∨ jy.state.isTerminal = false := by
  rcases JobState.cases_of_not_terminal hopen with hst | hst | hst
  · exact absurd hst (hs.classified x job hx)
  · exact hs.exact_.entry_cases hs.valid.sound hx hst hy hjy
  · exact Or.inl (hs.valid.sound.met hx hst y hy jy hjy)

private theorem Settled.below_completed (hs : Settled b)
    (h : Relation.TransGen (DependsOn b.jobs) x y) :
    InState b.jobs .completed x → ∀ jy, b.jobs.get y = some jy → jy.state = .completed := by
  induction h using Relation.TransGen.head_induction_on with
  | single h =>
    intro ⟨j, hj, hst⟩ jy hjy
    obtain ⟨j', hj', hmem⟩ := h
    obtain rfl := Option.some.inj (hj.symm.trans hj')
    exact (hs.met _ j hj hst y hmem).2 jy hjy
  | @head x z h hrest ih =>
    intro ⟨j, hj, hst⟩
    obtain ⟨j', hj', hmem⟩ := h
    obtain rfl := Option.some.inj (hj.symm.trans hj')
    -- The path goes on from `z`, so `z` is live.
    obtain ⟨jz, hjz, -⟩ : ∃ jz, b.jobs.get z = some jz ∧ True := by
      rcases Relation.TransGen.head'_iff.mp hrest with ⟨w, ⟨jz, hjz, -⟩, -⟩
      exact ⟨jz, hjz, trivial⟩
    exact ih ⟨jz, hjz, (hs.met x j hj hst z hmem).2 jz hjz⟩

/-- An open job that lists a pending dependency is blocked, behind an edge from it. -/
private theorem Settled.edge (hs : Settled b) (hx : b.jobs.get x = some job)
    (hopen : job.state.isTerminal = false) (hy : y ∈ job.deps)
    (hp : isPending b.jobs y = true) : job.state = .blocked ∧ b.deps.isTracked y = true ∧
      x ∈ (b.deps.rowAt y.slot).dependents ∧ b.deps.isTracked x = true := by
  have hst := (hs.blocked_iff hx hopen).mpr ⟨y, hy, hp⟩
  obtain ⟨ht, hle⟩ := hs.exact_.edge hx hst hy hp
  have hpos := List.count_pos_iff.mpr hy
  exact ⟨hst, ht, List.count_pos_iff.mp (by omega), hs.valid.sound.blocked_tracked hx hst⟩

/-- The tracker reaches every open job that depends on an open one, however indirectly. -/
theorem Settled.reach (hs : Settled b) (hy : isPending b.jobs y = true)
    (h : Relation.TransGen (DependsOn b.jobs) x y) : ∀ job, b.jobs.get x = some job →
      job.state.isTerminal = false → job.state = .blocked ∧ Reach b.deps [y] x := by
  induction h using Relation.TransGen.head_induction_on with
  | single h =>
    intro job hx hopen
    obtain ⟨j, hj, hmem⟩ := h
    obtain rfl := Option.some.inj (hx.symm.trans hj)
    obtain ⟨hst, ht, hedge, htx⟩ := hs.edge hx hopen hmem hy
    exact ⟨hst, .edge (.root (List.mem_singleton_self y) ht) hedge htx⟩
  | @head x z h hrest ih =>
    intro job hx hopen
    obtain ⟨j, hj, hmem⟩ := h
    obtain rfl := Option.some.inj (hx.symm.trans hj)
    obtain ⟨w, ⟨jz, hjz, -⟩, -⟩ := Relation.TransGen.head'_iff.mp hrest
    rcases hs.entry hx hopen hmem hjz with hdone | hzopen
    · -- A completed job cannot depend on an open one.
      obtain ⟨jy, hjy, hnt⟩ := isPending_iff.mp hy
      rw [hs.below_completed hrest ⟨jz, hjz, hdone⟩ jy hjy] at hnt
      exact nomatch hnt
    · obtain ⟨-, hreach⟩ := ih jz hjz hzopen
      obtain ⟨hst, -, hedge, htx⟩ := hs.edge hx hopen hmem (isPending_iff.mpr ⟨jz, hjz, hzopen⟩)
      exact ⟨hst, .edge hreach hedge htx⟩

private theorem reach_trans {t : DependencyTracker} (hx : Reach t [id] x) (h : Reach t [x] y) :
    Reach t [id] y := by
  induction h with
  | root hv _ => exact List.mem_singleton.mp hv ▸ hx
  | edge _ hw ht ih => exact .edge ih hw ht

/-- `y` is live, and failed or cancelled. -/
def Dead (jobs : Arena Job) (y : JobId) : Prop :=
  InState jobs .failed y ∨ InState jobs .cancelled y

private theorem Lawful.dies (h : Lawful b record b') (hv : Valid b) (hy : b.jobs.get y = some job)
    (hopen : job.state.isTerminal = false) (hdead : Dead b'.jobs y) :
    ∃ id at_, record = .failed id at_ ∨ record = .cancelled id at_ := by
  have hshift := h.shift hv y
  rw [hy] at hshift
  unfold Dead InState at hdead
  generalize b'.jobs.get y = new at hshift hdead
  cases hshift with
  | same entry other =>
    rcases hdead with ⟨j, hj, hst⟩ | ⟨j, hj, hst⟩ <;> obtain rfl := Option.some.inj hj <;>
      rw [hst] at hopen <;> exact nomatch hopen
  | failed at_ => exact ⟨y, at_, Or.inl rfl⟩
  | cancelled at_ => exact ⟨y, at_, Or.inr rfl⟩
  | @doomed id _ _ at_ other cause => exact ⟨id, at_, cause⟩
  | forgotten ended =>
    rw [hopen] at ended
    exact nomatch ended
  | _ => simp at hdead

private theorem cancelled_below {next : JobState} {jobId : Job}
    (hid : b.jobs.get id = some jobId) (hy : isPending b.jobs y = true)
    (hdead : Dead (b.terminate id jobId next).jobs y) (hx : b.jobs.get x = some job)
    (hst : job.state = .blocked) (hreach : Reach b.deps [y] x) (hself : x = id → next = .cancelled) :
    InState (b.terminate id jobId next).jobs .cancelled x := by
  by_cases hxid : x = id
  · exact ⟨_, by rw [get_terminate hid, if_pos hxid], hself hxid⟩
  · have hroot : Reach b.deps [id] x := by
      by_cases hyid : y = id
      · exact hyid ▸ hreach
      · refine reach_trans (mem_onTerminated.mp ?_).2 hreach
        by_contra hmem
        -- Outside the cascade `y` would still be open.
        obtain ⟨jy, hjy, hnt⟩ := isPending_iff.mp hy
        have hsame : (b.terminate id jobId next).jobs.get y = some jy := by
          rw [get_terminate hid, if_neg hyid, if_neg hmem, hjy]
        rcases hdead with ⟨j, hj, hj'⟩ | ⟨j, hj, hj'⟩ <;>
          obtain rfl := Option.some.inj (hsame.symm.trans hj) <;> rw [hj'] at hnt <;>
          exact nomatch hnt
    refine ⟨job.withState .cancelled, ?_, rfl⟩
    rw [get_terminate hid, if_neg hxid, if_pos (mem_onTerminated.mpr ⟨hxid, hroot⟩), hx,
      Option.map_some, Job.movedTo_of_can (by rw [hst]; rfl)]

private theorem Settled.cascades (hs : Settled b) (h : Lawful b record b')
    (hy : isPending b.jobs y = true) (hdead : Dead b'.jobs y)
    (hpath : Relation.TransGen (DependsOn b.jobs) x y) (hx : b.jobs.get x = some job)
    (hopen : job.state.isTerminal = false) : InState b'.jobs .cancelled x := by
  obtain ⟨hst, hreach⟩ := hs.reach hy hpath job hx hopen
  obtain ⟨jy, hjy, hnt⟩ := isPending_iff.mp hy
  obtain ⟨id, at_, rfl | rfl⟩ := h.dies hs.valid hjy hnt hdead
  · cases h.1 with
    | failed at_ live state =>
      refine cancelled_below live hy hdead hx hst hreach fun hxid => ?_
      -- What fails is on a worker, and `x` is blocked.
      obtain rfl := Option.some.inj (hx.symm.trans (hxid ▸ live))
      rw [hst] at state
      exact nomatch state
  · cases h.1 with
    | cancelled at_ live state => exact cancelled_below live hy hdead hx hst hreach fun _ => rfl

theorem Posts.stays (h : Posts b record b') (hplaced : b.deps.OwnersPlaced)
    (hx : b.jobs.get x = some job) (hne : record ≠ .forgotten x) :
    ∃ job', b'.jobs.get x = some job' ∧ Continues job job' := by
  rcases h.frame hplaced x with hsame | ⟨j, k, hj, hk, hcont⟩ | ⟨j, k, -, hnext, -⟩ | ⟨hrec, -⟩
  · exact ⟨job, hsame.trans hx, .refl job⟩
  · obtain rfl := Option.some.inj (hx.symm.trans hj)
    exact ⟨k, hk, hcont⟩
  · rw [Arena.get_nextId hnext] at hx
    exact nomatch hx
  · exact absurd hrec hne

private theorem stays_over (h : Chain Lawful b records b') (hover : job.state.isTerminal = true) :
    Valid b → .forgotten x ∉ records → b.jobs.get x = some job → b'.jobs.get x = some job := by
  induction h with
  | nil => exact fun _ _ hx => hx
  | cons head _ ih =>
    intro hv hno hx
    obtain ⟨hhead, htail⟩ := not_or.mp (mt List.mem_cons.mpr hno)
    exact ih (hv.posts head) htail
      (head.1.over hv.sound.placed hx hover fun he => hhead he.symm)

/-- Along records that forget nothing, a job that dies takes everything open below it along. -/
theorem Settled.cascades_run (h : Chain Lawful b records b') :
    Settled b → (∀ id, .forgotten id ∉ records) → ∀ job, b.jobs.get x = some job →
      job.state.isTerminal = false → isPending b.jobs y = true →
      Relation.TransGen (DependsOn b.jobs) x y → Dead b'.jobs y →
      InState b'.jobs .cancelled x := by
  induction h with
  | nil b =>
    intro _ _ job _ _ hy _ hdead
    obtain ⟨jy, hjy, hnt⟩ := isPending_iff.mp hy
    rcases hdead with ⟨j, hj, hst⟩ | ⟨j, hj, hst⟩ <;>
      obtain rfl := Option.some.inj (hjy.symm.trans hj) <;> rw [hst] at hnt <;> exact nomatch hnt
  | @cons b b₁ b' record records head tail ih =>
    intro hs hno job hx hopen hy hpath hdead
    have hplaced := hs.valid.sound.placed
    have hno' : ∀ id, .forgotten id ∉ records := fun id hmem =>
      hno id (List.mem_cons_of_mem _ hmem)
    have hne : ∀ id, record ≠ .forgotten id := fun id he => hno id (he ▸ List.mem_cons_self)
    have hs₁ := hs.posts head
    have hkeep : InState b₁.jobs .cancelled x → InState b'.jobs .cancelled x := by
      rintro ⟨j, hj, hst⟩
      exact ⟨j, stays_over tail (by rw [hst]; rfl) hs₁.valid (hno' x) hj, hst⟩
    obtain ⟨jy, hjy, hnt⟩ := isPending_iff.mp hy
    obtain ⟨jy₁, hjy₁, -⟩ := head.1.stays hplaced hjy (hne y)
    obtain ⟨job₁, hx₁, hcont⟩ := head.1.stays hplaced hx (hne x)
    cases hover : jy₁.state.isTerminal with
    | true =>
      -- `y` is over now, so it stays as it is until the end and must be dead already.
      have hlast := stays_over tail hover hs₁.valid (hno' y) hjy₁
      have hdead₁ : Dead b₁.jobs y := by
        rcases hdead with ⟨j, hj, hst⟩ | ⟨j, hj, hst⟩ <;>
          obtain rfl := Option.some.inj (hlast.symm.trans hj)
        · exact Or.inl ⟨_, hjy₁, hst⟩
        · exact Or.inr ⟨_, hjy₁, hst⟩
      exact hkeep (hs.cascades head hy hdead₁ hpath hx hopen)
    | false =>
      cases hover' : job₁.state.isTerminal with
      | true =>
        -- `x` was blocked, so it can only have been cancelled.
        obtain ⟨hst, -⟩ := hs.reach hy hpath job hx hopen
        have hshift := head.shift hs.valid x
        rw [hx, hx₁] at hshift
        refine hkeep ⟨job₁, hx₁, ?_⟩
        cases hshift with
        | same entry other => rw [hopen] at hover'; exact nomatch hover'
        | completed at_ worked | failed at_ worked => rw [hst] at worked; exact nomatch worked
        | cancelled | doomed => rfl
        | _ => exact nomatch hover'
      | false =>
        refine ih hs₁ hno' job₁ hx₁ hover' (isPending_iff.mpr ⟨jy₁, hjy₁, hover⟩) ?_ hdead
        refine hpath.lift (fun u => u) fun u v ⟨j, hj, hmem⟩ => ?_
        obtain ⟨j₁, hj₁, hc⟩ := head.1.stays hplaced hj (hne u)
        exact ⟨j₁, hj₁, by rw [deps_of_core hc.1]; exact hmem⟩

/-- A record that settles something: only commands cause these. -/
def isOutcome : Record → Bool
  | .submitted _ _ | .completed _ _ | .failed _ _ | .cancelled _ _ => true
  | _ => false

/-- Without such a record, a job is over only if it was over before, in the same state. -/
theorem over_before (h : Chain Lawful b records b') : Valid b →
    (∀ r ∈ records, isOutcome r = false) → ∀ job, b'.jobs.get x = some job →
      job.state.isTerminal = true → b.jobs.get x = some job := by
  induction h with
  | nil => exact fun _ _ _ hx _ => hx
  | cons head _ ih =>
    intro hv hquiet job hx hover
    have hx₁ := ih (hv.posts head) (fun r hr => hquiet r (List.mem_cons_of_mem _ hr)) job hx hover
    have hhead := hquiet _ List.mem_cons_self
    have hshift := head.shift hv x
    rw [hx₁] at hshift
    generalize hold : Arena.get _ x = old at hshift
    cases hshift with
    | same entry other => rfl
    | born | completed | failed | cancelled => exact nomatch hhead
    | doomed at_ other cause => rcases cause with rfl | rfl <;> exact nomatch hhead
    | _ => exact nomatch hover

/-- Every dependency of a job that is not dead is live, or has been seen completed. -/
def Seen (seen : JobId → Prop) (b : Book) : Prop :=
  ∀ x job, b.jobs.get x = some job → ¬ Dead b.jobs x → ∀ a ∈ job.deps,
    (∃ ja, b.jobs.get a = some ja) ∨ seen a

private theorem Settled.completed_entry (hs : Settled b) (hx : b.jobs.get x = some job)
    (hlive : ¬ Dead b.jobs x) (hy : y ∈ job.deps) {jy : Job} (hjy : b.jobs.get y = some jy)
    (hover : jy.state.isTerminal = true) : jy.state = .completed := by
  cases hst : job.state.isTerminal with
  | false =>
    rcases hs.entry hx hst hy hjy with hdone | hopen
    · exact hdone
    · rw [hopen] at hover
      exact nomatch hover
  | true =>
    have hdone : job.state = .completed := by
      cases hstate : job.state with
      | completed => rfl
      | failed => exact absurd (Or.inl ⟨job, hx, hstate⟩) hlive
      | cancelled => exact absurd (Or.inr ⟨job, hx, hstate⟩) hlive
      | _ => rw [hstate] at hst; exact nomatch hst
    exact (hs.met x job hx hdone y hy).2 jy hjy

private theorem Seen.posts {seen : JobId → Prop} (hseen : Seen seen b) (hs : Settled b)
    (h : Lawful b record b')
    (hforgot : ∀ a, record = .forgotten a → InState b.jobs .completed a → seen a) :
    Seen seen b' := by
  intro x job hx hlive a ha
  have hplaced := hs.valid.sound.placed
  -- A dependency that was live is live, or it was completed and has just been forgotten.
  have hkeep : ∀ {j : Job}, b.jobs.get x = some j → ¬ Dead b.jobs x → a ∈ j.deps →
      (∃ ja, b'.jobs.get a = some ja) ∨ seen a := by
    intro j hj hlive' ha'
    rcases hseen x j hj hlive' a ha' with ⟨ja, hja⟩ | hdone
    · by_cases hrec : record = .forgotten a
      · right
        subst hrec
        cases h.1 with
        | @forgotten _ ja' live state =>
          exact hforgot a rfl ⟨ja', live, hs.completed_entry hj hlive' ha' live state⟩
      · obtain ⟨ja', hja', -⟩ := h.1.stays hplaced hja hrec
        exact Or.inl ⟨ja', hja'⟩
    · exact Or.inr hdone
  rcases h.1.frame hplaced x with hsame | ⟨j, k, hj, hk, hcont⟩ | ⟨j, k, hrec, hnext, hk, hcore⟩ |
    ⟨-, hnone⟩
  · refine hkeep (hsame ▸ hx) (fun hdead => hlive ?_) ha
    unfold Dead InState at hdead ⊢
    rwa [hsame]
  · obtain rfl := Option.some.inj (hk.symm.trans hx)
    refine hkeep hj (fun hdead => hlive ?_) (deps_of_core hcont.1 ▸ ha)
    rcases hdead with ⟨j', hj', hst⟩ | ⟨j', hj', hst⟩ <;>
      obtain rfl := Option.some.inj (hj.symm.trans hj')
    · exact Or.inl ⟨j, hcont.2 (by rw [hst]; rfl) ▸ hk, hst⟩
    · exact Or.inr ⟨j, hcont.2 (by rw [hst]; rfl) ▸ hk, hst⟩
  · left
    subst hrec
    cases h.1 with
    | @submitted jobs _ _ deps readiness fresh state account registered =>
      have hget : jobs.get x = some j := by rw [Arena.get_insert fresh, if_pos rfl]
      have hnew : (jobs.modify x fun _ => j.withState (Scheduler.stateOf readiness)).get x =
          some (j.withState (Scheduler.stateOf readiness)) := by
        rw [Arena.get_modify_self, hget]
        rfl
      obtain rfl := Option.some.inj (hnew.symm.trans hx)
      have hnc : readiness ≠ .cancelled := by
        rintro rfl
        exact hlive (Or.inr ⟨_, hnew, rfl⟩)
      obtain ⟨hclass, -⟩ := register_spec registered hget
      obtain ⟨hne, ja, hja, -⟩ := ((classify_eq_ok hnc).mp hclass).1 a ha
      exact ⟨ja, by rw [Arena.get_modify_ne _ hne, hja]⟩
  · rw [hnone] at hx
    exact nomatch hx

/-- The same along records that forget nothing, or that only forget what was over before. -/
theorem Seen.run {seen : JobId → Prop} (h : Chain Lawful b records b') : Settled b →
    Seen seen b → ((∀ id, .forgotten id ∉ records) ∨ (∀ r ∈ records, isOutcome r = false) ∧
      ∀ a, InState b.jobs .completed a → seen a) → Seen seen b' := by
  induction h with
  | nil => exact fun _ hseen _ => hseen
  | @cons b b₁ b' record records head tail ih =>
    intro hs hseen hcase
    have hs₁ := hs.posts head
    rcases hcase with hno | ⟨hquiet, hdone⟩
    · refine ih hs₁ (hseen.posts hs head fun a he => ?_) (Or.inl fun id hmem =>
        hno id (List.mem_cons_of_mem _ hmem))
      exact absurd (he ▸ List.mem_cons_self) (hno a)
    · refine ih hs₁ (hseen.posts hs head fun a _ => hdone a) (Or.inr ⟨fun r hr =>
        hquiet r (List.mem_cons_of_mem _ hr), fun a ⟨ja, hja, hst⟩ => hdone a ⟨ja, ?_, hst⟩⟩)
      refine over_before (.single head) hs.valid (fun r hr => ?_) ja hja (by rw [hst]; rfl)
      exact hquiet r (List.mem_singleton.mp hr ▸ List.mem_cons_self)

theorem Settled.run (hs : Settled b) (h : Chain Lawful b records b') : Settled b' :=
  h.keeps (fun _ _ _ h hs => hs.posts h) hs

end Book

end TaskerRT.Scheduling
