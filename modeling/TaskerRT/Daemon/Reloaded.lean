/- module: TaskerRT/Daemon/Reloaded
   source: crates/taskerd/src/engine.rs (restore_snapshot), crates/tasker-core/src/policy/eligibility.rs
   digest: Which snapshots of a settled book load, what they load to, and which edges are lost. -/

import TaskerRT.Daemon.Eligible
import TaskerRT.Daemon.Restored
import TaskerRT.Domain.Mapped

set_option autoImplicit false

namespace TaskerRT.Daemon

open Library Domain Cluster Policy Scheduling Wal Book DependencyTracker

/-- What classifying a reopened job again makes of it: whatever was past its dependencies queues. -/
def reclassified (job : Job) : Job :=
  if job.state.isCleared then job.withState .ready else job

/-- What a whole restore makes of a job: running ones run on, one in its grace queues again. -/
def resumed (job : Job) : Job :=
  if job.state = .preempted then job.withState .ready else job

private theorem isTerminal_reopen (job : Job) :
    (Roster.reopen job).state.isTerminal = job.state.isTerminal := by
  unfold Roster.reopen
  split
  · rfl
  · rename_i hopen
    rw [Job.state_withState, Bool.eq_false_iff.mpr hopen]
    rfl

private theorem isTerminal_reclassified (job : Job) :
    (reclassified job).state.isTerminal = job.state.isTerminal := by
  unfold reclassified
  split
  · rename_i hcleared
    rw [Job.state_withState]
    revert hcleared
    cases job.state <;> simp [JobState.isCleared, JobState.isTerminal]
  · rfl

private theorem reopen_of_open {job : Job} (h : job.state.isTerminal = false) :
    Roster.reopen job = job.withState .submitted := by
  unfold Roster.reopen
  rw [h]
  rfl

private theorem reopen_of_terminal {job : Job} (h : job.state.isTerminal = true) :
    Roster.reopen job = job := by
  unfold Roster.reopen
  rw [if_pos h]

private theorem reclassified_of_terminal {job : Job} (h : job.state.isTerminal = true) :
    reclassified job = job := by
  unfold reclassified
  rw [if_neg]
  intro hcleared
  revert h hcleared
  cases job.state <;> decide

end TaskerRT.Daemon

namespace TaskerRT.Scheduling.Book

open Library Domain Cluster Policy Wal DependencyTracker Daemon

variable {b : Book} {x a : JobId} {job : Job}

/-- Every dependency an open job lists is still live. -/
def Rooted (b : Book) : Prop :=
  ∀ x job, b.jobs.get x = some job → job.state.isTerminal = false → ∀ d ∈ job.deps,
    ∃ target, b.jobs.get d = some target

/-- The open job `x` lists `d`, which is gone. -/
def Orphaned (b : Book) (x d : JobId) : Prop :=
  ∃ job, b.jobs.get x = some job ∧ job.state.isTerminal = false ∧ d ∈ job.deps ∧
    b.jobs.get d = none

/-- Whatever a blocked job still waits for sits in a lower slot. -/
def SlotOrdered (b : Book) : Prop :=
  ∀ x job, b.jobs.get x = some job → job.state = .blocked → ∀ a ∈ job.deps,
    isPending b.jobs a = true → a.slot < x.slot

def NoSelfDeps (b : Book) : Prop :=
  ∀ x job, b.jobs.get x = some job → job.state.isTerminal = false → x ∉ job.deps

/-- An open job was open before and lists what it listed, or has just come in and lists live jobs
other than itself. -/
theorem Posts.open_cases {b' : Book} {record : Record} (h : Posts b record b')
    (hplaced : b.deps.OwnersPlaced) (hx : b'.jobs.get x = some job)
    (hopen : job.state.isTerminal = false) :
    (∃ j, b.jobs.get x = some j ∧ j.state.isTerminal = false ∧ job.deps = j.deps) ∨
      b.jobs.nextId = some x ∧ ∀ d ∈ job.deps, d ≠ x ∧ ∃ target, b.jobs.get d = some target := by
  rcases h.frame hplaced x with hsame | ⟨j, k, hj, hk, hcont⟩ | ⟨j, k, hrec, hnext, -, -⟩ |
    ⟨-, hnone⟩
  · exact Or.inl ⟨job, hsame ▸ hx, hopen, rfl⟩
  · obtain rfl := Option.some.inj (hx.symm.trans hk)
    refine Or.inl ⟨j, hj, ?_, deps_of_core hcont.1⟩
    cases hover : j.state.isTerminal with
    | false => rfl
    | true =>
      rw [hcont.2 hover, hover] at hopen
      cases hopen
  · refine Or.inr ⟨hnext, fun d hd => ?_⟩
    cases h with
    | @submitted jobs id job' deps readiness fresh state account registered =>
      obtain ⟨rfl, rfl⟩ := Record.submitted.inj hrec
      have hid : jobs.get id = some job' := by rw [Arena.get_insert fresh, if_pos rfl]
      have hnew : (jobs.modify id fun _ => job'.withState (Scheduler.stateOf readiness)).get id =
          some (job'.withState (Scheduler.stateOf readiness)) := by
        rw [Arena.get_modify_self, hid]
        rfl
      obtain rfl := Option.some.inj (hnew.symm.trans hx)
      obtain ⟨hclass, hcases⟩ := register_spec registered hid
      rcases hcases with ⟨rfl, -⟩ | ⟨hr, -⟩
      · -- A job doomed on arrival is over.
        cases hopen
      · obtain ⟨hne, target, htarget, -⟩ := ((classify_eq_ok hr).mp hclass).1 d hd
        rw [Arena.get_insert fresh, if_neg hne] at htarget
        exact ⟨hne, target, htarget⟩
    | _ => cases hrec
  · rw [hnone] at hx
    cases hx

private theorem NoSelfDeps.posts {b' : Book} {record : Record} (hs : b.NoSelfDeps)
    (hplaced : b.deps.OwnersPlaced) (h : Posts b record b') : b'.NoSelfDeps := by
  intro x job hx hopen hmem
  rcases h.open_cases hplaced hx hopen with ⟨j, hj, hjopen, hdeps⟩ | ⟨-, hlisted⟩
  · exact hs x j hj hjopen (hdeps ▸ hmem)
  · exact (hlisted x hmem).1 rfl

theorem NoSelfDeps.run {b' : Book} {records : List Record} (h : Chain Lawful b records b') :
    b.NoSelfDeps → Valid b → b'.NoSelfDeps := by
  induction h with
  | nil => exact fun hs _ => hs
  | cons head _ ih =>
    intro hs hv
    exact ih (hs.posts hv.sound.placed head.1) (hv.posts head)

end TaskerRT.Scheduling.Book

namespace TaskerRT.Daemon

open Library Domain Cluster Policy Scheduling Wal Book DependencyTracker

/-- Classification goes through, or stops at an entry that is dead, the job itself, or gone. -/
private theorem classify_cases (id : JobId) (job : Job) (jobs : Arena Job) :
    (∃ r, classify id job jobs = .ok r ∧ r ≠ .cancelled) ∨
    (∃ dep ∈ job.deps, ∃ target, jobs.get dep = some target ∧
      (target.state = .failed ∨ target.state = .cancelled)) ∨
    ∃ dep ∈ job.deps, (dep = id ∨ jobs.get dep = none) ∧
      classify id job jobs = .error ⟨id, dep⟩ := by
  unfold classify
  generalize 0 = pending
  generalize job.deps = deps
  induction deps generalizing pending with
  | nil =>
    refine Or.inl ⟨_, rfl, ?_⟩
    split <;> decide
  | cons dep deps ih =>
    by_cases hself : dep = id
    · exact Or.inr (Or.inr ⟨dep, List.mem_cons_self, Or.inl hself, if_pos hself⟩)
    unfold classifyLoop
    rw [if_neg hself]
    cases hget : jobs.get dep with
    | none => exact Or.inr (Or.inr ⟨dep, List.mem_cons_self, Or.inr hget, rfl⟩)
    | some target =>
      have later : ∀ n, (∃ r, classifyLoop id jobs deps n = .ok r ∧ r ≠ .cancelled) ∨
          (∃ d ∈ dep :: deps, ∃ target, jobs.get d = some target ∧
            (target.state = .failed ∨ target.state = .cancelled)) ∨
          ∃ d ∈ dep :: deps, (d = id ∨ jobs.get d = none) ∧
            classifyLoop id jobs deps n = .error ⟨id, d⟩ := by
        intro n
        rcases ih n with hok | ⟨d, hd, hrest⟩ | ⟨d, hd, hrest⟩
        · exact Or.inl hok
        · exact Or.inr (Or.inl ⟨d, List.mem_cons_of_mem _ hd, hrest⟩)
        · exact Or.inr (Or.inr ⟨d, List.mem_cons_of_mem _ hd, hrest⟩)
      dsimp only
      split
      · exact later _
      · rename_i hst
        exact Or.inr (Or.inl ⟨dep, List.mem_cons_self, target, hget, Or.inl hst⟩)
      · rename_i hst
        exact Or.inr (Or.inl ⟨dep, List.mem_cons_self, target, hget, Or.inr hst⟩)
      · exact later _

namespace Roster

variable {config : CycleConfig} {b : Book} {r r' : Roster} {at_ : VirtualTime}
  {rest : List (JobId × JobState)} {x : JobId} {state : JobState} {job : Job}

/-- Half way through loading a snapshot of `b`: the jobs still to come are reopened, every other
one is classified again, with the edges that have not been cleared since. -/
structure Reloading (b : Book) (rest : List (JobId × JobState)) (r : Roster) : Prop where
  outline : (r.jobs.map fun _ => PUnit.unit) = b.jobs.map fun _ => PUnit.unit
  get : ∀ x, r.jobs.get x =
    (b.jobs.get x).map (if x ∈ rest.map Prod.fst then reopen else reclassified)
  todo : ∀ p ∈ rest, ∃ job, b.jobs.get p.1 = some job ∧ p.2 = (reopen job).state
  sorted : rest.Pairwise fun p q => p.1.slot < q.1.slot
  order : ∀ x job, b.jobs.get x = some job → x ∉ rest.map Prod.fst → ∀ p ∈ rest,
    x.slot < p.1.slot
  known : ∀ i, ∀ z ∈ (r.scheduler.deps.rowAt i).dependents, z ∉ rest.map Prod.fst
  own : ∀ x job, b.jobs.get x = some job → job.state.isTerminal = false →
    x ∉ rest.map Prod.fst → (r.scheduler.deps.rowAt x.slot).owner = some x ∧
      (r.scheduler.deps.rowAt x.slot).unsatisfied = pendingCount b.jobs job.deps
  edge : ∀ x job, b.jobs.get x = some job → job.state.isTerminal = false →
    x ∉ rest.map Prod.fst → ∀ a ∈ job.deps, isPending b.jobs a = true →
      (r.scheduler.deps.rowAt a.slot).owner = some a ∧
      (r.scheduler.deps.rowAt a.slot).dependents.count x =
        if a.slot < x.slot ∨ a ∈ rest.map Prod.fst then job.deps.count a else 0

private theorem Reloading.live (h : Reloading b rest r) (hx : b.jobs.get x = some job) :
    ∃ j, r.jobs.get x = some j ∧ j.state.isTerminal = job.state.isTerminal ∧
      (job.state.isTerminal = true → j.state = job.state) ∧ j.deps = job.deps := by
  refine ⟨_, by rw [h.get, hx]; rfl, ?_⟩
  split
  · refine ⟨isTerminal_reopen job, fun hover => by rw [reopen_of_terminal hover], ?_⟩
    unfold reopen
    split <;> rfl
  · refine ⟨isTerminal_reclassified job, fun hover => by rw [reclassified_of_terminal hover], ?_⟩
    unfold reclassified
    split <;> rfl

private theorem Reloading.get_none (h : Reloading b rest r) (hx : b.jobs.get x = none) :
    r.jobs.get x = none := by
  rw [h.get, hx]
  rfl

private theorem Reloading.isPending_eq (h : Reloading b rest r) (a : JobId) :
    isPending r.jobs a = isPending b.jobs a := by
  cases ha : b.jobs.get a with
  | none => simp only [isPending, h.get_none ha, ha]
  | some job =>
    obtain ⟨j, hj, hover, -⟩ := h.live ha
    simp only [isPending, hj, ha, hover]

private theorem Reloading.pendingCount_eq (h : Reloading b rest r) (deps : List JobId) :
    pendingCount r.jobs deps = pendingCount b.jobs deps :=
  List.countP_congr fun a _ => by rw [h.isPending_eq]

private theorem Reloading.resolves (h : Reloading b rest r) (hs : Settled b) (hself : b.NoSelfDeps)
    (hx : b.jobs.get x = some job) (hopen : job.state.isTerminal = false) {d : JobId}
    (hd : d ∈ job.deps) {target : Job} (hlive : b.jobs.get d = some target) :
    Resolves r.jobs x d := by
  refine ⟨fun he => hself x job hx hopen (he ▸ hd), ?_⟩
  obtain ⟨j, hj, hover, hsame, -⟩ := h.live hlive
  refine ⟨j, hj, ?_⟩
  rcases hs.entry hx hopen hd hlive with hdone | hnt
  · rw [hsame (by rw [hdone]; rfl), hdone]
    decide
  · rw [hnt] at hover
    constructor <;> intro he <;> rw [he] at hover <;> cases hover

private theorem mem_rest {y : JobId} (hne : y ≠ x) :
    y ∈ ((x, state) :: rest).map Prod.fst ↔ y ∈ rest.map Prod.fst := by
  simp only [List.map_cons, List.mem_cons, hne, false_or]

/-- Whatever is behind the next job, or is the next job, is below what comes after. -/
private theorem Reloading.order_tail (h : Reloading b ((x, state) :: rest) r) :
    ∀ y job, b.jobs.get y = some job → y ∉ rest.map Prod.fst → ∀ p ∈ rest,
      y.slot < p.1.slot := by
  intro y j hy hnot p hp
  by_cases hyx : y = x
  · rw [hyx]
    exact (List.pairwise_cons.mp h.sorted).1 p hp
  · exact h.order y j hy (mt (mem_rest hyx).mp hnot) p (List.mem_cons_of_mem _ hp)

private theorem Reloading.not_later (h : Reloading b ((x, state) :: rest) r) :
    x ∉ rest.map Prod.fst := by
  intro hmem
  obtain ⟨p, hp, hpx⟩ := List.mem_map.mp hmem
  have hlt := (List.pairwise_cons.mp h.sorted).1 p hp
  rw [hpx] at hlt
  exact lt_irrefl _ hlt

private theorem Reloading.skip (h : Reloading b ((x, state) :: rest) r)
    (hx : b.jobs.get x = some job)
    (hover : job.state.isTerminal = true) : Reloading b rest (r.noteTerminal x at_) := by
  have hopen_ne : ∀ {y : JobId} {j : Job}, b.jobs.get y = some j → j.state.isTerminal = false →
      y ≠ x := by
    rintro y j hy hnt rfl
    obtain rfl := Option.some.inj (hx.symm.trans hy)
    rw [hover] at hnt
    cases hnt
  refine ⟨h.outline, fun y => ?_, fun p hp => h.todo p (List.mem_cons_of_mem _ hp),
    (List.pairwise_cons.mp h.sorted).2, h.order_tail, ?_, ?_, ?_⟩
  · show r.jobs.get y = _
    rw [h.get]
    by_cases hyx : y = x
    · subst hyx
      rw [hx, Option.map_some, Option.map_some]
      have hboth : ∀ c : Prop, [Decidable c] →
          (if c then reopen else reclassified) job = job := by
        intro c _
        split
        · exact reopen_of_terminal hover
        · exact reclassified_of_terminal hover
      rw [hboth, hboth]
    · simp only [mem_rest hyx]
  · intro i z hz hmem
    exact h.known i z hz (List.mem_cons_of_mem _ hmem)
  · intro y j hy hnt hnot
    exact h.own y j hy hnt (mt (mem_rest (hopen_ne hy hnt)).mp hnot)
  · intro y j hy hnt hnot a ha hp
    obtain ⟨howner, hcount⟩ := h.edge y j hy hnt (mt (mem_rest (hopen_ne hy hnt)).mp hnot) a ha hp
    -- The entry is pending, so it is not the job skipped.
    obtain ⟨ja, hja, hnta⟩ := isPending_iff.mp hp
    simp only [mem_rest (hopen_ne hja hnta)] at hcount
    exact ⟨howner, hcount⟩

/-- A row of a job classified before the next one keeps its owner, its count and its edges but
for new ones to the next job. -/
private theorem Reloading.row_kept {t : DependencyTracker} {stored : Job}
    (h : Reloading b ((x, state) :: rest) r) (hx : b.jobs.get x = some job)
    (hreg : Registered r.scheduler.deps x stored r.jobs t) {a : JobId} {ja : Job}
    (ha : b.jobs.get a = some ja) (hne : a ≠ x)
    (howner : (r.scheduler.deps.rowAt a.slot).owner = some a) :
    ∃ n, t.rowAt a.slot = { r.scheduler.deps.rowAt a.slot with dependents :=
      (r.scheduler.deps.rowAt a.slot).dependents ++ List.replicate n x } := by
  obtain ⟨jx, hjx, -⟩ := h.live hx
  obtain ⟨j, hj, -⟩ := h.live ha
  exact hreg.row_of_tracked hjx hj hne (isTracked_iff.mpr howner)

private theorem Reloading.register {t : DependencyTracker} {stored : Job}
    (h : Reloading b ((x, state) :: rest) r) (hself : b.NoSelfDeps)
    (hx : b.jobs.get x = some job) (hopen : job.state.isTerminal = false)
    (hdeps : stored.deps = job.deps) (hreg : Registered r.scheduler.deps x stored r.jobs t) :
    (∀ i, ∀ z ∈ (t.rowAt i).dependents, z ∉ rest.map Prod.fst) ∧
    (∀ y j, b.jobs.get y = some j → j.state.isTerminal = false → y ∉ rest.map Prod.fst →
      (t.rowAt y.slot).owner = some y ∧
        (t.rowAt y.slot).unsatisfied = pendingCount b.jobs j.deps) ∧
    (∀ y j, b.jobs.get y = some j → j.state.isTerminal = false → y ∉ rest.map Prod.fst →
      ∀ a ∈ j.deps, isPending b.jobs a = true → (t.rowAt a.slot).owner = some a ∧
        (t.rowAt a.slot).dependents.count y =
          if a.slot < y.slot ∨ a ∈ rest.map Prod.fst then j.deps.count a else 0) := by
  have hnodup := h.not_later
  have hfront : x ∈ ((x, state) :: rest).map Prod.fst := List.mem_cons_self
  -- Nothing is behind the next job yet.
  have hbase : ∀ {a : JobId}, x ∉ (r.scheduler.deps.baseRow a).dependents := by
    intro a hmem
    unfold baseRow at hmem
    split at hmem
    · exact h.known _ x hmem hfront
    · cases hmem
  refine ⟨fun i z hz hmem => ?_, fun y j hy hnt hnot => ?_, fun y j hy hnt hnot a ha hp => ?_⟩
  · by_cases hi : i = x.slot
    · rw [hi, hreg.own] at hz
      cases hz
    · by_cases hex : ∃ d ∈ stored.deps, isPending r.jobs d = true ∧ d.slot = i
      · obtain ⟨d, hd, hpd, rfl⟩ := hex
        rw [hreg.pending d hd hpd] at hz
        rcases List.mem_append.mp hz with hz | hz
        · unfold baseRow at hz
          split at hz
          · exact h.known _ z hz (List.mem_cons_of_mem _ hmem)
          · cases hz
        · rw [List.eq_of_mem_replicate hz] at hmem
          exact hnodup hmem
      · rw [hreg.other i hi fun d hd hpd he => hex ⟨d, hd, hpd, he⟩] at hz
        exact h.known i z hz (List.mem_cons_of_mem _ hmem)
  · by_cases hyx : y = x
    · subst hyx
      obtain rfl := Option.some.inj (hx.symm.trans hy)
      rw [hreg.own, hdeps, h.pendingCount_eq]
      exact ⟨rfl, rfl⟩
    · obtain ⟨howner, hcount⟩ := h.own y j hy hnt (mt (mem_rest hyx).mp hnot)
      obtain ⟨n, hrow⟩ := h.row_kept hx hreg hy hyx howner
      rw [hrow]
      exact ⟨howner, hcount⟩
  · obtain ⟨ja, hja, hnta⟩ := isPending_iff.mp hp
    by_cases hyx : y = x
    · -- The next job's own edges are all there.
      subst hyx
      obtain rfl := Option.some.inj (hx.symm.trans hy)
      have hay : a ≠ y := fun he => hself y job hx hopen (he ▸ ha)
      have hplace : a.slot < y.slot ∨ a ∈ rest.map Prod.fst := by
        by_cases hrest : a ∈ rest.map Prod.fst
        · exact Or.inr hrest
        · exact Or.inl (h.order a ja hja (mt (mem_rest hay).mp hrest) _ List.mem_cons_self)
      rw [hreg.pending a (hdeps ▸ ha) (by rw [h.isPending_eq]; exact hp), if_pos hplace,
        List.count_append, List.count_replicate_self, hdeps,
        List.count_eq_zero_of_not_mem hbase, Nat.zero_add]
      exact ⟨owner_baseRow _ a, rfl⟩
    · have hback : y ∉ ((x, state) :: rest).map Prod.fst := mt (mem_rest hyx).mp hnot
      obtain ⟨howner, hcount⟩ := h.edge y j hy hnt hback a ha hp
      by_cases hax : a = x
      · -- Registering the entry itself clears what was behind it.
        have hbelow : y.slot < x.slot := h.order y j hy hback _ List.mem_cons_self
        rw [hax, hreg.own, if_neg]
        · exact ⟨rfl, rfl⟩
        · rintro (hlt | hmem)
          · exact lt_asymm hlt hbelow
          · exact hnodup hmem
      · obtain ⟨n, hrow⟩ := h.row_kept hx hreg hja hax howner
        simp only [mem_rest hax] at hcount
        rw [hrow]
        refine ⟨howner, ?_⟩
        show ((r.scheduler.deps.rowAt a.slot).dependents ++ List.replicate n x).count y = _
        have hnone : (List.replicate n x).count y = 0 :=
          List.count_eq_zero_of_not_mem fun hmem => hyx (List.eq_of_mem_replicate hmem)
        rw [List.count_append, hnone, hcount, Nat.add_zero]

private theorem withState_classified (hs : Settled b) (hx : b.jobs.get x = some job)
    (hopen : job.state.isTerminal = false) : job.withState (Scheduler.stateOf
      (if pendingCount b.jobs job.deps = 0 then .ready else .blocked)) = reclassified job := by
  unfold reclassified
  by_cases hst : job.state = .blocked
  · have hwait := hs.exact_.waits hx hst
    rw [if_neg (by omega), hst, if_neg (by decide)]
    show job.withState .blocked = job
    rw [← hst]
    rfl
  · have hzero : pendingCount b.jobs job.deps = 0 := by
      by_contra hpos
      have := List.countP_pos_iff.mp (Nat.pos_of_ne_zero hpos)
      exact hst ((hs.blocked_iff hx hopen).mpr this)
    have hcleared : job.state.isCleared = true := by
      rcases JobState.cases_of_not_terminal hopen with h | h | h
      · exact absurd h (hs.classified x job hx)
      · exact absurd h hst
      · exact h
    rw [if_pos hzero, if_pos hcleared]
    rfl

private theorem Reloading.get_next (h : Reloading b ((x, state) :: rest) r)
    (hx : b.jobs.get x = some job) (hopen : job.state.isTerminal = false) :
    r.jobs.get x = some (job.withState .submitted) := by
  have hfront : x ∈ ((x, state) :: rest).map Prod.fst := List.mem_cons_self
  rw [h.get, hx, if_pos hfront, Option.map_some, reopen_of_open hopen]

private theorem Reloading.step (h : Reloading b ((x, state) :: rest) r) (hs : Settled b)
    (hself : b.NoSelfDeps) (hx : b.jobs.get x = some job) (hopen : job.state.isTerminal = false)
    (hroot : ∀ d ∈ job.deps, ∃ target, b.jobs.get d = some target) (at_ : VirtualTime)
    (config : CycleConfig) :
    ∃ state', (r.scheduler.submit x r.jobs at_ config).result = .ok state' ∧
      Reloading b rest
        ((r.adoptStep (r.scheduler.submit x r.jobs at_ config)).noteIf state' x at_) := by
  have hget := h.get_next hx hopen
  let readiness : Readiness := if pendingCount b.jobs job.deps = 0 then .ready else .blocked
  have hlive : readiness ≠ .cancelled := by
    show (if pendingCount b.jobs job.deps = 0 then Readiness.ready else .blocked) ≠ .cancelled
    split <;> decide
  have hclass : classify x (job.withState .submitted) r.jobs = .ok readiness := by
    refine (classify_eq_ok hlive).mpr ⟨fun d hd => ?_, ?_⟩
    · obtain ⟨target, htarget⟩ := hroot d hd
      exact h.resolves hs hself hx hopen hd htarget
    · rw [Job.deps_withState, h.pendingCount_eq]
  obtain ⟨t, hreg⟩ := @register_of_classify r.scheduler.deps _ _ _ _ hclass
  have haccount : job.account.val < maxAccounts := hs.valid.account hx hopen
  obtain ⟨fairshare, hf⟩ := @FairShare.ensure_isOk r.scheduler.fairshare job.account haccount
  have hsubmit := @Scheduler.submit_ok r.scheduler r.jobs x (job.withState .submitted) at_ config t
    readiness fairshare hget rfl hf hreg
  have hnew : (job.withState .submitted).withState (Scheduler.stateOf readiness) =
      reclassified job := withState_classified hs hx hopen
  rw [hnew] at hsubmit
  refine ⟨Scheduler.stateOf readiness, by rw [hsubmit], ?_⟩
  have hrows : Registered r.scheduler.deps x (job.withState .submitted) r.jobs t :=
    ((register_spec hreg hget).2.resolve_left fun hc => hlive hc.1).2
  obtain ⟨hknown, hown, hedge⟩ := h.register hself hx hopen (Job.deps_withState job _) hrows
  have hjobs : ((r.adoptStep (r.scheduler.submit x r.jobs at_ config)).noteIf
      (Scheduler.stateOf readiness) x at_).jobs = r.jobs.modify x fun _ => reclassified job := by
    rw [jobs_noteIf, adoptStep, hsubmit]
  have hsched : ((r.adoptStep (r.scheduler.submit x r.jobs at_ config)).noteIf
      (Scheduler.stateOf readiness) x at_).scheduler.deps = t := by
    rw [scheduler_noteIf, adoptStep, hsubmit]
    exact Scheduler.deps_classified _ _ _ _ _ _ _
  refine ⟨?_, fun y => ?_, fun p hp => h.todo p (List.mem_cons_of_mem _ hp),
    (List.pairwise_cons.mp h.sorted).2, h.order_tail, ?_, ?_, ?_⟩
  · rw [hjobs, Arena.outline_modify]
    exact h.outline
  · rw [hjobs]
    by_cases hyx : y = x
    · rw [hyx, Arena.get_modify_self, hget, hx, if_neg h.not_later]
      rfl
    · rw [Arena.get_modify_ne _ hyx, h.get]
      simp only [mem_rest hyx]
  · rw [hsched]
    exact hknown
  · rw [hsched]
    exact hown
  · rw [hsched]
    exact hedge

private theorem Reloading.refused (h : Reloading b ((x, state) :: rest) r) (hs : Settled b)
    (hself : b.NoSelfDeps) (hx : b.jobs.get x = some job) (hopen : job.state.isTerminal = false)
    {d : JobId} (hd : d ∈ job.deps) (hgone : b.jobs.get d = none) (at_ : VirtualTime)
    (config : CycleConfig) : ∃ dep, b.Orphaned x dep ∧
      (r.scheduler.submit x r.jobs at_ config).result = .error (.dependency ⟨x, dep⟩) := by
  have hget := h.get_next hx hopen
  rcases classify_cases x (job.withState .submitted) r.jobs with ⟨readiness, hclass, hr⟩ |
    ⟨dep, hdep, target, htarget, hdead⟩ | ⟨dep, hdep, hwhy, hclass⟩
  · obtain ⟨-, target, htarget, -⟩ := ((classify_eq_ok hr).mp hclass).1 d hd
    rw [h.get_none hgone] at htarget
    cases htarget
  · -- Nothing an open job lists has failed or was cancelled.
    cases hlive : b.jobs.get dep with
    | none =>
      rw [h.get_none hlive] at htarget
      cases htarget
    | some jd =>
      obtain ⟨j, hj, hover, hsame, -⟩ := h.live hlive
      obtain rfl := Option.some.inj (htarget.symm.trans hj)
      have hterm : jd.state.isTerminal = true := by
        rw [← hover]
        rcases hdead with hst | hst <;> rw [hst] <;> rfl
      rw [hsame hterm] at hdead
      rcases hs.entry hx hopen hdep hlive with hdone | hnt
      · rw [hdone] at hdead
        rcases hdead with hst | hst <;> cases hst
      · rw [hterm] at hnt
        cases hnt
  · have hmissing : r.jobs.get dep = none :=
      hwhy.resolve_left fun he => hself x job hx hopen (he ▸ hdep)
    refine ⟨dep, ⟨job, hx, hopen, hdep, ?_⟩, ?_⟩
    · cases hlive : b.jobs.get dep with
      | none => rfl
      | some jd =>
        obtain ⟨j, hj, -⟩ := h.live hlive
        rw [hmissing] at hj
        cases hj
    · obtain ⟨fairshare, hf⟩ := @FairShare.ensure_isOk r.scheduler.fairshare job.account
        (hs.valid.account hx hopen)
      have hreg : r.scheduler.deps.register x (job.withState .submitted) r.jobs =
          .error ⟨x, dep⟩ := by
        unfold DependencyTracker.register
        rw [hclass]
      unfold Scheduler.submit
      simp only [hget, hreg, show r.scheduler.fairshare.ensure (job.withState .submitted).account =
        .ok fairshare from hf]
      rfl

/-- The jobs of a settled book are all classified again exactly when no open one among them lists
something forgotten. Otherwise the refusal names such a job and what it lists. -/
private theorem Reloading.submitEach (hs : Settled b) (hself : b.NoSelfDeps) (at_ : VirtualTime)
    (config : CycleConfig) : ∀ {r : Roster}, Reloading b rest r →
      ((∃ r', submitEach config at_ rest r = .ok r') ↔ ∀ p ∈ rest, ∀ job,
        b.jobs.get p.1 = some job → job.state.isTerminal = false → ∀ d ∈ job.deps,
          ∃ target, b.jobs.get d = some target) ∧
      (∀ r', submitEach config at_ rest r = .ok r' → Reloading b [] r') ∧
      ∀ err, submitEach config at_ rest r = .error err →
        ∃ x d, b.Orphaned x d ∧ err = .lifecycle (.dependency ⟨x, d⟩) := by
  induction rest with
  | nil =>
    intro r h
    refine ⟨⟨fun _ p hp => absurd hp List.not_mem_nil, fun _ => ⟨r, rfl⟩⟩, fun r' hok => ?_,
      fun _ hno => by cases hno⟩
    obtain rfl := Except.ok.inj hok
    exact h
  | cons p rest ih =>
    intro r h
    obtain ⟨x, state⟩ := p
    obtain ⟨job, hx, hstate⟩ := h.todo _ List.mem_cons_self
    have hover : state.isTerminal = job.state.isTerminal := by
      rw [show state = (reopen job).state from hstate, isTerminal_reopen]
    have hsplit : (∀ p ∈ (x, state) :: rest, ∀ job, b.jobs.get p.1 = some job →
        job.state.isTerminal = false → ∀ d ∈ job.deps, ∃ target, b.jobs.get d = some target) ↔
        (job.state.isTerminal = false → ∀ d ∈ job.deps, ∃ target, b.jobs.get d = some target) ∧
        ∀ p ∈ rest, ∀ job, b.jobs.get p.1 = some job → job.state.isTerminal = false →
          ∀ d ∈ job.deps, ∃ target, b.jobs.get d = some target := by
      rw [List.forall_mem_cons]
      refine and_congr_left' ⟨fun hall => hall job hx, fun hall j hj => ?_⟩
      obtain rfl := Option.some.inj (hx.symm.trans hj)
      exact hall
    unfold Roster.submitEach
    rw [hsplit]
    cases hterm : job.state.isTerminal with
    | true =>
      rw [if_pos (hover.trans hterm)]
      have hnext : Reloading b rest (r.noteTerminal x at_) := h.skip hx hterm
      obtain ⟨hiff, hend⟩ := ih hnext
      exact ⟨hiff.trans ⟨fun hall => ⟨fun hno => absurd hno (by decide), hall⟩, And.right⟩, hend⟩
    | false =>
      rw [if_neg (by rw [hover, hterm]; decide)]
      by_cases hroot : ∀ d ∈ job.deps, ∃ target, b.jobs.get d = some target
      · obtain ⟨state', hok, hnext⟩ := h.step hs hself hx hterm hroot at_ config
        obtain ⟨hiff, hend⟩ := ih hnext
        simp only [hok]
        exact ⟨hiff.trans ⟨fun hall => ⟨fun _ => hroot, hall⟩, And.right⟩, hend⟩
      · obtain ⟨d, hd, hgone⟩ : ∃ d ∈ job.deps, b.jobs.get d = none := by
          by_contra hcon
          refine hroot fun d hd => ?_
          cases hget : b.jobs.get d with
          | none => exact absurd ⟨d, hd, hget⟩ hcon
          | some target => exact ⟨target, rfl⟩
        obtain ⟨dep, horphan, herr⟩ := h.refused hs hself hx hterm hd hgone at_ config
        simp only [herr]
        refine ⟨iff_of_false ?_ fun hall => hroot (hall.1 (by decide)), fun _ hno => ?_,
          fun err hout => ⟨x, dep, horphan, (Except.error.inj hout).symm⟩⟩
        · rintro ⟨r', hno⟩
          cases hno
        · cases hno

private theorem restoreRunningEach_ok (at_ : VirtualTime) (config : CycleConfig)
    {ids : List JobId} :
    ∀ {r : Roster}, ids.Nodup → (∀ x ∈ ids, ∃ job, r.jobs.get x = some job ∧ job.state = .ready) →
      ∃ r', restoreRunningEach config at_ ids r = .ok r' ∧
        r'.scheduler.deps = r.scheduler.deps ∧
        r'.jobs = r.jobs.modifyAll ids (Job.withState · .running) := by
  induction ids with
  | nil => exact fun _ _ => ⟨_, rfl, rfl, rfl⟩
  | cons id ids ih =>
    intro r hnd hready
    obtain ⟨hnot, hnd⟩ := List.nodup_cons.mp hnd
    obtain ⟨job, hid, hst⟩ := hready id List.mem_cons_self
    have hok := @Scheduler.restoreRunning_ok r.scheduler r.jobs id job at_ config hid hst
    have hjobs : (r.jobs.modify id fun _ => job.withState .running) =
        r.jobs.modify id (Job.withState · .running) :=
      Arena.modify_congr fun v hv => by rw [Option.some.inj (hid.symm.trans hv)]
    rw [hjobs] at hok
    obtain ⟨r', hrest, hdeps, hend⟩ := @ih
      (r.adoptStep (r.scheduler.restoreRunning id r.jobs at_ config)) hnd (fun x hx => by
        have hne : x ≠ id := fun he => hnot (he ▸ hx)
        obtain ⟨j, hj, hj'⟩ := hready x (List.mem_cons_of_mem _ hx)
        refine ⟨j, ?_, hj'⟩
        rw [adoptStep, hok]
        show (r.jobs.modify id _).get x = _
        rw [Arena.get_modify_ne _ hne, hj])
    refine ⟨r', ?_, ?_, ?_⟩
    · unfold Roster.restoreRunningEach
      simp only [hok]
      rw [adoptStep, hok] at hrest
      exact hrest
    · rw [hdeps, adoptStep, hok]
      exact (Scheduler.deps_charge _ _ _ _).trans (Scheduler.deps_dequeue _ _ _)
    · rw [hend, adoptStep, hok]
      rfl

private theorem resumed_eq (job : Job) :
    (if job.state = .running then (reclassified job).withState .running else reclassified job) =
      resumed job := by
  obtain ⟨account, priorityClass, submitTime, request, walltimeLimit, deps, payload, state,
    preemptions⟩ := job
  cases state <;> rfl

/-- The arena of a settled book, reopened, is where its classification starts. -/
private theorem reloading_start (hs : Settled b) (r : Roster)
    (hdeps : r.scheduler.deps = DependencyTracker.new) :
    Reloading b (((b.jobs.map reopen).iter).map fun p => (p.1, p.2.state))
      { r with jobs := b.jobs.map reopen } := by
  have hlen := hs.valid.wf.bound
  have hrow : ∀ i, r.scheduler.deps.rowAt i = TrackerRow.vacant := by
    intro i
    rw [hdeps]
    rfl
  have hlist : (((b.jobs.map reopen).iter).map fun p => (p.1, p.2.state)) =
      b.jobs.iter.map fun p => (p.1, (reopen p.2).state) := by
    rw [Arena.iter_map, List.map_map]
    rfl
  have hall : ∀ {x : JobId} {job : Job}, b.jobs.get x = some job →
      x ∈ (b.jobs.iter.map fun p => (p.1, (reopen p.2).state)).map Prod.fst := by
    intro x job hx
    rw [List.map_map]
    exact List.mem_map.mpr ⟨(x, job), (Arena.mem_iter hlen).mpr hx, rfl⟩
  rw [hlist]
  refine ⟨?_, fun x => ?_, fun p hp => ?_, ?_, fun x job hx hnot => absurd (hall hx) hnot, ?_,
    fun x job hx _ hnot => absurd (hall hx) hnot, fun x job hx _ hnot => absurd (hall hx) hnot⟩
  · exact Arena.outline_map reopen b.jobs
  · show (b.jobs.map reopen).get x = _
    rw [Arena.get_map]
    cases hx : b.jobs.get x with
    | none => rfl
    | some job => rw [if_pos (hall hx)]
  · obtain ⟨⟨x, job⟩, hmem, rfl⟩ := List.mem_map.mp hp
    exact ⟨job, (Arena.mem_iter hlen).mp hmem, rfl⟩
  · rw [List.pairwise_map]
    exact Arena.iter_pairwise hlen
  · intro i z hz
    rw [hrow] at hz
    cases hz

/-- A roster loaded from a snapshot of `b`: the arena as it was but for evictions, counts as they
were, and an edge kept only from a lower slot to a higher one. -/
structure Reloads (b : Book) (r : Roster) : Prop where
  jobs : r.jobs = b.jobs.map resumed
  own : ∀ x job, b.jobs.get x = some job → job.state.isTerminal = false →
    (r.scheduler.deps.rowAt x.slot).owner = some x ∧
      (r.scheduler.deps.rowAt x.slot).unsatisfied = pendingCount b.jobs job.deps
  edge : ∀ x job, b.jobs.get x = some job → job.state.isTerminal = false → ∀ a ∈ job.deps,
    isPending b.jobs a = true → (r.scheduler.deps.rowAt a.slot).owner = some a ∧
      (r.scheduler.deps.rowAt a.slot).dependents.count x =
        if a.slot < x.slot then job.deps.count a else 0

/-- A classified arena whose running jobs were put back is the one the snapshot was taken of. -/
private theorem Reloading.reloads (h : Reloading b [] r) (hs : Settled b)
    (hdeps : r'.scheduler.deps = r.scheduler.deps)
    (hjobs : r'.jobs = r.jobs.modifyAll (Engine.runningIds b.jobs) (Job.withState · .running)) :
    Reloads b r' := by
  have hlen := hs.valid.wf.bound
  refine ⟨?_, fun x job hx hopen => ?_, fun x job hx hopen a ha hp => ?_⟩
  · have houtline : (r'.jobs.map fun _ => PUnit.unit) =
        (b.jobs.map resumed).map fun _ => PUnit.unit := by
      rw [hjobs, Arena.outline_modifyAll, h.outline, Arena.outline_map]
    have hsize : r'.jobs.slots.length = b.jobs.slots.length := by
      have := congrArg (fun a => a.slots.length) houtline
      simpa [Arena.map] using this
    refine Arena.ext_get (by omega) houtline fun x => ?_
    have hnodup : (Engine.runningIds b.jobs).Nodup := nodup_iter_state hlen .running
    rw [hjobs, Arena.get_modifyAll hnodup, Arena.get_map, h.get]
    cases hx : b.jobs.get x with
    | none => simp
    | some job =>
      have hmem : x ∈ Engine.runningIds b.jobs ↔ job.state = .running := by
        refine (mem_iter_state hlen).trans ⟨?_, fun hst => ⟨job, hx, hst⟩⟩
        rintro ⟨j, hj, hst⟩
        rw [Option.some.inj (hx.symm.trans hj)]
        exact hst
      simp only [hmem, Option.map_some, List.map_nil, List.not_mem_nil, if_false]
      rw [← resumed_eq job]
      split <;> rfl
  · rw [hdeps]
    exact h.own x job hx hopen List.not_mem_nil
  · rw [hdeps]
    have hedge := h.edge x job hx hopen List.not_mem_nil a ha hp
    simpa only [List.map_nil, List.not_mem_nil, or_false] using hedge

/-- A snapshot of a settled book loads exactly when every dependency of an open job is live; then
the roster it loads to is known. Otherwise the error names an open job and what it lists. -/
theorem restoreSnapshot_settled {snapshot : Snapshot} (hs : Settled b) (hself : b.NoSelfDeps)
    (hdeps : r.scheduler.deps = DependencyTracker.new) (hslots : snapshot.slots = b.jobs.slots)
    (hfree : snapshot.freeHead = b.jobs.freeHead)
    (hrunning : snapshot.running = Engine.runningIds b.jobs)
    (hledgers : snapshot.ledgers.length ≤ maxAccounts) (config : CycleConfig) :
    ((∃ r' at_, r.restoreSnapshot config snapshot = .ok (r', at_)) ↔ b.Rooted) ∧
    (∀ r' at_, r.restoreSnapshot config snapshot = .ok (r', at_) → Reloads b r' ∧
      r'.scheduler.fairshare.ledgers = snapshot.ledgers ∧ at_ = snapshot.takenAt) ∧
    ∀ err, r.restoreSnapshot config snapshot = .error err →
      ∃ x d, b.Orphaned x d ∧ err = .lifecycle (.dependency ⟨x, d⟩) := by
  have hlen := hs.valid.wf.bound
  have hparts : Arena.fromParts (snapshot.slots.map (Slot.map reopen)) snapshot.freeHead =
      .ok (b.jobs.map reopen) := by
    rw [hslots, hfree]
    exact (hs.valid.wf.map reopen).fromParts_eq
  have hstart := reloading_start hs r hdeps
  obtain ⟨hiff, hend, hnamed⟩ := hstart.submitEach hs hself snapshot.takenAt config
  -- What the loop goes through is what is live.
  have hroot : (∀ p ∈ ((b.jobs.map reopen).iter).map fun p => (p.1, p.2.state), ∀ job,
      b.jobs.get p.1 = some job → job.state.isTerminal = false → ∀ d ∈ job.deps,
        ∃ target, b.jobs.get d = some target) ↔ b.Rooted := by
    constructor
    · intro hall x job hx
      refine hall (x, (reopen job).state) ?_ job hx
      rw [Arena.iter_map, List.map_map]
      exact List.mem_map.mpr ⟨(x, job), (Arena.mem_iter hlen).mpr hx, rfl⟩
    · exact fun hall p _ job hx => hall p.1 job hx
  have hready : ∀ {r₁ : Roster}, Reloading b [] r₁ → ∀ x ∈ snapshot.running,
      ∃ job, r₁.jobs.get x = some job ∧ job.state = .ready := by
    intro r₁ h₁ x hx
    rw [hrunning] at hx
    obtain ⟨job, hget, hst⟩ := (mem_iter_state hlen).mp hx
    refine ⟨reclassified job, ?_, ?_⟩
    · rw [h₁.get, hget]
      rfl
    · unfold reclassified
      rw [hst]
      rfl
  have hnodup : snapshot.running.Nodup := hrunning ▸ nodup_iter_state hlen .running
  -- Once all are classified, nothing else can go wrong.
  have hloads : ∀ r₁, submitEach config snapshot.takenAt
      ((b.jobs.map reopen).iter.map fun p => (p.1, p.2.state)) { r with jobs := b.jobs.map reopen } =
        .ok r₁ → ∃ r' at_, r.restoreSnapshot config snapshot = .ok (r', at_) := by
    intro r₁ hsubmit
    obtain ⟨r₂, hrun, -⟩ := restoreRunningEach_ok snapshot.takenAt config hnodup
      (hready (hend r₁ hsubmit))
    obtain ⟨scheduler, hrestore⟩ : ∃ scheduler,
        r₂.scheduler.restoreLedgers snapshot.ledgers = .ok scheduler := by
      unfold Scheduler.restoreLedgers FairShare.restore
      rw [if_neg (Nat.not_lt.mpr hledgers)]
      exact ⟨_, rfl⟩
    exact ⟨_, _, restoreSnapshot_eq_ok.mpr
      ⟨_, r₁, r₂, _, hparts, hsubmit, hrun, hrestore, rfl, rfl⟩⟩
  refine ⟨(Iff.trans ?_ hiff).trans hroot, fun r' at_ hok => ?_, fun err hout => ?_⟩
  · constructor
    · rintro ⟨r', at_, hok⟩
      obtain ⟨jobs, r₁, r₂, scheduler, hparts', hsubmit, -⟩ := restoreSnapshot_eq_ok.mp hok
      obtain rfl := Except.ok.inj (hparts.symm.trans hparts')
      exact ⟨r₁, hsubmit⟩
    · exact fun ⟨r₁, hsubmit⟩ => hloads r₁ hsubmit
  · obtain ⟨jobs, r₁, r₂, scheduler, hparts', hsubmit, hrun, hrestore, rfl, rfl⟩ :=
      restoreSnapshot_eq_ok.mp hok
    obtain rfl := Except.ok.inj (hparts.symm.trans hparts')
    have h₁ := hend r₁ hsubmit
    obtain ⟨r₂', hrun', hdeps₂, hjobs₂⟩ := restoreRunningEach_ok snapshot.takenAt config hnodup
      (hready h₁)
    obtain rfl := Except.ok.inj (hrun'.symm.trans hrun)
    obtain ⟨-, -, hdeps₃, hledgers₃⟩ := restoreLedgers_eq_ok hrestore
    refine ⟨h₁.reloads hs (hdeps₃.trans hdeps₂) ?_, hledgers₃, rfl⟩
    rw [← hrunning]
    exact hjobs₂
  · refine hnamed err ?_
    cases hsubmit : submitEach config snapshot.takenAt
        ((b.jobs.map reopen).iter.map fun p => (p.1, p.2.state))
        { r with jobs := b.jobs.map reopen } with
    | ok r₁ =>
      obtain ⟨r', at_, hok⟩ := hloads r₁ hsubmit
      rw [hok] at hout
      cases hout
    | error err' =>
      unfold restoreSnapshot at hout
      simp only [hparts, hsubmit] at hout
      exact congrArg Except.error (Except.error.inj hout)

theorem isTerminal_resumed (job : Job) :
    (resumed job).state.isTerminal = job.state.isTerminal := by
  unfold resumed
  split
  · rename_i hst
    rw [hst]
    rfl
  · rfl

theorem deps_resumed (job : Job) : (resumed job).deps = job.deps := by
  unfold resumed
  split <;> rfl

theorem blocked_resumed {job : Job} : (resumed job).state = .blocked ↔ job.state = .blocked := by
  unfold resumed
  split
  · rename_i hst
    refine iff_of_false (fun h => ?_) (by rw [hst]; decide)
    cases h
  · rfl

private theorem resumed_of_terminal (h : job.state.isTerminal = true) : resumed job = job := by
  unfold resumed
  rw [if_neg]
  intro hst
  rw [hst] at h
  cases h

theorem Reloads.get (h : Reloads b r) (x : JobId) : r.jobs.get x = (b.jobs.get x).map resumed := by
  rw [h.jobs, Arena.get_map]

theorem Reloads.get_some (h : Reloads b r) {j : Job} (hx : r.jobs.get x = some j) :
    ∃ job, b.jobs.get x = some job ∧ j = resumed job := by
  rw [h.get] at hx
  obtain ⟨job, hjob, heq⟩ := Option.map_eq_some_iff.mp hx
  exact ⟨job, hjob, heq.symm⟩

theorem Reloads.isPending_eq (h : Reloads b r) (a : JobId) :
    isPending r.jobs a = isPending b.jobs a := by
  cases ha : b.jobs.get a with
  | none => simp only [isPending, h.get, ha, Option.map_none]
  | some job => simp only [isPending, h.get, ha, Option.map_some, isTerminal_resumed]

theorem Reloads.pendingCount_eq (h : Reloads b r) (deps : List JobId) :
    pendingCount r.jobs deps = pendingCount b.jobs deps :=
  List.countP_congr fun a _ => by rw [h.isPending_eq]

/-- The rebuilt index is exact exactly when no blocked job waits for a higher slot. -/
theorem Reloads.exact_iff (h : Reloads b r) (hs : Settled b) :
    Exact r.scheduler.deps r.jobs ↔ b.SlotOrdered := by
  constructor
  · intro hexact x job hx hst a ha hp
    by_contra hnot
    have hopen : job.state.isTerminal = false := by rw [hst]; rfl
    have hrx : r.jobs.get x = some (resumed job) := by rw [h.get, hx]; rfl
    have hkept := (hexact.edge hrx (blocked_resumed.mpr hst) (deps_resumed job ▸ ha)
      (h.isPending_eq a ▸ hp)).2
    have hlost := (h.edge x job hx hopen a ha hp).2
    rw [if_neg hnot] at hlost
    rw [deps_resumed, hlost] at hkept
    have hpos := List.count_pos_iff.mpr ha
    omega
  · intro hordered
    refine ⟨fun {x j} hx hst => ?_, fun {x a j} hx hst ha hp => ?_, fun {x j} hx hst => ?_⟩
    all_goals
      obtain ⟨job, hjob, rfl⟩ := h.get_some hx
      have hblocked := blocked_resumed.mp hst
      have hopen : job.state.isTerminal = false := by rw [hblocked]; rfl
      rw [deps_resumed] at *
    · rw [(h.own x job hjob hopen).2, h.pendingCount_eq]
    · rw [h.isPending_eq] at hp
      obtain ⟨howner, hcount⟩ := h.edge x job hjob hopen a ha hp
      rw [if_pos (hordered x job hjob hblocked a ha hp)] at hcount
      exact ⟨isTracked_iff.mpr howner, hcount.ge⟩
    · rw [h.pendingCount_eq]
      exact hs.exact_.waits hjob hblocked

theorem Reloads.settled_iff (h : Reloads b r) (hs : Settled b) (hsane : Sane r) :
    Settled r.book ↔ b.SlotOrdered := by
  refine ⟨fun hr => (h.exact_iff hs).mp hr.exact_, fun hordered =>
    ⟨hsane.valid, (h.exact_iff hs).mpr hordered, fun x j hx hst => ?_,
      fun x j hx hst a ha => ?_⟩⟩
  · obtain ⟨job, hjob, rfl⟩ := h.get_some hx
    unfold resumed at hst
    split at hst
    · cases hst
    · exact hs.classified x job hjob hst
  · obtain ⟨job, hjob, rfl⟩ := h.get_some hx
    have hover : job.state.isTerminal = true := by rw [← isTerminal_resumed, hst]; rfl
    rw [resumed_of_terminal hover] at hst ha
    obtain ⟨hissued, hdone⟩ := hs.met x job hjob hst a ha
    constructor
    · show r.jobs.Issued a
      rw [h.jobs]
      refine (Arena.issued_congr ?_).mpr hissued
      rw [Arena.getElem?_map_slots, Option.map_map]
      cases b.jobs.slots[a.slot]? with
      | none => rfl
      | some slot => cases slot <;> rfl
    · intro ja hja
      obtain ⟨target, htarget, rfl⟩ := h.get_some hja
      have hcomplete := hdone target htarget
      rw [resumed_of_terminal (by rw [hcomplete]; rfl)]
      exact hcomplete

end Roster

end TaskerRT.Daemon
