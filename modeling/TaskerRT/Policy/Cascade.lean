/- module: TaskerRT/Policy/Cascade
   source: crates/tasker-core/src/policy/eligibility.rs
   digest: What each tracker operation does to the rows, the counts and the reverse edges. -/

import TaskerRT.Policy.Eligibility

set_option autoImplicit false

namespace TaskerRT.Policy.DependencyTracker

open Library Domain

/-- Entries of a dependency list that name a live non-terminal job. -/
def pendingCount (jobs : Arena Job) (deps : List JobId) : Nat := deps.countP (isPending jobs)

theorem isPending_iff {jobs : Arena Job} {dep : JobId} :
    isPending jobs dep = true ↔ ∃ job, jobs.get dep = some job ∧ job.state.isTerminal = false := by
  unfold isPending
  cases jobs.get dep with
  | none => simp
  | some job => simp

/-- A dependency `classify` walks past: another live job that can still complete. -/
def Resolves (jobs : Arena Job) (id dep : JobId) : Prop :=
  dep ≠ id ∧ ∃ target, jobs.get dep = some target ∧
    target.state ≠ .failed ∧ target.state ≠ .cancelled

private theorem classifyLoop_of_resolves {id : JobId} {jobs : Arena Job} {deps : List JobId} :
    ∀ {pending : Nat}, (∀ dep ∈ deps, Resolves jobs id dep) →
      classifyLoop id jobs deps pending =
        .ok (if pending + pendingCount jobs deps = 0 then .ready else .blocked) := by
  induction deps with
  | nil => intro pending _; simp [classifyLoop, pendingCount]
  | cons dep deps ih =>
    intro pending h
    obtain ⟨hne, target, hget, hf, hc⟩ := h dep List.mem_cons_self
    have hrest := fun d hd => h d (List.mem_cons_of_mem _ hd)
    have hcount : pendingCount jobs (dep :: deps) =
        pendingCount jobs deps + if target.state.isTerminal then 0 else 1 := by
      unfold pendingCount
      rw [List.countP_cons]
      simp only [isPending, hget]
      cases target.state.isTerminal <;> rfl
    simp only [classifyLoop, if_neg hne, hget]
    rw [hcount]
    cases hs : target.state with
    | completed => simpa [JobState.isTerminal] using ih hrest
    | failed => exact absurd hs hf
    | cancelled => exact absurd hs hc
    | submitted | blocked | ready | running | preempted =>
      simp only [JobState.isTerminal, Bool.false_eq_true, if_false]
      rw [ih hrest]
      simp

private theorem resolves_of_classifyLoop {id : JobId} {jobs : Arena Job} {deps : List JobId} :
    ∀ {pending : Nat} {r : Readiness}, classifyLoop id jobs deps pending = .ok r →
      r ≠ .cancelled → ∀ dep ∈ deps, Resolves jobs id dep := by
  induction deps with
  | nil => intro _ _ _ _ dep hdep; cases hdep
  | cons dep deps ih =>
    intro pending r h hr
    unfold classifyLoop at h
    split at h
    · cases h
    · rename_i hne
      split at h
      · cases h
      · rename_i target hget
        have step : ∀ {n : Nat}, classifyLoop id jobs deps n = .ok r → target.state ≠ .failed →
            target.state ≠ .cancelled → ∀ d ∈ dep :: deps, Resolves jobs id d := by
          intro n hn hf hc d hd
          rcases List.mem_cons.mp hd with rfl | hd
          · exact ⟨hne, target, hget, hf, hc⟩
          · exact ih hn hr d hd
        cases hs : target.state with
        | failed => rw [hs] at h; exact absurd (Except.ok.inj h).symm hr
        | cancelled => rw [hs] at h; exact absurd (Except.ok.inj h).symm hr
        | completed => rw [hs] at h step; exact step h (by simp) (by simp)
        | submitted => rw [hs] at h step; exact step h (by simp) (by simp)
        | blocked => rw [hs] at h step; exact step h (by simp) (by simp)
        | ready => rw [hs] at h step; exact step h (by simp) (by simp)
        | running => rw [hs] at h step; exact step h (by simp) (by simp)
        | preempted => rw [hs] at h step; exact step h (by simp) (by simp)

/-- A job is classified as anything but cancelled exactly when every entry resolves. -/
theorem classify_eq_ok {id : JobId} {job : Job} {jobs : Arena Job} {r : Readiness}
    (hr : r ≠ .cancelled) :
    classify id job jobs = .ok r ↔ (∀ dep ∈ job.deps, Resolves jobs id dep) ∧
      r = if pendingCount jobs job.deps = 0 then .ready else .blocked := by
  constructor
  · intro h
    have hres := resolves_of_classifyLoop h hr
    refine ⟨hres, ?_⟩
    rw [classify, classifyLoop_of_resolves hres, Nat.zero_add] at h
    exact (Except.ok.inj h).symm
  · rintro ⟨hres, rfl⟩
    rw [classify, classifyLoop_of_resolves hres, Nat.zero_add]

/-! Registration. -/

private theorem classifyLoop_congr {id : JobId} {jobs jobs' : Arena Job} :
    ∀ {deps : List JobId} {pending : Nat},
      (∀ dep ∈ deps, dep ≠ id → (jobs'.get dep).map Job.state = (jobs.get dep).map Job.state) →
      classifyLoop id jobs' deps pending = classifyLoop id jobs deps pending := by
  intro deps
  induction deps with
  | nil => exact fun _ => rfl
  | cons dep deps ih =>
    intro pending h
    have ih' (n : Nat) := @ih n fun d hd => h d (List.mem_cons_of_mem _ hd)
    unfold classifyLoop
    by_cases hid : dep = id
    · rw [if_pos hid, if_pos hid]
    · rw [if_neg hid, if_neg hid]
      have hhead := h dep List.mem_cons_self hid
      cases hj : jobs.get dep with
      | none =>
        cases hj' : jobs'.get dep with
        | none => rfl
        | some target' => rw [hj, hj'] at hhead; exact nomatch hhead
      | some target =>
        cases hj' : jobs'.get dep with
        | none => rw [hj, hj'] at hhead; exact nomatch hhead
        | some target' =>
          rw [hj, hj'] at hhead
          have hstate : target'.state = target.state := Option.some.inj hhead
          simp only [hstate, ih']

theorem classify_congr {id : JobId} {job job' : Job} {jobs jobs' : Arena Job}
    (hdeps : job'.deps = job.deps)
    (h : ∀ dep, dep ≠ id → (jobs'.get dep).map Job.state = (jobs.get dep).map Job.state) :
    classify id job' jobs' = classify id job jobs := by
  unfold classify
  rw [hdeps]
  exact classifyLoop_congr fun dep _ => h dep

theorem classify_insert {id : JobId} {job stored : Job} {jobs jobs' : Arena Job}
    (h : jobs.insert stored = some (jobs', id)) :
    classify id job jobs' = classify id job jobs :=
  classify_congr rfl fun dep hne => by rw [Arena.get_insert h, if_neg hne]

theorem register_of_classify {t : DependencyTracker} {id : JobId} {job : Job} {jobs : Arena Job}
    {r : Readiness} (h : classify id job jobs = .ok r) :
    ∃ t', t.register id job jobs = .ok (t', r) := by
  unfold register
  rw [h]
  cases r <;> exact ⟨_, rfl⟩

private theorem linkDeps_congr {id : JobId} {jobs jobs' : Arena Job}
    (h : ∀ dep, isPending jobs' dep = isPending jobs dep) :
    ∀ {deps : List JobId} {t : DependencyTracker} {pending : Nat},
      linkDeps id jobs' deps t pending = linkDeps id jobs deps t pending := by
  intro deps
  induction deps with
  | nil => intros; rfl
  | cons dep deps ih =>
    intro t pending
    unfold linkDeps
    rw [h dep]
    split
    · exact ih
    · exact ih

theorem register_congr {t : DependencyTracker} {id : JobId} {job job' : Job}
    {jobs jobs' : Arena Job} (hdeps : job'.deps = job.deps)
    (h : ∀ dep, (jobs'.get dep).map Job.state = (jobs.get dep).map Job.state) :
    t.register id job' jobs' = t.register id job jobs := by
  have hpending : ∀ dep, isPending jobs' dep = isPending jobs dep := by
    intro dep
    have hdep := h dep
    unfold isPending
    cases hj : jobs.get dep with
    | none =>
      cases hj' : jobs'.get dep with
      | none => rfl
      | some target' => rw [hj, hj'] at hdep; exact nomatch hdep
    | some target =>
      cases hj' : jobs'.get dep with
      | none => rw [hj, hj'] at hdep; exact nomatch hdep
      | some target' =>
        rw [hj, hj'] at hdep
        have hstate : target'.state = target.state := Option.some.inj hdep
        simp only [hstate]
  unfold register
  rw [classify_congr hdeps fun dep _ => h dep, hdeps]
  simp only [linkDeps_congr hpending]

/-- The row a reverse edge to `dep` is added to: its own, or a fresh one if it has none. -/
def baseRow (t : DependencyTracker) (dep : JobId) : TrackerRow :=
  if (t.rowAt dep.slot).owner = some dep then t.rowAt dep.slot
  else { TrackerRow.vacant with owner := some dep }

private theorem rowAt_adopt (t : DependencyTracker) (dep : JobId) (i : Nat) :
    (t.adopt dep).rowAt i = if i = dep.slot then t.baseRow dep else t.rowAt i := by
  unfold adopt baseRow
  simp only [rowAt_reserveSlots, ne_eq]
  by_cases h : (t.rowAt dep.slot).owner = some dep
  · simp only [h, not_true_eq_false, if_false, if_true, rowAt_reserveSlots]
    split
    · rename_i he
      rw [he]
    · rfl
  · simp only [h, not_false_eq_true, if_true, if_false]
    rw [rowAt_setRow (by rw [length_clearIndex, length_reserveSlots]; omega), rowAt_clearIndex]
    split
    · rfl
    · rw [rowAt_reserveSlots]

private theorem rowAt_addDependent (t : DependencyTracker) (dep id : JobId) (i : Nat) :
    (t.addDependent dep id).rowAt i = if i = dep.slot then
      { t.baseRow dep with dependents := (t.baseRow dep).dependents ++ [id] }
      else t.rowAt i := by
  have hlen : dep.slot < (t.adopt dep).rows.length := by
    unfold adopt
    simp only
    split <;> simp
  unfold addDependent
  simp only
  rw [rowAt_setRow hlen, rowAt_adopt, rowAt_adopt, if_pos rfl]
  split <;> rfl

@[simp] theorem owner_baseRow (t : DependencyTracker) (dep : JobId) :
    (t.baseRow dep).owner = some dep := by
  unfold baseRow
  split
  · assumption
  · rfl

private theorem baseRow_addDependent_self (t : DependencyTracker) (dep id : JobId) :
    (t.addDependent dep id).baseRow dep =
      { t.baseRow dep with dependents := (t.baseRow dep).dependents ++ [id] } := by
  have hrow := rowAt_addDependent t dep id dep.slot
  rw [if_pos rfl] at hrow
  rw [baseRow, hrow]
  simp

private theorem baseRow_addDependent_ne {t : DependencyTracker} {dep d : JobId} (id : JobId)
    (h : d.slot ≠ dep.slot) : (t.addDependent dep id).baseRow d = t.baseRow d := by
  unfold baseRow
  rw [rowAt_addDependent, if_neg h]

private theorem linkDeps_snd (id : JobId) (jobs : Arena Job) (deps : List JobId)
    (t : DependencyTracker) (pending : Nat) :
    (linkDeps id jobs deps t pending).2 = pending + pendingCount jobs deps := by
  unfold pendingCount
  induction deps generalizing t pending with
  | nil => simp [linkDeps]
  | cons dep deps ih =>
    rw [List.countP_cons]
    unfold linkDeps
    split
    · rw [ih]
      omega
    · rw [ih]
      rfl

private theorem rowAt_linkDeps_other {id : JobId} {jobs : Arena Job} {deps : List JobId} {i : Nat} :
    ∀ {t : DependencyTracker} {pending : Nat},
      (∀ d ∈ deps, isPending jobs d = true → d.slot ≠ i) →
      (linkDeps id jobs deps t pending).1.rowAt i = t.rowAt i := by
  induction deps with
  | nil => intros; rfl
  | cons dep deps ih =>
    intro t pending h
    have hrest := fun d hd => h d (List.mem_cons_of_mem _ hd)
    unfold linkDeps
    split
    · rename_i hp
      rw [ih hrest, rowAt_addDependent, if_neg (Ne.symm (h dep List.mem_cons_self hp))]
    · exact ih hrest

private theorem slot_inj_of_isPending {jobs : Arena Job} {a b : JobId}
    (ha : isPending jobs a = true)
    (hb : isPending jobs b = true) (hs : a.slot = b.slot) : a = b := by
  obtain ⟨ja, hja, _⟩ := isPending_iff.mp ha
  obtain ⟨jb, hjb, _⟩ := isPending_iff.mp hb
  exact Arena.eq_of_get_of_slot hja hjb hs

private theorem rowAt_linkDeps_pending {id : JobId} {jobs : Arena Job} {deps : List JobId}
    {d : JobId}
    (hd : isPending jobs d = true) : ∀ {t : DependencyTracker} {pending : Nat}, d ∈ deps →
      (linkDeps id jobs deps t pending).1.rowAt d.slot = { t.baseRow d with
        dependents := (t.baseRow d).dependents ++ List.replicate (deps.count d) id } := by
  induction deps with
  | nil => intro _ _ hmem; cases hmem
  | cons dep deps ih =>
    intro t pending hmem
    unfold linkDeps
    by_cases hdep : dep = d
    · subst hdep
      rw [if_pos hd, List.count_cons_self]
      by_cases hin : dep ∈ deps
      · rw [ih hin, baseRow_addDependent_self]
        simp only [List.append_assoc]
        rw [List.replicate_succ, List.singleton_append]
      · have hother : ∀ e ∈ deps, isPending jobs e = true → e.slot ≠ dep.slot := by
          intro e he hpe hs
          exact hin (slot_inj_of_isPending hpe hd hs ▸ he)
        rw [rowAt_linkDeps_other hother, rowAt_addDependent, if_pos rfl,
          List.count_eq_zero_of_not_mem hin]
        rfl
    · have hin : d ∈ deps := (List.mem_cons.mp hmem).resolve_left (Ne.symm hdep)
      rw [List.count_cons_of_ne hdep]
      split
      · rename_i hp
        have hs : d.slot ≠ dep.slot := fun hs => hdep (slot_inj_of_isPending hd hp hs).symm
        rw [ih hin, baseRow_addDependent_ne id hs]
      · exact ih hin

structure Registered (t : DependencyTracker) (id : JobId) (job : Job) (jobs : Arena Job)
    (t' : DependencyTracker) : Prop where
  own : t'.rowAt id.slot = ⟨some id, pendingCount jobs job.deps, []⟩
  pending : ∀ d ∈ job.deps, isPending jobs d = true → t'.rowAt d.slot = { t.baseRow d with
    dependents := (t.baseRow d).dependents ++ List.replicate (job.deps.count d) id }
  other : ∀ i, i ≠ id.slot → (∀ d ∈ job.deps, isPending jobs d = true → d.slot ≠ i) →
    t'.rowAt i = t.rowAt i

/-- A count starts at no more than the number of dependencies, and from there only goes down. -/
theorem Registered.count_lt {t t' : DependencyTracker} {id : JobId} {job : Job} {jobs : Arena Job}
    (h : Registered t id job jobs t') (hdeps : job.deps.length < 2 ^ 32) :
    (t'.rowAt id.slot).unsatisfied < 2 ^ 32 := by
  rw [h.own]
  exact List.countP_le_length.trans_lt hdeps

/-- `register` follows `classify`. A job that is not doomed gets its row and its edges. -/
theorem register_spec {t t' : DependencyTracker} {id : JobId} {job : Job} {jobs : Arena Job}
    {stored : Job} {r : Readiness} (h : t.register id job jobs = .ok (t', r))
    (hid : jobs.get id = some stored) :
    classify id job jobs = .ok r ∧
      ((r = .cancelled ∧ t' = t) ∨ (r ≠ .cancelled ∧ Registered t id job jobs t')) := by
  unfold register at h
  cases hc : classify id job jobs with
  | error e => rw [hc] at h; cases h
  | ok readiness =>
    rw [hc] at h
    by_cases hr : readiness = .cancelled
    · subst hr
      simp only [Except.ok.injEq, Prod.mk.injEq] at h
      obtain ⟨rfl, rfl⟩ := h
      exact ⟨rfl, Or.inl ⟨rfl, rfl⟩⟩
    · have hslot : ∀ d ∈ job.deps, isPending jobs d = true → d.slot ≠ id.slot := by
        intro d hd hp hs
        obtain ⟨target, hget, _⟩ := isPending_iff.mp hp
        exact (((classify_eq_ok hr).mp hc).1 d hd).1 (Arena.eq_of_get_of_slot hget hid hs)
      set t₁ := ((t.reserveSlots (id.slot + 1)).clearIndex id.slot).setRow id.slot
        { TrackerRow.vacant with owner := some id } with ht₁
      have hlen : id.slot < t₁.rows.length := by
        rw [ht₁]
        simp
      have hrow₁ : ∀ i, t₁.rowAt i =
          if i = id.slot then { TrackerRow.vacant with owner := some id } else t.rowAt i := by
        intro i
        rw [ht₁, rowAt_setRow (by simp), rowAt_clearIndex]
        split
        · rfl
        · rw [rowAt_reserveSlots]
      set out := linkDeps id jobs job.deps t₁ 0 with hout
      have hlen' : id.slot < out.1.rows.length := by
        by_contra hge
        have hrow : out.1.rowAt id.slot = t₁.rowAt id.slot := rowAt_linkDeps_other hslot
        have hvac : out.1.rowAt id.slot = TrackerRow.vacant :=
          Table.read_of_length_le _ _ _ (by omega)
        rw [hvac, hrow₁, if_pos rfl] at hrow
        cases hrow
      have heq : (out.1.setRow id.slot { out.1.rowAt id.slot with unsatisfied := out.2 },
          readiness) = (t', r) := by
        cases readiness with
        | cancelled => exact absurd rfl hr
        | ready => exact Except.ok.inj h
        | blocked => exact Except.ok.inj h
      simp only [Prod.mk.injEq] at heq
      obtain ⟨rfl, rfl⟩ := heq
      refine ⟨rfl, Or.inr ⟨hr, ?_, ?_, ?_⟩⟩
      · rw [rowAt_setRow hlen', if_pos rfl, hout, linkDeps_snd,
          rowAt_linkDeps_other hslot, hrow₁, if_pos rfl, Nat.zero_add]
        rfl
      · intro d hd hp
        have hne := hslot d hd hp
        have hbase : t₁.baseRow d = t.baseRow d := by
          unfold baseRow
          rw [hrow₁, if_neg hne]
        rw [rowAt_setRow hlen', if_neg hne, hout, rowAt_linkDeps_pending hp hd, hbase]
      · intro i hi hother
        rw [rowAt_setRow hlen', if_neg hi, hout, rowAt_linkDeps_other hother, hrow₁, if_neg hi]

/-- A live job that was tracked keeps its row and may gain edges to the new job. -/
theorem Registered.row_of_tracked {t t' : DependencyTracker} {id : JobId} {job stored : Job}
    {jobs : Arena Job} (h : Registered t id job jobs t') (hid : jobs.get id = some stored)
    {a : JobId} {ja : Job} (ha : jobs.get a = some ja) (hne : a ≠ id)
    (ht : t.isTracked a = true) :
    ∃ n, t'.rowAt a.slot = { t.rowAt a.slot with
      dependents := (t.rowAt a.slot).dependents ++ List.replicate n id } := by
  have hslot : a.slot ≠ id.slot := fun hs => hne (Arena.eq_of_get_of_slot ha hid hs)
  by_cases hp : a ∈ job.deps ∧ isPending jobs a = true
  · refine ⟨job.deps.count a, ?_⟩
    rw [h.pending a hp.1 hp.2, baseRow, if_pos (isTracked_iff.mp ht)]
  · refine ⟨0, ?_⟩
    rw [h.other a.slot hslot]
    · simp
    · intro d hd hpd hs
      obtain ⟨jd, hjd, _⟩ := isPending_iff.mp hpd
      cases Arena.eq_of_get_of_slot hjd ha hs
      exact hp ⟨hd, hpd⟩

/-! Completion. -/

def OwnersPlaced (t : DependencyTracker) : Prop :=
  ∀ i b, (t.rowAt i).owner = some b → b.slot = i

/-- The count of a tracked dependent goes down once per edge, never below zero. -/
def countedDown (row : TrackerRow) (edges : List JobId) : TrackerRow :=
  match row.owner with
  | none => row
  | some b => { row with unsatisfied := row.unsatisfied - edges.count b }

private theorem countedDown_of_owner {row : TrackerRow} {b : JobId} (h : row.owner = some b)
    (edges : List JobId) :
    countedDown row edges = { row with unsatisfied := row.unsatisfied - edges.count b } := by
  unfold countedDown
  split
  · rename_i hn
    rw [h] at hn
    cases hn
  · rename_i c hc
    rw [h] at hc
    cases Option.some.inj hc
    rfl

private theorem countedDown_owner (row : TrackerRow) (edges : List JobId) :
    (countedDown row edges).owner = row.owner := by
  unfold countedDown
  split <;> rfl

private theorem rowAt_countDown {t : DependencyTracker} (hplaced : t.OwnersPlaced)
    (promoted : List JobId) (b : JobId) (i : Nat) :
    (countDown (t, promoted) b).1.rowAt i = countedDown (t.rowAt i) [b] := by
  unfold countDown
  simp only
  by_cases ht : (t.rowAt b.slot).owner = some b
  · rw [if_neg (by simpa using ht)]
    have hself : countedDown (t.rowAt b.slot) [b] =
        { t.rowAt b.slot with unsatisfied := (t.rowAt b.slot).unsatisfied - 1 } := by
      simp [countedDown, ht]
    have hother : i ≠ b.slot → countedDown (t.rowAt i) [b] = t.rowAt i := by
      intro hi
      unfold countedDown
      split
      · rfl
      · rename_i c hc
        have : c ≠ b := fun he => hi (he ▸ (hplaced i c hc).symm)
        rw [List.count_eq_zero_of_not_mem (by simpa using this)]
        rfl
    split
    · rw [rowAt_setRow (slot_lt_of_isTracked (isTracked_iff.mpr ht))]
      split
      · rename_i hi
        rw [hi, hself]
      · rename_i hi
        exact (hother hi).symm
    · rename_i hz
      by_cases hi : i = b.slot
      · rw [hi, hself]
        have : (t.rowAt b.slot).unsatisfied - 1 = (t.rowAt b.slot).unsatisfied := by omega
        rw [this]
      · exact (hother hi).symm
  · rw [if_pos (by simpa using ht)]
    unfold countedDown
    split
    · rfl
    · rename_i c hc
      have : c ≠ b := by
        rintro rfl
        exact ht ((hplaced i c hc).symm ▸ hc)
      rw [List.count_eq_zero_of_not_mem (by simpa using this)]
      rfl

private theorem OwnersPlaced.of_owner {t t' : DependencyTracker} (h : t.OwnersPlaced)
    (heq : ∀ i, (t'.rowAt i).owner = (t.rowAt i).owner) : t'.OwnersPlaced :=
  fun i b hb => h i b (heq i ▸ hb)

private theorem countedDown_countedDown (row : TrackerRow) (b : JobId) (edges : List JobId) :
    countedDown (countedDown row [b]) edges = countedDown row (b :: edges) := by
  unfold countedDown
  cases h : row.owner with
  | none => simp only [h]
  | some c =>
    simp only [TrackerRow.mk.injEq, true_and, and_true, List.count_cons, List.count_nil]
    omega

/-- The whole fold of a completion: counts drop, and exactly those that reach zero on the
way are promoted, each once. -/
private theorem foldl_countDown_spec : ∀ (edges : List JobId) {t : DependencyTracker}
    (promoted : List JobId), t.OwnersPlaced →
    (∀ i, (edges.foldl countDown (t, promoted)).1.rowAt i = countedDown (t.rowAt i) edges) ∧
      ∃ fresh, (edges.foldl countDown (t, promoted)).2 = promoted ++ fresh ∧ fresh.Nodup ∧
        ∀ b, b ∈ fresh ↔ t.isTracked b = true ∧ 0 < (t.rowAt b.slot).unsatisfied ∧
          (t.rowAt b.slot).unsatisfied ≤ edges.count b := by
  intro edges
  induction edges with
  | nil =>
    intro t promoted _
    refine ⟨fun i => ?_, [], by simp, by simp, fun b => ?_⟩
    · simp only [List.foldl_nil, countedDown]
      split <;> simp
    · simp
      omega
  | cons e edges ih =>
    intro t promoted hplaced
    obtain ⟨t₁, p₁, hstep⟩ : ∃ t₁ p₁, countDown (t, promoted) e = (t₁, p₁) := ⟨_, _, rfl⟩
    have hrow : ∀ i, t₁.rowAt i = countedDown (t.rowAt i) [e] := by
      intro i
      rw [← rowAt_countDown hplaced promoted e i, hstep]
    have hplaced₁ : t₁.OwnersPlaced := hplaced.of_owner fun i => by
      rw [hrow, countedDown_owner]
    obtain ⟨hrows, fresh, hfresh, hnd, hmem⟩ := ih p₁ hplaced₁
    rw [List.foldl_cons, hstep]
    have hrows' : ∀ i, (edges.foldl countDown (t₁, p₁)).1.rowAt i =
        countedDown (t.rowAt i) (e :: edges) := by
      intro i
      rw [hrows, hrow, countedDown_countedDown]
    have htracked : ∀ b, t₁.isTracked b = true ↔ t.isTracked b = true := by
      intro b
      rw [isTracked_iff, isTracked_iff, hrow, countedDown_owner]
    have huns : ∀ b, t.isTracked b = true → (t₁.rowAt b.slot).unsatisfied =
        (t.rowAt b.slot).unsatisfied - if e = b then 1 else 0 := by
      intro b hb
      rw [isTracked_iff] at hb
      rw [hrow, countedDown, hb]
      simp only [List.count_singleton, beq_iff_eq]
    refine ⟨hrows', ?_⟩
    by_cases hpush : t.isTracked e = true ∧ (t.rowAt e.slot).unsatisfied = 1
    · -- this edge brings `e` to zero
      obtain ⟨ht, hone⟩ := hpush
      have hp₁ : p₁ = promoted ++ [e] := by
        have hsnd : (countDown (t, promoted) e).2 = p₁ := by rw [hstep]
        rw [← hsnd]
        unfold countDown
        simp only
        rw [if_neg (by simpa using isTracked_iff.mp ht), if_pos (by omega), if_pos (by omega)]
      have hnotin : e ∉ fresh := by
        rw [hmem]
        rintro ⟨_, hpos, _⟩
        rw [huns e ht, if_pos rfl] at hpos
        omega
      refine ⟨e :: fresh, by rw [hfresh, hp₁]; simp, List.nodup_cons.mpr ⟨hnotin, hnd⟩, ?_⟩
      intro b
      rw [List.mem_cons, hmem, htracked]
      constructor
      · rintro (rfl | ⟨hb, hpos, hle⟩)
        · exact ⟨ht, by omega, by rw [List.count_cons_self]; omega⟩
        · rw [huns b hb] at hpos hle
          refine ⟨hb, by omega, ?_⟩
          rw [List.count_cons]
          simp only [beq_iff_eq]
          omega
      · rintro ⟨hb, hpos, hle⟩
        by_cases he : e = b
        · exact Or.inl he.symm
        · refine Or.inr ⟨hb, ?_, ?_⟩
          · rw [huns b hb, if_neg he]
            omega
          · rw [huns b hb, if_neg he]
            rw [List.count_cons_of_ne he] at hle
            omega
    · have hp₁ : p₁ = promoted := by
        have hsnd : (countDown (t, promoted) e).2 = p₁ := by rw [hstep]
        rw [← hsnd]
        unfold countDown
        simp only
        by_cases ht : (t.rowAt e.slot).owner = some e
        · rw [if_neg (by simpa using ht)]
          have hne : (t.rowAt e.slot).unsatisfied ≠ 1 :=
            fun h1 => hpush ⟨isTracked_iff.mpr ht, h1⟩
          split
          · rw [if_neg (by omega)]
          · rfl
        · rw [if_pos (by simpa using ht)]
      refine ⟨fresh, by rw [hfresh, hp₁], hnd, ?_⟩
      intro b
      rw [hmem, htracked]
      constructor
      · rintro ⟨hb, hpos, hle⟩
        rw [huns b hb] at hpos hle
        refine ⟨hb, by omega, ?_⟩
        rw [List.count_cons]
        simp only [beq_iff_eq]
        omega
      · rintro ⟨hb, hpos, hle⟩
        refine ⟨hb, ?_⟩
        rw [huns b hb]
        rw [List.count_cons] at hle
        simp only [beq_iff_eq] at hle
        by_cases he : e = b
        · subst he
          have hne : (t.rowAt e.slot).unsatisfied ≠ 1 := fun h1 => hpush ⟨hb, h1⟩
          simp only [if_true] at hle ⊢
          omega
        · simp only [if_neg he] at hle ⊢
          omega

private theorem onCompleted_untracked {t : DependencyTracker} {id : JobId}
    (h : t.isTracked id ≠ true) : t.onCompleted id = (t, []) := by
  unfold onCompleted
  rw [if_neg h]

private theorem onCompleted_tracked {t : DependencyTracker} {id : JobId}
    (hplaced : t.OwnersPlaced) (h : t.isTracked id = true) :
    (∀ i, (t.onCompleted id).1.rowAt i = if i = id.slot then TrackerRow.vacant
      else countedDown (t.rowAt i) (t.rowAt id.slot).dependents) ∧
    (t.onCompleted id).2.Nodup ∧
    ∀ b, b ∈ (t.onCompleted id).2 ↔ t.isTracked b = true ∧ 0 < (t.rowAt b.slot).unsatisfied ∧
      (t.rowAt b.slot).unsatisfied ≤ (t.rowAt id.slot).dependents.count b := by
  obtain ⟨hrows, fresh, hfresh, hnd, hmem⟩ :=
    foldl_countDown_spec (t.rowAt id.slot).dependents [] hplaced
  rw [List.nil_append] at hfresh
  unfold onCompleted
  rw [if_pos h]
  simp only
  rw [hfresh]
  refine ⟨fun i => ?_, hnd, hmem⟩
  rw [rowAt_clearIndex]
  split
  · rfl
  · exact hrows i

private theorem eq_of_isTracked_of_slot {t : DependencyTracker} {a b : JobId}
    (ha : t.isTracked a = true) (hb : t.isTracked b = true) (hs : a.slot = b.slot) : a = b := by
  rw [isTracked_iff] at ha hb
  rw [hs, hb] at ha
  exact (Option.some.inj ha).symm

/-- A completion promotes exactly the tracked jobs whose count its edges exhaust. -/
theorem mem_onCompleted {t : DependencyTracker} (hplaced : t.OwnersPlaced) {id b : JobId} :
    b ∈ (t.onCompleted id).2 ↔ t.isTracked b = true ∧ 0 < (t.rowAt b.slot).unsatisfied ∧
      (t.rowAt b.slot).unsatisfied ≤ (t.dependentsOf id).count b := by
  by_cases h : t.isTracked id = true
  · rw [(onCompleted_tracked hplaced h).2.2, dependentsOf, if_pos h]
  · rw [onCompleted_untracked h, dependentsOf, if_neg h]
    simp
    omega

theorem nodup_onCompleted {t : DependencyTracker} (hplaced : t.OwnersPlaced) (id : JobId) :
    (t.onCompleted id).2.Nodup := by
  by_cases h : t.isTracked id = true
  · exact (onCompleted_tracked hplaced h).2.1
  · rw [onCompleted_untracked h]
    exact List.nodup_nil

theorem isTracked_onCompleted {t : DependencyTracker} (hplaced : t.OwnersPlaced) {id a : JobId} :
    (t.onCompleted id).1.isTracked a = true ↔ t.isTracked a = true ∧ a ≠ id := by
  by_cases h : t.isTracked id = true
  · rw [isTracked_iff, (onCompleted_tracked hplaced h).1]
    by_cases hs : a.slot = id.slot
    · rw [if_pos hs]
      constructor
      · intro ha
        cases ha
      · rintro ⟨ha, hne⟩
        exact absurd (eq_of_isTracked_of_slot ha h hs) hne
    · rw [if_neg hs, countedDown_owner, ← isTracked_iff]
      exact ⟨fun ha => ⟨ha, fun he => hs (he ▸ rfl)⟩, And.left⟩
  · rw [onCompleted_untracked h]
    exact ⟨fun ha => ⟨ha, fun he => h (he ▸ ha)⟩, And.left⟩

theorem rowAt_onCompleted {t : DependencyTracker} (hplaced : t.OwnersPlaced) {id a : JobId}
    (ha : t.isTracked a = true) (hne : a ≠ id) :
    (t.onCompleted id).1.rowAt a.slot = { t.rowAt a.slot with
      unsatisfied := (t.rowAt a.slot).unsatisfied - (t.dependentsOf id).count a } := by
  by_cases h : t.isTracked id = true
  · have hs : a.slot ≠ id.slot := fun hs => hne (eq_of_isTracked_of_slot ha h hs)
    rw [(onCompleted_tracked hplaced h).1, if_neg hs,
      countedDown_of_owner (isTracked_iff.mp ha), dependentsOf, if_pos h]
  · rw [onCompleted_untracked h, dependentsOf, if_neg h]
    simp

theorem placed_onCompleted {t : DependencyTracker} (hplaced : t.OwnersPlaced) (id : JobId) :
    (t.onCompleted id).1.OwnersPlaced := by
  by_cases h : t.isTracked id = true
  · intro i b hb
    rw [(onCompleted_tracked hplaced h).1] at hb
    split at hb
    · cases hb
    · rw [countedDown_owner] at hb
      exact hplaced i b hb
  · rwa [onCompleted_untracked h]

/-! Termination. The work stack visits what is reachable from it over stored edges. -/

/-- Tracked jobs reachable from a set of roots over reverse edges. -/
inductive Reach (t : DependencyTracker) (roots : List JobId) : JobId → Prop where
  | root {v : JobId} (hv : v ∈ roots) (ht : t.isTracked v = true) : Reach t roots v
  | edge {v w : JobId} (hv : Reach t roots v) (hw : w ∈ (t.rowAt v.slot).dependents)
      (ht : t.isTracked w = true) : Reach t roots w

theorem Reach.tracked {t : DependencyTracker} {roots : List JobId} {v : JobId}
    (h : Reach t roots v) : t.isTracked v = true := by
  cases h <;> assumption

private theorem not_reach_nil {t : DependencyTracker} {v : JobId} : ¬ Reach t [] v := by
  intro h
  induction h with
  | root hv _ => cases hv
  | edge _ _ _ ih => exact ih

private theorem isTracked_clearIndex {t : DependencyTracker} {c v : JobId}
    (hc : t.isTracked c = true) :
    (t.clearIndex c.slot).isTracked v = true ↔ t.isTracked v = true ∧ v ≠ c := by
  rw [isTracked_iff, rowAt_clearIndex]
  by_cases hs : v.slot = c.slot
  · rw [if_pos hs]
    constructor
    · intro h
      cases h
    · rintro ⟨hv, hne⟩
      exact absurd (eq_of_isTracked_of_slot hv hc hs) hne
  · rw [if_neg hs, ← isTracked_iff]
    exact ⟨fun h => ⟨h, fun he => hs (he ▸ rfl)⟩, And.left⟩

private theorem reach_cons_untracked {t : DependencyTracker} {c v : JobId} {stack : List JobId}
    (hc : t.isTracked c ≠ true) : Reach t (c :: stack) v ↔ Reach t stack v := by
  constructor
  · intro h
    induction h with
    | root hv ht =>
      rcases List.mem_cons.mp hv with rfl | hv
      · exact absurd ht hc
      · exact .root hv ht
    | edge _ hw ht ih => exact .edge ih hw ht
  · intro h
    induction h with
    | root hv ht => exact .root (List.mem_cons_of_mem _ hv) ht
    | edge _ hw ht ih => exact .edge ih hw ht

private theorem reach_cons_tracked {t : DependencyTracker} {c v : JobId} {stack : List JobId}
    (hc : t.isTracked c = true) :
    Reach t (c :: stack) v ↔
      v = c ∨ Reach (t.clearIndex c.slot) ((t.rowAt c.slot).dependents.reverse ++ stack) v := by
  have hrow : ∀ w : JobId, (t.clearIndex c.slot).isTracked w = true →
      (t.clearIndex c.slot).rowAt w.slot = t.rowAt w.slot := by
    intro w hw
    rw [rowAt_clearIndex, if_neg]
    intro hs
    obtain ⟨hw', hne⟩ := (isTracked_clearIndex hc).mp hw
    exact hne (eq_of_isTracked_of_slot hw' hc hs)
  constructor
  · intro h
    induction h with
    | @root v hv ht =>
      by_cases he : v = c
      · exact Or.inl he
      · refine Or.inr (.root ?_ ((isTracked_clearIndex hc).mpr ⟨ht, he⟩))
        exact List.mem_append_right _ ((List.mem_cons.mp hv).resolve_left he)
    | @edge v w _ hw ht ih =>
      by_cases he : w = c
      · exact Or.inl he
      · have htw := (isTracked_clearIndex hc).mpr ⟨ht, he⟩
        rcases ih with rfl | ih
        · exact Or.inr (.root (List.mem_append_left _ (List.mem_reverse.mpr hw)) htw)
        · exact Or.inr (.edge ih (by rwa [hrow v ih.tracked]) htw)
  · rintro (rfl | h)
    · exact .root List.mem_cons_self hc
    · induction h with
      | @root v hv ht =>
        have ht' := ((isTracked_clearIndex hc).mp ht).1
        rcases List.mem_append.mp hv with hv | hv
        · exact .edge (.root List.mem_cons_self hc) (List.mem_reverse.mp hv) ht'
        · exact .root (List.mem_cons_of_mem _ hv) ht'
      | @edge v w hv hw ht ih =>
        exact .edge ih (by rwa [hrow v hv.tracked] at hw) ((isTracked_clearIndex hc).mp ht).1

private theorem edgeCount_clearIndex {t : DependencyTracker} {c : JobId}
    (hc : t.isTracked c = true) :
    (t.clearIndex c.slot).edgeCount + (t.rowAt c.slot).dependents.length = t.edgeCount := by
  have hlt := slot_lt_of_isTracked hc
  have hread : Table.read [] (t.rows.map TrackerRow.dependents) c.slot =
      (t.rowAt c.slot).dependents := by
    simp only [Table.read, rowAt, List.getElem?_map, List.getElem?_eq_getElem hlt,
      Option.map_some, Option.getD_some]
  have := Table.volume_set_nil (t.rows.map TrackerRow.dependents) c.slot (by simpa using hlt)
  rw [hread] at this
  rw [edgeCount, edgeCount, ← this, clearIndex, setRow, List.map_set]
  rfl

/-- The loop lists what is reachable from its stack, each job once, and retires exactly
that. -/
private theorem cascadeLoop_spec (id : JobId) : ∀ (fuel : Nat) (t : DependencyTracker)
    (stack cascade : List JobId), stack.length + t.edgeCount ≤ fuel →
    (∀ v, v ∈ (cascadeLoop id fuel t stack cascade).2 ↔
      v ∈ cascade ∨ (v ≠ id ∧ Reach t stack v)) ∧
    (∀ i, (∃ v, Reach t stack v ∧ v.slot = i) →
      (cascadeLoop id fuel t stack cascade).1.rowAt i = TrackerRow.vacant) ∧
    (∀ i, (∀ v, Reach t stack v → v.slot ≠ i) →
      (cascadeLoop id fuel t stack cascade).1.rowAt i = t.rowAt i) ∧
    (cascade.Nodup → (∀ v ∈ cascade, t.isTracked v = false) →
      (cascadeLoop id fuel t stack cascade).2.Nodup) := by
  intro fuel
  induction fuel with
  | zero =>
    intro t stack cascade hfuel
    have hstack : stack = [] := List.length_eq_zero_iff.mp (by omega)
    subst hstack
    refine ⟨fun v => ?_, ?_, fun _ _ => rfl, fun h _ => h⟩
    · simp [cascadeLoop, not_reach_nil]
    · rintro i ⟨v, hv, _⟩
      exact absurd hv not_reach_nil
  | succ fuel ih =>
    intro t stack cascade hfuel
    cases stack with
    | nil =>
      refine ⟨fun v => ?_, ?_, fun _ _ => rfl, fun h _ => h⟩
      · simp [cascadeLoop, not_reach_nil]
      · rintro i ⟨v, hv, _⟩
        exact absurd hv not_reach_nil
    | cons current stack =>
      simp only [List.length_cons] at hfuel
      unfold cascadeLoop
      by_cases hc : t.isTracked current = true
      · rw [if_neg (by simpa using isTracked_iff.mp hc)]
        have hcount := edgeCount_clearIndex hc
        obtain ⟨hmem, hvac, hsame, hnd⟩ := ih (t.clearIndex current.slot)
          ((t.rowAt current.slot).dependents.reverse ++ stack)
          (if current ≠ id then cascade ++ [current] else cascade)
          (by rw [List.length_append, List.length_reverse]; omega)
        refine ⟨fun v => ?_, ?_, ?_, ?_⟩
        · rw [hmem, reach_cons_tracked hc]
          by_cases hid : current = id
          · subst hid
            simp only [ne_eq, not_true_eq_false, if_false]
            constructor
            · rintro (h | ⟨h₁, h₂⟩)
              · exact Or.inl h
              · exact Or.inr ⟨h₁, Or.inr h₂⟩
            · rintro (h | ⟨h₁, h₂ | h₂⟩)
              · exact Or.inl h
              · exact absurd h₂ h₁
              · exact Or.inr ⟨h₁, h₂⟩
          · rw [if_pos hid, List.mem_append, List.mem_singleton]
            constructor
            · rintro ((h | rfl) | ⟨h₁, h₂⟩)
              · exact Or.inl h
              · exact Or.inr ⟨hid, Or.inl rfl⟩
              · exact Or.inr ⟨h₁, Or.inr h₂⟩
            · rintro (h | ⟨h₁, rfl | h₂⟩)
              · exact Or.inl (Or.inl h)
              · exact Or.inl (Or.inr rfl)
              · exact Or.inr ⟨h₁, h₂⟩
        · rintro i ⟨v, hv, rfl⟩
          rcases (reach_cons_tracked hc).mp hv with rfl | hv
          · by_cases hex : ∃ w, Reach (t.clearIndex v.slot)
                ((t.rowAt v.slot).dependents.reverse ++ stack) w ∧ w.slot = v.slot
            · exact hvac _ hex
            · rw [hsame _ fun w hw hs => hex ⟨w, hw, hs⟩, rowAt_clearIndex, if_pos rfl]
          · exact hvac _ ⟨v, hv, rfl⟩
        · intro i hi
          rw [hsame i fun v hv => hi v ((reach_cons_tracked hc).mpr (Or.inr hv)),
            rowAt_clearIndex,
            if_neg (Ne.symm (hi current ((reach_cons_tracked hc).mpr (Or.inl rfl))))]
        · intro hcn hct
          have hcur : current ∉ cascade := fun h => by
            rw [hct current h] at hc
            cases hc
          apply hnd
          · split
            · exact List.nodup_append.mpr ⟨hcn, by simp, by
                intro a ha b hb
                rw [List.mem_singleton] at hb
                rintro rfl
                exact hcur (hb ▸ ha)⟩
            · exact hcn
          · intro v hv
            rw [Bool.eq_false_iff]
            intro htv
            obtain ⟨htv, hne⟩ := (isTracked_clearIndex hc).mp htv
            split at hv
            · rcases List.mem_append.mp hv with hv | hv
              · rw [hct v hv] at htv
                cases htv
              · exact hne (List.mem_singleton.mp hv)
            · rw [hct v hv] at htv
              cases htv
      · rw [if_pos (by simpa [isTracked_iff] using hc)]
        obtain ⟨hmem, hvac, hsame, hnd⟩ := ih t stack cascade (by omega)
        refine ⟨fun v => ?_, ?_, ?_, hnd⟩
        · rw [hmem, reach_cons_untracked hc]
        · rintro i ⟨v, hv, hs⟩
          exact hvac i ⟨v, (reach_cons_untracked hc).mp hv, hs⟩
        · intro i hi
          exact hsame i fun v hv => hi v ((reach_cons_untracked hc).mpr hv)

/-- A termination reports what is reachable from its root, except the root itself. -/
theorem mem_onTerminated {t : DependencyTracker} {id v : JobId} :
    v ∈ (t.onTerminated id).2 ↔ v ≠ id ∧ Reach t [id] v := by
  rw [onTerminated, (cascadeLoop_spec id (t.edgeCount + 1) t [id] [] (by simp; omega)).1]
  simp

theorem nodup_onTerminated (t : DependencyTracker) (id : JobId) : (t.onTerminated id).2.Nodup :=
  (cascadeLoop_spec id (t.edgeCount + 1) t [id] [] (by simp; omega)).2.2.2
    List.nodup_nil (by simp)

private theorem rowAt_onTerminated_reached {t : DependencyTracker} {id v : JobId}
    (h : Reach t [id] v) : (t.onTerminated id).1.rowAt v.slot = TrackerRow.vacant :=
  (cascadeLoop_spec id (t.edgeCount + 1) t [id] [] (by simp; omega)).2.1 _ ⟨v, h, rfl⟩

private theorem rowAt_onTerminated_other {t : DependencyTracker} {id : JobId} {i : Nat}
    (h : ∀ v, Reach t [id] v → v.slot ≠ i) : (t.onTerminated id).1.rowAt i = t.rowAt i :=
  (cascadeLoop_spec id (t.edgeCount + 1) t [id] [] (by simp; omega)).2.2.1 _ h

theorem isTracked_onTerminated {t : DependencyTracker} {id a : JobId} :
    (t.onTerminated id).1.isTracked a = true ↔ t.isTracked a = true ∧ ¬ Reach t [id] a := by
  by_cases hex : ∃ v, Reach t [id] v ∧ v.slot = a.slot
  · obtain ⟨v, hv, hs⟩ := hex
    rw [isTracked_iff, ← hs, rowAt_onTerminated_reached hv]
    constructor
    · intro h
      cases h
    · rintro ⟨ha, hn⟩
      exact absurd (eq_of_isTracked_of_slot hv.tracked ha hs ▸ hv) hn
  · rw [isTracked_iff, rowAt_onTerminated_other fun v hv hs => hex ⟨v, hv, hs⟩, ← isTracked_iff]
    exact ⟨fun ha => ⟨ha, fun hr => hex ⟨a, hr, rfl⟩⟩, And.left⟩

theorem rowAt_onTerminated {t : DependencyTracker} {id a : JobId}
    (h : (t.onTerminated id).1.isTracked a = true) :
    (t.onTerminated id).1.rowAt a.slot = t.rowAt a.slot := by
  obtain ⟨ha, hn⟩ := isTracked_onTerminated.mp h
  refine rowAt_onTerminated_other fun v hv hs => hn ?_
  exact eq_of_isTracked_of_slot hv.tracked ha hs ▸ hv

theorem placed_onTerminated {t : DependencyTracker} (hplaced : t.OwnersPlaced) (id : JobId) :
    (t.onTerminated id).1.OwnersPlaced := by
  intro i b hb
  by_cases hex : ∃ v, Reach t [id] v ∧ v.slot = i
  · obtain ⟨v, hv, rfl⟩ := hex
    rw [rowAt_onTerminated_reached hv] at hb
    cases hb
  · rw [rowAt_onTerminated_other fun v hv hs => hex ⟨v, hv, hs⟩] at hb
    exact hplaced i b hb

/-- The `while let` loop of `onTerminated` as the source has it, with no bound on its rounds:
from a table, a stack and a buffer it ends with a table and a buffer. -/
inductive Unwinds (id : JobId) : DependencyTracker → List JobId → List JobId →
    DependencyTracker → List JobId → Prop where
  | done {t : DependencyTracker} {cascade : List JobId} : Unwinds id t [] cascade t cascade
  | skip {t t' : DependencyTracker} {current : JobId} {stack cascade cascade' : List JobId}
      (h : t.isTracked current = false) (rest : Unwinds id t stack cascade t' cascade') :
      Unwinds id t (current :: stack) cascade t' cascade'
  | visit {t t' : DependencyTracker} {current : JobId} {stack cascade cascade' : List JobId}
      (h : t.isTracked current = true)
      (rest : Unwinds id (t.clearIndex current.slot)
        ((t.rowAt current.slot).dependents.reverse ++ stack)
        (if current ≠ id then cascade ++ [current] else cascade) t' cascade') :
      Unwinds id t (current :: stack) cascade t' cascade'

private theorem Unwinds.unique {id : JobId} {t t₁ t₂ : DependencyTracker}
    {stack cascade cascade₁ cascade₂ : List JobId} (h₁ : Unwinds id t stack cascade t₁ cascade₁)
    (h₂ : Unwinds id t stack cascade t₂ cascade₂) : t₁ = t₂ ∧ cascade₁ = cascade₂ := by
  induction h₁ generalizing t₂ cascade₂ with
  | done =>
    cases h₂
    exact ⟨rfl, rfl⟩
  | skip h _ ih =>
    cases h₂ with
    | skip _ rest => exact ih rest
    | visit h' _ => exact absurd (h.symm.trans h') (by decide)
  | visit h _ ih =>
    cases h₂ with
    | skip h' _ => exact absurd (h.symm.trans h') (by decide)
    | visit _ rest => exact ih rest

/-- Every round pops an entry, and an edge is pushed only when its row is cleared, so the loop
ends within the fuel. What it finds goes behind what the buffer held. -/
private theorem unwinds_cascadeLoop (id : JobId) (buffer : List JobId) (fuel : Nat)
    (t : DependencyTracker) (stack cascade : List JobId)
    (hfuel : stack.length + t.edgeCount ≤ fuel) :
    Unwinds id t stack (buffer ++ cascade) (cascadeLoop id fuel t stack cascade).1
      (buffer ++ (cascadeLoop id fuel t stack cascade).2) := by
  induction fuel generalizing t stack cascade with
  | zero =>
    obtain rfl : stack = [] := List.length_eq_zero_iff.mp (by omega)
    exact .done
  | succ fuel ih =>
    cases stack with
    | nil => exact .done
    | cons current stack =>
      rw [List.length_cons] at hfuel
      unfold cascadeLoop
      by_cases hc : t.isTracked current = true
      · rw [if_neg (by simpa using isTracked_iff.mp hc)]
        have hcount := edgeCount_clearIndex hc
        apply Unwinds.visit hc
        have hbuffer : (if current ≠ id then buffer ++ cascade ++ [current] else buffer ++ cascade)
            = buffer ++ (if current ≠ id then cascade ++ [current] else cascade) := by
          split
          · exact List.append_assoc _ _ _
          · rfl
        rw [hbuffer]
        apply ih
        rw [List.length_append, List.length_reverse]
        omega
      · rw [if_pos (by simpa [isTracked_iff] using hc)]
        exact .skip (by simpa using hc) (ih t stack cascade (by omega))

private theorem onTerminated_untracked {t : DependencyTracker} {id : JobId}
    (h : t.isTracked id = false) :
    t.onTerminated id = (t, []) := by
  have hstale : (t.rowAt id.slot).owner ≠ some id := fun ho => by
    rw [isTracked_iff.mpr ho] at h
    cases h
  unfold onTerminated cascadeLoop
  rw [if_pos hstale]
  cases t.edgeCount <;> rfl

/-- A termination ends, reports exactly the tracked jobs reachable over stored edges, each once
and without its root, retires them with the root, and leaves every other tracked row alone. -/
theorem cascade_visits_reachable (t : DependencyTracker) (id : JobId) (buffer : List JobId) :
    (∀ t' cascade, Unwinds id t [id] buffer t' cascade ↔
        t' = (t.onTerminated id).1 ∧ cascade = buffer ++ (t.onTerminated id).2) ∧
      (t.onTerminated id).2.Nodup ∧
      (∀ v, v ∈ (t.onTerminated id).2 ↔ v ≠ id ∧ Reach t [id] v) ∧
      (t.isTracked id = false → t.onTerminated id = (t, [])) ∧
      (t.onTerminated id).1.isTracked id = false ∧
      (∀ v ∈ (t.onTerminated id).2, (t.onTerminated id).1.isTracked v = false) ∧
      ∀ v, t.isTracked v = true → v ≠ id → v ∉ (t.onTerminated id).2 →
        (t.onTerminated id).1.rowAt v.slot = t.rowAt v.slot := by
  have hends : Unwinds id t [id] buffer (t.onTerminated id).1
      (buffer ++ (t.onTerminated id).2) := by
    have h := unwinds_cascadeLoop id buffer (t.edgeCount + 1) t [id] []
      (by rw [List.length_singleton]; omega)
    rwa [List.append_nil] at h
  refine ⟨fun t' cascade => ⟨fun h => h.unique hends, ?_⟩, nodup_onTerminated t id,
    fun v => mem_onTerminated, onTerminated_untracked, ?_, ?_, ?_⟩
  · rintro ⟨rfl, rfl⟩
    exact hends
  · rw [Bool.eq_false_iff]
    intro htracked
    obtain ⟨hid, hnot⟩ := isTracked_onTerminated.mp htracked
    exact hnot (.root List.mem_cons_self hid)
  · intro v hv
    rw [Bool.eq_false_iff]
    intro htracked
    exact (isTracked_onTerminated.mp htracked).2 (mem_onTerminated.mp hv).2
  · intro v hv hne hout
    apply rowAt_onTerminated
    rw [isTracked_onTerminated]
    exact ⟨hv, fun hreach => hout (mem_onTerminated.mpr ⟨hne, hreach⟩)⟩

/-- Two jobs that wait for each other, one of them twice, beside an unrelated one. -/
def entangled : DependencyTracker :=
  ⟨[⟨some ⟨0⟩, 1, [⟨1⟩, ⟨1⟩]⟩, ⟨some ⟨1⟩, 2, [⟨0⟩, ⟨7⟩]⟩, ⟨some ⟨2⟩, 0, []⟩]⟩

theorem cascade_visits_reachable_sample :
    (entangled.onTerminated ⟨0⟩).1.rowAt 2 = entangled.rowAt 2 :=
  (cascade_visits_reachable entangled ⟨0⟩ []).2.2.2.2.2.2 ⟨2⟩ (by decide) (by decide) (by decide)

end TaskerRT.Policy.DependencyTracker
