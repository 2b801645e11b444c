/- module: TaskerRT/Daemon/Eligible
   source: crates/taskerd/src/engine.rs, crates/tasker-core/src/policy/eligibility.rs
   digest: Over whole runs, blocked jobs wait for exactly their pending dependencies. -/

import TaskerRT.Daemon.Sane
import TaskerRT.Scheduler.Settled

set_option autoImplicit false

namespace TaskerRT.Daemon

open Library Domain Cluster Policy Scheduling Wal Book DependencyTracker

namespace Engine

variable {e e' : Engine} {input : Input} {inputs : List Input} {events : List Event}

theorem Turns.lawful (h : Turns e input events e') (hs : e.toCore.Sane) (hw : e.NoWrap input) :
    Chain Lawful e.toRoster.book (events.flatMap Event.records) e'.toRoster.book := by
  rw [flatMap_records]
  exact (hs.roster.chain (h.sane hs hw).2).2

private theorem Turns.records_cases (h : Turns e input events e') :
    (∀ id, .forgotten id ∉ events.flatMap Event.records) ∨
      ∀ r ∈ events.flatMap Event.records, isOutcome r = false := by
  -- Only single acts settle or forget; a worker's departure and an expiry requeue.
  have hsingle : ∀ r ∈ events.flatMap Event.records,
      (∃ id now, r = .requeued id now) ∨ ∃ act, .acted act ∈ events ∧ r ∈ act.records := by
    intro r hr
    obtain ⟨ev, hev, hmem⟩ := List.mem_flatMap.mp hr
    obtain ⟨act, hact, hrec⟩ := List.mem_flatMap.mp hmem
    obtain ⟨c, c', htakes⟩ := h.chain.mem hev
    cases htakes with
    | acted | ended | cancelled | cycled =>
      rw [List.mem_singleton.mp hact] at hrec
      exact Or.inr ⟨_, hev, hrec⟩
    | left hq | expired hq =>
      obtain ⟨id, rfl⟩ := hq.acts_eq act hact
      exact Or.inl ⟨id, _, List.mem_singleton.mp hrec⟩
    | _ => exact nomatch hact
  cases input with
  | command command now outbox =>
    left
    intro id hmem
    rcases hsingle _ hmem with ⟨_, _, hr⟩ | ⟨act, hact, hr⟩
    · exact nomatch hr
    · have hcause := h.cause _ hact
      cases act with
      | forgotten x => exact absurd hcause not_false
      | dispatched ids now =>
        obtain ⟨x, -, heq⟩ := List.mem_map.mp hr
        exact nomatch heq
      | dropped => exact nomatch hr
      | _ => exact nomatch List.mem_singleton.mp hr
  | quiesce =>
    left
    intro id hmem
    obtain ⟨ev, hev, -⟩ := List.mem_flatMap.mp hmem
    exact absurd (h.cause ev hev) not_false
  | tick =>
    right
    intro r hmem
    rcases hsingle r hmem with ⟨_, _, rfl⟩ | ⟨act, hact, hr⟩
    · rfl
    · have hcause := h.cause _ hact
      cases act with
      | submitted | completed | failed | cancelled => exact nomatch hcause.1
      | dispatched ids now =>
        obtain ⟨x, -, rfl⟩ := List.mem_map.mp hr
        rfl
      | dropped => exact nomatch hr
      | requeued | evicted | preempted | forgotten =>
        rw [List.mem_singleton.mp hr]
        rfl

theorem settled_build (config : DaemonConfig) (journal : Option Journal) :
    (build config journal).toRoster.book.Settled := by
  have hnone : ∀ x job, (Arena.new : Arena Job).get x ≠ some job := fun _ _ h => nomatch h
  exact ⟨(sane_build config journal).roster.valid,
    .of_no_blocked fun b j hb => absurd hb (hnone b j), fun x job hx => absurd hx (hnone x job),
    fun x job hx => absurd hx (hnone x job)⟩

/-- Sane, with a settled book: what holds of an engine that started empty. -/
structure Eligible (e : Engine) : Prop where
  sane : e.toCore.Sane
  settled : e.toRoster.book.Settled

theorem eligible_build (config : DaemonConfig) (journal : Option Journal) :
    (build config journal).Eligible :=
  ⟨sane_build config journal, settled_build config journal⟩

section

variable [Crc32]

private theorem SafeSteps.records (h : e.SafeSteps input e') (hs : e.toCore.Sane) :
    ∃ records, Chain Lawful e.toRoster.book records e'.toRoster.book ∧
      ((∀ id, .forgotten id ∉ records) ∨ ∀ r ∈ records, isOutcome r = false) := by
  obtain ⟨events, hturns⟩ := h.1.turns
  exact ⟨_, hturns.lawful hs h.2, hturns.records_cases⟩

private theorem SafeSteps.eligible (h : e.SafeSteps input e') (he : e.Eligible) : e'.Eligible := by
  obtain ⟨records, hchain, -⟩ := h.records he.sane
  exact ⟨h.sane he.sane, he.settled.run hchain⟩

theorem eligible_of_run (h : Chain SafeSteps e inputs e') (he : e.Eligible) : e'.Eligible :=
  h.keeps (P := Eligible) (fun _ _ _ h he => SafeSteps.eligible h he) he

/-- Whatever a cleared job depends on was completed in some state of the run. -/
private theorem completed_before (h : Chain SafeSteps e inputs e') : ∀ {seen : JobId → Prop},
    e.Eligible → Seen seen e.toRoster.book → ∀ {x : JobId} {job : Job},
      e'.jobs.get x = some job → job.state.isCleared = true → ∀ a ∈ job.deps,
        seen a ∨ ∃ front back e₁, inputs = front ++ back ∧ Chain SafeSteps e front e₁ ∧
          Chain SafeSteps e₁ back e' ∧ InState e₁.jobs .completed a := by
  induction h with
  | nil e =>
    intro seen he hseen x job hx hst a ha
    have hlive : ¬ Dead e.toRoster.book.jobs x := by
      rintro (⟨j, hj, hst'⟩ | ⟨j, hj, hst'⟩) <;>
        obtain rfl := Option.some.inj (hx.symm.trans hj) <;> rw [hst'] at hst <;> exact nomatch hst
    rcases hseen x job hx hlive a ha with ⟨ja, hja⟩ | hdone
    · exact Or.inr ⟨[], [], e, rfl, .nil e, .nil e, ja, hja,
        he.settled.valid.sound.met hx hst a ha ja hja⟩
    · exact Or.inl hdone
  | @cons e e₁ e' input inputs head tail ih =>
    intro seen he hseen x job hx hst a ha
    obtain ⟨records, hchain, hcases⟩ := head.records he.sane
    -- From here on, what is completed now counts as seen.
    have hseen' : Seen (fun a => seen a ∨ InState e.jobs .completed a) e.toRoster.book :=
      fun x job hx hlive a ha => (hseen x job hx hlive a ha).imp_right Or.inl
    have hseen₁ := hseen'.run hchain he.settled
      (hcases.imp_right fun hquiet => ⟨hquiet, fun a ha => Or.inr ha⟩)
    rcases ih (head.eligible he) hseen₁ hx hst a ha with (hdone | hnow) |
      ⟨front, back, e₂, rfl, hfront, hback, hdone⟩
    · exact Or.inl hdone
    · exact Or.inr ⟨[], input :: inputs, e, rfl, .nil e, .cons head tail, hnow⟩
    · exact Or.inr ⟨input :: front, back, e₂, rfl, .cons head hfront, hback, hdone⟩

private theorem SafeSteps.cascades (h : e.SafeSteps input e') (he : e.Eligible) {x y : JobId}
    {job : Job} (hy : isPending e.jobs y = true) (hdead : Dead e'.jobs y)
    (hpath : Relation.TransGen (DependsOn e.jobs) x y) (hx : e.jobs.get x = some job)
    (hopen : job.state.isTerminal = false) : InState e'.jobs .cancelled x := by
  obtain ⟨records, hchain, hno | hquiet⟩ := h.records he.sane
  · exact he.settled.cascades_run hchain hno job hx hopen hy hpath hdead
  · -- A tick leaves what is open open.
    obtain ⟨jy, hjy, hnt⟩ := isPending_iff.mp hy
    rcases hdead with ⟨j, hj, hst⟩ | ⟨j, hj, hst⟩
    all_goals
      have hbefore := over_before hchain he.settled.valid hquiet j hj (by rw [hst]; rfl)
      obtain rfl := Option.some.inj (hjy.symm.trans hbefore)
      rw [hst] at hnt
      exact nomatch hnt

/-- In every state of an in-memory run: an open job is blocked exactly while it lists an open
job, with the exact count; what is ready, running or preempted had its dependencies completed;
and a turn in which a job fails or is cancelled cancels everything open below it. -/
theorem dependency_index_exact {config : DaemonConfig}
    (h : Chain SafeSteps (Engine.new config) inputs e) :
    (∀ x job, e.jobs.get x = some job → job.state.isTerminal = false →
      (job.state = .blocked ↔ ∃ dep ∈ job.deps, isPending e.jobs dep = true) ∧
      (job.state = .blocked → 0 < pendingCount e.jobs job.deps ∧
        e.scheduler.deps.unsatisfied x = some (pendingCount e.jobs job.deps))) ∧
    (∀ x job, e.jobs.get x = some job → job.state.isCleared = true → ∀ dep ∈ job.deps,
      ∃ front back e₁, inputs = front ++ back ∧ Chain SafeSteps (Engine.new config) front e₁ ∧
        Chain SafeSteps e₁ back e ∧ InState e₁.jobs .completed dep) ∧
    (∀ input e', e.SafeSteps input e' → ∀ y, isPending e.jobs y = true → Dead e'.jobs y →
      ∀ x job, Relation.TransGen (DependsOn e.jobs) x y → e.jobs.get x = some job →
        job.state.isTerminal = false → InState e'.jobs .cancelled x) := by
  have he := eligible_of_run h (eligible_build config none)
  refine ⟨fun x job hx hopen => ⟨he.settled.blocked_iff hx hopen, fun hst =>
    ⟨he.settled.exact_.waits hx hst, he.settled.unsatisfied_eq hx hst⟩⟩, ?_, ?_⟩
  · intro x job hx hst dep hdep
    have hseen : Seen (fun _ => False) (build config none).toRoster.book :=
      fun x job hx => absurd hx (by exact fun h => nomatch h)
    rcases completed_before h (eligible_build config none) hseen hx hst dep hdep with hnone | hdone
    · exact hnone.elim
    · exact hdone
  · intro input e' hstep y hy hdead x job hpath hx hopen
    exact hstep.cascades he hy hdead hpath hx hopen

end

def chainInputs : List Input :=
  [(sampleSubmit .normal 1 []).sent 0, (sampleSubmit .normal 1 [⟨0⟩, ⟨0⟩]).sent 0,
    (sampleSubmit .normal 1 [⟨1⟩]).sent 0]

attribute [local instance] Crc32.ieee

theorem dependency_index_exact_sample :
    ∃ e, safeRun (Engine.new sampleDaemon) chainInputs = some e ∧
      (∃ job, e.jobs.get ⟨1⟩ = some job ∧ job.state = .blocked ∧
        e.scheduler.deps.unsatisfied ⟨1⟩ = some 2) ∧
      ∀ e', SafeSteps e ((Command.cancel ⟨0⟩ 0).sent 1) e' → Dead e'.jobs ⟨0⟩ →
        InState e'.jobs .cancelled ⟨2⟩ := by
  have hlook : (safeRun (Engine.new sampleDaemon) chainInputs).any (fun e =>
      (e.jobs.get ⟨0⟩).any (fun job => job.state = .ready) &&
      (e.jobs.get ⟨1⟩).any (fun job => job.state = .blocked && job.deps = [⟨0⟩, ⟨0⟩] &&
        pendingCount e.jobs job.deps = 2) &&
      (e.jobs.get ⟨2⟩).any fun job => job.state = .blocked && job.deps = [⟨1⟩]) = true := by
    decide +kernel
  obtain ⟨e, hrun, hlook⟩ := (Option.any_eq_true _ _).mp hlook
  simp only [Bool.and_eq_true, Option.any_eq_true, decide_eq_true_eq] at hlook
  obtain ⟨⟨⟨root, hget₀, hst₀⟩, mid, hget₁, ⟨hst₁, hdeps₁⟩, hcount⟩, last, hget₂, hst₂, hdeps₂⟩ :=
    hlook
  obtain ⟨hexact, -, hcascade⟩ := @dependency_index_exact e chainInputs Crc32.ieee sampleDaemon
    (chain_of_safeRun hrun)
  refine ⟨e, hrun, ⟨mid, hget₁, hst₁, ?_⟩, fun e' hstep hdead => ?_⟩
  · rw [((hexact ⟨1⟩ mid hget₁ (by rw [hst₁]; rfl)).2 hst₁).2, hcount]
  · have hpath : Relation.TransGen (DependsOn e.jobs) ⟨2⟩ ⟨0⟩ :=
      .tail (.single ⟨last, hget₂, by rw [hdeps₂]; decide⟩) ⟨mid, hget₁, by rw [hdeps₁]; decide⟩
    exact hcascade _ e' hstep ⟨0⟩ (isPending_iff.mpr ⟨root, hget₀, by rw [hst₀]; rfl⟩) hdead ⟨2⟩
      last hpath hget₂ (by rw [hst₂]; rfl)

end Engine

end TaskerRT.Daemon
