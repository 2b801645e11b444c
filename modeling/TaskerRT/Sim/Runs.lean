/- module: TaskerRT/Sim/Runs
   source: crates/tasker-sim/src/sim.rs (step), crates/tasker-sim/src/invariants.rs (check)
   digest: Simulated runs pass every check unless a job is cancelled in its eviction grace. -/

import TaskerRT.Scheduler.HeadDelay
import TaskerRT.Sim.Steady

set_option autoImplicit false

namespace TaskerRT.Sim

open Library Domain Cluster Policy Scheduling Wal Book

namespace Simulation

variable {sim : Simulation}

section Frame

variable {sim' : Simulation}

/-! Delivering an event queues nothing, and nothing switches the checker off. -/

private theorem release_frame {x : JobId} (h : sim.release x = .ok sim') :
    sim'.queue = sim.queue ∧ sim'.checkInvariants = sim.checkInvariants := by
  unfold release at h
  split at h
  · obtain rfl := Except.ok.inj h
    exact ⟨rfl, rfl⟩
  · split at h
    · exact nomatch h
    · obtain rfl := Except.ok.inj h
      exact ⟨rfl, rfl⟩

private theorem adopt_frame {α : Type} {step : Step α} (h : sim.adopt step = .ok sim') :
    sim'.queue = sim.queue ∧ sim'.checkInvariants = sim.checkInvariants := by
  unfold adopt at h
  split at h
  · exact nomatch h
  · obtain rfl := Except.ok.inj h
    exact ⟨rfl, rfl⟩

private theorem released_frame {α : Type} {x : JobId} {call : Simulation → Step α}
    (h : (do let sim ← sim.release x; sim.adopt (call sim)) = .ok sim') :
    sim'.queue = sim.queue ∧ sim'.checkInvariants = sim.checkInvariants := by
  cases hrelease : sim.release x with
  | error halt =>
    rw [hrelease] at h
    exact nomatch h
  | ok next =>
    rw [hrelease] at h
    have hfirst := release_frame hrelease
    have hsecond := adopt_frame h
    exact ⟨hsecond.1.trans hfirst.1, hsecond.2.trans hfirst.2⟩

private theorem apply_frame {event : Event} (h : sim.apply event = .ok sim') :
    sim'.queue = sim.queue ∧ sim'.checkInvariants = sim.checkInvariants := by
  cases event with
  | submit job deps outcome =>
    simp only [Simulation.apply, bind, Except.bind] at h
    split at h
    · cases h
    · split at h
      · cases h
      · have hadopt := adopt_frame h
        exact hadopt
  | complete x run | fail x run | preempted x run =>
    simp only [Simulation.apply] at h
    split at h
    · exact released_frame h
    · obtain rfl := Except.ok.inj h
      exact ⟨rfl, rfl⟩
  | cancel submitIndex =>
    simp only [Simulation.apply] at h
    split at h
    · cases h
    · split at h
      · obtain rfl := Except.ok.inj h
        exact ⟨rfl, rfl⟩
      · split at h
        · obtain rfl := Except.ok.inj h
          exact ⟨rfl, rfl⟩
        · split at h
          · exact released_frame h
          · exact adopt_frame h

private theorem checked_eq (h : sim.checked = .ok sim') : sim' = sim := by
  unfold checked at h
  split at h
  · split at h
    · exact nomatch h
    · exact (Except.ok.inj h).symm
  · exact (Except.ok.inj h).symm

private theorem deliver_succ {fuel : Nat} {at_ : VirtualTime} {event : Event} {queue : EventQueue}
    {out : Simulation × Nat} (hpop : sim.queue.popDue at_ = some (event, queue))
    (h : deliver (fuel + 1) at_ sim = .ok out) :
    ∃ next rest, ({ sim with queue := queue } : Simulation).apply event = .ok next ∧
      deliver fuel at_ next = .ok rest ∧ out.1 = rest.1 := by
  simp only [deliver, hpop, bind, Except.bind] at h
  split at h
  · exact nomatch h
  rename_i next happly
  split at h
  · exact nomatch h
  rename_i next' hchecked
  obtain rfl := checked_eq hchecked
  split at h
  · exact nomatch h
  rename_i rest hrest
  obtain rfl := Except.ok.inj h
  exact ⟨next', rest, happly, hrest, rfl⟩

private theorem deliver_drains {fuel : Nat} {at_ : VirtualTime} : ∀ {sim : Simulation}
    {out : Simulation × Nat}, deliver fuel at_ sim = .ok out → sim.queue.len ≤ fuel →
    out.1.queue.popDue at_ = none ∧ out.1.checkInvariants = sim.checkInvariants := by
  induction fuel with
  | zero =>
    intro sim out h hlen
    obtain rfl := Except.ok.inj h
    have hempty : sim.queue.entries = [] := List.length_eq_zero_iff.mp (Nat.le_zero.mp hlen)
    simp only [EventQueue.popDue, hempty, and_self]
  | succ fuel ih =>
    intro sim out h hlen
    cases hpop : sim.queue.popDue at_ with
    | none =>
      simp only [deliver, hpop] at h
      obtain rfl := Except.ok.inj h
      exact ⟨hpop, rfl⟩
    | some popped =>
      obtain ⟨event, queue⟩ := popped
      obtain ⟨next, rest, happly, hrest, hout⟩ := deliver_succ hpop h
      have hframe := apply_frame happly
      have hshorter : queue.len ≤ fuel := by
        unfold EventQueue.popDue at hpop
        split at hpop
        · exact nomatch hpop
        · rename_i entry entries hentries
          split at hpop
          · exact nomatch hpop
          · obtain ⟨-, rfl⟩ := Prod.mk.inj (Option.some.inj hpop)
            rw [EventQueue.len, hentries, List.length_cons] at hlen
            exact Nat.le_of_succ_le_succ hlen
      have hdrained := ih hrest (by rw [hframe.1]; exact hshorter)
      rw [hout]
      exact ⟨hdrained.1, hdrained.2.trans hframe.2⟩

private theorem checkInvariants_onDispatched (at_ : VirtualTime) (d : DispatchDecision) :
    (sim.onDispatched at_ d).checkInvariants = sim.checkInvariants := by
  unfold onDispatched
  split <;> rfl

private theorem checkInvariants_foldl (at_ : VirtualTime) (ds : List DispatchDecision) :
    ∀ sim : Simulation, (ds.foldl (fun (sim : Simulation) d => sim.onDispatched at_ d)
      sim).checkInvariants = sim.checkInvariants := by
  induction ds with
  | nil => exact fun _ => rfl
  | cons d ds ih => exact fun sim => (ih _).trans (checkInvariants_onDispatched at_ d)

private theorem checkInvariants_evictEach (at_ : VirtualTime) (evictions : List Eviction) :
    ∀ sim : Simulation, (evictEach at_ evictions sim).1.checkInvariants = sim.checkInvariants := by
  induction evictions with
  | nil => exact fun _ => rfl
  | cons e evictions ih =>
    intro sim
    simp only [evictEach]
    split
    · exact ih sim
    · exact ih _

private theorem checkInvariants_step {report : StepReport} (h : sim.step = .ok (sim', report)) :
    sim'.checkInvariants = sim.checkInvariants := by
  simp only [Simulation.step, bind, Except.bind] at h
  split at h
  · exact nomatch h
  rename_i delivered hdeliver
  split at h
  · exact nomatch h
  rename_i out hcycle
  split at h
  · exact nomatch h
  rename_i last hchecked
  obtain rfl := checked_eq hchecked
  obtain ⟨rfl, -⟩ := Prod.mk.inj (Except.ok.inj h)
  have hdelivered := (deliver_drains hdeliver (le_refl _)).2
  unfold Simulation.cycle at hcycle
  split at hcycle
  · exact nomatch hcycle
  obtain rfl := Except.ok.inj hcycle
  refine Eq.trans ?_ hdelivered
  unfold Simulation.preemptFor
  split
  · exact checkInvariants_foldl _ _ _
  · split
    · exact checkInvariants_foldl _ _ _
    · exact (checkInvariants_evictEach _ _ _).trans (checkInvariants_foldl _ _ _)

end Frame

section Cycle

private theorem foldl_onDispatched (at_ : VirtualTime) (ds : List DispatchDecision) : ∀ sim :
    Simulation,
    (∀ d ∈ ds, ∃ job, sim.jobs.get d.job = some job) →
    ∃ bound runs queue, ds.foldl (fun sim d => sim.onDispatched at_ d) sim =
        { sim with running := sim.running ++ bound, runs := runs, queue := queue } ∧
      bound.map (·.job) = ds.map (·.job) ∧ bound.map (·.slot) = ds.map (·.slot) := by
  induction ds with
  | nil =>
    intro sim _
    exact ⟨[], sim.runs, sim.queue, by simp, rfl, rfl⟩
  | cons d ds ih =>
    intro sim hlive
    obtain ⟨job, hjob⟩ := hlive d List.mem_cons_self
    obtain ⟨bound, runs, queue, hfold, hids, hslots⟩ := ih (sim.onDispatched at_ d) (by
      intro d' hd'
      have hjobs : (sim.onDispatched at_ d).jobs = sim.jobs := by simp only [onDispatched, hjob]
      rw [hjobs]
      exact hlive d' (List.mem_cons_of_mem _ hd'))
    refine ⟨⟨d.job, d.slot, job.request, Word.saturatingAdd at_ job.walltimeLimit⟩ :: bound, runs,
      queue, ?_, by rw [List.map_cons, List.map_cons, hids],
      by rw [List.map_cons, List.map_cons, hslots]⟩
    rw [List.foldl_cons, hfold]
    simp only [onDispatched, hjob, List.append_assoc, List.singleton_append]

private theorem Steady.dispatched (h : sim.Steady) {at_ : VirtualTime}
    {result : Scheduler.CycleResult}
    (ran : sim.scheduler.runCycle sim.jobs sim.inventory sim.running at_ sim.config [] =
      some result) :
    (result.decisions.foldl (fun (sim : Simulation) d => sim.onDispatched at_ d)
      { sim with
        scheduler := result.scheduler
        jobs := result.jobs
        inventory := result.inventory }).Steady := by
  obtain ⟨new, hc⟩ := Scheduler.runCycle_cycled h.kept.mirror.faithful ran
  have hnew : result.decisions = new := by rw [hc.decisions, List.nil_append]
  have hlive := Scheduler.runCycle_live ran
  obtain ⟨bound, runs, queue, hfold, hids, hslots⟩ := foldl_onDispatched at_ result.decisions
    { sim with
      scheduler := result.scheduler
      jobs := result.jobs
      inventory := result.inventory } hlive
  rw [hfold]
  have hchain : Chain (fun b record b' => Lawful b record b' ∧ ∀ id, record ≠ .forgotten id)
      sim.book ((result.decisions.map (·.job)).map fun id => .dispatched id at_)
      ⟨result.scheduler.deps, result.jobs⟩ := by
    refine (posts_runCycle h.kept ran).imp ?_
    intro b record b' hmem hposts
    obtain ⟨id, -, rfl⟩ := List.mem_map.mp hmem
    exact ⟨⟨hposts, trivial⟩, fun _ he => nomatch he⟩
  have hbook : Settled ⟨result.scheduler.deps, result.jobs⟩ ∧
      AllLive ⟨result.scheduler.deps, result.jobs⟩ :=
    hchain.keeps (P := fun b => Settled b ∧ AllLive b)
      (fun b record b' hstep hb => ⟨hb.1.posts hstep.1,
        hb.2.posts hb.1.valid hstep.1.1 hstep.2⟩) ⟨h.settled, h.live⟩
  have hworked := (Valid.chain (hchain.imp fun _ _ _ _ hstep => hstep.1) h.settled.valid).2
  -- A job to be dispatched is ready, so it was not bound before.
  have hfresh : ∀ x ∈ sim.runningIds, x ∉ result.decisions.map (·.job) := by
    intro x hx hmem
    obtain ⟨d, hd, rfl⟩ := List.mem_map.mp (hnew ▸ hmem)
    obtain ⟨job, hjob, hst, -⟩ := hc.decided d hd
    obtain ⟨job', hjob', hw⟩ := (h.worked _).mp hx
    obtain rfl := Option.some.inj (hjob.symm.trans hjob')
    rw [hst] at hw
    exact nomatch hw
  have hrunning : ({ sim with
      scheduler := result.scheduler, jobs := result.jobs, inventory := result.inventory,
      running := sim.running ++ bound, runs := runs, queue := queue } : Simulation).runningIds =
      sim.runningIds ++ result.decisions.map (·.job) := by
    simp only [runningIds, List.map_append, hids]
  refine ⟨h.kept.runCycle ran, hbook.1, hbook.2, ?_, ?_, ?_, hc.grown.within h.within⟩
  · intro x
    rw [hrunning, List.mem_append, h.worked x]
    show _ ↔ Worked ⟨result.scheduler.deps, result.jobs⟩ x
    rw [hworked x (by
      intro record hmem
      obtain ⟨id, -, rfl⟩ := List.mem_map.mp hmem
      rfl)]
    simp [starts]
  · rw [hrunning, List.nodup_append]
    refine ⟨h.nodup, hnew ▸ hc.nodup, ?_⟩
    intro x hx y hy hxy
    exact hfresh x hx (hxy ▸ hy)
  · intro r hr
    show r.slot < result.inventory.slots.length
    rw [hc.grown.length]
    rcases List.mem_append.mp hr with hr | hr
    · exact h.slots r hr
    · have hslot : r.slot ∈ result.decisions.map (·.slot) := hslots ▸ List.mem_map_of_mem hr
      obtain ⟨d, hd, hds⟩ := List.mem_map.mp hslot
      rw [← hds]
      exact hc.grown.placed d (hnew ▸ hd)

private theorem Steady.evictEach (at_ : VirtualTime) (evictions : List Eviction) :
    ∀ {sim : Simulation}, sim.Steady → (evictEach at_ evictions sim).1.Steady := by
  induction evictions with
  | nil => exact fun h => h
  | cons e evictions ih =>
    intro sim h
    simp only [Simulation.evictEach]
    split
    · exact ih h
    · rename_i u hok
      apply ih
      have hsteady := h.stays ⟨posts_preempt at_ hok, trivial⟩ (h.kept.preempt e.job)
        (fun _ he => nomatch he) (fun _ _ => rfl) fun _ => rfl
      exact hsteady.frame rfl rfl rfl rfl

private theorem Steady.preemptFor (h : sim.Steady) (at_ : VirtualTime) (head : Option JobId) :
    (sim.preemptFor at_ head).1.Steady := by
  unfold Simulation.preemptFor
  split
  · exact h
  · split
    · exact h
    · exact Steady.evictEach at_ _ h

private theorem Steady.cycle (h : sim.Steady) (at_ : VirtualTime) :
    ∃ out, sim.cycle at_ = .ok out ∧ out.1.Steady := by
  obtain ⟨result, ran⟩ := Scheduler.runCycle_isSome h.kept.mirror.faithful
    (fun t ht => Or.inl (h.within t ht)) sim.running at_ sim.config []
  refine ⟨_, by simp only [Simulation.cycle, ran]; rfl, ?_⟩
  exact (h.dispatched ran).preemptFor at_ result.outcome.head

end Cycle

section Step

/-- No cancel delivered in a tick hits a job in its eviction grace, each looked at as it is
delivered. -/
def sparesDue : Nat → VirtualTime → Simulation → Bool
  | 0, _, _ => true
  | fuel + 1, at_, sim =>
    match sim.queue.popDue at_ with
    | none => true
    | some (event, queue) =>
      let sim := { sim with queue := queue }
      sim.spared event &&
        match sim.apply event with
        | .error _ => true
        | .ok sim => sparesDue fuel at_ sim

def spares (sim : Simulation) : Bool :=
  let at_ := Word.saturatingAdd sim.clock sim.tick
  sparesDue sim.queue.len at_ { sim with clock := at_ }

private theorem Steady.deliver (at_ : VirtualTime) (fuel : Nat) : ∀ {sim : Simulation}, sim.Steady →
    sparesDue fuel at_ sim = true → Holds Prod.fst (deliver fuel at_ sim) := by
  induction fuel with
  | zero => exact fun h _ => h
  | succ fuel ih =>
    intro sim h hspares
    simp only [Simulation.deliver]
    simp only [sparesDue] at hspares
    cases hpop : sim.queue.popDue at_ with
    | none => exact h
    | some out =>
      obtain ⟨event, queue⟩ := out
      simp only [hpop, Bool.and_eq_true] at hspares
      have hqueued : ({ sim with queue := queue } : Simulation).Steady := h.frame rfl rfl rfl rfl
      have hholds := hqueued.apply hspares.1
      have hrest := hspares.2
      cases happly : ({ sim with queue := queue } : Simulation).apply event with
      | error halt =>
        rw [happly] at hholds
        simp only [happly, bind, Except.bind]
        exact hholds
      | ok next =>
        rw [happly] at hholds hrest
        have hsteady : next.Steady := hholds
        have hnext := ih hsteady hrest
        simp only [happly, bind, Except.bind, hsteady.checked_ok]
        cases hdeliver : Simulation.deliver fuel at_ next with
        | error halt =>
          rw [hdeliver] at hnext
          exact hnext
        | ok delivered =>
          rw [hdeliver] at hnext
          exact hnext

private theorem Steady.step (h : sim.Steady) (hspares : sim.spares = true) :
    Holds Prod.fst sim.step := by
  have hclock : ({ sim with clock := Word.saturatingAdd sim.clock sim.tick } : Simulation).Steady :=
    h.frame rfl rfl rfl rfl
  have hdelivered := Steady.deliver _ _ hclock hspares
  simp only [Simulation.step, bind, Except.bind]
  cases hdeliver : Simulation.deliver sim.queue.len (Word.saturatingAdd sim.clock sim.tick)
      { sim with clock := Word.saturatingAdd sim.clock sim.tick } with
  | error halt =>
    rw [hdeliver] at hdelivered
    exact hdelivered
  | ok delivered =>
    rw [hdeliver] at hdelivered
    have hbefore : delivered.1.Steady := hdelivered
    obtain ⟨out, hcycle, hsteady⟩ := hbefore.cycle (Word.saturatingAdd sim.clock sim.tick)
    simp only [hcycle, hsteady.checked_ok]
    exact hsteady

end Step

section Run

/-- Events are scheduled at any time; steps are those that cancel no job in its eviction grace. -/
inductive Moves : Simulation → Simulation → Prop where
  | scheduled (sim : Simulation) (at_ : VirtualTime) (event : Event) :
      Moves sim (sim.schedule at_ event)
  | stepped {sim sim' : Simulation} {report : StepReport} (spares : sim.spares = true)
      (ok : sim.step = .ok (sim', report)) : Moves sim sim'

/-- A new simulation that checks its invariants after every event and every cycle. -/
def watched (inventory : SlotInventory) (config : CycleConfig) (tick : VirtualDuration) :
    Simulation :=
  { Simulation.new inventory config tick with checkInvariants := true }

private theorem steady_watched {inventory : SlotInventory}
    (hwithin : ∀ s ∈ inventory.slots, s.Within)
    (config : CycleConfig) (tick : VirtualDuration) :
    (watched inventory config tick).Steady := by
  have hnone : ∀ x job, (Arena.new : Arena Job).get x = some job → False := by
    intro x job hjob
    exact nomatch hjob
  refine ⟨⟨Mirror.of_none_ready fun c x ⟨job, hjob, _⟩ => hnone x job hjob, Nat.zero_le _⟩, ?_, ?_,
    ?_, List.nodup_nil, fun _ hr => (nomatch hr), hwithin⟩
  · refine ⟨⟨Arena.wf_new, ?_, fun hjob => (hnone _ _ hjob).elim⟩, ?_,
      fun x job hjob => (hnone x job hjob).elim, fun x job hjob => (hnone x job hjob).elim⟩
    · exact Sound.of_unclassified fun x job hjob => (hnone x job hjob).elim
    · exact Exact.of_no_blocked fun x job hjob => (hnone x job hjob).elim
  · intro x hx
    exact hx.elim
  · intro x
    exact ⟨fun hx => (nomatch hx), fun ⟨job, hjob, _⟩ => (hnone x job hjob).elim⟩

private theorem Moves.steady {sim' : Simulation} (h : Moves sim sim') (hs : sim.Steady) :
    sim'.Steady ∧ sim'.checkInvariants = sim.checkInvariants := by
  cases h with
  | scheduled at_ event => exact ⟨hs.frame rfl rfl rfl rfl, rfl⟩
  | stepped spares ok =>
    have hholds := hs.step spares
    rw [ok] at hholds
    exact ⟨hholds, checkInvariants_step ok⟩

/-- Every check of a run passes: between steps, and inside every step that cancels no job in its
eviction grace. Such a step fails only on the script's own account. -/
theorem simulated_runs_keep_invariants {inventory : SlotInventory} {config : CycleConfig}
    {tick : VirtualDuration} (hwithin : ∀ s ∈ inventory.slots, s.Within)
    (hrun : Relation.ReflTransGen Moves (watched inventory config tick) sim) :
    sim.checkInvariants = true ∧ sim.check = .ok () ∧ (sim.spares = true →
      (∃ sim' report, sim.step = .ok (sim', report) ∧ sim'.check = .ok ()) ∨
        ∃ halt, sim.step = .error halt ∧ halt.FromScript) := by
  have hsteady : sim.Steady ∧ sim.checkInvariants = true := by
    induction hrun with
    | refl => exact ⟨steady_watched hwithin config tick, rfl⟩
    | tail _ hmove ih =>
      obtain ⟨hs, hflag⟩ := hmove.steady ih.1
      exact ⟨hs, hflag.trans ih.2⟩
  refine ⟨hsteady.2, hsteady.1.check_ok, ?_⟩
  intro hspares
  have hholds := hsteady.1.step hspares
  cases hstep : sim.step with
  | error halt =>
    rw [hstep] at hholds
    exact .inr ⟨halt, rfl, hholds⟩
  | ok out =>
    rw [hstep] at hholds
    exact .inl ⟨out.1, out.2, rfl, Steady.check_ok hholds⟩

/-- Some steps in a row, as long as they cancel no job in its eviction grace. -/
def sparingSteps : Nat → Simulation → Option Simulation
  | 0, sim => some sim
  | n + 1, sim =>
    if sim.spares then
      match sim.step with
      | .error _ => none
      | .ok out => sparingSteps n out.1
    else none

private theorem moves_of_sparingSteps {n : Nat} : ∀ {sim sim' : Simulation},
    sparingSteps n sim = some sim' → Relation.ReflTransGen Moves sim sim' := by
  induction n with
  | zero =>
    intro sim sim' h
    obtain rfl := Option.some.inj h
    exact .refl
  | succ n ih =>
    intro sim sim' h
    simp only [sparingSteps] at h
    split at h
    · rename_i hspares
      split at h
      · exact nomatch h
      · rename_i out hstep
        exact .head (.stepped hspares hstep) (ih h)
    · exact nomatch h

/-- One slot of one CPU. A low job takes it, an urgent one evicts it, with five seconds of grace,
and the low job is cancelled at `cancelAt`. -/
def graceScript (cancelAt : VirtualTime) : Simulation :=
  let config := { sampleConfig with preempt := ⟨some .high, 3, VirtualDuration.fromSecs 5⟩ }
  let start := watched ⟨[⟨⟨1, 0, 0⟩, Resources.zero⟩], ⟨1, 0, 0⟩⟩ config (VirtualDuration.fromSecs 1)
  let lasting := VirtualDuration.fromSecs 100
  ((start.schedule 0 (.submit (sampleJob .low 1 lasting) [] (.completes lasting))).schedule
    (VirtualDuration.fromSecs 2)
    (.submit (sampleJob .urgent 1 lasting) [] (.completes lasting))).schedule cancelAt (.cancel 0)

/-- Cancelled after its eviction was confirmed, the low job leaves nothing behind. -/
theorem simulated_runs_keep_invariants_sample : ∃ sim,
    sparingSteps 9 (graceScript (VirtualDuration.fromSecs 8)) = some sim ∧
      sim.running.map (·.job) = [⟨1⟩] ∧ (sim.jobs.get ⟨0⟩).map (·.state) = some .cancelled ∧
      sim.check = .ok () := by
  have hlook : (sparingSteps 9 (graceScript (VirtualDuration.fromSecs 8))).any (fun sim =>
      decide (sim.running.map (·.job) = [⟨1⟩]) &&
        decide ((sim.jobs.get ⟨0⟩).map (·.state) = some .cancelled)) = true := by
    decide +kernel
  obtain ⟨sim, hsteps, hlook⟩ := (Option.any_eq_true _ _).mp hlook
  simp only [Bool.and_eq_true, decide_eq_true_eq] at hlook
  have hwithin : ∀ s ∈ [(⟨⟨1, 0, 0⟩, Resources.zero⟩ : WorkerSlot)], s.Within := by decide
  have hscript : Relation.ReflTransGen Moves _ (graceScript (VirtualDuration.fromSecs 8)) :=
    .tail (.tail (.tail .refl (.scheduled _ _ _)) (.scheduled _ _ _)) (.scheduled _ _ _)
  have hchecked := simulated_runs_keep_invariants hwithin
    (hscript.trans (moves_of_sparingSteps hsteps))
  exact ⟨sim, hsteps, hlook.1, hlook.2, hchecked.2.1⟩

/-- Cancelled in its grace, the low job keeps its slot and its entry of the running set. -/
theorem cancel_in_grace_violates :
    (graceScript (VirtualDuration.fromSecs 3)).runToQuiescence 10 =
      .error (.error (.invariant (.runningSetMismatch 1 0))) := by
  have hlook : (match (graceScript (VirtualDuration.fromSecs 3)).runToQuiescence 10 with
      | .ok _ => false
      | .error halt => decide (halt = .error (.invariant (.runningSetMismatch 1 0)))) = true := by
    decide +kernel
  split at hlook
  · exact nomatch hlook
  · rename_i halt hrun
    rw [hrun, of_decide_eq_true hlook]

end Run

end Simulation

end TaskerRT.Sim
