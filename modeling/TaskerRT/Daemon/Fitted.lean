/- module: TaskerRT/Daemon/Fitted
   source: crates/taskerd/src/engine.rs, crates/tasker-core/src/cluster/slot.rs
   digest: Only a draining worker's slot holds more than its capacity, and only a job that asks for
   nothing can then stop a cycle. -/

import TaskerRT.Daemon.Offers

set_option autoImplicit false

namespace TaskerRT.Daemon

open Library Domain Cluster Policy Scheduling Wal Resources

/-- Every slot keeps its capacity, and what was within it stays so. -/
def Contained (inventory inventory' : SlotInventory) : Prop :=
  ∀ (i : SlotIndex) (s' : WorkerSlot), inventory'.slots[i]? = some s' →
    ∃ s : WorkerSlot, inventory.slots[i]? = some s ∧ s'.capacity = s.capacity ∧ (s.Within → s'.Within)

namespace Contained

variable {inventory inventory₁ inventory' : SlotInventory} {i : SlotIndex}

private theorem refl (inventory : SlotInventory) : Contained inventory inventory :=
  fun _ s hs => ⟨s, hs, rfl, id⟩

private theorem trans (h : Contained inventory inventory₁) (h' : Contained inventory₁ inventory') :
    Contained inventory inventory' := by
  intro i s' hs'
  obtain ⟨s₁, hs₁, hcap₁, hw₁⟩ := h' i s' hs'
  obtain ⟨s, hs, hcap, hw⟩ := h i s₁ hs₁
  exact ⟨s, hs, hcap₁.trans hcap, fun hin => hw₁ (hw hin)⟩

private theorem set {s t : WorkerSlot} (hs : inventory.slots[i]? = some s)
    (hcap : t.capacity = s.capacity) (hw : s.Within → t.Within) :
    Contained inventory { inventory with slots := inventory.slots.set i t } := by
  intro j s' hs'
  change (inventory.slots.set i t)[j]? = some s' at hs'
  by_cases hj : i = j
  · subst hj
    rw [List.getElem?_set_self (List.getElem?_eq_some_iff.mp hs).1, Option.some.injEq] at hs'
    exact ⟨s, hs, hs' ▸ hcap, fun hin => hs' ▸ hw hin⟩
  · rw [List.getElem?_set_ne hj] at hs'
    exact ⟨s', hs', rfl, id⟩

private theorem release (inventory : SlotInventory) (i : SlotIndex) (request : Resources) :
    Contained inventory (Core.orSame inventory (inventory.release i request)) := by
  cases hok : inventory.release i request with
  | error => exact refl inventory
  | ok inventory' =>
    obtain ⟨s, hs, rfl⟩ := SlotInventory.updateSlot_eq_ok.mp hok
    refine set hs rfl fun hw => fitsWithin_iff_amount.mpr fun d => ?_
    have hd := fitsWithin_iff_amount.mp hw d
    have hless := amount_saturatingSub s.allocated request d
    show (s.allocated.saturatingSub request).amount d ≤ amount s.capacity d
    omega

private theorem allocate {request : ResourceRequest}
    (h : inventory.tryAllocate i request = .ok inventory') : Contained inventory inventory' := by
  obtain ⟨s, next, hs, -, hfits, rfl⟩ := SlotInventory.tryAllocate_eq_ok.mp h
  exact set hs rfl fun _ => hfits

private theorem grown {jobs : Arena Job} {ds : List DispatchDecision}
    (h : Grown jobs ds inventory inventory') : Contained inventory inventory' := by
  intro i s' hs'
  have hlt : i < inventory.slots.length := h.length ▸ (List.getElem?_eq_some_iff.mp hs').1
  obtain ⟨s₁, hs₁, hcap, -, hw⟩ := h.slot i _ (List.getElem?_eq_getElem hlt)
  obtain rfl := Option.some.inj (hs₁.symm.trans hs')
  exact ⟨_, List.getElem?_eq_getElem hlt, hcap, hw⟩

end Contained

namespace Core

variable {config : CycleConfig} {c c₁ c' : Core} {id : JobId} {event : Event}

/-- A slot is within its capacity, or its worker is attached and drains. A slot without a worker
has no capacity. -/
structure Fitted (c : Core) : Prop where
  guarded : c.Guarded []
  slot : ∀ i s, c.inventory.slots[i]? = some s →
    s.Within ∨ s.capacity = Resources.zero ∧ Table.read none c.names i ≠ none

/-- What keeps the names and every capacity. -/
def Holds (c c' : Core) : Prop := Contained c.inventory c'.inventory ∧ c'.names = c.names

private theorem Holds.trans (h : Holds c c₁) (h' : Holds c₁ c') : Holds c c' :=
  ⟨h.1.trans h'.1, h'.2.trans h.2⟩

private theorem Holds.slot (h : Holds c c') (hf : c.Fitted) (i : SlotIndex) (s' : WorkerSlot)
    (hs' : c'.inventory.slots[i]? = some s') :
    s'.Within ∨ s'.capacity = Resources.zero ∧ Table.read none c'.names i ≠ none := by
  obtain ⟨s, hs, hcap, hw⟩ := h.1 i s' hs'
  rw [hcap, h.2]
  exact (hf.slot i s hs).imp_left hw

private theorem holds_release (c : Core) (id : JobId) : Holds c (c.release id).1 := by
  cases hf : c.running.find? (·.job = id) with
  | none =>
    rw [release, hf]
    exact ⟨.refl _, rfl⟩
  | some r =>
    rw [release_found hf]
    exact ⟨.release _ _ _, rfl⟩

private theorem holds_unhold (c : Core) (id : JobId) : Holds c (c.unhold id).1 := by
  unfold unhold
  split <;> exact ⟨.refl _, rfl⟩

private theorem Unbinds.holds (h : c.Unbinds id c₁) : Holds c c₁ := by
  rcases h with ⟨slot, heq⟩ | heq
  · have := holds_release c id
    rwa [heq] at this
  · have := holds_unhold c id
    rwa [heq] at this

private theorem inventory_bindEach (now : VirtualTime) (ds : List DispatchDecision) : ∀ c : Core,
    (c.bindEach now ds).inventory = c.inventory := by
  induction ds with
  | nil => exact fun _ => rfl
  | cons d ds ih =>
    intro c
    refine (ih _).trans ?_
    show (Option.elim (c.jobs.get d.job) c _).inventory = _
    cases c.jobs.get d.job <;> rfl

private theorem vacantSlot_eq_some {i : SlotIndex} (h : c.vacantSlot = some i) :
    Table.read none c.names i = none ∧
      ∃ s, c.inventory.slots[i]? = some s ∧ s.capacity = Resources.zero := by
  obtain ⟨⟨name, j⟩, hmem, hentry⟩ := List.exists_of_findSome?_eq_some h
  dsimp only at hentry
  split at hentry
  · exact nomatch hentry
  · rename_i s hs
    split at hentry
    · rename_i hfree
      obtain rfl := Option.some.inj hentry
      have hname := List.mem_zipIdx_iff_getElem?.mp hmem
      refine ⟨?_, s, hs, hfree.2⟩
      rw [Table.read, hname]
      exact Option.isNone_iff_eq_none.mp hfree.1
    · exact nomatch hentry

private theorem attach_slot (name : String) (capacity : Capacity) (h : c.Fitted) (i : SlotIndex)
    (s : WorkerSlot) (hs : (c.attach name capacity).1.inventory.slots[i]? = some s) :
    s.Within ∨ s.capacity = Resources.zero ∧
      Table.read none (c.attach name capacity).1.names i ≠ none := by
  rw [read_attach]
  cases hvacant : c.vacantSlot with
  | none =>
    have hi : (c.attach name capacity).2 = c.inventory.slots.length := by
      simp only [attach, hvacant, SlotInventory.pushSlot]
    simp only [attach, hvacant, SlotInventory.pushSlot] at hs
    rw [hi]
    rw [List.getElem?_append] at hs
    split at hs
    · rename_i hlt
      rw [if_neg (Nat.ne_of_lt hlt)]
      exact h.slot i s hs
    · obtain ⟨-, rfl⟩ := List.getElem?_eq_some_iff.mp hs
      left
      simpa using WorkerSlot.within_new capacity
  | some slot =>
    obtain ⟨hname, t, ht, hzero⟩ := vacantSlot_eq_some hvacant
    have hi : (c.attach name capacity).2 = slot := by simp only [attach, hvacant]
    have hset : (c.attach name capacity).1.inventory.slots =
        c.inventory.slots.set slot { t with capacity := capacity } := by
      have hupdate : c.inventory.setCapacity slot capacity =
          .ok { c.inventory with slots := c.inventory.slots.set slot { t with capacity } } :=
        SlotInventory.updateSlot_eq_ok.mpr ⟨t, ht, rfl⟩
      simp only [attach, hvacant, hupdate, orSame]
    rw [hset] at hs
    rw [hi]
    by_cases hself : slot = i
    · subst hself
      rw [List.getElem?_set_self (List.getElem?_eq_some_iff.mp ht).1, Option.some.injEq] at hs
      subst hs
      -- Nothing was allocated on the slot, since it was within a capacity of zero.
      have hwithin : t.Within := (h.slot slot t ht).resolve_right fun hd => hd.2 hname
      rw [WorkerSlot.Within, hzero] at hwithin
      left
      rw [WorkerSlot.Within, eq_zero_of_fitsWithin hwithin]
      exact WorkerSlot.within_new capacity
    · rw [List.getElem?_set_ne hself] at hs
      rw [if_neg (Ne.symm hself)]
      exact h.slot i s hs

private theorem drain_slot (slot : SlotIndex) (h : c.Fitted) (i : SlotIndex) (s : WorkerSlot)
    (hs : (c.drain slot).inventory.slots[i]? = some s) :
    s.Within ∨ s.capacity = Resources.zero ∧ Table.read none (c.drain slot).names i ≠ none := by
  show s.Within ∨ s.capacity = Resources.zero ∧ Table.read none c.names i ≠ none
  cases hok : c.inventory.setCapacity slot Resources.zero with
  | error err =>
    simp only [drain, hok, orSame] at hs
    exact h.slot i s hs
  | ok inventory' =>
    simp only [drain, hok, orSame] at hs
    obtain ⟨t, ht, rfl⟩ := SlotInventory.updateSlot_eq_ok.mp hok
    change (c.inventory.slots.set slot _)[i]? = some s at hs
    by_cases hself : slot = i
    · subst hself
      rw [List.getElem?_set_self (List.getElem?_eq_some_iff.mp ht).1, Option.some.injEq] at hs
      subst hs
      by_cases hname : Table.read none c.names slot = none
      · -- Without a worker the slot had no capacity before either.
        have hzero : t.capacity = Resources.zero :=
          h.guarded slot _ (by rw [getElem?_capacities, ht]; rfl) (Or.inr hname)
        have hwithin : t.Within := (h.slot slot t ht).resolve_right fun hd => hd.2 hname
        rw [WorkerSlot.Within, hzero] at hwithin
        exact Or.inl hwithin
      · exact Or.inr ⟨rfl, hname⟩
    · rw [List.getElem?_set_ne hself] at hs
      exact h.slot i s hs

private theorem vacate_slot (slot : SlotIndex) (h : c.Fitted) (i : SlotIndex) (s : WorkerSlot)
    (hs : (c.vacate slot).inventory.slots[i]? = some s) :
    s.Within ∨ s.capacity = Resources.zero ∧ Table.read none (c.vacate slot).names i ≠ none := by
  cases ht : c.inventory.slots[slot]? with
  | none =>
    have hclear : c.inventory.clearAllocation slot = .error (.noSuchSlot slot) := by
      simp only [SlotInventory.clearAllocation, SlotInventory.updateSlot, ht]
    have hset : c.inventory.setCapacity slot Resources.zero = .error (.noSuchSlot slot) := by
      simp only [SlotInventory.setCapacity, SlotInventory.updateSlot, ht]
    simp only [vacate, hclear, hset, orSame] at hs
    have hne : slot ≠ i := by
      rintro rfl
      rw [ht] at hs
      exact nomatch hs
    have hname : Table.read none (c.names.set slot none) i = Table.read none c.names i := by
      rw [Table.read, Table.read, List.getElem?_set_ne hne]
    show s.Within ∨ s.capacity = Resources.zero ∧ Table.read none (c.names.set slot none) i ≠ none
    rw [hname]
    exact h.slot i s hs
  | some t =>
    obtain ⟨hlt, -⟩ := List.getElem?_eq_some_iff.mp ht
    have hslots : (c.vacate slot).inventory.slots =
        c.inventory.slots.set slot ⟨Resources.zero, Resources.zero⟩ := by
      simp [vacate, SlotInventory.clearAllocation, SlotInventory.setCapacity,
        SlotInventory.updateSlot, ht, orSame, List.getElem?_set_self hlt]
    rw [hslots] at hs
    by_cases hself : slot = i
    · subst hself
      rw [List.getElem?_set_self hlt, Option.some.injEq] at hs
      subst hs
      exact Or.inl (WorkerSlot.within_new Resources.zero)
    · rw [List.getElem?_set_ne hself] at hs
      have hname : Table.read none (c.names.set slot none) i = Table.read none c.names i := by
        rw [Table.read, Table.read, List.getElem?_set_ne hself]
      show s.Within ∨ s.capacity = Resources.zero ∧
        Table.read none (c.names.set slot none) i ≠ none
      rw [hname]
      exact h.slot i s hs

private theorem Takes.closed (ht : c.Takes config event c') (h : c.Guarded []) : c'.Guarded [] := by
  by_cases hdrain : ∃ slot, event = .drained slot
  · obtain ⟨slot, rfl⟩ := hdrain
    cases ht
    exact (drain_guarded slot h).mono (List.nil_subset _)
  · exact ht.guarded h (fun slot he => hdrain ⟨slot, he⟩) fun _ _ => List.not_mem_nil

private theorem Takes.fitted (ht : c.Takes config event c') (h : c.Fitted) : c'.Fitted := by
  refine ⟨ht.closed h.guarded, ?_⟩
  cases ht with
  | acted | expired => exact h.slot
  | @ended c₁ act id r gone hd ends => exact gone.holds.slot h
  | @cancelled id now r hd => exact ((holds_release c id).trans (holds_unhold _ id)).slot h
  | refused gone | unconfirmed gone => exact gone.holds.slot h
  | stale held => exact (Unbinds.holds (Or.inr held)).slot h
  | attached name capacity => exact attach_slot name capacity h
  | drained slot => exact drain_slot slot h
  | @adopted c₁ id job inventory slot now held live state fits =>
    obtain ⟨-, rfl⟩ := unhold_true held
    have hholds : Holds c { c with inventory := inventory } := ⟨.allocate fits, rfl⟩
    exact hholds.slot h
  | @rebound id r inventory slot found fits =>
    have hholds : Holds c { c with inventory := inventory } :=
      ⟨(Contained.release _ _ _).trans (.allocate fits), rfl⟩
    exact hholds.slot h
  | @cycled now cycle ran =>
    obtain ⟨new, -, hgrown, -⟩ := Scheduler.runCycle_grown ran
    have hbound := sameOffers_bindEach now cycle.decisions { c with
      scheduler := cycle.scheduler, jobs := cycle.jobs, inventory := cycle.inventory }
    have hholds : Holds c ({ c with
        scheduler := cycle.scheduler
        jobs := cycle.jobs
        inventory := cycle.inventory }.bindEach now cycle.decisions) := by
      refine ⟨?_, hbound.2⟩
      rw [inventory_bindEach]
      exact .grown hgrown
    exact hholds.slot h
  | @left slot now acts r hq =>
    have hbefore : ((c.unbindSlot slot).withRoster r).Fitted := ⟨h.guarded, h.slot⟩
    exact vacate_slot slot hbefore
  | abandoned slot =>
    have hbefore : (c.unbindSlot slot).Fitted := ⟨h.guarded, h.slot⟩
    exact vacate_slot slot hbefore

end Core

namespace Engine

variable {e e' start : Engine} {input : Input} {inputs : List Input} {events : List Event}

private theorem Turns.fitted (h : Turns e input events e') (hf : e.toCore.Fitted) :
    e'.toCore.Fitted :=
  h.chain.keeps (fun _ _ _ ht hf => ht.fitted hf) hf

/-- Either every slot is within its capacity, or every ready job asks for something. -/
def Roomy (e : Engine) : Prop :=
  (∀ s ∈ e.inventory.slots, s.Within) ∨
    ∀ id job, e.jobs.get id = some job → job.state = .ready → job.request ≠ Resources.zero

/-- On a slot beyond its capacity the first-fit test finds room for nothing but nothing. -/
private theorem within_of_fits (h : e.toCore.Fitted) {i : SlotIndex} {s : WorkerSlot}
    {request : ResourceRequest} (hs : e.inventory.slots[i]? = some s)
    (hfits : request.fitsWithin s.free = true) (hask : request ≠ Resources.zero) : s.Within := by
  refine (h.slot i s hs).resolve_right fun hdrains => hask (eq_zero_of_fitsWithin ?_)
  refine fitsWithin_iff_amount.mpr fun d => ?_
  have hd := fitsWithin_iff_amount.mp hfits d
  rw [WorkerSlot.free, hdrains.1, amount_saturatingSub] at hd
  omega

private theorem Roomy.open_ (h : e.Roomy) (hf : e.toCore.Fitted) :
    ∀ s ∈ e.inventory.slots, s.Within ∨
    ∀ id job, e.jobs.get id = some job → job.state = .ready →
      job.request.fitsWithin s.free = false := by
  intro s hs
  rcases h with hwithin | hask
  · exact Or.inl (hwithin s hs)
  · by_cases hw : s.Within
    · exact Or.inl hw
    · obtain ⟨i, hi⟩ := List.mem_iff_getElem?.mp hs
      refine Or.inr fun id job hid hst => Bool.eq_false_iff.mpr fun hfits => hw ?_
      exact within_of_fits hf hi hfits (hask id job hid hst)

section

variable [Crc32]

/-- A state of the scheduler thread: any turns of an engine started empty, or turns of a recovered
one in which no generation wraps. -/
inductive Reached : Engine → Prop where
  | fresh {config : DaemonConfig} {journal : Option Journal} {inputs : List Input} {e : Engine}
      (run : Chain Steps (build config journal) inputs e) : Reached e
  | recovered {config : DaemonConfig} {recovered : Recovered} {journal : Journal}
      {start e : Engine} {inputs : List Input} (fits : TailFits config recovered journal)
      (ok : recover config recovered journal = some (.ok start))
      (run : Chain SafeSteps start inputs e) : Reached e

private theorem Starts.fitted (h : start.Starts) : start.toCore.Fitted := by
  refine ⟨h.guarded, fun i s hs => ?_⟩
  rw [h.unbound.2] at hs
  exact nomatch hs

private theorem Reached.fitted (h : e.Reached) : e.toCore.Fitted := by
  have hstep : ∀ e input e', Steps e input e' → e.toCore.Fitted → e'.toCore.Fitted := by
    intro e input e' hstep hf
    obtain ⟨events, hturns⟩ := hstep.turns
    exact hturns.fitted hf
  cases h with
  | @fresh config journal inputs e run =>
    have hstart : (build config journal).Starts := Or.inl ⟨config, journal, rfl⟩
    exact run.keeps (P := fun e => e.toCore.Fitted) hstep hstart.fitted
  | @recovered config recovered journal start e inputs fits ok run =>
    have hstart : start.Starts := Or.inr ⟨config, recovered, journal, ok⟩
    exact run.keeps (P := fun e => e.toCore.Fitted) (fun _ _ _ h => hstep _ _ _ h.1) hstart.fitted

private theorem Reached.kept (h : e.Reached) : Scheduler.Kept e.scheduler e.jobs := by
  cases h with
  | @fresh config journal inputs e run =>
    have htidy := run.keeps (P := fun e => e.toRoster.Tidy)
      (fun _ _ _ (h : Steps _ _ _) ht => h.tidy ht) (tidy_build config journal)
    exact htidy.kept
  | recovered fits ok run => exact (sane_of_run run (sane_of_recover fits ok)).roster.kept

/-- A cycle finds room where it looks for it, dispatches ready jobs only and does not panic. -/
theorem cycle_never_panics (hreached : e.Reached) (hroomy : e.Roomy) (now : VirtualTime) :
    (∃ cycle, e.cycleAt now = some cycle ∧ ∀ d ∈ cycle.decisions, ∃ job,
      e.jobs.get d.job = some job ∧ job.state = .ready) ∧
    ∀ request slot, (∀ s ∈ e.inventory.slots, s.Within) ∨ request ≠ Resources.zero →
      e.inventory.firstFit request = some slot →
      ∃ inventory, e.inventory.tryAllocate slot request = .ok inventory := by
  have hfitted := hreached.fitted
  have hfaithful := hreached.kept.mirror.faithful
  refine ⟨?_, fun request slot hask hfit => ?_⟩
  · obtain ⟨cycle, hcycle⟩ := Scheduler.runCycle_isSome hfaithful (hroomy.open_ hfitted) e.running
      now e.cycle []
    obtain ⟨new, hcycled⟩ := Scheduler.runCycle_cycled hfaithful hcycle
    refine ⟨cycle, hcycle, fun d hd => ?_⟩
    rw [hcycled.decisions, List.nil_append] at hd
    obtain ⟨job, hjob, hst, -⟩ := hcycled.decided d hd
    exact ⟨job, hjob, hst⟩
  · obtain ⟨s, hs, hfits, -⟩ := SlotInventory.firstFit_eq_some hfit
    have hwithin : s.Within := by
      rcases hask with hall | hask
      · exact hall s (List.mem_of_getElem? hs)
      · exact within_of_fits hfitted hs hfits hask
    exact SlotInventory.tryAllocate_of_fits hs hwithin hfits

end

/-- A worker drains with a job still on it, and another job of that size comes. -/
def drainingInputs : List Input :=
  [(sampleJoin 1).sent 0, (sampleSubmit .normal 1 []).sent 0, tickAt 0,
    (Command.workerDraining 0).sent 1, (sampleSubmit .normal 1 []).sent 1]

attribute [local instance] Crc32.ieee

/-- The second job waits. -/
theorem cycle_never_panics_sample : ∃ e cycle,
    run (Engine.new sampleDaemon) drainingInputs = some e ∧
      (∃ s ∈ e.inventory.slots, ¬ s.Within) ∧ e.cycleAt 1 = some cycle ∧
      ∀ request slot, request ≠ Resources.zero → e.inventory.firstFit request = some slot →
        ∃ inventory, e.inventory.tryAllocate slot request = .ok inventory := by
  have hlook : (run (Engine.new sampleDaemon) drainingInputs).any (fun e =>
      decide (∃ s ∈ e.inventory.slots, ¬ s.Within) && decide (e.jobs.slots.length ≤ 2 ^ 32) &&
        decide (∀ p ∈ e.jobs.iter, p.2.state = .ready → p.2.request ≠ Resources.zero)) = true := by
    decide +kernel
  obtain ⟨e, hrun, hlook⟩ := (Option.any_eq_true _ _).mp hlook
  simp only [Bool.and_eq_true, decide_eq_true_eq] at hlook
  obtain ⟨⟨hbeyond, hbound⟩, hask⟩ := hlook
  have hreached : Reached e := @Reached.fresh Crc32.ieee sampleDaemon none _ _
    (chain_of_run hrun)
  have hroomy : e.Roomy := Or.inr fun id job hid hst =>
    hask (id, job) ((Arena.mem_iter hbound).mpr hid) hst
  obtain ⟨⟨cycle, hcycle, -⟩, hfits⟩ := @cycle_never_panics e Crc32.ieee hreached hroomy 1
  exact ⟨e, cycle, hrun, hbeyond, hcycle, fun request slot hne => hfits request slot (Or.inr hne)⟩

/-- A worker drains with a job still on it, and a job that asks for nothing comes. -/
def overdrawnInputs : List Input :=
  [(sampleJoin 1).sent 0, (sampleSubmit .normal 1 []).sent 0, tickAt 0,
    (Command.workerDraining 0).sent 1, (Command.submit emptyJob 0).sent 1]

/-- The draining slot is the first fit for the empty job, the allocation is refused, and the tick
panics. -/
theorem empty_job_panics_cycle : jobFromSubmit emptySubmit 0 = .ok emptyJob ∧
    ∃ e, run (Engine.new sampleDaemon) overdrawnInputs = some e ∧
      e.inventory.firstFit emptyJob.job.request = some 0 ∧
      e.inventory.tryAllocate 0 emptyJob.job.request = .error (.wouldExceed 0) ∧
      e.cycleAt 1 = none ∧ step e (tickAt 1) = none := by
  refine ⟨rfl, ?_⟩
  have hlook : (run (Engine.new sampleDaemon) overdrawnInputs).any (fun e =>
      decide (e.inventory.firstFit emptyJob.job.request = some 0) &&
        decide (e.inventory.tryAllocate 0 emptyJob.job.request = .error (.wouldExceed 0)) &&
        (e.cycleAt 1).isNone && (step e (tickAt 1)).isNone) = true := by
    decide +kernel
  obtain ⟨e, hrun, hlook⟩ := (Option.any_eq_true _ _).mp hlook
  simp only [Bool.and_eq_true, decide_eq_true_eq, Option.isNone_iff_eq_none] at hlook
  obtain ⟨⟨⟨hfit, hrefused⟩, hcycle⟩, htick⟩ := hlook
  exact ⟨e, hrun, hfit, hrefused, hcycle, htick⟩

end Engine

end TaskerRT.Daemon
