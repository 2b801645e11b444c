/- module: TaskerRT/Daemon/Offers
   source: crates/taskerd/src/engine.rs, crates/tasker-core/src/cluster/slot.rs
   digest: Which slots a cycle may send work to: attachment and draining, as capacities tell. -/

import TaskerRT.Daemon.Restored
import TaskerRT.Daemon.Wire

set_option autoImplicit false

namespace TaskerRT.Daemon

open Library Domain Cluster Policy Scheduling Wal Book

def capacities (inventory : SlotInventory) : List Capacity := inventory.slots.map (·.capacity)

section Capacities

variable {inventory inventory' : SlotInventory} {i : SlotIndex}

theorem getElem?_capacities (inventory : SlotInventory) (i : SlotIndex) :
    (capacities inventory)[i]? = inventory.slots[i]?.map (·.capacity) :=
  List.getElem?_map

private theorem capacities_updateSlot (inventory : SlotInventory) (i : SlotIndex)
    (f : WorkerSlot → WorkerSlot) (g : Capacity → Capacity) (hg : ∀ s, (f s).capacity = g s.capacity)
    (j : SlotIndex) : (capacities (Core.orSame inventory (inventory.updateSlot i f)))[j]? =
      if j = i then (capacities inventory)[j]?.map g else (capacities inventory)[j]? := by
  cases hs : inventory.slots[i]? with
  | none =>
    have hsame : Core.orSame inventory (inventory.updateSlot i f) = inventory := by
      unfold SlotInventory.updateSlot
      rw [hs]
      rfl
    rw [hsame]
    split
    · rename_i hj
      rw [getElem?_capacities, hj, hs]
      rfl
    · rfl
  | some s =>
    have hset : Core.orSame inventory (inventory.updateSlot i f) =
        { inventory with slots := inventory.slots.set i (f s) } := by
      unfold SlotInventory.updateSlot
      rw [hs]
      rfl
    obtain ⟨hlt, -⟩ := List.getElem?_eq_some_iff.mp hs
    rw [hset, getElem?_capacities, getElem?_capacities]
    split
    · rename_i hj
      rw [hj, List.getElem?_set_self hlt, hs]
      exact congrArg some (hg s)
    · rename_i hj
      rw [List.getElem?_set_ne (Ne.symm hj)]

private theorem capacities_updateSlot_same (inventory : SlotInventory) (i : SlotIndex)
    {f : WorkerSlot → WorkerSlot} (hf : ∀ s, (f s).capacity = s.capacity) :
    capacities (Core.orSame inventory (inventory.updateSlot i f)) = capacities inventory := by
  ext1 j
  rw [capacities_updateSlot inventory i f (fun c => c) hf]
  split <;> simp

private theorem capacities_release (inventory : SlotInventory) (i : SlotIndex) (r : Resources) :
    capacities (Core.orSame inventory (inventory.release i r)) = capacities inventory :=
  capacities_updateSlot_same inventory i fun _ => rfl

private theorem capacities_clearAllocation (inventory : SlotInventory) (i : SlotIndex) :
    capacities (Core.orSame inventory (inventory.clearAllocation i)) = capacities inventory :=
  capacities_updateSlot_same inventory i fun _ => rfl

private theorem capacities_setCapacity (inventory : SlotInventory) (i : SlotIndex)
    (capacity : Capacity)
    (j : SlotIndex) : (capacities (Core.orSame inventory (inventory.setCapacity i capacity)))[j]? =
      if j = i then (capacities inventory)[j]?.map fun _ => capacity
      else (capacities inventory)[j]? :=
  capacities_updateSlot inventory i _ (fun _ => capacity) (fun _ => rfl) j

private theorem capacities_tryAllocate {request : ResourceRequest}
    (h : inventory.tryAllocate i request = .ok inventory') :
    capacities inventory' = capacities inventory := by
  obtain ⟨s, next, hs, -, -, rfl⟩ := SlotInventory.tryAllocate_eq_ok.mp h
  obtain ⟨hlt, -⟩ := List.getElem?_eq_some_iff.mp hs
  ext1 j
  rw [getElem?_capacities, getElem?_capacities]
  by_cases hj : i = j
  · rw [← hj, List.getElem?_set_self hlt, hs]
    rfl
  · rw [List.getElem?_set_ne hj]

private theorem capacities_grown {jobs : Arena Job} {ds : List DispatchDecision}
    (h : Grown jobs ds inventory inventory') : capacities inventory' = capacities inventory := by
  ext1 j
  rw [getElem?_capacities, getElem?_capacities]
  cases hs : inventory.slots[j]? with
  | none =>
    have hle := List.getElem?_eq_none_iff.mp hs
    rw [List.getElem?_eq_none (h.length ▸ hle)]
  | some s =>
    obtain ⟨s', hs', hcap, -⟩ := h.slot j s hs
    rw [hs', Option.map_some, Option.map_some, hcap]

end Capacities

namespace Core

variable {c c' c₁ : Core} {id : JobId} {draining : List SlotIndex}

/-- A slot that no worker is attached to, or whose worker is draining, has no capacity. -/
def Guarded (draining : List SlotIndex) (c : Core) : Prop :=
  ∀ i capacity, (capacities c.inventory)[i]? = some capacity →
    (i ∈ draining ∨ Table.read none c.names i = none) → capacity = Resources.zero

def SameOffers (c c' : Core) : Prop :=
  capacities c'.inventory = capacities c.inventory ∧ c'.names = c.names

private theorem SameOffers.trans (h : SameOffers c c₁) (h' : SameOffers c₁ c') : SameOffers c c' :=
  ⟨h'.1.trans h.1, h'.2.trans h.2⟩

private theorem SameOffers.guarded (h : SameOffers c c') (hg : c.Guarded draining) :
    c'.Guarded draining := by
  intro i capacity hi hno
  rw [h.1] at hi
  rw [h.2] at hno
  exact hg i capacity hi hno

theorem Guarded.mono {fewer : List SlotIndex} (h : c.Guarded draining) (hsub : fewer ⊆ draining) :
    c.Guarded fewer :=
  fun i capacity hi hno => h i capacity hi (hno.imp_left fun hmem => hsub hmem)

private theorem sameOffers_release (c : Core) (id : JobId) : SameOffers c (c.release id).1 := by
  unfold release
  split
  · exact ⟨rfl, rfl⟩
  · exact ⟨capacities_release _ _ _, rfl⟩

private theorem sameOffers_unhold (c : Core) (id : JobId) : SameOffers c (c.unhold id).1 := by
  unfold unhold
  split <;> exact ⟨rfl, rfl⟩

private theorem Unbinds.sameOffers (h : c.Unbinds id c₁) : SameOffers c c₁ := by
  rcases h with ⟨slot, heq⟩ | heq
  · have := sameOffers_release c id
    rwa [heq] at this
  · have := sameOffers_unhold c id
    rwa [heq] at this

theorem sameOffers_bindEach (now : VirtualTime) (ds : List DispatchDecision) : ∀ c : Core,
    SameOffers c (c.bindEach now ds) := by
  induction ds with
  | nil => exact fun _ => ⟨rfl, rfl⟩
  | cons d ds ih =>
    intro c
    refine .trans ?_ (ih _)
    show SameOffers c (Option.elim (c.jobs.get d.job) c _)
    cases c.jobs.get d.job <;> exact ⟨rfl, rfl⟩

theorem read_attach (c : Core) (name : String) (capacity : Capacity) (i : SlotIndex) :
    Table.read none (c.attach name capacity).1.names i =
      if i = (c.attach name capacity).2 then some name else Table.read none c.names i := by
  show Table.read none (List.set (Table.reserve none ((c.attach name capacity).2 + 1) c.names)
    (c.attach name capacity).2 (some name)) i = _
  rw [Table.read_set _ _ _ _ _ (by rw [Table.length_reserve]; omega), Table.read_reserve]

private theorem attach_guarded (name : String) (capacity : Capacity) (h : c.Guarded draining)
    (hnot : (c.attach name capacity).2 ∉ draining) :
    (c.attach name capacity).1.Guarded draining := by
  intro i held hi hno
  have hname := read_attach c name capacity i
  by_cases hself : i = (c.attach name capacity).2
  · rw [hname, if_pos hself, hself] at hno
    exact absurd (hno.resolve_right nofun) hnot
  · rw [hname, if_neg hself] at hno
    refine h i held ?_ hno
    unfold attach at hi hself
    dsimp only at hi hself
    split at hi
    · rename_i slot hslot
      rw [hslot] at hself
      rw [capacities_setCapacity, if_neg hself] at hi
      exact hi
    · rename_i hslot
      rw [hslot] at hself
      have hne : i ≠ c.inventory.slots.length := hself
      simp only [capacities, SlotInventory.pushSlot, List.map_append, List.map_cons, List.map_nil]
        at hi
      rw [List.getElem?_append] at hi
      split at hi
      · exact hi
      · rename_i hge
        rw [List.length_map] at hge hi
        have hlt : c.inventory.slots.length < i :=
          Nat.lt_of_le_of_ne (Nat.le_of_not_lt hge) (Ne.symm hne)
        have hpast : [capacity].length ≤ i - c.inventory.slots.length := Nat.sub_pos_of_lt hlt
        rw [show (WorkerSlot.new capacity).capacity = capacity from rfl,
          List.getElem?_eq_none hpast] at hi
        exact nomatch hi

theorem drain_guarded (slot : SlotIndex) (h : c.Guarded draining) :
    (c.drain slot).Guarded (slot :: draining) := by
  intro i held hi hno
  have hi' := capacities_setCapacity c.inventory slot Resources.zero i
  rw [show capacities (orSame c.inventory (c.inventory.setCapacity slot Resources.zero)) =
    capacities (c.drain slot).inventory from rfl, hi] at hi'
  split at hi'
  · obtain ⟨_, -, hzero⟩ := Option.map_eq_some_iff.mp hi'.symm
    exact hzero.symm
  · rename_i hne
    refine h i held hi'.symm (hno.imp_left fun hmem => ?_)
    exact (List.mem_cons.mp hmem).resolve_left hne

private theorem vacate_guarded (slot : SlotIndex) (h : c.Guarded draining) :
    (c.vacate slot).Guarded draining := by
  intro i held hi hno
  have hi' := capacities_setCapacity (orSame c.inventory (c.inventory.clearAllocation slot)) slot
    Resources.zero i
  rw [show capacities (orSame (orSame c.inventory (c.inventory.clearAllocation slot))
      ((orSame c.inventory (c.inventory.clearAllocation slot)).setCapacity slot Resources.zero)) =
    capacities (c.vacate slot).inventory from rfl, hi, capacities_clearAllocation] at hi'
  split at hi'
  · obtain ⟨_, -, hzero⟩ := Option.map_eq_some_iff.mp hi'.symm
    exact hzero.symm
  · rename_i hne
    refine h i held hi'.symm (hno.imp_right fun hnone => ?_)
    have hread : Table.read none (c.names.set slot none) i = none := hnone
    unfold Table.read at hread ⊢
    rwa [List.getElem?_set_ne (Ne.symm hne)] at hread

/-- Everything but a drain keeps the guard, if a worker that joins takes no draining slot. -/
theorem Takes.guarded {config : CycleConfig} {event : Event} (ht : c.Takes config event c')
    (h : c.Guarded draining) (hdrain : ∀ slot, event ≠ .drained slot)
    (hattach : ∀ slot, event = .attached slot → slot ∉ draining) : c'.Guarded draining := by
  cases ht with
  | acted => exact h
  | @ended c₁ act id r gone hd ends =>
    have hgone : c₁.Guarded draining := gone.sameOffers.guarded h
    exact hgone
  | @cancelled id now r hd =>
    have hgone : (c.unbind id).Guarded draining :=
      (SameOffers.trans (sameOffers_release c id) (sameOffers_unhold _ id)).guarded h
    exact hgone
  | refused gone | unconfirmed gone => exact gone.sameOffers.guarded h
  | stale held => exact (Unbinds.sameOffers (Or.inr held)).guarded h
  | attached name capacity => exact attach_guarded name capacity h (hattach _ rfl)
  | drained slot => exact absurd rfl (hdrain slot)
  | @adopted c₁ id job inventory slot now held live state fits =>
    obtain ⟨-, rfl⟩ := unhold_true held
    have hsame : SameOffers c { c with inventory := inventory } :=
      ⟨capacities_tryAllocate fits, rfl⟩
    exact hsame.guarded h
  | @rebound id r inventory slot found fits =>
    have hsame : SameOffers c { c with inventory := inventory } :=
      ⟨(capacities_tryAllocate fits).trans (capacities_release _ _ _), rfl⟩
    exact hsame.guarded h
  | @cycled now cycle ran =>
    obtain ⟨new, -, hgrown, -⟩ := Scheduler.runCycle_grown ran
    refine (sameOffers_bindEach now cycle.decisions _).guarded ?_
    have hsame : SameOffers c { c with inventory := cycle.inventory } :=
      ⟨capacities_grown hgrown, rfl⟩
    exact hsame.guarded h
  | @left slot now acts r hq =>
    have hbefore : ((c.unbindSlot slot).withRoster r).Guarded draining := h
    exact vacate_guarded slot hbefore
  | abandoned slot =>
    have hbefore : (c.unbindSlot slot).Guarded draining := h
    exact vacate_guarded slot hbefore
  | expired => exact h

end Core

theorem eq_zero_of_fitsWithin {r : Resources} (h : r.fitsWithin Resources.zero = true) :
    r = Resources.zero := by
  obtain ⟨hcpu, hmem, hgpu⟩ := Resources.fitsWithin_iff.mp h
  obtain ⟨cpu, mem, gpu⟩ := r
  have hcpu : cpu = 0 := Fin.ext (Nat.le_zero.mp hcpu)
  have hmem : mem = 0 := Fin.ext (Nat.le_zero.mp hmem)
  have hgpu : gpu = 0 := Fin.ext (Nat.le_zero.mp hgpu)
  rw [hcpu, hmem, hgpu]
  rfl

/-- Every live job asks for something. -/
def Sized (jobs : Arena Job) : Prop :=
  ∀ id job, jobs.get id = some job → job.request ≠ Resources.zero

private theorem request_of_core {j j' : Job} (h : core j' = core j) : j'.request = j.request :=
  (congrArg Job.request h : (core j').request = (core j).request)

namespace Roster

variable {config : CycleConfig} {r r' : Roster} {act : Act}

private theorem Does.sized (h : Does config r act r') (hs : Sized r.jobs)
    (hnew : ∀ id job, act = .submitted id job → job.request ≠ Resources.zero) :
    Sized r'.jobs := by
  intro x job' hx'
  have hcore := h.get_core x
  rw [hx', Option.map_some] at hcore
  -- What is live now was stored by this act, or was live before.
  have hfrom : (∃ id job, act = .submitted id job ∧ core job' = core job) ∨
      ∃ job, r.jobs.get x = some job ∧ core job' = core job := by
    cases act with
    | submitted id job =>
      simp only [Act.leaves] at hcore
      split at hcore
      · exact Or.inl ⟨id, job, rfl, Option.some.inj hcore⟩
      · obtain ⟨job, hx, heq⟩ := Option.map_eq_some_iff.mp hcore.symm
        exact Or.inr ⟨job, hx, heq.symm⟩
    | forgotten id =>
      simp only [Act.leaves] at hcore
      split at hcore
      · cases hcore
      · obtain ⟨job, hx, heq⟩ := Option.map_eq_some_iff.mp hcore.symm
        exact Or.inr ⟨job, hx, heq.symm⟩
    | _ =>
      obtain ⟨job, hx, heq⟩ := Option.map_eq_some_iff.mp hcore.symm
      exact Or.inr ⟨job, hx, heq.symm⟩
  rcases hfrom with ⟨id, job, rfl, heq⟩ | ⟨job, hx, heq⟩
  · rw [request_of_core heq]
    exact hnew id job rfl
  · rw [request_of_core heq]
    exact hs x job hx

end Roster

private theorem Core.Takes.sized {config : CycleConfig} {c c' : Core} {event : Event}
    (h : c.Takes config event c') (hs : Sized c.jobs)
    (hnew : ∀ id job, event = .acted (.submitted id job) → job.request ≠ Resources.zero) :
    Sized c'.jobs := by
  have hact : ∀ act ∈ event.acts, ∀ id job, act = .submitted id job →
      job.request ≠ Resources.zero := by
    rintro act hmem id job rfl
    rcases h.act_cases hmem with hevent | ⟨_, _, heq⟩
    · exact hnew id job hevent
    · exact nomatch heq
  have hchain := h.does.imp fun r act r' hmem hd =>
    (⟨hd, hact act hmem⟩ : r.Does config act r' ∧ ∀ id job, act = .submitted id job →
      job.request ≠ Resources.zero)
  exact hchain.keeps (P := fun r => Sized r.jobs) (fun _ _ _ hd hs => hd.1.sized hs hd.2) hs

/-- A submission, if it is one, asks for something. -/
def Input.Asks : Input → Prop
  | .command (.submit new _) _ _ => new.job.request ≠ Resources.zero
  | _ => True

instance (input : Input) : Decidable input.Asks :=
  match input with
  | .command (.submit new _) _ _ => inferInstanceAs (Decidable (new.job.request ≠ _))
  | .command (.cancel _ _) _ _ | .command (.completed _) _ _ | .command (.failed _) _ _
  | .command (.preempted _) _ _ | .command (.workerJoined _ _ _ _) _ _
  | .command (.workerLeft _) _ _ | .command (.workerDraining _) _ _ | .command (.query _ _) _ _
  | .tick _ _ _ | .quiesce _ => isTrue trivial

namespace Engine

variable {e e' : Engine} {input : Input} {events : List Event} {draining : List SlotIndex}

/-- The slots whose worker has announced that it drains. A joining worker takes over its slot. -/
def announced (e : Engine) (draining : List SlotIndex) : Input → List SlotIndex
  | .command (.workerDraining slot) _ _ => slot :: draining
  | .command (.workerJoined name capacity _ _) _ _ =>
    draining.filter (· ≠ (e.attach name capacity).2)
  | _ => draining

private theorem Turns.guarded (h : Turns e input events e') (hg : e.toCore.Guarded draining)
    (hdrain : ∀ slot now outbox, input ≠ .command (.workerDraining slot) now outbox) :
    e'.toCore.Guarded (e.announced draining input) := by
  have hsub : e.announced draining input ⊆ draining := by
    unfold announced
    split
    · exact absurd rfl (hdrain _ _ _)
    · exact List.filter_subset_self _
    · exact List.Subset.refl _
  have hevents : ∀ ev ∈ events, (∀ slot, ev ≠ .drained slot) ∧
      ∀ slot, ev = .attached slot → slot ∉ e.announced draining input := by
    intro ev hev
    have hcause := h.cause ev hev
    refine ⟨?_, ?_⟩
    · rintro slot rfl
      cases input with
      | command command now outbox =>
        obtain rfl : command = .workerDraining slot := hcause
        exact hdrain slot now outbox rfl
      | tick => exact nomatch hcause.1
      | quiesce => exact hcause
    · rintro slot rfl
      cases input with
      | command command now outbox =>
        obtain ⟨name, capacity, inFlight, reply, rfl, rfl⟩ := hcause
        show _ ∉ draining.filter _
        simp
      | tick => exact nomatch hcause.1
      | quiesce => exact absurd hcause not_false
  have hchain := h.chain.imp fun c ev c' hmem ht =>
    (⟨ht, hevents ev hmem⟩ : c.Takes e.cycle ev c' ∧ (∀ slot, ev ≠ .drained slot) ∧
      ∀ slot, ev = .attached slot → slot ∉ e.announced draining input)
  exact hchain.keeps (fun _ _ _ ht hg => ht.1.guarded hg ht.2.1 ht.2.2) (hg.mono hsub)

private theorem Turns.sized (h : Turns e input events e') (hs : Sized e.jobs) (hasks : input.Asks) :
    Sized e'.jobs := by
  have hevents : ∀ ev ∈ events, ∀ id job, ev = .acted (.submitted id job) →
      job.request ≠ Resources.zero := by
    rintro ev hev id job rfl
    have hcause := h.cause _ hev
    cases input with
    | command command now outbox =>
      obtain ⟨new, reply, rfl, rfl⟩ := hcause
      exact hasks
    | tick => exact nomatch hcause.1
    | quiesce => exact absurd hcause not_false
  have hchain := h.chain.imp fun c ev c' hmem ht =>
    (⟨ht, hevents ev hmem⟩ : c.Takes e.cycle ev c' ∧ ∀ id job, ev = .acted (.submitted id job) →
      job.request ≠ Resources.zero)
  exact hchain.keeps (P := fun c => Sized c.jobs) (fun _ _ _ ht hs => ht.1.sized hs ht.2) hs

def cycleAt (e : Engine) (now : VirtualTime) : Option Scheduler.CycleResult :=
  e.scheduler.runCycle e.jobs e.inventory e.running now e.cycle []

/-- A guarded engine with sized jobs sends work to attached workers that do not drain: a slot
without capacity holds nothing. -/
private theorem decisions_open {now : VirtualTime} {cycle : Scheduler.CycleResult}
    (hg : e.toCore.Guarded draining) (hs : Sized e.jobs) (hcycle : e.cycleAt now = some cycle) :
    ∀ d ∈ cycle.decisions, (∃ name, e.names[d.slot]? = some (some name)) ∧ d.slot ∉ draining := by
  intro d hd
  obtain ⟨new, hdecisions, hgrown, hlive, -⟩ := Scheduler.runCycle_grown hcycle
  rw [hdecisions, List.nil_append] at hd
  obtain ⟨job, hjob⟩ := hlive d hd
  obtain ⟨s, hslot⟩ : ∃ s, e.inventory.slots[d.slot]? = some s :=
    ⟨_, List.getElem?_eq_getElem (hgrown.placed d hd)⟩
  have hfits := hgrown.holds d hd s job hslot hjob
  have hnonzero : s.capacity ≠ Resources.zero := by
    intro hzero
    rw [hzero] at hfits
    exact hs d.job job hjob (eq_zero_of_fitsWithin hfits)
  have hopen : ¬ (d.slot ∈ draining ∨ Table.read none e.names d.slot = none) := fun hclosed =>
    hnonzero (hg d.slot _ (by rw [getElem?_capacities, hslot]; rfl) hclosed)
  obtain ⟨hdrain, hname⟩ := not_or.mp hopen
  refine ⟨?_, hdrain⟩
  obtain ⟨name, hname⟩ := Option.ne_none_iff_exists'.mp hname
  unfold Table.read at hname
  cases hat : e.names[d.slot]? with
  | none =>
    rw [hat] at hname
    exact nomatch hname
  | some entry =>
    rw [hat] at hname
    exact ⟨name, congrArg some hname⟩

section

variable [Crc32]

/-- Flushing what is held for the workers does not touch what the cycle reads. -/
theorem tick_runs_cycleAt {host host' : Host} {now : VirtualTime} {room : Bool}
    {outcome : CycleOutcome} (h : host.tick now room = some (host', outcome)) :
    ∃ cycle, host.engine.cycleAt now = some cycle ∧ cycle.outcome = outcome := by
  unfold Host.tick at h
  have hflush : Moves host.engine [] host.flushOverflow.engine := Host.flushLoop_aside _ host
  have hcore : host.engine.toCore = host.flushOverflow.engine.toCore :=
    Chain.nil_iff.mp hflush.chain
  obtain ⟨cycle, hrun, h⟩ := Option.bind_eq_some_iff.mp h
  obtain ⟨_, -, h⟩ := Option.bind_eq_some_iff.mp h
  obtain ⟨_, -, h⟩ := Option.bind_eq_some_iff.mp h
  obtain ⟨_, -, h⟩ := Option.bind_eq_some_iff.mp h
  obtain ⟨_, -, h⟩ := Option.bind_eq_some_iff.mp h
  obtain ⟨_, -, h⟩ := Option.bind_eq_some_iff.mp h
  refine ⟨cycle, ?_, (Prod.mk.inj (Option.some.inj h)).2⟩
  unfold cycleAt
  rw [hcore, ← hflush.cycle]
  exact hrun

theorem Starts.guarded (h : e.Starts) : e.toCore.Guarded [] := by
  intro i capacity hi
  rw [getElem?_capacities, h.unbound.2] at hi
  exact nomatch hi

/-- A turn, with the slots whose worker drains. -/
def WatchedSteps (w : Engine × List SlotIndex) (input : Input) (w' : Engine × List SlotIndex) :
    Prop :=
  w.1.Steps input w'.1 ∧ w'.2 = w.1.announced w.2 input

private theorem Steps.guarded (h : e.Steps input e') (hg : e.toCore.Guarded draining) :
    e'.toCore.Guarded (e.announced draining input) := by
  by_cases hdrain : ∃ slot now outbox, input = .command (.workerDraining slot) now outbox
  · obtain ⟨slot, now, outbox, rfl⟩ := hdrain
    obtain rfl : e.withCore (e.drain slot) = e' := Option.some.inj h
    exact Core.drain_guarded slot hg
  · obtain ⟨events, hturns⟩ := h.turns
    exact hturns.guarded hg fun slot now outbox heq => hdrain ⟨slot, now, outbox, heq⟩

def watchedStep (w : Engine × List SlotIndex) (input : Input) :
    Option (Engine × List SlotIndex) :=
  (w.1.step input).map fun e => (e, w.1.announced w.2 input)

def watchedRun (inputs : List Input) (w : Engine × List SlotIndex) :
    Option (Engine × List SlotIndex) := inputs.foldlM watchedStep w

private theorem chain_of_watchedRun {inputs : List Input} {w w' : Engine × List SlotIndex}
    (h : watchedRun inputs w = some w') : Chain WatchedSteps w inputs w' := by
  refine (Chain.of_foldlM h).imp fun w input w' _ hstep => ?_
  obtain ⟨e, he, rfl⟩ := Option.map_eq_some_iff.mp hstep
  exact ⟨he, rfl⟩

/-- A run of sized submissions sends work only to attached workers that do not drain. -/
theorem work_goes_to_open_workers {start : Engine} {inputs : List Input} {now : VirtualTime}
    {cycle : Scheduler.CycleResult} (hstart : start.Starts) (hsized : Sized start.jobs)
    (hasks : ∀ input ∈ inputs, input.Asks)
    (hrun : Chain WatchedSteps (start, []) inputs (e, draining))
    (hcycle : e.cycleAt now = some cycle) :
    ∀ d ∈ cycle.decisions, (∃ name, e.names[d.slot]? = some (some name)) ∧ d.slot ∉ draining := by
  have hchain := hrun.imp fun w input w' hmem hstep =>
    (⟨hstep, hasks input hmem⟩ : WatchedSteps w input w' ∧ input.Asks)
  obtain ⟨hg, hs⟩ : e.toCore.Guarded draining ∧ Sized e.jobs := by
    refine hchain.keeps (P := fun w => w.1.toCore.Guarded w.2 ∧ Sized w.1.jobs) ?_
      ⟨hstart.guarded, hsized⟩
    rintro w input w' ⟨⟨hstep, hnext⟩, hask⟩ ⟨hg, hs⟩
    obtain ⟨events, hturns⟩ := hstep.turns
    rw [hnext]
    exact ⟨hstep.guarded hg, hturns.sized hs hask⟩
  exact decisions_open hg hs hcycle

end

end Engine

/-- A worker joins and drains, another joins, and a job comes. -/
def openInputs : List Input :=
  [(sampleJoin 1).sent 0, (Command.workerDraining 0).sent 0, (sampleJoin 1).sent 0,
    (sampleSubmit .normal 1 []).sent 0]

attribute [local instance] Crc32.ieee

/-- The job goes to the worker that does not drain. -/
theorem work_goes_to_open_workers_sample : ∃ e cycle,
    Engine.watchedRun openInputs (Engine.new sampleDaemon, []) = some (e, [0]) ∧
      e.cycleAt 0 = some cycle ∧ ∃ d ∈ cycle.decisions,
        (∃ name, e.names[d.slot]? = some (some name)) ∧ d.slot ∉ [0] := by
  have hlook : (Engine.watchedRun openInputs (Engine.new sampleDaemon, [])).any
      (fun w => decide (w.2 = [0]) && (w.1.cycleAt 0).any fun cycle =>
        decide (⟨⟨0⟩, 1⟩ ∈ cycle.decisions)) = true := by decide +kernel
  obtain ⟨⟨e, draining⟩, hrun, hlook⟩ := (Option.any_eq_true _ _).mp hlook
  simp only [Bool.and_eq_true, decide_eq_true_eq] at hlook
  obtain ⟨rfl, hcycle⟩ := hlook
  obtain ⟨cycle, hcycle, hmem⟩ := (Option.any_eq_true _ _).mp hcycle
  have hchain := Engine.chain_of_watchedRun hrun
  have hopen := @Engine.work_goes_to_open_workers e [0] Crc32.ieee (Engine.new sampleDaemon)
    openInputs 0 cycle (Or.inl ⟨sampleDaemon, none, rfl⟩) (fun _ _ h => nomatch h) (by decide)
    hchain hcycle
  exact ⟨e, cycle, hrun, hcycle, _, of_decide_eq_true hmem, hopen _ (of_decide_eq_true hmem)⟩

def emptySubmit : V1.SubmitRequest := ⟨0, 2, some ⟨0, 0, 0⟩, 10, [], []⟩

def emptyJob : NewJob := ⟨Job.new 0 .normal 0 Resources.zero 10, rfl, rfl⟩

def drainedInputs : List Input :=
  [(sampleJoin 1).sent 0, (Command.workerDraining 0).sent 0, (Command.submit emptyJob 0).sent 0]

def vacatedInputs : List Input :=
  [(sampleJoin 1).sent 0, (Command.workerLeft 0).sent 0, (Command.submit emptyJob 0).sent 0]

/-- A job that asks for nothing fits a slot without capacity: it is sent to a worker that drains,
and to a slot whose worker is gone. -/
theorem empty_request_goes_to_closed_slots : jobFromSubmit emptySubmit 0 = .ok emptyJob ∧
    (∃ e draining cycle, Chain Engine.WatchedSteps (Engine.new sampleDaemon, [])
        drainedInputs (e, draining) ∧ e.cycleAt 0 = some cycle ∧
      ∃ d ∈ cycle.decisions, d.slot ∈ draining) ∧
    ∃ e draining cycle, Chain Engine.WatchedSteps (Engine.new sampleDaemon, [])
        vacatedInputs (e, draining) ∧ e.cycleAt 0 = some cycle ∧
      ∃ d ∈ cycle.decisions, e.names[d.slot]? = some none := by
  have hlook : ∀ {inputs : List Input} {P : Engine × List SlotIndex → SlotIndex → Prop}
      [∀ w slot, Decidable (P w slot)],
      (Engine.watchedRun inputs (Engine.new sampleDaemon, [])).any (fun w =>
        (w.1.cycleAt 0).any fun cycle => cycle.decisions.any fun d => decide (P w d.slot)) = true →
      ∃ e draining cycle, Chain Engine.WatchedSteps (Engine.new sampleDaemon, []) inputs
        (e, draining) ∧ e.cycleAt 0 = some cycle ∧
          ∃ d ∈ cycle.decisions, P (e, draining) d.slot := by
    intro inputs P _ hlook
    simp only [Option.any_eq_true, List.any_eq_true, decide_eq_true_eq] at hlook
    obtain ⟨⟨e, draining⟩, hrun, cycle, hcycle, hd⟩ := hlook
    exact ⟨e, draining, cycle, Engine.chain_of_watchedRun hrun, hcycle, hd⟩
  exact ⟨rfl, hlook (P := fun w slot => slot ∈ w.2) (by decide +kernel),
    hlook (P := fun w slot => w.1.names[slot]? = some none) (by decide +kernel)⟩

end TaskerRT.Daemon
