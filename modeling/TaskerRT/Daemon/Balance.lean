/- module: TaskerRT/Daemon/Balance
   source: crates/taskerd/src/engine.rs, crates/tasker-core/src/cluster/slot.rs
   digest: What a slot has allocated is what the jobs bound to it hold. -/

import TaskerRT.Daemon.Sane

set_option autoImplicit false

namespace TaskerRT.Daemon

open Library Domain Cluster Policy Scheduling Wal Book Resources

/-- How much of one dimension the bindings to a slot hold. -/
def heldBy (running : List RunningJob) (i : SlotIndex) (d : Dimension) : Nat :=
  ((running.filter (·.slot = i)).map (·.resources.amount d)).sum

section Held

variable {running : List RunningJob} {r : RunningJob} {i : SlotIndex} {d : Dimension}

private theorem heldBy_cons (r : RunningJob) (running : List RunningJob) (i : SlotIndex)
    (d : Dimension) :
    heldBy (r :: running) i d =
      (if r.slot = i then r.resources.amount d else 0) + heldBy running i d := by
  unfold heldBy
  by_cases h : r.slot = i
  · simp [h]
  · simp [h]

private theorem heldBy_append (xs ys : List RunningJob) (i : SlotIndex) (d : Dimension) :
    heldBy (xs ++ ys) i d = heldBy xs i d + heldBy ys i d := by
  simp [heldBy]

private theorem heldBy_perm {xs ys : List RunningJob} (h : xs.Perm ys) (i : SlotIndex)
    (d : Dimension) :
    heldBy xs i d = heldBy ys i d :=
  ((h.filter _).map _).sum_eq

private theorem heldBy_of_none (h : ∀ r ∈ running, r.slot ≠ i) : heldBy running i d = 0 := by
  have hnil : running.filter (·.slot = i) = [] := by simpa using h
  rw [heldBy, hnil]
  rfl

private theorem heldBy_filter_ne (running : List RunningJob) {i j : SlotIndex} (h : i ≠ j)
    (d : Dimension) : heldBy (running.filter (·.slot ≠ j)) i d = heldBy running i d := by
  unfold heldBy
  rw [List.filter_filter]
  congr 2
  apply List.filter_congr
  intro r _
  by_cases hr : r.slot = i
  · simp [hr, h]
  · simp [hr]

end Held

/-- Every binding is to a slot that exists, and every slot has allocated what its bindings
hold. -/
structure Balanced (running : List RunningJob) (inventory : SlotInventory) : Prop where
  placed : ∀ r ∈ running, r.slot < inventory.slots.length
  exact_ : ∀ i s, inventory.slots[i]? = some s → ∀ d, s.allocated.amount d = heldBy running i d

namespace Balanced

variable {running : List RunningJob} {inventory inventory' : SlotInventory} {r : RunningJob}

private theorem perm {running' : List RunningJob} (h : Balanced running inventory)
    (hp : running'.Perm running) : Balanced running' inventory :=
  ⟨fun r hr => h.placed r (hp.subset hr), fun i s hs d => by
    rw [heldBy_perm hp]
    exact h.exact_ i s hs d⟩

private theorem update {running' : List RunningJob} {i : SlotIndex} {f : WorkerSlot → WorkerSlot}
    (h : Balanced running inventory) (hplaced : ∀ r ∈ running', r.slot < inventory.slots.length)
    (hupdate : inventory.updateSlot i f = .ok inventory')
    (hself : ∀ s, inventory.slots[i]? = some s → ∀ d, (f s).allocated.amount d = heldBy running' i d)
    (hother : ∀ j, j ≠ i → ∀ d, heldBy running' j d = heldBy running j d) :
    Balanced running' inventory' := by
  obtain ⟨s, hs, rfl⟩ := SlotInventory.updateSlot_eq_ok.mp hupdate
  obtain ⟨hlt, -⟩ := List.getElem?_eq_some_iff.mp hs
  refine ⟨fun r hr => by simpa using hplaced r hr, fun j t ht d => ?_⟩
  by_cases hj : i = j
  · subst hj
    rw [List.getElem?_set_self hlt, Option.some.injEq] at ht
    rw [← ht]
    exact hself s hs d
  · rw [List.getElem?_set_ne hj] at ht
    rw [hother j (Ne.symm hj)]
    exact h.exact_ j t ht d

/-- A binding holds at most what its slot has allocated, so releasing it cannot saturate. -/
theorem le_allocated (h : Balanced running inventory) (hr : r ∈ running) :
    ∃ s, inventory.slots[r.slot]? = some s ∧ r.resources.fitsWithin s.allocated = true := by
  refine ⟨_, List.getElem?_eq_getElem (h.placed r hr), fitsWithin_iff_amount.mpr fun d => ?_⟩
  obtain ⟨xs, ys, rfl⟩ := List.append_of_mem hr
  rw [h.exact_ r.slot _ (List.getElem?_eq_getElem (h.placed r hr)) d, heldBy_append, heldBy_cons,
    if_pos rfl]
  omega

private theorem release (h : Balanced (r :: running) inventory) :
    Balanced running (Core.orSame inventory (inventory.release r.slot r.resources)) := by
  have hlt := h.placed r List.mem_cons_self
  obtain ⟨inventory', hok⟩ := SlotInventory.updateSlot_of_lt
    (fun s => { s with allocated := s.allocated.saturatingSub r.resources }) hlt
  rw [show inventory.release r.slot r.resources = .ok inventory' from hok]
  refine h.update (fun x hx => h.placed x (List.mem_cons_of_mem _ hx)) hok (fun s hs d => ?_)
    fun j hj d => ?_
  · rw [amount_saturatingSub, h.exact_ r.slot s hs d, heldBy_cons, if_pos rfl]
    omega
  · rw [heldBy_cons, if_neg (Ne.symm hj), Nat.zero_add]

private theorem allocate (h : Balanced running inventory)
    (hok : inventory.tryAllocate r.slot r.resources = .ok inventory') :
    Balanced (r :: running) inventory' := by
  obtain ⟨s, next, hs, hsum, -, rfl⟩ := SlotInventory.tryAllocate_eq_ok.mp hok
  obtain ⟨hlt, -⟩ := List.getElem?_eq_some_iff.mp hs
  have hplaced : ∀ x ∈ r :: running, x.slot < inventory.slots.length := by
    intro x hx
    rcases List.mem_cons.mp hx with rfl | hx
    · exact hlt
    · exact h.placed x hx
  refine h.update hplaced (f := fun t => { t with allocated := next })
    (SlotInventory.updateSlot_eq_ok.mpr ⟨s, hs, rfl⟩) (fun t ht d => ?_) fun j hj d => ?_
  · rw [heldBy_cons, if_pos rfl, amount_of_checkedAdd hsum, h.exact_ _ s hs d, Nat.add_comm]
  · rw [heldBy_cons, if_neg (Ne.symm hj), Nat.zero_add]

private theorem setCapacity (h : Balanced running inventory) (slot : SlotIndex)
    (capacity : Capacity) :
    Balanced running (Core.orSame inventory (inventory.setCapacity slot capacity)) := by
  cases hok : inventory.setCapacity slot capacity with
  | error => exact h
  | ok inventory' => exact h.update h.placed hok (fun s hs d => h.exact_ slot s hs d) fun _ _ _ => rfl

private theorem pushSlot (h : Balanced running inventory) (capacity : Capacity) :
    Balanced running (inventory.pushSlot capacity).1 := by
  have hlen : ∀ r ∈ running, r.slot < (inventory.slots ++ [WorkerSlot.new capacity]).length := by
    intro r hr
    rw [List.length_append]
    exact Nat.lt_add_right _ (h.placed r hr)
  refine ⟨hlen, fun i s hs d => ?_⟩
  change (inventory.slots ++ [WorkerSlot.new capacity])[i]? = some s at hs
  rw [List.getElem?_append] at hs
  split at hs
  · exact h.exact_ i s hs d
  · rename_i hi
    -- Nothing is bound to a slot that did not exist.
    have hnone : ∀ r ∈ running, r.slot ≠ i := fun r hr he => hi (he ▸ h.placed r hr)
    rw [heldBy_of_none hnone]
    obtain ⟨-, rfl⟩ := List.getElem?_eq_some_iff.mp hs
    cases d <;> simp [WorkerSlot.new, Resources.zero, Resources.amount]

private theorem clear (h : Balanced running inventory) (slot : SlotIndex) :
    Balanced (running.filter (·.slot ≠ slot))
      (Core.orSame inventory (inventory.clearAllocation slot)) := by
  have hsub : ∀ r ∈ running.filter (·.slot ≠ slot), r ∈ running ∧ r.slot ≠ slot := by
    intro r hr
    simpa using hr
  cases hok : inventory.clearAllocation slot with
  | error err =>
    refine ⟨fun r hr => h.placed r (hsub r hr).1, fun i s hs d => ?_⟩
    by_cases hi : i = slot
    · subst hi
      obtain ⟨hlt, -⟩ := List.getElem?_eq_some_iff.mp hs
      obtain ⟨inventory', hok'⟩ := SlotInventory.updateSlot_of_lt
        (fun s => { s with allocated := Resources.zero }) hlt
      rw [show inventory.clearAllocation i = .ok inventory' from hok'] at hok
      exact nomatch hok
    · rw [heldBy_filter_ne running hi]
      exact h.exact_ i s hs d
  | ok inventory' =>
    refine h.update (fun r hr => h.placed r (hsub r hr).1) hok (fun s hs d => ?_) fun j hj d =>
      heldBy_filter_ne running hj d
    rw [heldBy_of_none fun r hr => (hsub r hr).2]
    cases d <;> rfl

end Balanced

private theorem demand_cons (jobs : Arena Job) (x : DispatchDecision) (xs : List DispatchDecision)
    (i : SlotIndex) (d : Dimension) : demand jobs (x :: xs) i d =
      (if x.slot = i then (jobs.get x.job).elim 0 (·.request.amount d) else 0) +
        demand jobs xs i d := by
  unfold demand
  by_cases h : x.slot = i
  · simp [h]
  · simp [h]

private theorem demand_congr {jobs jobs' : Arena Job} {xs : List DispatchDecision}
    (h : ∀ id, (jobs'.get id).map (·.request) = (jobs.get id).map (·.request)) (i : SlotIndex)
    (d : Dimension) : demand jobs' xs i d = demand jobs xs i d := by
  unfold demand
  congr 2
  funext x
  have := h x.job
  cases hj : jobs.get x.job <;> cases hj' : jobs'.get x.job <;> simp_all

namespace Core

variable {config : CycleConfig} {c c₁ c' : Core} {id : JobId} {event : Event}

private theorem balanced_release (h : Balanced c.running c.inventory) (id : JobId) :
    Balanced (c.release id).1.running (c.release id).1.inventory := by
  cases hf : c.running.find? (·.job = id) with
  | none =>
    rw [release, hf]
    exact h
  | some r =>
    rw [release_found hf]
    exact (h.perm (running_split hf).2).release

private theorem balanced_unhold (h : Balanced c.running c.inventory) (id : JobId) :
    Balanced (c.unhold id).1.running (c.unhold id).1.inventory := by
  unfold unhold
  split <;> exact h

private theorem balanced_unbinds (h : Balanced c.running c.inventory) (gone : c.Unbinds id c₁) :
    Balanced c₁.running c₁.inventory := by
  rcases gone with ⟨slot, heq⟩ | heq
  · have := balanced_release h id
    rwa [heq] at this
  · have := balanced_unhold h id
    rwa [heq] at this

private theorem balanced_vacate (h : Balanced c.running c.inventory) (slot : SlotIndex) :
    Balanced ((c.unbindSlot slot).vacate slot).running
      ((c.unbindSlot slot).vacate slot).inventory :=
  (h.clear slot).setCapacity slot Resources.zero

private theorem bindEach_spec (now : VirtualTime) (ds : List DispatchDecision) : ∀ c : Core,
    (∀ d ∈ ds, ∃ job, c.jobs.get d.job = some job) →
      (c.bindEach now ds).inventory = c.inventory ∧
      (∀ r ∈ (c.bindEach now ds).running, r ∈ c.running ∨ ∃ x ∈ ds, x.slot = r.slot) ∧
      ∀ i d, heldBy (c.bindEach now ds).running i d =
        heldBy c.running i d + demand c.jobs ds i d := by
  induction ds with
  | nil => exact fun c _ => ⟨rfl, fun r hr => Or.inl hr, fun _ _ => rfl⟩
  | cons x ds ih =>
    intro c hlive
    obtain ⟨job, hjob⟩ := hlive x List.mem_cons_self
    obtain ⟨hinv, hslots, hheld⟩ := ih (c.bind x.job job x.slot now) fun d' hd' =>
      hlive d' (List.mem_cons_of_mem _ hd')
    rw [bindEach_cons hjob]
    refine ⟨hinv, fun r hr => ?_, fun i d => ?_⟩
    · rcases hslots r hr with hmem | ⟨y, hy, hslot⟩
      · rcases List.mem_append.mp hmem with hmem | hmem
        · exact Or.inl hmem
        · exact Or.inr ⟨x, List.mem_cons_self, by rw [List.mem_singleton.mp hmem]⟩
      · exact Or.inr ⟨y, List.mem_cons_of_mem _ hy, hslot⟩
    · rw [hheld, demand_cons, hjob]
      show heldBy (c.running ++ [_]) i d + _ = _
      rw [heldBy_append, heldBy_cons]
      show _ + ((if x.slot = i then job.request.amount d else 0) + 0) + _ = _
      rw [Nat.add_zero, Nat.add_assoc]
      rfl

theorem Takes.balanced (ht : c.Takes config event c')
    (h : Balanced c.running c.inventory) : Balanced c'.running c'.inventory := by
  cases ht with
  | acted => exact h
  | @ended c₁ act id r gone hd ends =>
    have hgone : Balanced c₁.running c₁.inventory := balanced_unbinds h gone
    exact hgone
  | cancelled => exact balanced_unhold (balanced_release h _) _
  | refused gone | unconfirmed gone => exact balanced_unbinds h gone
  | stale held => exact balanced_unbinds h (Or.inr held)
  | attached name capacity =>
    unfold attach
    dsimp only
    split
    · exact h.setCapacity _ _
    · exact h.pushSlot _
  | drained slot => exact h.setCapacity slot Resources.zero
  | @adopted c₁ id job inventory slot now held live state fits =>
    have hsame := unhold_true held
    obtain ⟨-, rfl⟩ := hsame
    have hbound : Balanced (⟨id, slot, job.request, Word.saturatingAdd now job.walltimeLimit⟩ ::
        c.running) inventory := h.allocate fits
    exact hbound.perm (List.perm_append_singleton _ _)
  | @rebound id r inventory slot found fits =>
    have hfreed := (h.perm (running_split found).2).release
    have hbound : Balanced ({ r with slot := slot } ::
        swapRemove c.running (c.running.findIdx (·.job = id))) inventory := hfreed.allocate fits
    have hlt : c.running.findIdx (·.job = id) < c.running.length :=
      List.findIdx_lt_length_of_exists ⟨r, List.mem_of_find?_eq_some found, by
        simpa using (running_split found).1⟩
    exact hbound.perm (set_perm hlt _)
  | @cycled now cycle ran =>
    obtain ⟨new, hnew, hgrown, -, hmap⟩ := Scheduler.runCycle_grown ran
    rw [List.nil_append] at hnew
    have hrequest : ∀ x, (cycle.jobs.get x).map (·.request) = (c.jobs.get x).map (·.request) := by
      intro x
      have hsame := congrArg (·.get x) (hmap (f := Job.request) fun _ _ => rfl)
      simpa using hsame
    obtain ⟨hinv, hslots, hheld⟩ := bindEach_spec now cycle.decisions { c with
      scheduler := cycle.scheduler, jobs := cycle.jobs, inventory := cycle.inventory }
      (Scheduler.runCycle_live ran)
    refine ⟨fun r hr => ?_, fun i s hs d => ?_⟩
    · rw [hinv]
      show r.slot < cycle.inventory.slots.length
      rw [hgrown.length]
      rcases hslots r hr with hmem | ⟨x, hx, hslot⟩
      · exact h.placed r hmem
      · exact hslot ▸ hgrown.placed x (hnew ▸ hx)
    · rw [hinv] at hs
      rw [hheld i d]
      show _ = heldBy c.running i d + demand cycle.jobs cycle.decisions i d
      have hlt : i < c.inventory.slots.length := by
        rw [← hgrown.length]
        exact (List.getElem?_eq_some_iff.mp hs).1
      obtain ⟨s', hs', -, halloc, -⟩ := hgrown.slot i _ (List.getElem?_eq_getElem hlt)
      obtain rfl := Option.some.inj (hs'.symm.trans hs)
      rw [halloc d, h.exact_ i _ (List.getElem?_eq_getElem hlt) d, demand_congr hrequest, hnew]
  | left => exact balanced_vacate h _
  | abandoned slot => exact balanced_vacate h slot
  | expired => exact h

end Core

end TaskerRT.Daemon
