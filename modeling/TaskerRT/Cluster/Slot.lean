/- module: TaskerRT/Cluster/Slot
   source: crates/tasker-core/src/cluster/slot.rs
   digest: Declared worker capacities, their allocations and first-fit placement. -/

import TaskerRT.Domain.Job

set_option autoImplicit false

namespace TaskerRT.Cluster

open Library Domain

/-- Dense index into a `SlotInventory`. -/
abbrev SlotIndex := Nat

inductive CapacityError where
  | noSuchSlot (slot : SlotIndex)
  | wouldExceed (slot : SlotIndex)
  deriving DecidableEq, Repr

/-- One worker's declared capacity and current allocation. -/
structure WorkerSlot where
  capacity : Capacity
  allocated : Resources
  deriving DecidableEq, Repr

namespace WorkerSlot

def new (capacity : Capacity) : WorkerSlot := ⟨capacity, Resources.zero⟩

def free (s : WorkerSlot) : Resources := s.capacity.saturatingSub s.allocated

/-- The allocation stays within the declared capacity. -/
def Within (s : WorkerSlot) : Prop := s.allocated.fitsWithin s.capacity = true

instance (s : WorkerSlot) : Decidable s.Within :=
  inferInstanceAs (Decidable (s.allocated.fitsWithin s.capacity = true))

theorem within_new (capacity : Capacity) : (new capacity).Within := by
  rw [Within, Resources.fitsWithin_iff]
  simp [new, Resources.zero]

end WorkerSlot

/-- The scheduler's model of cluster capacity. -/
structure SlotInventory where
  slots : List WorkerSlot
  maxCapacity : Capacity
  deriving DecidableEq, Repr

namespace SlotInventory

def fromUniform (count : Nat) (capacity : Capacity) : SlotInventory where
  slots := List.replicate count (WorkerSlot.new capacity)
  maxCapacity := capacity

def fromCapacities (capacities : List Capacity) : SlotInventory where
  slots := capacities.map WorkerSlot.new
  maxCapacity := capacities.foldl Resources.sup Resources.zero

def len (inv : SlotInventory) : SlotIndex := inv.slots.length

def slot (inv : SlotInventory) (slot : SlotIndex) : Option WorkerSlot := inv.slots[slot]?

/-- Unallocated capacity of one slot, or `none` if out of range. -/
def free (inv : SlotInventory) (slot : SlotIndex) : Option Resources :=
  inv.slots[slot]?.map WorkerSlot.free

/-- Lowest-indexed slot with room for `request` right now. -/
def firstFit (inv : SlotInventory) (request : ResourceRequest) : Option SlotIndex :=
  inv.slots.findIdx? fun s => request.fitsWithin s.free

/-- Charges `request` against `slot`. On error nothing changes. -/
def tryAllocate (inv : SlotInventory) (slot : SlotIndex) (request : ResourceRequest) :
    Except CapacityError SlotInventory :=
  match inv.slots[slot]? with
  | none => .error (.noSuchSlot slot)
  | some entry =>
    match entry.allocated.checkedAdd request with
    | none => .error (.wouldExceed slot)
    | some next =>
      if next.fitsWithin entry.capacity then
        .ok { inv with slots := inv.slots.set slot { entry with allocated := next } }
      else .error (.wouldExceed slot)

/-- Rewrites one slot in place, or reports that it does not exist. -/
def updateSlot (inv : SlotInventory) (slot : SlotIndex) (f : WorkerSlot → WorkerSlot) :
    Except CapacityError SlotInventory :=
  match inv.slots[slot]? with
  | none => .error (.noSuchSlot slot)
  | some entry => .ok { inv with slots := inv.slots.set slot (f entry) }

def release (inv : SlotInventory) (slot : SlotIndex) (request : ResourceRequest) :
    Except CapacityError SlotInventory :=
  inv.updateSlot slot fun s => { s with allocated := s.allocated.saturatingSub request }

/-- True when some slot's declared capacity could hold `request` if empty. -/
def canEverFit (inv : SlotInventory) (request : ResourceRequest) : Bool :=
  request.fitsWithin inv.maxCapacity && inv.slots.any fun s => request.fitsWithin s.capacity

/-- Adds a slot, reusing the lowest zero-capacity slot if there is one. -/
def addSlot (inv : SlotInventory) (capacity : Capacity) : SlotInventory × SlotIndex :=
  match inv.slots.findIdx? fun s => s.capacity == Resources.zero with
  | some i =>
    (⟨inv.slots.set i (WorkerSlot.new capacity), inv.maxCapacity.sup capacity⟩, i)
  | none =>
    (⟨inv.slots ++ [WorkerSlot.new capacity], inv.maxCapacity.sup capacity⟩, inv.slots.length)

def pushSlot (inv : SlotInventory) (capacity : Capacity) : SlotInventory × SlotIndex :=
  (⟨inv.slots ++ [WorkerSlot.new capacity], inv.maxCapacity.sup capacity⟩, inv.slots.length)

def setCapacity (inv : SlotInventory) (slot : SlotIndex) (capacity : Capacity) :
    Except CapacityError SlotInventory :=
  inv.updateSlot slot fun s => { s with capacity := capacity }

/-- Forgets every allocation on `slot`, keeping its capacity. -/
def clearAllocation (inv : SlotInventory) (slot : SlotIndex) :
    Except CapacityError SlotInventory :=
  inv.updateSlot slot fun s => { s with allocated := Resources.zero }

def reset (inv : SlotInventory) : SlotInventory :=
  { inv with slots := inv.slots.map fun s => { s with allocated := Resources.zero } }

theorem firstFit_eq_some {inv : SlotInventory} {request : ResourceRequest} {i : SlotIndex}
    (h : inv.firstFit request = some i) :
    ∃ s, inv.slots[i]? = some s ∧ request.fitsWithin s.free = true ∧
      ∀ j < i, ∀ t, inv.slots[j]? = some t → request.fitsWithin t.free = false := by
  unfold firstFit at h
  rw [List.findIdx?_eq_some_iff_getElem] at h
  obtain ⟨hlt, hfit, hbefore⟩ := h
  refine ⟨inv.slots[i], List.getElem?_eq_getElem hlt, hfit, ?_⟩
  intro j hj t ht
  obtain ⟨hlt', rfl⟩ := List.getElem?_eq_some_iff.mp ht
  have := hbefore j hj
  simpa using this

theorem tryAllocate_eq_ok {inv inv' : SlotInventory} {i : SlotIndex}
    {request : ResourceRequest} :
    inv.tryAllocate i request = .ok inv' ↔
      ∃ s next, inv.slots[i]? = some s ∧ s.allocated.checkedAdd request = some next ∧
        next.fitsWithin s.capacity = true ∧
          inv' = { inv with slots := inv.slots.set i { s with allocated := next } } := by
  unfold tryAllocate
  constructor
  · intro h
    split at h
    · cases h
    · rename_i s hs
      split at h
      · cases h
      · rename_i next hn
        split at h
        · rename_i hf
          cases h
          exact ⟨s, next, hs, hn, hf, rfl⟩
        · cases h
  · rintro ⟨s, next, hs, hn, hf, rfl⟩
    simp only [hs, hn, hf, if_true]

/-- On a slot within its capacity, the first-fit test is the allocation test. -/
theorem tryAllocate_of_fits {inv : SlotInventory} {i : SlotIndex} {s : WorkerSlot}
    {request : ResourceRequest} (hs : inv.slots[i]? = some s) (hw : s.Within)
    (hfit : request.fitsWithin s.free = true) :
    ∃ inv', inv.tryAllocate i request = .ok inv' := by
  obtain ⟨next, hn, hf⟩ := Resources.checkedAdd_of_fits_free hw hfit
  exact ⟨_, tryAllocate_eq_ok.mpr ⟨s, next, hs, hn, hf, rfl⟩⟩

theorem updateSlot_eq_ok {inv inv' : SlotInventory} {i : SlotIndex}
    {f : WorkerSlot → WorkerSlot} :
    inv.updateSlot i f = .ok inv' ↔
      ∃ s, inv.slots[i]? = some s ∧ inv' = { inv with slots := inv.slots.set i (f s) } := by
  unfold updateSlot
  cases hs : inv.slots[i]? with
  | none => simp
  | some s => simp [eq_comm]

theorem updateSlot_of_lt {inv : SlotInventory} {i : SlotIndex} (f : WorkerSlot → WorkerSlot)
    (h : i < inv.slots.length) : ∃ inv', inv.updateSlot i f = .ok inv' :=
  ⟨_, updateSlot_eq_ok.mpr ⟨_, List.getElem?_eq_getElem h, rfl⟩⟩

end SlotInventory

end TaskerRT.Cluster
