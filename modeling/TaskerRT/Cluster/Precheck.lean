/- module: TaskerRT/Cluster/Precheck
   source: crates/tasker-core/src/cluster/slot.rs
   digest: The cached maximum behind the capacity pre-check, along every sequence of changes. -/

import TaskerRT.Cluster.Slot

set_option autoImplicit false

namespace TaskerRT.Cluster

open Library Domain

/-- The calls that change an inventory. -/
inductive Change where
  | tryAllocate (slot : SlotIndex) (request : ResourceRequest)
  | release (slot : SlotIndex) (request : ResourceRequest)
  | addSlot (capacity : Capacity)
  | pushSlot (capacity : Capacity)
  | setCapacity (slot : SlotIndex) (capacity : Capacity)
  | clearAllocation (slot : SlotIndex)
  | reset
  deriving DecidableEq, Repr

namespace SlotInventory

/-- The inventory after a call that may be refused; a refused call changes nothing. -/
def settled (inv : SlotInventory) : Except CapacityError SlotInventory → SlotInventory
  | .ok inv' => inv'
  | .error _ => inv

def change (inv : SlotInventory) : Change → SlotInventory
  | .tryAllocate slot request => inv.settled (inv.tryAllocate slot request)
  | .release slot request => inv.settled (inv.release slot request)
  | .addSlot capacity => (inv.addSlot capacity).1
  | .pushSlot capacity => (inv.pushSlot capacity).1
  | .setCapacity slot capacity => inv.settled (inv.setCapacity slot capacity)
  | .clearAllocation slot => inv.settled (inv.clearAllocation slot)
  | .reset => inv.reset

def after (inv : SlotInventory) (changes : List Change) : SlotInventory :=
  changes.foldl change inv

inductive Built : SlotInventory → Prop where
  | fromUniform (count : Nat) (capacity : Capacity) : Built (fromUniform count capacity)
  | fromCapacities (capacities : List Capacity) : Built (fromCapacities capacities)

/-- The pre-check answers what it stands for, at every request. -/
def ChecksExactly (inv : SlotInventory) : Prop :=
  ∀ request, inv.canEverFit request = true ↔
    ∃ s ∈ inv.slots, request.fitsWithin s.capacity = true

/-- The cached maximum is at least every declared capacity. -/
def Covers (inv : SlotInventory) : Prop :=
  ∀ s ∈ inv.slots, s.capacity.fitsWithin inv.maxCapacity = true

/-- A new capacity for an existing slot is within the cached maximum. -/
def StaysCovered (inv : SlotInventory) : Change → Prop
  | .setCapacity slot capacity =>
    slot < inv.slots.length → capacity.fitsWithin inv.maxCapacity = true
  | _ => True

/-- The pre-check is exact as long as the cached maximum covers every slot, and only then: a slot
it does not cover is denied a request of its own size. -/
private theorem checksExactly_iff {inv : SlotInventory} : inv.ChecksExactly ↔ inv.Covers := by
  constructor
  · intro h s hs
    have hfit := (h s.capacity).mpr ⟨s, hs, Resources.fitsWithin_refl _⟩
    rw [canEverFit, Bool.and_eq_true] at hfit
    exact hfit.1
  · intro h request
    rw [canEverFit, Bool.and_eq_true, List.any_eq_true]
    constructor
    · rintro ⟨-, s, hs, hfit⟩
      exact ⟨s, hs, hfit⟩
    · rintro ⟨s, hs, hfit⟩
      exact ⟨Resources.fitsWithin_trans hfit (h s hs), s, hs, hfit⟩

private theorem change_setCapacity_of_lt {inv : SlotInventory} {slot : SlotIndex}
    (capacity : Capacity)
    (h : slot < inv.slots.length) : inv.change (.setCapacity slot capacity) =
      { inv with slots := inv.slots.set slot { inv.slots[slot] with capacity := capacity } } := by
  have hok : inv.setCapacity slot capacity = .ok { inv with
      slots := inv.slots.set slot { inv.slots[slot] with capacity := capacity } } :=
    updateSlot_eq_ok.mpr ⟨_, List.getElem?_eq_getElem h, rfl⟩
  change inv.settled (inv.setCapacity slot capacity) = _
  rw [hok]
  rfl

private theorem change_setCapacity_of_le {inv : SlotInventory} {slot : SlotIndex}
    (capacity : Capacity)
    (h : inv.slots.length ≤ slot) : inv.change (.setCapacity slot capacity) = inv := by
  have hnone : inv.slots[slot]? = none := List.getElem?_eq_none h
  change inv.settled (inv.updateSlot slot _) = inv
  unfold updateSlot
  rw [hnone]
  rfl

namespace Covers

variable {inv inv' : SlotInventory}

private theorem built (h : Built inv) : inv.Covers := by
  cases h with
  | fromUniform count capacity =>
    intro s hs
    rw [List.eq_of_mem_replicate hs]
    exact Resources.fitsWithin_refl _
  | fromCapacities capacities =>
    -- the fold dominates its start and everything it passed
    have hfold : ∀ (cs : List Capacity) (acc : Capacity),
        acc.fitsWithin (cs.foldl Resources.sup acc) = true ∧
          ∀ c ∈ cs, c.fitsWithin (cs.foldl Resources.sup acc) = true := by
      intro cs
      induction cs with
      | nil => exact fun acc => ⟨Resources.fitsWithin_refl acc, fun c hc => nomatch hc⟩
      | cons c cs ih =>
        intro acc
        obtain ⟨hacc, hcs⟩ := ih (acc.sup c)
        refine ⟨Resources.fitsWithin_trans (Resources.fitsWithin_sup_left acc c) hacc, ?_⟩
        intro d hd
        rcases List.mem_cons.mp hd with rfl | hd
        · exact Resources.fitsWithin_trans (Resources.fitsWithin_sup_right acc d) hacc
        · exact hcs d hd
    intro s hs
    obtain ⟨c, hc, rfl⟩ := List.mem_map.mp hs
    exact (hfold capacities Resources.zero).2 c hc

/-- Slots rewritten one by one stay covered if each new capacity is an old one or covered. -/
private theorem set (h : inv.Covers) {i : SlotIndex} {s : WorkerSlot}
    (hs : s.capacity.fitsWithin inv.maxCapacity = true) :
    Covers { inv with slots := inv.slots.set i s } := by
  intro t ht
  rcases List.mem_or_eq_of_mem_set ht with ht | rfl
  · exact h t ht
  · exact hs

private theorem updateSlot (h : inv.Covers) {i : SlotIndex} {f : WorkerSlot → WorkerSlot}
    (hf : ∀ s, (f s).capacity = s.capacity) : (inv.settled (inv.updateSlot i f)).Covers := by
  cases hu : inv.updateSlot i f with
  | error e => exact h
  | ok inv' =>
    obtain ⟨s, hs, rfl⟩ := updateSlot_eq_ok.mp hu
    apply h.set
    rw [hf]
    exact h s (List.mem_of_getElem? hs)

private theorem tryAllocate (h : inv.Covers) (i : SlotIndex) (request : ResourceRequest) :
    (inv.settled (inv.tryAllocate i request)).Covers := by
  cases ht : inv.tryAllocate i request with
  | error e => exact h
  | ok inv' =>
    obtain ⟨s, next, hs, -, -, rfl⟩ := tryAllocate_eq_ok.mp ht
    exact h.set (h s (List.mem_of_getElem? hs))

/-- A larger maximum covers the old slots and the capacity it was raised for. -/
private theorem raised (h : inv.Covers) (capacity : Capacity) :
    Covers { inv with maxCapacity := inv.maxCapacity.sup capacity } := fun s hs =>
  Resources.fitsWithin_trans (h s hs) (Resources.fitsWithin_sup_left _ _)

private theorem pushSlot (h : inv.Covers) (capacity : Capacity) :
    (inv.pushSlot capacity).1.Covers := by
  intro s hs
  rcases List.mem_append.mp hs with hs | hs
  · exact h.raised capacity s hs
  · rw [List.mem_singleton.mp hs]
    exact Resources.fitsWithin_sup_right _ _

private theorem addSlot (h : inv.Covers) (capacity : Capacity) :
    (inv.addSlot capacity).1.Covers := by
  unfold SlotInventory.addSlot
  split
  · exact (h.raised capacity).set (Resources.fitsWithin_sup_right _ _)
  · exact h.pushSlot capacity

private theorem change (h : inv.Covers) {c : Change} (hstays : inv.StaysCovered c) :
    (inv.change c).Covers := by
  cases c with
  | tryAllocate slot request => exact h.tryAllocate slot request
  | release slot request => exact h.updateSlot fun _ => rfl
  | addSlot capacity => exact h.addSlot capacity
  | pushSlot capacity => exact h.pushSlot capacity
  | clearAllocation slot => exact h.updateSlot fun _ => rfl
  | reset =>
    intro s hs
    obtain ⟨t, ht, rfl⟩ := List.mem_map.mp hs
    exact h t ht
  | setCapacity slot capacity =>
    rcases Nat.lt_or_ge slot inv.slots.length with hlt | hge
    · rw [change_setCapacity_of_lt capacity hlt]
      exact h.set (hstays hlt)
    · rw [change_setCapacity_of_le capacity hge]
      exact h

private theorem staysCovered {c : Change} (h : (inv.change c).Covers) : inv.StaysCovered c := by
  cases c with
  | setCapacity slot capacity =>
    intro hlt
    rw [change_setCapacity_of_lt capacity hlt] at h
    exact h { inv.slots[slot] with capacity := capacity } (List.mem_set hlt _)
  | tryAllocate slot request => trivial
  | release slot request => trivial
  | addSlot capacity => trivial
  | pushSlot capacity => trivial
  | clearAllocation slot => trivial
  | reset => trivial

end Covers

/-- The pre-check is exact at every moment of a sequence of calls exactly when every call that
declares a capacity stays within the maximum cached at that moment. -/
theorem precheck_exact_iff {inv : SlotInventory} (h : Built inv) (changes : List Change) :
    (∀ n, (inv.after (changes.take n)).ChecksExactly) ↔
      ∀ n c, changes[n]? = some c → (inv.after (changes.take n)).StaysCovered c := by
  have hnext : ∀ n c, changes[n]? = some c →
      inv.after (changes.take (n + 1)) = (inv.after (changes.take n)).change c := by
    intro n c hc
    rw [List.take_add_one, hc]
    exact List.foldl_append
  constructor
  · intro hall n c hc
    have hcovers := checksExactly_iff.mp (hall (n + 1))
    rw [hnext n c hc] at hcovers
    exact hcovers.staysCovered
  · intro hall n
    rw [checksExactly_iff]
    induction n with
    | zero => exact Covers.built h
    | succ n ih =>
      cases hc : changes[n]? with
      | none =>
        rw [List.take_add_one, hc, Option.toList_none, List.append_nil]
        exact ih
      | some c =>
        rw [hnext n c hc]
        exact ih.change (hall n c hc)

/-- A drained slot gets back a capacity the inventory has seen. -/
theorem precheck_exact_iff_sample :
    ((fromCapacities [⟨4, 8, 0⟩, ⟨8, 4, 0⟩]).after
      [.setCapacity 0 ⟨0, 0, 0⟩, .setCapacity 0 ⟨6, 8, 0⟩]).ChecksExactly :=
  (precheck_exact_iff (.fromCapacities [⟨4, 8, 0⟩, ⟨8, 4, 0⟩])
    [.setCapacity 0 ⟨0, 0, 0⟩, .setCapacity 0 ⟨6, 8, 0⟩]).mpr (by
      intro n c hc
      rcases n with _ | _ | n
      · cases hc
        exact fun _ => by decide
      · cases hc
        exact fun _ => by decide
      · simp at hc) 2

/-- A larger worker takes over a drained slot: its slot holds the request, the pre-check denies
it. -/
theorem larger_worker_denied :
    ((fromCapacities [⟨4, 8, 0⟩]).after
        [.setCapacity 0 ⟨0, 0, 0⟩, .setCapacity 0 ⟨8, 8, 0⟩]).canEverFit ⟨8, 8, 0⟩ = false ∧
      ((fromCapacities [⟨4, 8, 0⟩]).after
        [.setCapacity 0 ⟨0, 0, 0⟩, .setCapacity 0 ⟨8, 8, 0⟩]).slots
          = [⟨⟨8, 8, 0⟩, ⟨0, 0, 0⟩⟩] := by
  constructor <;> decide

end SlotInventory

end TaskerRT.Cluster
