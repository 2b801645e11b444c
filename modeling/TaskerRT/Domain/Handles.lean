/- module: TaskerRT/Domain/Handles
   source: crates/tasker-core/src/domain/arena.rs
   digest: The arena is a map with never-reused handles, and a restored arena is the one it was. -/

import TaskerRT.Domain.FreeList
import TaskerRT.Library.HandleMap

set_option autoImplicit false

namespace TaskerRT.Domain

open Library

universe u

namespace Arena

variable {α : Type u} {a a' : Arena α} {m m' : HandleMap JobId α} {access : Access JobId α}
  {trace : List (Access JobId α)} {id : JobId}

/-- The operations of an arena, each with any handle. An insertion that panics has no successor. -/
inductive Does : Arena α → Access JobId α → Arena α → Prop where
  | inserted {a a' : Arena α} {v : α} {id : JobId} (ok : a.insert v = some (a', id)) :
      Does a (.inserted id v) a'
  | removed (a : Arena α) (id : JobId) : Does a (.removed id (a.remove id).2) (a.remove id).1
  | read (a : Arena α) (id : JobId) : Does a (.read id (a.get id)) a
  | wrote (a : Arena α) (id : JobId) (f : α → α) : Does a (.wrote id f (a.get id)) (a.modify id f)

private theorem Does.wf (h : Does a access a') (hw : a.Wf) : a'.Wf := by
  cases h with
  | inserted ok => exact hw.insert ok
  | removed id => exact hw.remove id
  | read id => exact hw
  | wrote id f => exact hw.modify id f

def removes (i : Nat) : Access JobId α → Bool
  | .removed id (some _) => id.slot == i
  | _ => false

def retirements (m : HandleMap JobId α) (i : Nat) : Nat := m.retired.countP fun id => id.slot == i

/-- The arena and the map it stands for. A slot's generation counts its removals. -/
structure Tracks (a : Arena α) (m : HandleMap JobId α) : Prop where
  wf : a.Wf
  consistent : m.Consistent
  stored : ∀ id, a.get id = m.stored id
  issued : ∀ id, a.Issued id ↔ id ∈ m.issued
  generation : ∀ i s, a.slots[i]? = some s → s.generation.val = retirements m i

private theorem tracks_new : Tracks (new : Arena α) HandleMap.empty where
  wf := wf_new
  consistent := HandleMap.consistent_empty
  stored _ := rfl
  issued id := by simp [Issued, new, HandleMap.empty]
  generation i s hs := by simp [new] at hs

private theorem Tracks.retirements_of_length (h : Tracks a m) :
    retirements m a.slots.length = 0 := by
  rw [retirements, List.countP_eq_zero]
  intro x hx hslot
  have hissued := (h.issued x).mpr (h.consistent.retired_issued x hx)
  have hlast : x.slot = a.slots.length := by simpa using hslot
  rw [Issued, List.getElem?_eq_none hlast.ge] at hissued
  exact hissued

private theorem Tracks.inserted {v : α} (h : Tracks a m) (ok : a.insert v = some (a', id)) :
    ∃ m', HandleMap.Step m (.inserted id v) m' ∧ Tracks a' m' ∧
      ∀ i, retirements m' i = retirements m i := by
  have hnext := nextId_of_insert ok
  have hfresh : id ∉ m.issued := fun hid => not_issued_nextId hnext ((h.issued id).mpr hid)
  have hstep := HandleMap.Step.inserted (v := v) hfresh
  refine ⟨_, hstep, ⟨h.wf.insert ok, hstep.consistent h.consistent, fun x => ?_, fun x => ?_,
    fun i s hs => ?_⟩, fun _ => rfl⟩
  · dsimp only
    rw [get_insert ok]
    by_cases hx : x = id
    · rw [if_pos hx, hx, Function.update_self]
    · rw [if_neg hx, Function.update_of_ne hx, h.stored]
  · rw [List.mem_append, List.mem_singleton, ← h.issued]
    constructor
    · intro hx
      exact (eq_or_issued_of_insert ok hx).symm
    · rintro (hx | rfl)
      · exact issued_insert ok hx
      · have hget : a'.get x = some v := by rw [get_insert ok, if_pos rfl]
        exact issued_of_get hget
  · show s.generation.val = retirements m i
    rw [slots_insert ok] at hs
    split at hs
    · rename_i hi
      obtain rfl := Option.some.inj hs
      show id.generation.val = retirements m i
      rcases slot_of_nextId hnext with ⟨n, hvacant⟩ | ⟨hslot, hzero⟩
      · exact h.generation i _ (hi ▸ hvacant)
      · rw [hzero, hi, hslot, h.retirements_of_length]
        rfl
    · exact h.generation i s hs

private theorem issued_of_remove {x : JobId} (hwrap : id.generation ≠ Word.maxValue 32)
    (hx : (a.remove id).1.Issued x) : a.Issued x := by
  cases hget : a.get id with
  | none => rwa [remove_of_stale hget] at hx
  | some v =>
    rw [remove_of_get hget] at hx
    have hlt := slot_lt_of_get hget
    rw [get_eq_some] at hget
    unfold Issued at hx ⊢
    by_cases hs : x.slot = id.slot
    · rw [hs, List.getElem?_set_self hlt] at hx
      have hle : x.generation.val < (id.generation + 1).val := hx
      rw [Word.val_add_one hwrap] at hle
      rw [hs, hget]
      exact Nat.le_of_lt_succ hle
    · rwa [List.getElem?_set_ne (Ne.symm hs)] at hx

private theorem Tracks.removed {v : α} (h : Tracks a m) (hget : a.get id = some v)
    (hbound : retirements m id.slot + 1 < 2 ^ 32) :
    ∃ m', HandleMap.Step m (.removed id (some v)) m' ∧ Tracks (a.remove id).1 m' ∧
      ∀ i, retirements m' i = retirements m i + if id.slot == i then 1 else 0 := by
  have hslot := get_eq_some.mp hget
  have hgeneration : id.generation.val = retirements m id.slot := h.generation _ _ hslot
  have hwrap : id.generation ≠ Word.maxValue 32 := by
    intro he
    have hval := congrArg Fin.val he
    rw [Word.val_maxValue] at hval
    omega
  have hheld : m.stored id = some v := by rw [← h.stored, hget]
  have hstep := HandleMap.Step.removed hheld
  have hcount : ∀ i, retirements (⟨m.issued, m.retired ++ [id],
      Function.update m.stored id none⟩ : HandleMap JobId α) i =
        retirements m i + if id.slot == i then 1 else 0 := by
    intro i
    simp only [retirements, List.countP_append, List.countP_singleton]
  refine ⟨_, hstep, ⟨h.wf.remove id, hstep.consistent h.consistent, fun x => ?_, fun x => ?_,
    fun i s hs => ?_⟩, hcount⟩
  · dsimp only
    rw [get_remove]
    by_cases hx : x = id
    · rw [if_pos hx, hx, Function.update_self]
    · rw [if_neg hx, Function.update_of_ne hx, h.stored]
  · rw [← h.issued]
    refine ⟨fun hx => ?_, issued_remove hwrap⟩
    exact issued_of_remove hwrap hx
  · rw [hcount]
    rw [remove_of_get hget] at hs
    by_cases hi : id.slot = i
    · subst hi
      rw [List.getElem?_set_self (slot_lt_of_get hget)] at hs
      obtain rfl := Option.some.inj hs
      show (id.generation + 1).val = _
      rw [Word.val_add_one hwrap, hgeneration, beq_self_eq_true, if_pos rfl]
    · rw [List.getElem?_set_ne hi] at hs
      rw [h.generation i s hs, if_neg (by simpa using hi), Nat.add_zero]

/-- What one operation does to the map, as long as it does not wrap a generation. -/
private theorem Tracks.does (h : Tracks a m) (hdoes : Does a access a')
    (hbound : ∀ i, retirements m i + (if removes i access then 1 else 0) < 2 ^ 32) :
    ∃ m', HandleMap.Step m access m' ∧ Tracks a' m' ∧
      ∀ i, retirements m' i = retirements m i + if removes i access then 1 else 0 := by
  cases hdoes with
  | inserted ok => exact h.inserted ok
  | read id =>
    refine ⟨m, ?_, h, fun _ => rfl⟩
    rw [h.stored id]
    exact .read m id
  | removed id =>
    rw [remove_snd] at hbound ⊢
    cases hget : a.get id with
    | none =>
      rw [remove_of_stale hget]
      exact ⟨m, .missed (by rw [← h.stored, hget]), h, fun _ => rfl⟩
    | some v =>
      rw [hget] at hbound
      have hslot := hbound id.slot
      simp only [removes, beq_self_eq_true, if_true] at hslot
      exact h.removed hget hslot
  | wrote id f =>
    have hstep := HandleMap.Step.wrote m id f
    rw [h.stored id]
    refine ⟨_, hstep, ⟨h.wf.modify id f, hstep.consistent h.consistent, fun x => ?_, fun x => ?_,
      fun i s hs => ?_⟩, fun _ => rfl⟩
    · dsimp only
      rw [get_modify]
      by_cases hx : x = id
      · rw [if_pos hx, hx, Function.update_self, h.stored]
      · rw [if_neg hx, Function.update_of_ne hx, h.stored]
    · rw [issued_modify, h.issued]
    · show s.generation.val = retirements m i
      -- A write keeps the generation of every slot.
      have hshape := congrArg (fun slots => (slots[i]?).map Slot.generation) (shape_modify a id f)
      simp only [shape_getElem?, hs, Option.map_some, Option.map_map] at hshape
      obtain ⟨t, ht, hgeneration⟩ := Option.map_eq_some_iff.mp hshape.symm
      have hold := h.generation i t ht
      cases s <;> cases t <;> simp_all [Slot.map, Slot.generation]

private theorem Tracks.run (hrun : Chain Does a trace a') : ∀ {m : HandleMap JobId α}, Tracks a m →
    (∀ i, retirements m i + trace.countP (removes i) < 2 ^ 32) →
    ∃ m', Chain HandleMap.Step m trace m' ∧ Tracks a' m' := by
  induction hrun with
  | nil a => exact fun h _ => ⟨_, .nil _, h⟩
  | @cons a₁ a₂ a₃ access trace hdoes _ ih =>
    intro m h hbound
    simp only [List.countP_cons] at hbound
    obtain ⟨m₂, hstep, htracks, hcount⟩ := h.does hdoes fun i => by
      have := hbound i
      omega
    obtain ⟨m₃, hchain, hend⟩ := ih htracks fun i => by
      have := hbound i
      rw [hcount]
      omega
    exact ⟨m₃, .cons hstep hchain, hend⟩

private theorem length_iter (a : Arena α) :
    a.iter.length = a.slots.length - a.slots.countP Slot.isVacant := by
  have hentry : ∀ s : Slot α × Nat, (entry s.2 s.1).isSome = !s.1.isVacant := by
    rintro ⟨s, i⟩
    cases s <;> rfl
  have hcount : a.iter.length = a.slots.countP fun s => !s.isVacant := by
    unfold iter
    rw [List.length_filterMap_eq_countP]
    conv_rhs => rw [← List.zipIdx_map_fst 0 a.slots, List.countP_map]
    exact List.countP_congr fun s _ => by rw [hentry]; rfl
  have htotal := List.length_eq_countP_add_countP Slot.isVacant (l := a.slots)
  simp only [Bool.not_eq_true, Bool.decide_eq_false] at htotal
  omega

private theorem Wf.nextId_eq_none (h : a.Wf) (hnone : a.nextId = none) :
    a.freeHead = none ∧ a.slots.length = 2 ^ 32 := by
  obtain ⟨chain, hlinked, -⟩ := h.chained
  have hbound := h.bound
  unfold nextId at hnone
  cases hhead : a.freeHead with
  | some index =>
    rw [hhead] at hnone hlinked
    cases chain with
    | nil => cases hlinked
    | cons i chain =>
      obtain ⟨index', g, n, hindex, rfl, hs, -⟩ := hlinked
      obtain rfl := Option.some.inj hindex
      simp only [hs] at hnone
      cases hnone
  | none =>
    simp only [hhead] at hnone
    split at hnone
    · cases hnone
    · exact ⟨rfl, by omega⟩

/-- Following the free links visits every vacant slot once and nothing else, and ends. -/
def FreeChain (slots : List (Slot α)) (freeHead : Option (Word 32)) : Prop :=
  ∃ chain, Linked slots freeHead chain ∧ chain.Nodup ∧ ∀ i, i ∈ chain ↔ VacantAt slots i

private theorem Wf.freeChain (h : a.Wf) : FreeChain a.slots a.freeHead := by
  obtain ⟨chain, hlinked, hall⟩ := h.chained
  exact ⟨chain, hlinked, hlinked.nodup, fun i => ⟨hlinked.vacantAt i, hall i⟩⟩

/-- What a caller can observe of an arena, in terms of the map. -/
structure Represents (a : Arena α) (m : HandleMap JobId α) : Prop where
  fresh : ∀ v a' id, a.insert v = some (a', id) → a.nextId = some id ∧ id ∉ m.issued
  stored : ∀ id, a.get id = m.stored id
  held_iff : ∀ id, (∃ v, a.get id = some v) ↔ id ∈ m.issued ∧ id ∉ m.retired
  stale : ∀ id, id ∉ m.live → a.remove id = (a, none)
  len_eq : a.len = m.live.length
  iter_perm : (a.iter.map Prod.fst).Perm m.live
  iter_iff : ∀ id v, (id, v) ∈ a.iter ↔ m.stored id = some v
  free : FreeChain a.slots a.freeHead
  full : ∀ v, a.insert v = none → a.freeHead = none ∧ a.slots.length = 2 ^ 32

private theorem Tracks.represents (h : Tracks a m) : Represents a m := by
  have hperm : (a.iter.map Prod.fst).Perm m.live := by
    rw [List.perm_ext_iff_of_nodup (iter_nodup h.wf.bound) h.consistent.nodup_live]
    intro id
    rw [h.consistent.mem_live, List.mem_map]
    constructor
    · rintro ⟨⟨x, v⟩, hmem, rfl⟩
      exact ⟨v, by rw [← h.stored]; exact (mem_iter h.wf.bound).mp hmem⟩
    · intro ⟨v, hv⟩
      rw [← h.stored] at hv
      exact ⟨(id, v), (mem_iter h.wf.bound).mpr hv, rfl⟩
  refine ⟨fun v a' id ok => ?_, h.stored, fun id => ?_, fun id hid => ?_, ?_, hperm, fun id v => ?_,
    h.wf.freeChain, fun v hnone => ?_⟩
  · have hnext := nextId_of_insert ok
    exact ⟨hnext, fun hid => not_issued_nextId hnext ((h.issued id).mpr hid)⟩
  · rw [h.stored]
    exact h.consistent.held_iff id
  · apply remove_of_stale
    rw [h.consistent.mem_live, not_exists] at hid
    rw [h.stored]
    exact Option.eq_none_iff_forall_ne_some.mpr hid
  · rw [← hperm.length_eq, List.length_map, length_iter, h.wf.len_eq]
  · rw [mem_iter h.wf.bound, h.stored]
  · apply h.wf.nextId_eq_none
    cases hnext : a.nextId with
    | none => rfl
    | some id =>
      obtain ⟨a', ok⟩ := insert_of_nextId v hnext
      rw [hnone] at ok
      cases ok

/-- As long as no index is removed as often as there are generations, an arena behaves as a map
with handles of its own that are never handed out again. -/
theorem arena_refines_handle_map (hrun : Chain Does (new : Arena α) trace a)
    (hbound : ∀ i, trace.countP (removes i) < 2 ^ 32) :
    ∃ m, Chain HandleMap.Step HandleMap.empty trace m ∧ Represents a m := by
  obtain ⟨m, hchain, htracks⟩ := Tracks.run hrun tracks_new fun i => by
    have := hbound i
    simpa [retirements, HandleMap.empty] using this
  exact ⟨m, hchain, htracks.represents⟩

/-- A slot is used a second time: the new handle is another one, and the old one finds nothing. -/
theorem arena_refines_handle_map_sample :
    ∃ m : HandleMap JobId Nat, Represents ⟨[.occupied 1 8], none, 1⟩ m ∧
      JobId.new 0 1 ∈ m.issued ∧ m.stored (JobId.new 0 1) = some 8 ∧
      m.stored (JobId.new 0 0) = none := by
  have hrun : Chain Does (new : Arena Nat) [.inserted (JobId.new 0 0) 7,
      .removed (JobId.new 0 0) (some 7), .inserted (JobId.new 0 1) 8]
        ⟨[.occupied 1 8], none, 1⟩ :=
    .cons (.inserted (by decide)) (.cons (.removed ⟨[.occupied 0 7], none, 1⟩ (JobId.new 0 0))
      (.single (.inserted (by decide))))
  obtain ⟨m, -, hrep⟩ := arena_refines_handle_map hrun fun i => by
    have hle : ∀ trace : List (Access JobId Nat), trace.countP (removes i) ≤ trace.length :=
      fun trace => List.countP_le_length
    exact (hle _).trans_lt (by decide)
  refine ⟨m, hrep, ((hrep.held_iff (JobId.new 0 1)).mp ⟨8, by decide⟩).1, ?_, ?_⟩
  · rw [← hrep.stored]
    decide
  · rw [← hrep.stored]
    decide

/-- Past `vacant` links the walk stops by itself, whatever the bound on its rounds. -/
private theorem walkFree_stops (slots : List (Slot α)) (vacant : Nat) (more : Nat) :
    ∀ {fuel reachable : Nat} {head : Option (Word 32)}, vacant < fuel + reachable →
      walkFree slots vacant (fuel + more) head reachable =
        walkFree slots vacant fuel head reachable := by
  intro fuel
  induction fuel with
  | zero =>
    intro reachable head hfuel
    rw [Nat.zero_add]
    cases head with
    | none => cases more <;> rfl
    | some index =>
      cases more with
      | zero => rfl
      | succ more =>
        simp only [walkFree, if_neg (show ¬ reachable < vacant by omega)]
        split <;> rfl
  | succ fuel ih =>
    intro reachable head hfuel
    rw [Nat.succ_add]
    cases head with
    | none => rfl
    | some index =>
      simp only [walkFree]
      split
      · split
        · exact ih (by omega)
        · rfl
      · rfl

/-- The parts of an arena are accepted exactly when the free list is in order, the walk that decides
it needs no bound, and an arena is rebuilt as it was. -/
theorem fromParts_accepts_exactly (slots : List (Slot α)) (freeHead : Option (Word 32)) :
    ((∃ a, fromParts slots freeHead = .ok a) ↔ FreeChain slots freeHead) ∧
    (∀ more, walkFree slots (slots.countP Slot.isVacant)
        (slots.countP Slot.isVacant + 1 + more) freeHead 0 =
      walkFree slots (slots.countP Slot.isVacant) (slots.countP Slot.isVacant + 1) freeHead 0) ∧
    (∀ (trace : List (Access JobId α)) (a : Arena α), Chain Does new trace a → a.slots = slots →
      a.freeHead = freeHead → fromParts slots freeHead = .ok a) := by
  refine ⟨⟨?_, ?_⟩, fun more => walkFree_stops _ _ more (by omega), ?_⟩
  · rintro ⟨a, hok⟩
    obtain ⟨chain, hlinked, hall⟩ := chained_of_fromParts hok
    exact ⟨chain, hlinked, hlinked.nodup, fun i => ⟨hlinked.vacantAt i, hall i⟩⟩
  · rintro ⟨chain, hlinked, -, hall⟩
    exact ⟨_, fromParts_of_chained hlinked fun i hi => (hall i).mpr hi⟩
  · rintro trace a hrun rfl rfl
    have hwf : a.Wf := hrun.keeps (fun _ _ _ step hw => step.wf hw) wf_new
    exact hwf.fromParts_eq

/-- A vacant slot that links to itself is refused, and a removed job's slot is taken back. -/
theorem fromParts_accepts_exactly_sample :
    ¬ FreeChain ([.vacant 1 (some 0)] : List (Slot Nat)) (some 0) ∧
    fromParts ([.vacant 1 none] : List (Slot Nat)) (some 0) = .ok ⟨[.vacant 1 none], some 0, 0⟩ := by
  constructor
  · rw [← (fromParts_accepts_exactly _ _).1]
    rintro ⟨a, hok⟩
    cases (rfl : fromParts ([.vacant 1 (some 0)] : List (Slot Nat)) (some 0) =
      .error (.badFreeLink 0)).symm.trans hok
  · exact (fromParts_accepts_exactly _ _).2.2 [.inserted (JobId.new 0 0) 7,
      .removed (JobId.new 0 0) (some 7)] _
      (.cons (.inserted (by decide)) (.single (.removed ⟨[.occupied 0 7], none, 1⟩ (JobId.new 0 0))))
      rfl rfl

end Arena

end TaskerRT.Domain
