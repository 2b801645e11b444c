/- module: TaskerRT/Policy/Seniority
   source: crates/tasker-core/src/domain/arena.rs, crates/tasker-core/src/policy/priority.rs
   digest: When the handle of an older job is the smaller one, so that ties go to the older job. -/

import TaskerRT.Domain.Handles
import TaskerRT.Policy.Priority

set_option autoImplicit false

namespace TaskerRT.Policy

open Library Domain

universe u

variable {α : Type u}

/-- What one access does to the list of live handles, oldest insertion first. -/
def age (order : List JobId) : Access JobId α → List JobId
  | .inserted id _ => order ++ [id]
  | .removed id (some _) => order.erase id
  | _ => order

/-- The live handles after a history, oldest insertion first. -/
def seniority (trace : List (Access JobId α)) : List JobId := trace.foldl age []

/-- An older handle is smaller, and at equal scores the older job ranks above the newer. -/
def OldestFirst (order : List JobId) : Prop :=
  order.Pairwise fun older newer => older.bits < newer.bits ∧
    ∀ score, (OrderKey.new score newer).lt (OrderKey.new score older) = true

/-- The slot the next insertion takes was used more often than the slot of any live handle, or as
often and lies behind it. A slot not used before was used zero times. -/
def NextIsLast (a : Arena α) : Prop :=
  match a.freeHead with
  | none => ∀ id v, a.get id = some v → id.generation = 0
  | some index => ∀ id v, a.get id = some v → ∀ g n,
      a.slots[index.val]? = some (.vacant g n) →
        id.generation < g ∨ (id.generation = g ∧ id.slot < index.val)

/-- An access whose insertion, if it is one, meets the condition. -/
def AgingStep (a : Arena α) (access : Access JobId α) (a' : Arena α) : Prop :=
  Arena.Does a access a' ∧ ∀ id v, access = .inserted id v → NextIsLast a

structure Lists (order : List JobId) (a : Arena α) : Prop where
  nodup : order.Nodup
  mem_iff : ∀ id, id ∈ order ↔ ∃ v, a.get id = some v

private theorem lists_new : Lists [] (Arena.new : Arena α) :=
  ⟨List.nodup_nil, fun id => by simp [Arena.get, Arena.new]⟩

private theorem Lists.does {order : List JobId} {a a' : Arena α} {access : Access JobId α}
    (h : Lists order a) (hdoes : Arena.Does a access a') : Lists (age order access) a' := by
  cases hdoes with
  | @inserted _ v id ok =>
    have hfresh : id ∉ order := fun hid => by
      obtain ⟨w, hw⟩ := (h.mem_iff id).mp hid
      rw [Arena.get_nextId (Arena.nextId_of_insert ok)] at hw
      cases hw
    refine ⟨List.nodup_append.mpr ⟨h.nodup, List.nodup_singleton id, ?_⟩, fun x => ?_⟩
    · intro x hx y hy
      rw [List.mem_singleton.mp hy]
      rintro rfl
      exact hfresh hx
    · rw [age, List.mem_append, List.mem_singleton, Arena.get_insert ok, h.mem_iff]
      by_cases hx : x = id
      · simp [hx]
      · simp [hx]
  | removed id =>
    rw [Arena.remove_snd]
    cases hget : a.get id with
    | none =>
      rw [Arena.remove_of_stale hget]
      exact h
    | some w =>
      refine ⟨h.nodup.erase id, fun x => ?_⟩
      rw [age, h.nodup.mem_erase_iff, h.mem_iff, Arena.get_remove]
      by_cases hx : x = id
      · simp [hx]
      · simp [hx]
  | read id => exact h
  | wrote id f =>
    refine ⟨h.nodup, fun x => ?_⟩
    change x ∈ order ↔ _
    rw [h.mem_iff, Arena.get_modify]
    split
    · rename_i hx
      subst hx
      simp
    · rfl

private theorem bits_lt_iff {x y : JobId} : x.bits < y.bits ↔
    x.generation < y.generation ∨ (x.generation = y.generation ∧ x.slot < y.slot) := by
  rw [Fin.lt_def, Fin.lt_def, Fin.ext_iff]
  simp only [JobId.generation, JobId.slot, JobId.index]
  omega

private theorem orderKey_lt_of_bits_lt {older newer : JobId} (h : older.bits < newer.bits)
    (score : Score) : (OrderKey.new score newer).lt (OrderKey.new score older) = true := by
  simp [OrderKey.lt, OrderKey.new, h]

/-- The condition is exact: it holds when the handle the insertion returns exceeds all live ones. -/
private theorem nextIsLast_iff {a a' : Arena α} {v : α} {id : JobId}
    (ok : a.insert v = some (a', id)) :
    NextIsLast a ↔ ∀ x w, a.get x = some w → x.bits < id.bits := by
  have hnext := Arena.nextId_of_insert ok
  unfold Arena.nextId at hnext
  unfold NextIsLast
  cases hhead : a.freeHead with
  | none =>
    rw [hhead] at hnext
    dsimp only at hnext ⊢
    split at hnext
    · obtain rfl := Option.some.inj hnext
      refine forall_congr' fun x => forall_congr' fun w => imp_congr_right fun hw => ?_
      have hlt := Arena.slot_lt_of_get hw
      rw [bits_lt_iff, JobId.generation_new, JobId.slot_new]
      constructor
      · exact fun hzero => Or.inr ⟨hzero, hlt⟩
      · rintro (hneg | ⟨hzero, -⟩)
        · exact absurd hneg (Fin.not_lt_zero _)
        · exact hzero
    · cases hnext
  | some index =>
    rw [hhead] at hnext
    dsimp only at hnext ⊢
    split at hnext
    · rename_i g n hslot
      obtain rfl := Option.some.inj hnext
      refine forall_congr' fun x => forall_congr' fun w => imp_congr_right fun hw => ?_
      rw [bits_lt_iff, JobId.generation_new, JobId.slot_new]
      constructor
      · exact fun h => h g n hslot
      · intro h g' n' hslot'
        rw [hslot] at hslot'
        cases hslot'
        exact h
    · cases hnext

private theorem OldestFirst.age {order : List JobId} {a a' : Arena α} {access : Access JobId α}
    (h : OldestFirst order) (hlists : Lists order a) (hstep : AgingStep a access a') :
    OldestFirst (age order access) := by
  obtain ⟨hdoes, hlast⟩ := hstep
  cases hdoes with
  | @inserted _ v id ok =>
    have hlarger := (nextIsLast_iff ok).mp (hlast id v rfl)
    refine List.pairwise_append.mpr ⟨h, List.pairwise_singleton _ _, ?_⟩
    intro x hx y hy
    rw [List.mem_singleton.mp hy]
    obtain ⟨w, hw⟩ := (hlists.mem_iff x).mp hx
    exact ⟨hlarger x w hw, orderKey_lt_of_bits_lt (hlarger x w hw)⟩
  | removed id =>
    cases (a.remove id).2 with
    | none => exact h
    | some w => exact h.sublist List.erase_sublist
  | read id => exact h
  | wrote id f => exact h

private theorem nextIsLast_of_oldestFirst {order : List JobId} {a a' : Arena α} {v : α} {id : JobId}
    (ok : a.insert v = some (a', id)) (hlists : Lists order a)
    (h : OldestFirst (order ++ [id])) : NextIsLast a := by
  rw [nextIsLast_iff ok]
  intro x w hw
  have hx := (hlists.mem_iff x).mpr ⟨w, hw⟩
  exact ((List.pairwise_append.mp h).2.2 x hx id List.mem_cons_self).1

private theorem oldestFirst_of_aging {a a' : Arena α} {trace : List (Access JobId α)}
    (hrun : Chain AgingStep a trace a') : ∀ {order : List JobId}, Lists order a →
      OldestFirst order → ∀ n, OldestFirst ((trace.take n).foldl age order) := by
  induction hrun with
  | nil a =>
    intro order _ hfirst n
    rw [List.take_nil]
    exact hfirst
  | cons head _ ih =>
    intro order hlists hfirst n
    cases n with
    | zero => exact hfirst
    | succ n => exact ih (hlists.does head.1) (hfirst.age hlists head) n

private theorem aging_of_oldestFirst {a a' : Arena α} {trace : List (Access JobId α)}
    (hrun : Chain Arena.Does a trace a') : ∀ {order : List JobId}, Lists order a →
      (∀ n, OldestFirst ((trace.take n).foldl age order)) → Chain AgingStep a trace a' := by
  induction hrun with
  | nil a => exact fun _ _ => .nil a
  | cons head _ ih =>
    intro order hlists hall
    refine .cons ⟨head, ?_⟩ (ih (hlists.does head) fun n => hall (n + 1))
    rintro id v rfl
    cases head with
    | inserted ok => exact nextIsLast_of_oldestFirst ok hlists (hall 1)

private theorem Lists.run {a a' : Arena α} {trace : List (Access JobId α)}
    (hrun : Chain Arena.Does a trace a') : ∀ {order : List JobId}, Lists order a →
      Lists (trace.foldl age order) a' := by
  induction hrun with
  | nil => exact id
  | cons head _ ih => exact fun h => ih (h.does head)

/-- In a history, older live jobs have the smaller handles and win ties at every moment exactly
when every insertion was made with no live handle ahead of the slot it takes. -/
theorem older_handles_smaller_iff {a : Arena α} {trace : List (Access JobId α)}
    (hrun : Chain Arena.Does Arena.new trace a) :
    (∀ id, id ∈ seniority trace ↔ ∃ v, a.get id = some v) ∧
      ((∀ n, OldestFirst (seniority (trace.take n))) ↔ Chain AgingStep Arena.new trace a) :=
  ⟨(Lists.run hrun lists_new).mem_iff, aging_of_oldestFirst hrun lists_new,
    fun haging => oldestFirst_of_aging haging lists_new List.Pairwise.nil⟩

/-- Two insertions into new slots are in order. -/
theorem older_handles_smaller_iff_sample :
    OldestFirst (seniority ([.inserted (JobId.new 0 0) 7, .inserted (JobId.new 1 0) 8] :
      List (Access JobId Nat))) := by
  have hfirst : Arena.Does (Arena.new : Arena Nat) (.inserted (JobId.new 0 0) 7)
      ⟨[.occupied 0 7], none, 1⟩ := .inserted (by decide)
  have hsecond : Arena.Does ⟨[.occupied 0 7], none, 1⟩ (.inserted (JobId.new 1 0) 8)
      ⟨[.occupied 0 7, .occupied 0 8], none, 2⟩ := .inserted (by decide)
  have haging : Chain AgingStep (Arena.new : Arena Nat)
      [.inserted (JobId.new 0 0) 7, .inserted (JobId.new 1 0) 8]
      ⟨[.occupied 0 7, .occupied 0 8], none, 2⟩ := by
    refine .cons ⟨hfirst, fun _ _ _ id v hget => ?_⟩
      (.single ⟨hsecond, fun _ _ _ id v hget => ?_⟩)
    · simp [Arena.get, Arena.new] at hget
    · rw [Arena.get_eq_some] at hget
      cases hslot : id.slot with
      | zero =>
        rw [hslot] at hget
        simp only [List.getElem?_cons_zero, Option.some.injEq, Slot.occupied.injEq] at hget
        exact hget.1.symm
      | succ i =>
        rw [hslot] at hget
        simp at hget
  exact (older_handles_smaller_iff (.cons hfirst (.single hsecond))).2.mpr haging 2

/-- A job in a reused slot is followed by one in a new slot: the newer job has the smaller handle
and wins the tie. -/
theorem reused_slot_outranked_by_newer :
    Chain Arena.Does (Arena.new : Arena Nat) [.inserted (JobId.new 0 0) 7,
        .removed (JobId.new 0 0) (some 7), .inserted (JobId.new 0 1) 8, .inserted (JobId.new 1 0) 9]
      ⟨[.occupied 1 8, .occupied 0 9], none, 2⟩ ∧
    seniority ([.inserted (JobId.new 0 0) 7, .removed (JobId.new 0 0) (some 7),
      .inserted (JobId.new 0 1) 8, .inserted (JobId.new 1 0) 9] : List (Access JobId Nat))
        = [JobId.new 0 1, JobId.new 1 0] ∧
    (JobId.new 1 0).bits < (JobId.new 0 1).bits ∧
    (OrderKey.new 5 (JobId.new 0 1)).lt (OrderKey.new 5 (JobId.new 1 0)) = true := by
  have hremoved : Arena.Does ⟨[.occupied 0 7], none, 1⟩
      (.removed (JobId.new 0 0) (some 7)) ⟨[.vacant 1 none], some 0, 0⟩ :=
    .removed ⟨[.occupied 0 7], none, 1⟩ (JobId.new 0 0)
  have hreused : Arena.Does ⟨[.vacant 1 none], some 0, 0⟩ (.inserted (JobId.new 0 1) 8)
      ⟨[.occupied 1 8], none, 1⟩ := .inserted (by decide)
  refine ⟨?_, by decide, by decide, by decide⟩
  exact .cons (.inserted (by decide)) (.cons hremoved (.cons hreused
    (.single (.inserted (by decide)))))

end TaskerRT.Policy
