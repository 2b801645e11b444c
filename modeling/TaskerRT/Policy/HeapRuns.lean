/- module: TaskerRT/Policy/HeapRuns
   source: crates/tasker-core/src/policy/ready_set.rs
   digest: Over every run the priority heap is a map from jobs to scores, short of 2^32 entries. -/

import TaskerRT.Policy.StoredHeap

set_option autoImplicit false

namespace TaskerRT.Policy

open Library Domain RankedMap ReadyEntry

namespace Stored

namespace PriorityHeap

variable {h h' : PriorityHeap} {m : JobId → Option Score} {job : JobId}
  {query : Query JobId Score} {trace : List (Query JobId Score)}

/-- The operations of a heap. One that panics has no successor. -/
inductive Does : PriorityHeap → Query JobId Score → PriorityHeap → Prop where
  | push {h h' : PriorityHeap} {job : JobId} {score : Score} (ok : h.push job score = some h') :
      Does h (.push job score) h'
  | update {h h' : PriorityHeap} {job : JobId} {score : Score} {found : Bool}
      (ok : h.update job score = some (h', found)) : Does h (.update job score found) h'
  | remove {h h' : PriorityHeap} {job : JobId} {found : Bool}
      (ok : h.remove job = some (h', found)) : Does h (.remove job found) h'
  | popMax {h h' : PriorityHeap} {top : Option (JobId × Score)} (ok : h.popMax = some (h', top)) :
      Does h (.popMax top) h'
  | peekMax {h : PriorityHeap} {top : Option (JobId × Score)} (ok : h.peekMax = some top) :
      Does h (.peekMax top) h
  | contains (h : PriorityHeap) (job : JobId) : Does h (.contains job (h.contains job)) h
  | clear {h h' : PriorityHeap} (ok : h.clear = some h') : Does h .clear h'
  | reserveSlots (h : PriorityHeap) (slots : Nat) :
      Does h (.reserveSlots slots) (h.reserveSlots slots)

/-- A job is pushed only while no other job with its arena index is present. -/
def OnePerIndex (h : PriorityHeap) : Query JobId Score → Prop
  | .push job _ => ∀ y ∈ h.ids, y.slot = job.slot → y = job
  | _ => True

/-- A job that is not present is pushed only while fewer than `2 ^ 32 - 1` are. -/
def HasRoom (h : PriorityHeap) : Query JobId Score → Prop
  | .push job _ => job ∉ h.ids → h.len + 1 < 2 ^ 32
  | _ => True

def Serves (h : PriorityHeap) (query : Query JobId Score) (h' : PriorityHeap) : Prop :=
  Does h query h' ∧ h.OnePerIndex query

/-- An operation used as intended, on a heap with room. -/
def Uses (h : PriorityHeap) (query : Query JobId Score) (h' : PriorityHeap) : Prop :=
  Serves h query h' ∧ h.HasRoom query

structure Stands (h : PriorityHeap) (m : JobId → Option Score) : Prop where
  fits : h.Fits
  holds : h.view.Holds heapRank m

private theorem stands_new : Stands new fun _ => none where
  fits := ⟨IndexedHeap.wf_empty, by decide⟩
  holds := IndexedHeap.holds_of_nil rfl rfl fun _ => rfl

private theorem Stands.push (hs : Stands h m) (score : Score)
    (hrow : ∀ y ∈ h.ids, y.slot = job.slot → y = job) (hroom : job ∉ h.ids → h.len + 1 < 2 ^ 32) :
    ∃ g, h.push job score = some g ∧ Stands g (Function.update m job (some score)) := by
  obtain ⟨g, hg, hfits, hview⟩ := hs.fits.push score hrow hroom
  have hholds := hs.holds.push ranked_heapRank (s := score) hrow
  rw [← hview] at hholds
  exact ⟨g, hg, hfits, hholds⟩

private theorem Stands.update (hs : Stands h m) (job : JobId) (score : Score) :
    (m job = none ∧ h.update job score = some (h, false)) ∨
      (m job).isSome = true ∧ ∃ g, h.update job score = some (g, true) ∧
        Stands g (Function.update m job (some score)) := by
  obtain ⟨hnone, hsome⟩ := update_shows hs.fits job score
  cases hu : h.view.update job score with
  | none =>
    have habsent := (IndexedHeap.update_eq_none hs.fits.wf).mp hu
    rw [hs.holds.mem_ids] at habsent
    exact .inl ⟨by simpa using habsent, hnone hu⟩
  | some v =>
    obtain ⟨g, hg, rfl⟩ := hsome v hu
    obtain ⟨p, hp, hre⟩ := IndexedHeap.update_rearranges hs.fits.wf hu
    refine .inr ⟨hs.holds.mem_ids.mp (List.mem_of_getElem? hp), g, hg, ⟨hre.1, ?_⟩,
      hs.holds.update ranked_heapRank hu⟩
    exact lt_of_eq_of_lt hre.2.2 hs.fits.short

private theorem Stands.remove (hs : Stands h m) (job : JobId) :
    ∃ g, h.remove job = some (g, (m job).isSome) ∧ Stands g (Function.update m job none) := by
  obtain ⟨g, hg, hfits, hview⟩ := hs.fits.remove job
  obtain ⟨hholds, hfound⟩ := hs.holds.remove ranked_heapRank job
  rw [hfound] at hg
  rw [← hview] at hholds
  exact ⟨g, hg, hfits, hholds⟩

private theorem Stands.popMax (hs : Stands h m) :
    ∃ g top, h.popMax = some (g, top) ∧ IsTop heapRank m top ∧ Stands g (without m top) := by
  have htop := hs.holds.isTop
  obtain ⟨g, hg, hcases⟩ := popMax_shows hs.fits
  refine ⟨g, _, hg, htop, ?_⟩
  rcases hcases with ⟨hroot, rfl⟩ | ⟨job, score, hroot, hid, hview⟩
  · rw [hroot]
    exact hs
  · have hholds := hs.holds.removeAt ranked_heapRank hid
    rw [← hview] at hholds
    rw [hroot]
    refine ⟨⟨hholds.wf, ?_⟩, hholds⟩
    have hle : g.len ≤ h.len := len_le_of_subset hholds.wf fun y hy => by
      have hkept := hholds.mem_ids.mp hy
      rw [Function.update_apply] at hkept
      split at hkept
      · cases hkept
      · exact hs.holds.mem_ids.mpr hkept
    exact hle.trans_lt hs.fits.short

private theorem Stands.clear (hs : Stands h m) :
    ∃ g, h.clear = some g ∧ Stands g fun _ => none := by
  obtain ⟨g, hg, hids, hscores, hread⟩ := clear_shows hs.fits.wf
  have hholds : g.view.Holds heapRank fun _ => none :=
    IndexedHeap.holds_of_nil hids hscores hread
  refine ⟨g, hg, ⟨hholds.wf, ?_⟩, hholds⟩
  rw [len, hids]
  decide

private theorem Stands.reserveSlots (hs : Stands h m) (slots : Nat) : Stands
    (h.reserveSlots slots) m := by
  obtain ⟨hfits, hentries⟩ := reserveSlots_shows hs.fits slots
  refine ⟨hfits, hfits.wf, ⟨hs.holds.heaped.parallel, ?_⟩, fun x s => ?_⟩
  · unfold IndexedHeap.Ordered
    rw [hentries]
    exact hs.holds.heaped.ordered
  · rw [hentries]
    exact hs.holds.stored x s

private theorem Stands.contains (hs : Stands h m) (job : JobId) : h.contains job =
    (m job).isSome := by
  show (h.slotOf job).isSome = (m job).isSome
  rw [← slotOf_view, Bool.eq_iff_iff, ← hs.holds.mem_ids]
  cases hslot : h.view.slotOf job with
  | none => simpa using hs.fits.wf.slotOf_eq_none.mp hslot
  | some p => simpa using List.mem_of_getElem? (hs.fits.wf.slotOf_eq_some.mp hslot)

private theorem Stands.does (hs : Stands h m) (huse : Uses h query h') :
    ∃ m', Step heapRank m query m' ∧ Stands h' m' := by
  obtain ⟨⟨hdoes, hone⟩, hroom⟩ := huse
  cases hdoes with
  | @push _ job score ok =>
    obtain ⟨g, hg, hstands⟩ := hs.push score hone hroom
    obtain rfl := Option.some.inj (ok.symm.trans hg)
    exact ⟨_, .push m job score, hstands⟩
  | @update _ job score found ok =>
    rcases hs.update job score with ⟨habsent, hg⟩ | ⟨hpresent, g, hg, hstands⟩
    · obtain ⟨rfl, rfl⟩ := Prod.mk.inj (Option.some.inj (ok.symm.trans hg))
      exact ⟨m, .unknown score habsent, hs⟩
    · obtain ⟨rfl, rfl⟩ := Prod.mk.inj (Option.some.inj (ok.symm.trans hg))
      exact ⟨_, .updated score hpresent, hstands⟩
  | @remove _ job found ok =>
    obtain ⟨g, hg, hstands⟩ := hs.remove job
    obtain ⟨rfl, rfl⟩ := Prod.mk.inj (Option.some.inj (ok.symm.trans hg))
    exact ⟨_, .remove m job, hstands⟩
  | @popMax _ top ok =>
    obtain ⟨g, top', hg, htop, hstands⟩ := hs.popMax
    obtain ⟨rfl, rfl⟩ := Prod.mk.inj (Option.some.inj (ok.symm.trans hg))
    exact ⟨_, .popMax htop, hstands⟩
  | @peekMax top ok =>
    rw [peekMax_shows hs.fits] at ok
    obtain rfl := Option.some.inj ok
    exact ⟨m, .peekMax hs.holds.isTop, hs⟩
  | contains job =>
    rw [hs.contains job]
    exact ⟨m, .contains m job, hs⟩
  | clear ok =>
    obtain ⟨g, hg, hstands⟩ := hs.clear
    obtain rfl := Option.some.inj (ok.symm.trans hg)
    exact ⟨_, .clear m, hstands⟩
  | reserveSlots slots => exact ⟨m, .reserveSlots m slots, hs.reserveSlots slots⟩

private theorem Stands.run (hrun : Chain Uses h trace h') : ∀
    {m : JobId → Option Score}, Stands h m →
    ∃ m', Chain (Step heapRank) m trace m' ∧ Stands h' m' := by
  induction hrun with
  | nil => exact fun {m} hs => ⟨m, .nil m, hs⟩
  | cons head _ ih =>
    intro m hs
    obtain ⟨m₁, hstep, hs₁⟩ := hs.does head
    obtain ⟨m', hchain, hs'⟩ := ih hs₁
    exact ⟨m', .cons hstep hchain, hs'⟩

private theorem filed_of_slotOf {p : Nat} (hslot : h.slotOf job = some p) :
    ∃ position, h.positions[job.slot]? = some position ∧ position ≠ absent ∧ position.val = p := by
  unfold slotOf at hslot
  cases hread : h.positions[job.slot]? with
  | none =>
    rw [hread] at hslot
    cases hslot
  | some position =>
    simp only [hread] at hslot
    split at hslot
    · cases hslot
    · rename_i hne
      split at hslot
      · exact ⟨position, rfl, hne, Option.some.inj hslot⟩
      · cases hslot

/-- What the arrays look like when the heap stands for a map: no operation panics, the parallel
arrays hold the map's entries in heap order, and the position table is exact. -/
structure Represents (h : PriorityHeap) (m : JobId → Option Score) : Prop where
  stored : ∀ job score, (job, score) ∈ h.ids.zip h.scores ↔ m job = some score
  parallel : h.scores.length = h.ids.length
  ordered : ∀ q, 0 < q → ∀ d e, (h.ids.zip h.scores)[q]? = some d →
    (h.ids.zip h.scores)[(q - 1) / 2]? = some e → heapRank d ≤ heapRank e
  filed : ∀ p job, h.ids[p]? = some job →
    ∃ position, h.positions[job.slot]? = some position ∧ position ≠ absent ∧ position.val = p
  others : ∀ i position, h.positions[i]? = some position → (∀ job ∈ h.ids, job.slot ≠ i) →
    position = absent
  pushes : ∀ job score, h.OnePerIndex (.push job score) → h.HasRoom (.push job score) →
    ∃ h', h.push job score = some h'
  updates : ∀ job score, ∃ h' found, h.update job score = some (h', found)
  removes : ∀ job, ∃ h' found, h.remove job = some (h', found)
  pops : ∃ h' top, h.popMax = some (h', top)
  peeks : ∃ top, h.peekMax = some top
  clears : ∃ h', h.clear = some h'

private theorem Stands.represents (hs : Stands h m) : Represents h m where
  stored := hs.holds.stored
  parallel := hs.fits.wf.parallel
  ordered q hq d e hd he := by
    have hle : rankAt heapRank (h.ids.zip h.scores) q ≤
        rankAt heapRank (h.ids.zip h.scores) ((q - 1) / 2) := hs.holds.heaped.ordered q hq
    rw [rankAt_of_some hd, rankAt_of_some he] at hle
    exact WithBot.coe_le_coe.mp hle
  filed p job hp := by
    have hslot := (hs.fits.wf.slotOf_eq_some (x := job)).mpr hp
    rw [slotOf_view] at hslot
    exact filed_of_slotOf hslot
  others i position hi hfree := by
    by_contra hne
    have hread : Table.read none h.view.positions i = some position.val := by
      rw [read_view, Table.read, hi]
      exact if_neg hne
    obtain ⟨job, hjob, hrow⟩ := hs.fits.wf.stored i _ hread
    exact hfree job (List.mem_of_getElem? hjob) hrow
  pushes job score hone hroom := (hs.push score hone hroom).imp fun _ hg => hg.1
  updates job score := by
    rcases hs.update job score with ⟨-, hg⟩ | ⟨-, g, hg, -⟩
    · exact ⟨h, false, hg⟩
    · exact ⟨g, true, hg⟩
  removes job := (hs.remove job).imp fun _ hg => ⟨_, hg.1⟩
  pops := hs.popMax.imp fun _ hg => hg.imp fun _ ht => ht.1
  peeks := ⟨_, peekMax_shows hs.fits⟩
  clears := hs.clear.imp fun _ hg => hg.1

/-- Over every run the heap answers as the map does, its arrays are the map's, and neither sift
stops for want of fuel. -/
theorem heap_refines_priority_map (hrun : Chain Uses new trace h) :
    (∃ m, Chain (Step heapRank) (fun _ => none) trace m ∧ Represents h m) ∧
      (∀ (g : PriorityHeap) (p more : Nat), siftUp (p + more) g p = siftUp p g p) ∧
      ∀ (g : PriorityHeap) (p more : Nat),
        siftDown (g.len + more) g p = siftDown g.len g p := by
  obtain ⟨m, hchain, hs⟩ := Stands.run hrun stands_new
  refine ⟨⟨m, hchain, hs.represents⟩, fun g p more => ?_, fun g p more => ?_⟩
  · exact siftUp_stops more p g le_rfl
  · exact siftDown_stops more g.len g (Nat.le_add_right _ _)

theorem heap_refines_priority_map_sample : ∃ h m,
    Chain (Step heapRank) (fun _ => none) [.push (JobId.new 0 0) 5, .push (JobId.new 1 0) 7,
      .popMax (some (JobId.new 1 0, 7)), .contains (JobId.new 1 0) false] m ∧
    Represents h m ∧ h.ids = [JobId.new 0 0] := by
  have hfirst : Uses new (.push (JobId.new 0 0) 5) ⟨[5], [JobId.new 0 0], [0]⟩ :=
    ⟨⟨.push (by decide +kernel), fun y hy => by cases hy⟩, fun _ => by decide⟩
  have hsecond : Uses ⟨[5], [JobId.new 0 0], [0]⟩ (.push (JobId.new 1 0) 7)
      ⟨[7, 5], [JobId.new 1 0, JobId.new 0 0], [1, 0]⟩ := by
    refine ⟨⟨.push (by decide +kernel), fun y hy hslot => ?_⟩, fun _ => by decide⟩
    rw [List.mem_singleton.mp hy] at hslot
    exact absurd hslot (by decide)
  have hpop : Uses ⟨[7, 5], [JobId.new 1 0, JobId.new 0 0], [1, 0]⟩
      (.popMax (some (JobId.new 1 0, 7))) ⟨[5], [JobId.new 0 0], [0, absent]⟩ :=
    ⟨⟨.popMax (by decide +kernel), trivial⟩, trivial⟩
  have hask : Uses ⟨[5], [JobId.new 0 0], [0, absent]⟩ (.contains (JobId.new 1 0) false)
      ⟨[5], [JobId.new 0 0], [0, absent]⟩ :=
    ⟨⟨.contains _ _, trivial⟩, trivial⟩
  have hrun := Chain.cons hfirst (.cons hsecond (.cons hpop (.single hask)))
  obtain ⟨⟨m, hchain, hrep⟩, -⟩ := heap_refines_priority_map hrun
  exact ⟨_, m, hchain, hrep, rfl⟩

/-! The heap that holds every arena index. -/

def occupant (i : Nat) : JobId := JobId.new (Word.ofNat 32 i) 0

/-- The jobs at the first arena indices, pushed in order with one score. -/
def crowd (score : Score) (n : Nat) : PriorityHeap where
  scores := List.replicate n score
  ids := (List.range n).map occupant
  positions := (List.range n).map (Word.ofNat 32)

private theorem slot_occupant {i : Nat} (hi : i < 2 ^ 32) : (occupant i).slot = i := by
  rw [occupant, JobId.slot_new, Word.val_ofNat, Nat.mod_eq_of_lt hi]

private theorem bits_occupant {i : Nat} (hi : i < 2 ^ 32) : (occupant i).bits.val = i := by
  show 0 * 2 ^ 32 + (Word.ofNat 32 i).val = i
  rw [Word.val_ofNat, Nat.mod_eq_of_lt hi, Nat.zero_mul, Nat.zero_add]

private theorem keyAt_crowd {score : Score} {n p : Nat} (hp : p < n) :
    (crowd score n).keyAt p = some (OrderKey.new score (occupant p)) := by
  simp only [keyAt, crowd, List.getElem?_replicate, if_pos hp, List.getElem?_map,
    List.getElem?_range hp, Option.map_some]

private theorem siftUp_crowd (score : Score) {n : Nat} (hn : n < 2 ^ 32) :
    siftUp n (crowd score (n + 1)) n = some (crowd score (n + 1)) := by
  cases n with
  | zero => rfl
  | succ p =>
    have hparent : (p + 1 - 1) / 2 < p + 1 := by omega
    have hlt : (OrderKey.new score (occupant ((p + 1 - 1) / 2))).lt
        (OrderKey.new score (occupant (p + 1))) = false := by
      have hbits : (occupant ((p + 1 - 1) / 2)).bits ≤ (occupant (p + 1)).bits := by
        rw [Fin.le_def, bits_occupant hn, bits_occupant (hparent.trans hn)]
        omega
      simpa [OrderKey.lt, OrderKey.new] using hbits
    simp only [siftUp, Nat.succ_pos, if_true, keyAt_crowd (Nat.lt_succ_self (p + 1)),
      keyAt_crowd (hparent.trans (Nat.lt_succ_self (p + 1))), hlt]
    rfl

private theorem push_crowd (score : Score) {n : Nat} (hn : n < 2 ^ 32) :
    (crowd score n).push (occupant n) score = some (crowd score (n + 1)) := by
  have hlen : (crowd score n).positions.length = n := by
    simp only [crowd, List.length_map, List.length_range]
  have hslot : (crowd score n).slotOf (occupant n) = none := by
    have hread : (crowd score n).positions[(occupant n).slot]? = none := by
      rw [slot_occupant hn, List.getElem?_eq_none_iff, hlen]
    rw [slotOf, hread]
  have hupdate : (crowd score n).update (occupant n) score = some (crowd score n, false) := by
    rw [update, hslot]
  have hfile : file ⟨(crowd score n).scores ++ [score], (crowd score n).ids ++ [occupant n],
      (crowd score n).positions ++ [absent]⟩ n = some (crowd score (n + 1)) := by
    have hlast : ((crowd score n).ids ++ [occupant n])[n]? = some (occupant n) := by
      simp [crowd]
    have hword : (⟨n, hn⟩ : Word 32) = Word.ofNat 32 n := by
      apply Fin.ext
      exact (Nat.mod_eq_of_lt hn).symm
    simp only [file, hlast, dif_pos hn, setPosition, slot_occupant hn, List.length_append, hlen,
      List.length_singleton, Nat.lt_succ_self, if_true, Option.map_some, hword]
    simp [crowd, List.range_succ, List.replicate_succ', List.set_append_right]
  have hreserve : (crowd score n).reserveSlots ((occupant n).slot + 1) =
      { crowd score n with positions := (crowd score n).positions ++ [absent] } := by
    rw [reserveSlots, Table.reserve, hlen, slot_occupant hn, Nat.add_sub_cancel_left]
    rfl
  have hcount : (crowd score n).ids.length = n := by
    simp only [crowd, List.length_map, List.length_range]
  simp only [push, hupdate, hreserve, len, hcount, hfile, Option.bind_some]
  exact siftUp_crowd score hn

private theorem crowd_serves (score : Score) {n : Nat} (hn : n < 2 ^ 32) :
    Serves (crowd score n) (.push (occupant n) score) (crowd score (n + 1)) := by
  refine ⟨.push (push_crowd score hn), fun y hy hslot => ?_⟩
  obtain ⟨i, hi, rfl⟩ := List.mem_map.mp hy
  have hlt := List.mem_range.mp hi
  rw [slot_occupant (hlt.trans hn), slot_occupant hn] at hslot
  omega

private theorem crowd_run (score : Score) : ∀ {n : Nat}, n ≤ 2 ^ 32 →
    Chain Serves new ((List.range n).map fun i => .push (occupant i) score) (crowd score n) := by
  intro n
  induction n with
  | zero => exact fun _ => .nil new
  | succ n ih =>
    intro hn
    rw [List.range_succ, List.map_append]
    exact (ih (by omega)).snoc (crowd_serves score (by omega))

private theorem contains_crowd (score : Score) :
    (crowd score (2 ^ 32)).contains (occupant (2 ^ 32 - 1)) = false := by
  have hread : (crowd score (2 ^ 32)).positions[(occupant (2 ^ 32 - 1)).slot]? = some absent := by
    rw [slot_occupant (by omega), crowd, List.getElem?_map, List.getElem?_range (by omega),
      Option.map_some]
    exact congrArg some (Fin.ext (Nat.mod_eq_of_lt (by omega)))
  rw [contains, slotOf, hread]
  rfl

private theorem no_map_forgets {key : JobId} {score : Score} {m m' : JobId → Option Score}
    (hchain : Chain (Step heapRank) m (trace ++ [.push key score, .contains key false]) m') :
    False := by
  obtain ⟨m₁, -, hlast⟩ := hchain.split
  obtain ⟨m₂, hpush, htail⟩ := Chain.cons_iff.mp hlast
  obtain ⟨m₃, hcontains, -⟩ := Chain.cons_iff.mp htail
  cases hpush
  generalize hfound : false = found at hcontains
  cases hcontains
  simp at hfound

/-- With every arena index in use, `2 ^ 32` entries, the heap denies the job pushed last. -/
theorem full_heap_loses_job :
    ∃ trace h, Chain Serves new trace h ∧
      ∀ m, ¬ Chain (Step heapRank) (fun _ => none) trace m := by
  have hfull := crowd_run 0 (n := 2 ^ 32 - 1) (by omega)
  have hpush := crowd_serves 0 (n := 2 ^ 32 - 1) (by omega)
  have hask : Serves (crowd 0 (2 ^ 32)) (.contains (occupant (2 ^ 32 - 1)) false)
      (crowd 0 (2 ^ 32)) := by
    rw [← contains_crowd 0]
    exact ⟨.contains _ _, trivial⟩
  exact ⟨_, _, hfull.append (.cons hpush (.single hask)), fun m hchain => no_map_forgets hchain⟩

end PriorityHeap

end Stored

end TaskerRT.Policy
