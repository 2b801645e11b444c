/- module: TaskerRT/Policy/StoredHeap
   source: crates/tasker-core/src/policy/ready_set.rs
   digest: The priority heap with its positions as words, and the map it stands for. -/

import TaskerRT.Policy.ReadyOrder
import TaskerRT.Library.Chain
import TaskerRT.Library.HeapMap

set_option autoImplicit false

namespace TaskerRT.Policy

open Library Domain

namespace Stored

def absent : Word 32 := Word.maxValue 32

/-- Scores and ids in parallel arrays, and the position of each arena index as a word. Where an
operation below is `none`, the code panics. -/
structure PriorityHeap where
  scores : List Score
  ids : List JobId
  positions : List (Word 32)
  deriving DecidableEq, Repr

namespace PriorityHeap

def new : PriorityHeap := ⟨[], [], []⟩

/-- Grows the position table to cover `slots` arena indices. -/
def reserveSlots (h : PriorityHeap) (slots : Nat) : PriorityHeap :=
  { h with positions := Table.reserve absent slots h.positions }

/-- An empty heap preallocated for `slots` arena indices. -/
def withSlots (slots : Nat) : PriorityHeap := new.reserveSlots slots

def len (h : PriorityHeap) : Nat := h.ids.length

def isEmpty (h : PriorityHeap) : Bool := h.ids.isEmpty

def setPosition (positions : List (Word 32)) (i : Nat) (position : Word 32) :
    Option (List (Word 32)) :=
  if i < positions.length then some (positions.set i position) else none

def clearEach : List JobId → List (Word 32) → Option (List (Word 32))
  | [], positions => some positions
  | id :: ids, positions => (setPosition positions id.slot absent).bind (clearEach ids)

def clear (h : PriorityHeap) : Option PriorityHeap :=
  (clearEach h.ids h.positions).map fun positions => ⟨[], [], positions⟩

/-- Heap position of `job`, verifying that the stored id matches. -/
def slotOf (h : PriorityHeap) (job : JobId) : Option Nat :=
  match h.positions[job.slot]? with
  | none => none
  | some position =>
    if position = absent then none
    else if h.ids[position.val]? = some job then some position.val else none

def contains (h : PriorityHeap) (job : JobId) : Bool := (h.slotOf job).isSome

def keyAt (h : PriorityHeap) (position : Nat) : Option OrderKey :=
  match h.scores[position]?, h.ids[position]? with
  | some score, some id => some (OrderKey.new score id)
  | _, _ => none

/-- Notes where the id at a heap position is; a position that is no `u32` panics. -/
def file (h : PriorityHeap) (position : Nat) : Option PriorityHeap :=
  match h.ids[position]? with
  | none => none
  | some id =>
    if hlt : position < 2 ^ 32 then
      (setPosition h.positions id.slot ⟨position, hlt⟩).map fun positions => { h with positions }
    else none

/-- Swaps two heap positions and fixes both entries in the position table. -/
def swap (h : PriorityHeap) (a b : Nat) : Option PriorityHeap :=
  if a < h.scores.length ∧ b < h.scores.length ∧ a < h.ids.length ∧ b < h.ids.length then
    (file { h with scores := exchange h.scores a b, ids := exchange h.ids a b } a).bind (file · b)
  else none

/-- Moves an entry toward the root while it outranks its parent. -/
def siftUp : Nat → PriorityHeap → Nat → Option PriorityHeap
  | 0, h, _ => some h
  | fuel + 1, h, position =>
    if 0 < position then
      let parent := (position - 1) / 2
      match h.keyAt position, h.keyAt parent with
      | some key, some above =>
        if above.lt key then (h.swap position parent).bind fun h => siftUp fuel h parent
        else some h
      | _, _ => none
    else some h

/-- The better of the largest position so far and a child, which may not exist. -/
def larger (h : PriorityHeap) (child largest : Nat) : Option Nat :=
  if child < h.len then
    match h.keyAt child, h.keyAt largest with
    | some key, some best => some (if best.lt key then child else largest)
    | _, _ => none
  else some largest

/-- Moves an entry toward the leaves while a child outranks it. -/
def siftDown : Nat → PriorityHeap → Nat → Option PriorityHeap
  | 0, h, _ => some h
  | fuel + 1, h, position =>
    let left := position * 2 + 1
    let right := left + 1
    match (h.larger left position).bind (h.larger right) with
    | none => none
    | some largest =>
      if largest = position then some h
      else (h.swap position largest).bind fun h => siftDown fuel h largest

/-- Sets the score of `job`, restoring heap order. False if absent. -/
def update (h : PriorityHeap) (job : JobId) (score : Score) : Option (PriorityHeap × Bool) :=
  match h.slotOf job with
  | none => some (h, false)
  | some position =>
    match h.scores[position]? with
    | none => none
    | some previous =>
      let h := { h with scores := h.scores.set position score }
      if previous < score then (siftUp position h position).map (·, true)
      else if score < previous then (siftDown h.len h position).map (·, true)
      else some (h, true)

/-- Inserts `job` at `score`, or updates it if already present. -/
def push (h : PriorityHeap) (job : JobId) (score : Score) : Option PriorityHeap :=
  match h.update job score with
  | none => none
  | some (h, true) => some h
  | some (h, false) =>
    let h := h.reserveSlots (job.slot + 1)
    let position := h.len
    (file { h with scores := h.scores ++ [score], ids := h.ids ++ [job] } position).bind fun h =>
      siftUp position h position

def peekMax (h : PriorityHeap) : Option (Option (JobId × Score)) :=
  match h.ids[0]? with
  | none => some none
  | some job => (h.scores[0]?).map fun score => some (job, score)

/-- Removes the entry at a heap position by swapping in the last element. -/
def removeAt (h : PriorityHeap) (position : Nat) : Option PriorityHeap :=
  let last := h.len - 1
  match h.ids[position]? with
  | none => none
  | some id => (setPosition h.positions id.slot absent).bind fun positions =>
    if position = last then some ⟨h.scores.dropLast, h.ids.dropLast, positions⟩
    else if position < h.scores.length ∧ last < h.scores.length then
      (file ⟨(exchange h.scores position last).dropLast, (exchange h.ids position last).dropLast,
        positions⟩ position).bind fun h =>
          (siftDown h.len h position).bind fun h => siftUp position h position
    else none

def popMax (h : PriorityHeap) : Option (PriorityHeap × Option (JobId × Score)) :=
  match h.ids[0]? with
  | none => some (h, none)
  | some job =>
    match h.scores[0]? with
    | none => none
    | some score => (h.removeAt 0).map (·, some (job, score))

def remove (h : PriorityHeap) (job : JobId) : Option (PriorityHeap × Bool) :=
  match h.slotOf job with
  | none => some (h, false)
  | some position => (h.removeAt position).map (·, true)

/-! What the position table means. -/

def decode (position : Word 32) : Option Nat :=
  if position = absent then none else some position.val

@[simp] theorem decode_absent : decode absent = none := if_pos rfl

private theorem decode_of_lt {p : Nat} (hp : p + 1 < 2 ^ 32) (hlt : p < 2 ^ 32) :
    decode ⟨p, hlt⟩ = some p := by
  have hne : (⟨p, hlt⟩ : Word 32) ≠ absent := by
    intro he
    have hval : p = 2 ^ 32 - 1 := congrArg Fin.val he
    omega
  exact if_neg hne

def view (h : PriorityHeap) : IndexedHeap JobId Score :=
  ⟨h.scores, h.ids, h.positions.map decode⟩

@[simp] theorem scores_view (h : PriorityHeap) : h.view.scores = h.scores := rfl

@[simp] theorem ids_view (h : PriorityHeap) : h.view.ids = h.ids := rfl

theorem read_view (h : PriorityHeap) (i : Nat) :
    Table.read none h.view.positions i = decode (Table.read absent h.positions i) := by
  unfold Table.read view
  rw [List.getElem?_map]
  cases h.positions[i]? <;> simp

theorem slotOf_view (h : PriorityHeap) (job : JobId) : h.view.slotOf job = h.slotOf job := by
  have hread : Table.read none h.view.positions (h.view.row job) =
      decode (Table.read absent h.positions job.slot) := read_view h _
  unfold IndexedHeap.slotOf slotOf
  rw [hread, Table.read]
  cases h.positions[job.slot]? with
  | none => simp
  | some position =>
    by_cases hp : position = absent
    · subst hp
      simp
    · by_cases hx : h.ids[position.val]? = some job
      · simp [decode, hp, hx]
      · simp [decode, hp, hx]

/-! Each operation, seen through the view, is the one of the library: the words never reach the
sentinel as long as there are fewer entries than words. -/

/-- The heap is well formed, and its positions are all below the sentinel. -/
structure Fits (h : PriorityHeap) : Prop where
  wf : h.view.Wf
  short : h.len < 2 ^ 32

/-- A step that does not panic and is `v` once seen through the view. -/
def Shows (out : Option PriorityHeap) (v : IndexedHeap JobId Score) : Prop :=
  ∃ h, out = some h ∧ h.view = v

private theorem Shows.bind {out : Option PriorityHeap} {v w : IndexedHeap JobId Score}
    {next : PriorityHeap → Option PriorityHeap} (h : Shows out v)
    (hnext : ∀ g, g.view = v → Shows (next g) w) : Shows (out.bind next) w := by
  obtain ⟨g, rfl, hg⟩ := h
  exact hnext g hg

private theorem map_set_decode (positions : List (Word 32)) (i : Nat) (w : Word 32) :
    (positions.set i w).map decode = (positions.map decode).set i (decode w) :=
  List.map_set

private theorem file_shows {h : PriorityHeap} {p : Nat} {x : JobId} (hx : h.ids[p]? = some x)
    (hp : p + 1 < 2 ^ 32) (hrow : x.slot < h.positions.length) :
    Shows (h.file p) (h.view.file p) := by
  have hlt : p < 2 ^ 32 := by omega
  refine ⟨{ h with positions := h.positions.set x.slot ⟨p, hlt⟩ }, ?_, ?_⟩
  · simp only [file, hx, dif_pos hlt, setPosition, if_pos hrow, Option.map_some]
  · simp only [IndexedHeap.file, hx, view, map_set_decode, decode_of_lt hp hlt]
    rfl

private theorem length_positions_view (h : PriorityHeap) :
    h.view.positions.length = h.positions.length :=
  List.length_map _

private theorem row_lt {h : PriorityHeap} (hw : h.view.Wf) {p : Nat} {x : JobId}
    (hx : h.ids[p]? = some x) : x.slot < h.positions.length := by
  have hlt := hw.row_lt (p := p) (x := x) hx
  rwa [length_positions_view] at hlt

private theorem swap_shows {h : PriorityHeap} (hf : h.Fits) {a b : Nat} (ha : a < h.len)
    (hb : b < h.len) :
    Shows (h.swap a b) (h.view.swap a b) := by
  have hshort := hf.short
  unfold len at ha hb hshort
  have hpar : h.scores.length = h.ids.length := hf.wf.parallel
  obtain ⟨x, hx⟩ : ∃ x, h.ids[a]? = some x := ⟨_, List.getElem?_eq_getElem ha⟩
  obtain ⟨y, hy⟩ : ∃ y, h.ids[b]? = some y := ⟨_, List.getElem?_eq_getElem hb⟩
  have hids := getElem?_exchange ha hb
  have hatA : (exchange h.ids a b)[a]? = some y := by
    rw [hids]
    split
    · rename_i he
      rw [he, hy]
    · rw [if_pos rfl, hy]
  have hatB : (exchange h.ids a b)[b]? = some x := by rw [hids, if_pos rfl, hx]
  unfold swap
  rw [if_pos ⟨by omega, by omega, ha, hb⟩]
  have hfirst : Shows (file { h with scores := exchange h.scores a b, ids := exchange h.ids a b } a)
      _ := file_shows hatA (by omega) (row_lt hf.wf hy)
  obtain ⟨g, hg, hview⟩ := hfirst
  rw [hg, Option.bind_some]
  have hgids : g.ids = exchange h.ids a b := by
    rw [← ids_view, hview, IndexedHeap.ids_file]
    rfl
  have hglen : g.positions.length = h.positions.length := by
    rw [← length_positions_view, hview, IndexedHeap.length_positions_file, length_positions_view]
  have hsecond : Shows (g.file b) (g.view.file b) :=
    file_shows (hgids ▸ hatB) (by omega) (by rw [hglen]; exact row_lt hf.wf hx)
  rw [hview] at hsecond
  exact hsecond

private theorem Fits.of_view {h g : PriorityHeap} (hf : h.Fits) (hg : g.view.Rearranges h.view) :
    g.Fits :=
  ⟨hg.1, lt_of_eq_of_lt hg.2.2 hf.short⟩

private theorem keyAt_of_lt {h : PriorityHeap} (hw : h.view.Wf) {p : Nat} (hp : p < h.len) :
    ∃ key, h.keyAt p = some key := by
  obtain ⟨x, s, hx, hs⟩ := IndexedHeap.exists_entry (h := h.view) hw.parallel hp
  exact ⟨OrderKey.new s x, by simp only [keyAt, ← scores_view, ← ids_view, hx, hs]⟩

private theorem outranks_view {h : PriorityHeap} {a b : Nat} {ka kb : OrderKey}
    (ha : h.keyAt a = some ka) (hb : h.keyAt b = some kb) : h.view.outranks a b = kb.lt ka := by
  unfold keyAt at ha hb
  split at ha
  · rename_i s x hs hx
    obtain rfl := Option.some.inj ha
    split at hb
    · rename_i t y ht hy
      obtain rfl := Option.some.inj hb
      simp only [IndexedHeap.outranks, scores_view, ids_view, hs, hx, ht, hy]
      rfl
    · cases hb
  · cases ha

private theorem siftUp_shows (fuel : Nat) : ∀ {h : PriorityHeap} {p : Nat}, h.Fits → p < h.len →
    Shows (siftUp fuel h p) (IndexedHeap.siftUp fuel h.view p) := by
  induction fuel with
  | zero => exact fun {h p} _ _ => ⟨h, rfl, rfl⟩
  | succ fuel ih =>
    intro h p hf hp
    by_cases hpos : 0 < p
    · have hparent : (p - 1) / 2 < h.len := by omega
      obtain ⟨key, hkey⟩ := keyAt_of_lt hf.wf hp
      obtain ⟨above, habove⟩ := keyAt_of_lt hf.wf hparent
      have hout := outranks_view hkey habove
      simp only [siftUp, IndexedHeap.siftUp, if_pos hpos, hkey, habove, hout]
      split
      · refine (swap_shows hf hp hparent).bind fun g hg => ?_
        have hre := IndexedHeap.wf_swap (h := h.view) hf.wf hp hparent
        rw [← hg] at hre ⊢
        exact ih (hf.of_view hre) (lt_of_lt_of_eq hparent hre.2.2.symm)
      · exact ⟨h, rfl, rfl⟩
    · simp only [siftUp, IndexedHeap.siftUp, if_neg hpos]
      exact ⟨h, rfl, rfl⟩

private theorem larger_view {h : PriorityHeap} (hw : h.view.Wf) {child largest : Nat}
    (hlargest : largest < h.len) : h.larger child largest =
      some (if child < h.view.len ∧ h.view.outranks child largest then child else largest) := by
  unfold larger
  by_cases hchild : child < h.len
  · obtain ⟨key, hkey⟩ := keyAt_of_lt hw hchild
    obtain ⟨best, hbest⟩ := keyAt_of_lt hw hlargest
    have hlen : child < h.view.len := hchild
    simp only [if_pos hchild, hkey, hbest, outranks_view hkey hbest, hlen, true_and]
  · have hlen : ¬ child < h.view.len := hchild
    simp only [if_neg hchild, hlen, false_and, if_false]

private theorem largest_view {h : PriorityHeap} (hw : h.view.Wf) {p : Nat} (hp : p < h.len) :
    (h.larger (p * 2 + 1) p).bind (h.larger (p * 2 + 1 + 1)) = some (h.view.largest p) := by
  rw [larger_view hw hp, Option.bind_some, larger_view hw]
  · rfl
  · split
    · rename_i hleft
      exact hleft.1
    · exact hp

private theorem siftDown_shows (fuel : Nat) : ∀ {h : PriorityHeap} {p : Nat}, h.Fits → p < h.len →
    Shows (siftDown fuel h p) (IndexedHeap.siftDown fuel h.view p) := by
  induction fuel with
  | zero => exact fun {h p} _ _ => ⟨h, rfl, rfl⟩
  | succ fuel ih =>
    intro h p hf hp
    simp only [siftDown, IndexedHeap.siftDown, largest_view hf.wf hp]
    split
    · exact ⟨h, rfl, rfl⟩
    · have hnext : h.view.largest p < h.len := IndexedHeap.largest_lt (h := h.view) hp
      refine (swap_shows hf hp hnext).bind fun g hg => ?_
      have hre := IndexedHeap.wf_swap (h := h.view) hf.wf hp hnext
      rw [← hg] at hre ⊢
      exact ih (hf.of_view hre) (lt_of_lt_of_eq hnext hre.2.2.symm)

theorem update_shows {h : PriorityHeap} (hf : h.Fits) (job : JobId) (score : Score) :
    (h.view.update job score = none → h.update job score = some (h, false)) ∧
    ∀ v, h.view.update job score = some v →
      ∃ h', h.update job score = some (h', true) ∧ h'.view = v := by
  unfold update IndexedHeap.update
  rw [slotOf_view]
  cases hs : h.slotOf job with
  | none => exact ⟨fun _ => rfl, fun v hv => by cases hv⟩
  | some p =>
    rw [← slotOf_view, hf.wf.slotOf_eq_some] at hs
    have hp : p < h.len := (List.getElem?_eq_some_iff.mp hs).1
    obtain ⟨_, previous, -, hprev⟩ := IndexedHeap.exists_entry (h := h.view) hf.wf.parallel hp
    rw [scores_view] at hprev
    have hset : ({ h with scores := h.scores.set p score } : PriorityHeap).Fits :=
      ⟨⟨by simpa using hf.wf.parallel, hf.wf.filed, hf.wf.stored⟩, hf.short⟩
    simp only [scores_view, hprev]
    refine ⟨fun hnone => ?_, fun v hv => ?_⟩
    · split at hnone
      · cases hnone
      · split at hnone <;> cases hnone
    · split at hv
      · rename_i hlt
        obtain rfl := Option.some.inj hv
        obtain ⟨g, hg, hview⟩ := siftUp_shows p hset hp
        exact ⟨g, by rw [if_pos hlt, hg]; rfl, hview⟩
      · rename_i hnlt
        split at hv
        · rename_i hlt
          obtain rfl := Option.some.inj hv
          obtain ⟨g, hg, hview⟩ := siftDown_shows h.len hset hp
          exact ⟨g, by rw [if_neg hnlt, if_pos hlt]; exact congrArg (Option.map _) hg, hview⟩
        · rename_i hngt
          obtain rfl := Option.some.inj hv
          exact ⟨_, by rw [if_neg hnlt, if_neg hngt], rfl⟩

private theorem map_reserve_decode (slots : Nat) (positions : List (Word 32)) :
    (Table.reserve absent slots positions).map decode =
      Table.reserve none slots (positions.map decode) := by
  simp only [Table.reserve, List.map_append, List.map_replicate, decode_absent, List.length_map]

private theorem push_shows {h : PriorityHeap} (hf : h.Fits) {job : JobId} (score : Score)
    (hrow : ∀ y ∈ h.ids, y.slot = job.slot → y = job) (hroom : job ∉ h.ids → h.len + 1 < 2 ^ 32) :
    Shows (h.push job score) (h.view.push job score) := by
  obtain ⟨hnone, hsome⟩ := update_shows hf job score
  unfold push IndexedHeap.push
  cases hu : h.view.update job score with
  | some v =>
    obtain ⟨g, hg, hview⟩ := hsome v hu
    rw [hg]
    exact ⟨g, rfl, hview⟩
  | none =>
    have habsent : job ∉ h.ids := (IndexedHeap.update_eq_none hf.wf).mp hu
    have hshort := hroom habsent
    rw [hnone hu]
    have hgrown := IndexedHeap.wf_grown hf.wf score habsent hrow
    have hat : (h.ids ++ [job])[h.len]? = some job := by simp [len]
    have hfile := file_shows (h := ⟨h.scores ++ [score], h.ids ++ [job],
      Table.reserve absent (job.slot + 1) h.positions⟩) hat (by omega)
      (by rw [Table.length_reserve]; omega)
    have hview : (⟨h.scores ++ [score], h.ids ++ [job], Table.reserve absent (job.slot + 1)
        h.positions⟩ : PriorityHeap).view = ⟨h.view.scores ++ [score], h.view.ids ++ [job],
          Table.reserve none (h.view.row job + 1) h.view.positions⟩ := by
      simp only [view, map_reserve_decode]
      rfl
    rw [hview] at hfile
    dsimp only
    refine hfile.bind fun g hg => ?_
    have hwf : g.view.Wf := by
      rw [hg]
      exact hgrown
    have hlen : g.len = h.len + 1 := by
      have hids := congrArg IndexedHeap.ids hg
      rw [IndexedHeap.ids_file, ids_view] at hids
      simp [len, hids]
    have hup := siftUp_shows h.len (h := g) (p := h.len) ⟨hwf, by omega⟩ (by omega)
    rw [hg] at hup
    exact hup

private theorem dropLast_exchange {α : Type} {xs : List α} {p : Nat} (hp : p + 1 < xs.length) :
    (exchange xs p (xs.length - 1)).dropLast = swapRemove xs p := by
  apply List.ext_getElem?
  intro k
  rw [List.getElem?_dropLast, length_exchange, getElem?_swapRemove (by omega),
    getElem?_exchange (by omega) (by omega)]
  by_cases hk : k < xs.length - 1
  · have hend : k ≠ xs.length - 1 := by omega
    have hin : k + 1 < xs.length := by omega
    rw [if_pos hk, if_neg hend, if_pos hin]
  · have hout : ¬ k + 1 < xs.length := by omega
    rw [if_neg hk, if_neg hout]

private theorem removeAt_shows {h : PriorityHeap} (hf : h.Fits) {p : Nat} {x : JobId}
    (hx : h.ids[p]? = some x) : Shows (h.removeAt p) (h.view.removeAt p) := by
  have hrow := row_lt hf.wf hx
  have hlt : p < h.len := (List.getElem?_eq_some_iff.mp hx).1
  have hpar : h.scores.length = h.len := hf.wf.parallel
  have hshort := hf.short
  unfold removeAt IndexedHeap.removeAt
  simp only [ids_view, scores_view, hx, setPosition, if_pos hrow, Option.bind_some]
  by_cases hlast : p = h.len - 1
  · have hlast' : p = h.view.len - 1 := hlast
    rw [if_pos hlast, if_pos hlast']
    refine ⟨_, rfl, ?_⟩
    simp only [view, map_set_decode, decode_absent]
    rfl
  · have hlast' : p ≠ h.view.len - 1 := hlast
    rw [if_neg hlast, if_neg hlast', if_pos ⟨by omega, by omega⟩]
    have hscores : (exchange h.scores p (h.len - 1)).dropLast = swapRemove h.scores p := by
      rw [← hpar]
      exact dropLast_exchange (by omega)
    have hids : (exchange h.ids p (h.len - 1)).dropLast = swapRemove h.ids p :=
      dropLast_exchange (show p + 1 < h.len by omega)
    rw [hscores, hids]
    have hmoved : IndexedHeap.Wf (IndexedHeap.file ⟨swapRemove h.scores p, swapRemove h.ids p,
        h.view.positions.set (h.view.row x) none⟩ p) := IndexedHeap.wf_file_moved hf.wf hx hlast
    obtain ⟨l, hl⟩ : ∃ l, h.ids[h.len - 1]? = some l :=
      ⟨_, List.getElem?_eq_getElem (show h.len - 1 < h.len by omega)⟩
    have hat : (swapRemove h.ids p)[p]? = some l := by
      have hin : p + 1 < h.ids.length := show p + 1 < h.len by omega
      rw [getElem?_swapRemove hlt, if_pos hin, if_pos rfl]
      exact hl
    have hfile := file_shows (h := ⟨swapRemove h.scores p, swapRemove h.ids p,
      h.positions.set x.slot absent⟩) hat (by omega)
      (by rw [List.length_set]; exact row_lt hf.wf hl)
    have hview : (⟨swapRemove h.scores p, swapRemove h.ids p,
        h.positions.set x.slot absent⟩ : PriorityHeap).view = ⟨swapRemove h.scores p,
          swapRemove h.ids p, h.view.positions.set (h.view.row x) none⟩ := by
      simp only [view, map_set_decode, decode_absent]
      rfl
    rw [hview] at hfile
    refine hfile.bind fun g hg => ?_
    rw [← hg] at hmoved ⊢
    have hlen : g.len + 1 = h.len := by
      have hids := congrArg IndexedHeap.ids hg
      rw [IndexedHeap.ids_file, ids_view] at hids
      have hcut := length_swapRemove h.ids p
      unfold len at hlt ⊢
      rw [hids, hcut]
      omega
    have hfits : g.Fits := ⟨hmoved, by omega⟩
    have hp : p < g.len := by omega
    refine (siftDown_shows g.len hfits hp).bind fun g' hg' => ?_
    have hre := IndexedHeap.siftDown_rearranges g.len hmoved hp
    rw [← hg'] at hre
    have hup := siftUp_shows p (hfits.of_view hre) (lt_of_lt_of_eq hp hre.2.2.symm)
    rw [hg'] at hup
    exact hup

private theorem remove_shows {h : PriorityHeap} (hf : h.Fits) (job : JobId) :
    ∃ h', h.remove job = some (h', (h.view.remove job).2) ∧ h'.view = (h.view.remove job).1 := by
  unfold remove IndexedHeap.remove
  rw [slotOf_view]
  cases hs : h.slotOf job with
  | none => exact ⟨h, rfl, rfl⟩
  | some p =>
    rw [← slotOf_view, hf.wf.slotOf_eq_some] at hs
    obtain ⟨g, hg, hview⟩ := removeAt_shows hf hs
    exact ⟨g, congrArg (Option.map (·, true)) hg, hview⟩

private theorem entries_zero {h : PriorityHeap} {job : JobId} {score : Score}
    (hid : h.ids[0]? = some job)
    (hs : h.scores[0]? = some score) : h.view.entries[0]? = some (job, score) :=
  IndexedHeap.getElem?_entries hid hs

private theorem entries_of_nil {h : PriorityHeap} (hid : h.ids[0]? = none) :
    h.view.entries[0]? = none := by
  have hnil : h.ids = [] := by
    rw [List.getElem?_eq_none_iff] at hid
    exact List.length_eq_zero_iff.mp (by omega)
  rw [IndexedHeap.entries, ids_view, hnil]
  rfl

theorem peekMax_shows {h : PriorityHeap} (hf : h.Fits) : h.peekMax = some h.view.entries[0]? := by
  unfold peekMax
  cases hid : h.ids[0]? with
  | none => rw [entries_of_nil hid]
  | some job =>
    have hlt : 0 < h.len := (List.getElem?_eq_some_iff.mp hid).1
    obtain ⟨_, score, -, hs⟩ := IndexedHeap.exists_entry (h := h.view) hf.wf.parallel hlt
    rw [scores_view] at hs
    rw [entries_zero hid hs, hs]
    rfl

theorem popMax_shows {h : PriorityHeap} (hf : h.Fits) :
    ∃ h', h.popMax = some (h', h.view.entries[0]?) ∧
      ((h.view.entries[0]? = none ∧ h' = h) ∨
        ∃ job score, h.view.entries[0]? = some (job, score) ∧ h.ids[0]? = some job ∧
          h'.view = h.view.removeAt 0) := by
  unfold popMax
  cases hid : h.ids[0]? with
  | none =>
    rw [entries_of_nil hid]
    exact ⟨h, rfl, .inl ⟨rfl, rfl⟩⟩
  | some job =>
    have hlt : 0 < h.len := (List.getElem?_eq_some_iff.mp hid).1
    obtain ⟨_, score, -, hs⟩ := IndexedHeap.exists_entry (h := h.view) hf.wf.parallel hlt
    rw [scores_view] at hs
    obtain ⟨g, hg, hview⟩ := removeAt_shows hf hid
    rw [entries_zero hid hs, hs]
    exact ⟨g, by rw [hg]; rfl, .inr ⟨job, score, rfl, rfl, hview⟩⟩

theorem len_le_of_subset {g : PriorityHeap} {ids : List JobId} (hw : g.view.Wf)
    (hsub : ∀ y ∈ g.ids, y ∈ ids) : g.len ≤ ids.length :=
  (List.subperm_of_subset hw.nodup hsub).length_le

theorem Fits.push {h : PriorityHeap} (hf : h.Fits) {job : JobId} (score : Score)
    (hrow : ∀ y ∈ h.ids, y.slot = job.slot → y = job) (hroom : job ∉ h.ids → h.len + 1 < 2 ^ 32) :
    ∃ g, h.push job score = some g ∧ g.Fits ∧ g.view = h.view.push job score := by
  obtain ⟨g, hg, hview⟩ := push_shows hf score hrow hroom
  obtain ⟨hw, hmem, -⟩ := IndexedHeap.push_spec hf.wf job score hrow
  rw [← hview] at hw hmem
  refine ⟨g, hg, ⟨hw, ?_⟩, hview⟩
  have hshort := hf.short
  by_cases hjob : job ∈ h.ids
  · have hle : g.len ≤ h.len := len_le_of_subset hw fun y hy => by
      rcases (hmem y).mp hy with rfl | hy
      · exact hjob
      · exact hy
    omega
  · have hle : g.len ≤ (job :: h.ids).length := len_le_of_subset hw fun y hy =>
      List.mem_cons.mpr ((hmem y).mp hy)
    have hnew := hroom hjob
    rw [List.length_cons] at hle
    unfold len at hnew hle ⊢
    omega

theorem Fits.remove {h : PriorityHeap} (hf : h.Fits) (job : JobId) :
    ∃ g, h.remove job = some (g, (h.view.remove job).2) ∧ g.Fits ∧
      g.view = (h.view.remove job).1 := by
  obtain ⟨g, hg, hview⟩ := remove_shows hf job
  obtain ⟨hw, hmem⟩ := IndexedHeap.remove_spec hf.wf job
  rw [← hview] at hw hmem
  have hle : g.len ≤ h.len := len_le_of_subset hw fun y hy => ((hmem y).mp hy).1
  exact ⟨g, hg, ⟨hw, hle.trans_lt hf.short⟩, hview⟩

/-- A pop finds nothing, or takes out the entry that the view's pop takes out. -/
theorem Fits.popMax {h : PriorityHeap} (hf : h.Fits) :
    (h.view.popMax = none ∧ h.popMax = some (h, none)) ∨
      ∃ e g, h.view.popMax = some (e, g.view) ∧ h.popMax = some (g, some e) ∧ g.Fits := by
  obtain ⟨g, hg, ⟨hroot, rfl⟩ | ⟨job, score, hroot, hid, hview⟩⟩ := popMax_shows hf
  · rw [hroot] at hg
    refine .inl ⟨?_, hg⟩
    have hempty : g.view.ids[0]? = none := by
      rw [IndexedHeap.ids_eq_map_entries hf.wf.parallel, List.getElem?_map, hroot]
      rfl
    simp only [IndexedHeap.popMax, hempty]
  · rw [hroot] at hg
    obtain ⟨_, score', -, hscore⟩ := IndexedHeap.exists_entry (h := h.view) hf.wf.parallel
      (List.getElem?_eq_some_iff.mp hid).1
    rw [scores_view] at hscore
    obtain rfl := (Prod.mk.inj (Option.some.inj (hroot.symm.trans (entries_zero hid hscore)))).2
    have hpop : h.view.popMax = some ((job, score), g.view) := by
      simp only [IndexedHeap.popMax, ids_view, scores_view, hid, hscore, hview]
    obtain ⟨hw, hperm⟩ := IndexedHeap.popMax_spec hf.wf hpop
    have hlen := (hperm.map Prod.fst).length_eq
    rw [List.map_cons, List.length_cons, ← IndexedHeap.ids_eq_map_entries hw.parallel,
      ← IndexedHeap.ids_eq_map_entries hf.wf.parallel, ids_view, ids_view] at hlen
    have hshort := hf.short
    refine .inr ⟨(job, score), g, hpop, hg, hw, ?_⟩
    unfold len at hshort ⊢
    omega

private theorem clearEach_spec (ids : List JobId) : ∀ {positions : List (Word 32)},
    (∀ id ∈ ids, id.slot < positions.length) → ∃ cleared, clearEach ids positions = some cleared ∧
      ∀ i, Table.read absent cleared i =
        if i ∈ ids.map JobId.slot then absent else Table.read absent positions i := by
  induction ids with
  | nil => exact fun {positions} _ => ⟨positions, rfl, fun i => rfl⟩
  | cons id ids ih =>
    intro positions hlt
    have hid : id.slot < positions.length := hlt id List.mem_cons_self
    obtain ⟨cleared, hok, hread⟩ := @ih (positions.set id.slot absent) fun x hx => by
      rw [List.length_set]
      exact hlt x (List.mem_cons_of_mem _ hx)
    refine ⟨cleared, ?_, fun i => ?_⟩
    · rw [clearEach, setPosition, if_pos hid, Option.bind_some, hok]
    · rw [hread, Table.read_set _ _ _ _ _ hid, List.map_cons]
      by_cases hi : i = id.slot
      · simp [hi]
      · simp [hi]

theorem clear_shows {h : PriorityHeap} (hw : h.view.Wf) :
    ∃ h', h.clear = some h' ∧ h'.ids = [] ∧ h'.scores = [] ∧
      ∀ i, Table.read none h'.view.positions i = none := by
  obtain ⟨cleared, hok, hread⟩ := @clearEach_spec h.ids h.positions fun id hid => by
    obtain ⟨p, hp⟩ := List.getElem?_of_mem hid
    exact row_lt hw hp
  refine ⟨⟨[], [], cleared⟩, by rw [clear, hok]; rfl, rfl, rfl, fun i => ?_⟩
  rw [read_view, hread]
  split
  · exact decode_absent
  · rename_i hi
    -- Nothing is filed under an index that no id has.
    rw [← read_view, Option.eq_none_iff_forall_ne_some]
    intro p hp
    obtain ⟨x, hx, hrow⟩ := hw.stored i p hp
    exact hi (List.mem_map.mpr ⟨x, List.mem_of_getElem? hx, hrow⟩)

theorem reserveSlots_shows {h : PriorityHeap} (hf : h.Fits) (slots : Nat) :
    (h.reserveSlots slots).Fits ∧ (h.reserveSlots slots).view.entries = h.view.entries := by
  have hread (i : Nat) : Table.read none (h.reserveSlots slots).view.positions i =
      Table.read none h.view.positions i := by
    rw [read_view, read_view]
    exact congrArg decode (Table.read_reserve _ _ _ _)
  refine ⟨⟨⟨hf.wf.parallel, fun p x hx => ?_, fun i p hp => ?_⟩, hf.short⟩, rfl⟩
  · rw [hread]
    exact hf.wf.filed p x hx
  · rw [hread] at hp
    exact hf.wf.stored i p hp

/-! The sifts stop by themselves, whatever the bound on their rounds. -/

private theorem len_file {h g : PriorityHeap} {p : Nat} (hg : h.file p = some g) :
    g.len = h.len := by
  unfold file at hg
  split at hg
  · cases hg
  · split at hg
    · obtain ⟨positions, -, rfl⟩ := Option.map_eq_some_iff.mp hg
      rfl
    · cases hg

private theorem len_swap {h g : PriorityHeap} {a b : Nat} (hg : h.swap a b = some g) :
    g.len = h.len := by
  unfold swap at hg
  split at hg
  · obtain ⟨first, hfirst, hsecond⟩ := Option.bind_eq_some_iff.mp hg
    rw [len_file hsecond, len_file hfirst, len, length_exchange]
    rfl
  · cases hg

theorem siftUp_stops (more : Nat) : ∀ (fuel : Nat) (h : PriorityHeap) {p : Nat}, p ≤ fuel →
    siftUp (fuel + more) h p = siftUp fuel h p := by
  intro fuel
  induction fuel with
  | zero =>
    intro h p hp
    have hzero : ¬ 0 < p := by omega
    cases more with
    | zero => rfl
    | succ more => simp only [siftUp, if_neg hzero]
  | succ fuel ih =>
    intro h p hp
    rw [Nat.succ_add, siftUp, siftUp]
    by_cases hpos : 0 < p
    · rw [if_pos hpos, if_pos hpos]
      have hnext (g : PriorityHeap) : siftUp (fuel + more) g ((p - 1) / 2) =
          siftUp fuel g ((p - 1) / 2) := ih g (by omega)
      simp only [hnext]
    · rw [if_neg hpos, if_neg hpos]

private theorem larger_eq_some {h : PriorityHeap} {child largest next : Nat}
    (hn : h.larger child largest = some next) : next = largest ∨ next = child ∧ child < h.len := by
  unfold larger at hn
  split at hn
  · rename_i hlt
    split at hn
    · obtain rfl := Option.some.inj hn
      split
      · exact .inr ⟨rfl, hlt⟩
      · exact .inl rfl
    · cases hn
  · exact .inl (Option.some.inj hn).symm

/-- Another position than `p` that is picked as the largest is a child of it. -/
private theorem lt_of_largest {h : PriorityHeap} {p next : Nat} (hne : next ≠ p)
    (hn : (h.larger (p * 2 + 1) p).bind (h.larger (p * 2 + 1 + 1)) = some next) : p < next := by
  obtain ⟨first, hfirst, hsecond⟩ := Option.bind_eq_some_iff.mp hn
  rcases larger_eq_some hsecond with rfl | ⟨rfl, -⟩
  · rcases larger_eq_some hfirst with rfl | ⟨rfl, -⟩
    · exact absurd rfl hne
    · omega
  · omega

theorem siftDown_stops (more : Nat) : ∀ (fuel : Nat) (h : PriorityHeap) {p : Nat},
    h.len ≤ fuel + p → siftDown (fuel + more) h p = siftDown fuel h p := by
  intro fuel
  induction fuel with
  | zero =>
    intro h p hp
    have hleft : ¬ p * 2 + 1 < h.len := by omega
    have hright : ¬ p * 2 + 1 + 1 < h.len := by omega
    cases more with
    | zero => rfl
    | succ more =>
      simp only [siftDown, larger, if_neg hleft, Option.bind_some, if_neg hright, if_true]
  | succ fuel ih =>
    intro h p hp
    simp only [Nat.succ_add, siftDown]
    cases hn : (h.larger (p * 2 + 1) p).bind (h.larger (p * 2 + 1 + 1)) with
    | none => rfl
    | some next =>
      by_cases hsame : next = p
      · simp only [if_pos hsame]
      · have hlt := lt_of_largest hsame hn
        simp only [if_neg hsame]
        cases hg : h.swap p next with
        | none => rfl
        | some g =>
          have hlen := len_swap hg
          exact ih g (by omega)

end PriorityHeap

end Stored

end TaskerRT.Policy
