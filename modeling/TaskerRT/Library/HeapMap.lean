/- module: TaskerRT/Library/HeapMap
   source: none
   digest: An indexed heap in order is a map that can be asked for its greatest entry. -/

import TaskerRT.Library.HeapOrder
import TaskerRT.Library.RankedMap

set_option autoImplicit false

namespace TaskerRT.Library

open RankedMap

/-- Taking one entry out of a list with distinct keys leaves the entries with the other keys. -/
theorem mem_iff_of_cons_perm {ι σ : Type} {e : ι × σ} {xs ys : List (ι × σ)}
    (hp : (e :: xs).Perm ys) (hnd : (ys.map Prod.fst).Nodup) {d : ι × σ} :
    d ∈ xs ↔ d ∈ ys ∧ d.1 ≠ e.1 := by
  have hcons : ((e :: xs).map Prod.fst).Nodup := (hp.map Prod.fst).nodup_iff.mpr hnd
  rw [List.map_cons, List.nodup_cons] at hcons
  rw [← hp.mem_iff, List.mem_cons]
  constructor
  · intro hd
    exact ⟨.inr hd, fun hk => hcons.1 (hk ▸ List.mem_map_of_mem hd)⟩
  · rintro ⟨rfl | hd, hne⟩
    · exact absurd rfl hne
    · exact hd

namespace IndexedHeap

variable {ι σ κ : Type} [HeapKey ι σ] [LinearOrder κ]

/-- The heap is well formed and in order, and its entries are those of the map. -/
structure Holds (rank : ι × σ → κ) (h : IndexedHeap ι σ) (m : ι → Option σ) : Prop where
  wf : h.Wf
  heaped : h.Heaped rank
  stored : ∀ x s, (x, s) ∈ h.entries ↔ m x = some s

variable {rank : ι × σ → κ} {h h' : IndexedHeap ι σ} {m : ι → Option σ} {x : ι} {s : σ}

theorem holds_of_nil (hids : h.ids = []) (hscores : h.scores = [])
    (hclear : ∀ i, Table.read none h.positions i = none) : h.Holds rank fun _ => none := by
  have hentries : h.entries = [] := by rw [entries, hids, hscores]; rfl
  have hpar : h.scores.length = h.ids.length := by rw [hids, hscores]; rfl
  refine ⟨⟨hpar, fun p x hx => ?_, fun i p hp => ?_⟩, ⟨hpar, fun q _ => ?_⟩, fun x s => ?_⟩
  · rw [hids] at hx
    cases hx
  · rw [hclear] at hp
    cases hp
  · rw [hentries]
    exact le_rfl
  · rw [hentries]
    simp

namespace Holds

theorem nodup_keys (hh : h.Holds rank m) : (h.entries.map Prod.fst).Nodup := by
  rw [← ids_eq_map_entries hh.wf.parallel]
  exact hh.wf.nodup

theorem mem_ids (hh : h.Holds rank m) : x ∈ h.ids ↔ (m x).isSome = true := by
  rw [ids_eq_map_entries hh.wf.parallel, List.mem_map, Option.isSome_iff_exists]
  constructor
  · rintro ⟨⟨y, s⟩, hmem, rfl⟩
    exact ⟨s, (hh.stored y s).mp hmem⟩
  · rintro ⟨s, hs⟩
    exact ⟨(x, s), (hh.stored x s).mpr hs, rfl⟩

theorem isTop (hh : h.Holds rank m) : IsTop rank m h.entries[0]? := by
  cases hroot : h.entries[0]? with
  | none =>
    have hnil : h.entries = [] := by
      rw [List.getElem?_eq_none_iff] at hroot
      exact List.length_eq_zero_iff.mp (by omega)
    intro x
    rw [Option.eq_none_iff_forall_ne_some]
    intro s hs
    rw [← hh.stored, hnil] at hs
    cases hs
  | some e =>
    refine ⟨(hh.stored e.1 e.2).mp (List.mem_of_getElem? hroot), fun x s hs => ?_⟩
    obtain ⟨q, hq⟩ := List.getElem?_of_mem ((hh.stored x s).mpr hs)
    have hle := hh.heaped.ordered.le_root q
    rw [rankAt_of_some hq, rankAt_of_some hroot] at hle
    exact WithBot.coe_le_coe.mp hle

variable [LinearOrder σ] [DecidableEq ι]

theorem removeAt (hrank : Ranked rank) (hh : h.Holds rank m) {p : Nat}
    (hx : h.ids[p]? = some x) : (h.removeAt p).Holds rank (Function.update m x none) := by
  have hlt : p < h.len := (List.getElem?_eq_some_iff.mp hx).1
  obtain ⟨_, s, -, hs⟩ := exists_entry hh.wf.parallel hlt
  obtain ⟨hheaped, hperm⟩ := hh.heaped.removeAt hrank hx hs
  refine ⟨(removeAt_spec hh.wf hx hs).1, hheaped, fun y t => ?_⟩
  rw [mem_iff_of_cons_perm hperm hh.nodup_keys, hh.stored]
  by_cases hy : y = x
  · subst hy
    simp
  · simp [hy]

theorem remove (hrank : Ranked rank) (hh : h.Holds rank m) (x : ι) :
    (h.remove x).1.Holds rank (Function.update m x none) ∧
      (h.remove x).2 = (m x).isSome := by
  unfold IndexedHeap.remove
  cases hs : h.slotOf x with
  | none =>
    have habsent : m x = none := by
      rw [hh.wf.slotOf_eq_none, hh.mem_ids] at hs
      simpa using hs
    have hsame : Function.update m x none = m := by
      rw [← habsent]
      exact Function.update_eq_self x m
    rw [hsame, habsent]
    exact ⟨hh, rfl⟩
  | some p =>
    have hx := hh.wf.slotOf_eq_some.mp hs
    have hpresent := hh.mem_ids.mp (List.mem_of_getElem? hx)
    exact ⟨hh.removeAt hrank hx, hpresent.symm⟩

theorem update (hrank : Ranked rank) (hh : h.Holds rank m)
    (hu : h.update x s = some h') : h'.Holds rank (Function.update m x (some s)) := by
  obtain ⟨p, hx, hg⟩ := update_rearranges hh.wf hu
  have hlt : p < h.entries.length := by
    rw [length_entries hh.wf.parallel]
    exact (List.getElem?_eq_some_iff.mp hx).1
  have hkey : (h.entries[p]).1 = x := by
    obtain ⟨y, t, hy, ht⟩ := exists_entry hh.wf.parallel
      (show p < h.len from (List.getElem?_eq_some_iff.mp hx).1)
    rw [(List.getElem?_eq_some_iff.mp (getElem?_entries hy ht)).2]
    exact Option.some.inj (hy.symm.trans hx)
  have hperm : h'.entries.Perm ((x, s) :: swapRemove h.entries p) := by
    refine hg.2.1.trans ?_
    rw [entries_set_score hh.wf.parallel hx]
    exact set_perm hlt (x, s)
  refine ⟨hg.1, hh.heaped.update hrank hu, fun y t => ?_⟩
  rw [hperm.mem_iff, List.mem_cons,
    mem_iff_of_cons_perm (swapRemove_perm hlt) hh.nodup_keys, hh.stored, hkey, Prod.mk.injEq]
  by_cases hy : y = x
  · subst hy
    simp [eq_comm]
  · simp [hy]

theorem push (hrank : Ranked rank) (hh : h.Holds rank m)
    (hrow : ∀ y ∈ h.ids, h.row y = h.row x → y = x) :
    (h.push x s).Holds rank (Function.update m x (some s)) := by
  cases hu : h.update x s with
  | some h' =>
    have hpush : h.push x s = h' := by simp only [IndexedHeap.push, hu]
    rw [hpush]
    exact hh.update hrank hu
  | none =>
    have habsent := (update_eq_none hh.wf).mp hu
    obtain ⟨hw, -, hperm⟩ := push_spec hh.wf x s hrow
    refine ⟨hw, hh.heaped.push hrank x s, fun y t => ?_⟩
    rw [(hperm habsent).mem_iff, List.mem_cons, hh.stored, Prod.mk.injEq]
    by_cases hy : y = x
    · subst hy
      have hnone : m y = none := by simpa [hh.mem_ids] using habsent
      simp [hnone, eq_comm]
    · simp [hy]

end Holds

end IndexedHeap

end TaskerRT.Library
