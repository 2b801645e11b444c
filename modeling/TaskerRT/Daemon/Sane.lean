/- module: TaskerRT/Daemon/Sane
   source: crates/taskerd/src/engine.rs
   digest: As long as no generation wraps, whatever is bound or held is on a worker, once. -/

import TaskerRT.Daemon.Worked

set_option autoImplicit false

namespace TaskerRT.Daemon

open Library Domain Cluster Policy Scheduling Wal Book DependencyTracker

namespace Core

variable {config : CycleConfig} {c c₁ c' : Core} {id : JobId} {event : Event}

/-- Every job that is bound to a slot or held for a worker to claim. -/
def boundIds (c : Core) : List JobId := c.running.map (·.job) ++ c.reconciling

theorem running_split {r : RunningJob} (h : c.running.find? (·.job = id) = some r) :
    r.job = id ∧ (r :: swapRemove c.running (c.running.findIdx (·.job = id))).Perm c.running := by
  have hjob : r.job = id := by simpa using List.find?_some h
  exact ⟨hjob, swapRemove_findIdx_perm h⟩

theorem boundIds_unbinds (h : c.Unbinds id c₁) : (id :: c₁.boundIds).Perm c.boundIds := by
  rcases h with ⟨slot, heq⟩ | heq
  · cases hf : c.running.find? (·.job = id) with
    | none =>
      rw [release, hf] at heq
      exact nomatch (Prod.mk.inj heq).2
    | some r =>
      rw [release_found hf] at heq
      obtain rfl := (Prod.mk.inj heq).1
      obtain ⟨rfl, hperm⟩ := running_split hf
      exact (hperm.map (·.job)).append_right c.reconciling
  · obtain ⟨hmem, rfl⟩ := unhold_true heq
    have hlt := List.idxOf_lt_length_of_mem hmem
    have hperm := swapRemove_perm hlt
    rw [List.getElem_idxOf] at hperm
    exact List.perm_middle.symm.trans (hperm.append_left _)

private theorem not_mem_of_release (h : (c.release id).2 = none) : id ∉ c.running.map (·.job) := by
  intro hmem
  obtain ⟨r, hr, hjob⟩ := List.mem_map.mp hmem
  cases hf : c.running.find? (·.job = id) with
  | none => exact absurd hjob (by simpa using List.find?_eq_none.mp hf r hr)
  | some r' =>
    rw [release_found hf] at h
    exact nomatch h

private theorem not_mem_of_unhold (h : (c.unhold id).2 = false) : id ∉ c.reconciling := by
  intro hmem
  rw [unhold, if_pos hmem] at h
  exact nomatch h

theorem boundIds_unbind (hnd : c.boundIds.Nodup) (id : JobId) :
    (c.unbind id).boundIds.Perm (c.boundIds.erase id) := by
  have hgone : ∀ {c₁ : Core}, c.Unbinds id c₁ → c₁.boundIds.Perm (c.boundIds.erase id) ∧
      id ∉ c₁.boundIds := by
    intro c₁ h
    have hperm := boundIds_unbinds h
    exact ⟨(List.cons_perm_iff_perm_erase.mp hperm).2, (List.nodup_cons.mp (hperm.nodup_iff.mpr hnd)).1⟩
  cases hr : (c.release id).2 with
  | some slot =>
    obtain ⟨hperm, hnot⟩ := hgone (Or.inl ⟨slot, Prod.ext rfl hr⟩)
    have hheld : id ∉ (c.release id).1.reconciling := fun hmem =>
      hnot (List.mem_append_right _ hmem)
    rw [unbind, unhold, if_neg hheld]
    exact hperm
  | none =>
    rw [unbind, release_none hr]
    cases hu : (c.unhold id).2 with
    | true => exact (hgone (Or.inr (Prod.ext rfl hu))).1
    | false =>
      rw [unhold_false hu, List.erase_of_not_mem]
      exact fun hmem => (List.mem_append.mp hmem).elim (not_mem_of_release hr) (not_mem_of_unhold hu)

theorem boundIds_bind (c : Core) (id : JobId) (job : Job) (slot : SlotIndex) (now : VirtualTime) :
    (c.bind id job slot now).boundIds.Perm (id :: c.boundIds) := by
  unfold boundIds bind
  rw [List.map_append, List.append_assoc]
  exact List.perm_middle

theorem boundIds_rebound {r : RunningJob} (h : c.running.find? (·.job = id) = some r)
    (inventory : SlotInventory) (slot : SlotIndex) :
    ({ c with
      inventory := inventory
      running := c.running.set (c.running.findIdx (·.job = id)) { r with slot := slot }
      } : Core).boundIds = c.boundIds := by
  have hidx : c.running[c.running.findIdx (·.job = id)]? = some r := by
    rw [← List.find?_eq_getElem?_findIdx, h]
  obtain ⟨hlt, hget⟩ := List.getElem?_eq_some_iff.mp hidx
  unfold boundIds
  congr 1
  apply List.ext_getElem?
  intro k
  rw [List.getElem?_map, List.getElem?_map]
  by_cases hk : c.running.findIdx (·.job = id) = k
  · rw [← hk, List.getElem?_set_self hlt, hidx]
    rfl
  · rw [List.getElem?_set_ne hk]

theorem bindEach_cons {now : VirtualTime} {d : DispatchDecision} {ds : List DispatchDecision}
    {job : Job} (h : c.jobs.get d.job = some job) :
    c.bindEach now (d :: ds) = (c.bind d.job job d.slot now).bindEach now ds := by
  show List.foldl _ (Option.elim (c.jobs.get d.job) c _) ds = _
  rw [h]
  rfl

theorem boundIds_bindEach (now : VirtualTime) (ds : List DispatchDecision) : ∀ c : Core,
    (∀ d ∈ ds, ∃ job, c.jobs.get d.job = some job) →
      (c.bindEach now ds).boundIds.Perm (ds.map (·.job) ++ c.boundIds) := by
  induction ds with
  | nil => exact fun c _ => .refl _
  | cons d ds ih =>
    intro c hlive
    obtain ⟨job, hjob⟩ := hlive d List.mem_cons_self
    rw [bindEach_cons hjob]
    refine (ih (c.bind d.job job d.slot now) fun d' hd' =>
      hlive d' (List.mem_cons_of_mem _ hd')).trans ?_
    exact ((boundIds_bind c d.job job d.slot now).append_left _).trans List.perm_middle

structure Sane (c : Core) : Prop where
  roster : c.toRoster.Sane
  bound : ∀ id ∈ c.boundIds, Worked c.toRoster.book id
  nodup : c.boundIds.Nodup

private theorem Sane.shrink (h : Sane c) (hr : c'.toRoster = c.toRoster)
    (hsub : c'.boundIds.Subperm c.boundIds) : Sane c' := by
  refine ⟨hr ▸ h.roster, fun id hid => ?_, ?_⟩
  · rw [hr]
    exact h.bound id (hsub.subset hid)
  · obtain ⟨l, hperm, hsub⟩ := hsub
    exact hperm.nodup_iff.mp (h.nodup.sublist hsub)

private theorem Sane.act {act : Act} {r : Roster} (h : Sane c) (hd : c.toRoster.Does config act r)
    (hl : act.Legal c.toRoster) (hc : c'.toRoster = r) (hnd : c'.boundIds.Nodup)
    (hbound : ∀ x ∈ c'.boundIds, (x ∈ c.boundIds ∧ ∀ record ∈ act.records, frees x record = false) ∨
      Worked r.book x) : Sane c' := by
  subst hc
  refine ⟨h.roster.does hd hl, fun x hx => ?_, hnd⟩
  rcases hbound x hx with ⟨hmem, hfree⟩ | hw
  · exact (h.roster.worked hd hl hfree).mpr (Or.inl (h.bound x hmem))
  · exact hw

/-- Requeued in order, jobs that are on a worker once each leave it one by one. -/
theorem requeues_acts {now : VirtualTime} {wanted : Job → Bool} {r r' : Roster} {ids : List JobId}
    {acts : List Act} (h : Requeues config now wanted r ids acts r') :
    r.Sane → ids.Nodup → (∀ id ∈ ids, Worked r.book id) →
      Chain (Roster.Acts config) r acts r' ∧ ∀ x ∉ ids, (Worked r'.book x ↔ Worked r.book x) := by
  induction h with
  | nil r => exact fun _ _ _ => ⟨.nil r, fun _ _ => Iff.rfl⟩
  | @done r r₁ r₂ id job ids acts live want h rest ih =>
    intro hs hnd hw
    obtain ⟨hid, hnd⟩ := List.nodup_cons.mp hnd
    have hl : Act.Legal r (.requeued id now) := hw id List.mem_cons_self
    have hother : ∀ x, x ≠ id → (Worked r₁.book x ↔ Worked r.book x) := by
      intro x hx
      rw [hs.worked h hl (by simpa [Act.records, frees] using Ne.symm hx)]
      simp [Act.records, starts]
    obtain ⟨hacts, hrest⟩ := ih (hs.does h hl) hnd fun y hy =>
      (hother y fun he => hid (he ▸ hy)).mpr (hw y (List.mem_cons_of_mem _ hy))
    refine ⟨.cons ⟨h, hl⟩ hacts, fun x hx => ?_⟩
    obtain ⟨hx, hx'⟩ := not_or.mp (mt List.mem_cons.mpr hx)
    exact (hrest x hx').trans (hother x hx)
  | skipped no rest ih =>
    intro hs hnd hw
    obtain ⟨hacts, hrest⟩ := ih hs (List.nodup_cons.mp hnd).2 fun y hy =>
      hw y (List.mem_cons_of_mem _ hy)
    exact ⟨hacts, fun x hx => hrest x fun hmem => hx (List.mem_cons_of_mem _ hmem)⟩

theorem boundIds_split (c : Core) (slot : SlotIndex) :
    (c.boundTo slot ++ (c.unbindSlot slot).boundIds).Perm c.boundIds := by
  have hsplit : ((c.running.filter (·.slot = slot)) ++ c.running.filter (·.slot ≠ slot)).Perm
      c.running := by
    have := List.filter_append_perm (fun r : RunningJob => decide (r.slot = slot)) c.running
    simpa using this
  rw [boundIds, boundIds, boundTo, ← List.append_assoc, ← List.map_append]
  exact (hsplit.map _).append_right _

/-- Every act of an event is legal, as long as no forgotten handle is the last of its slot. -/
theorem Takes.acts (ht : c.Takes config event c') (h : Sane c)
    (hwrap : ∀ id, event = .acted (.forgotten id) → id.generation ≠ Word.maxValue 32) :
    Chain (Roster.Acts config) c.toRoster event.acts c'.toRoster := by
  -- Most events do one thing, which needs nothing.
  have hdoes := ht.does
  cases ht with
  | @acted act r hd free =>
    refine .single ⟨hd, ?_⟩
    cases act with
    | forgotten id => exact hwrap id rfl
    | requeued => cases free
    | _ => trivial
  | @ended c₁ act id r gone hd ends =>
    rw [gone.toRoster] at hd
    refine .single ⟨hd, ?_⟩
    cases act with
    | requeued x now =>
      rw [show x = id by simpa [Act.ends] using ends]
      exact h.bound id ((boundIds_unbinds gone).subset List.mem_cons_self)
    | forgotten => cases ends
    | _ => trivial
  | cancelled | cycled =>
    refine hdoes.imp fun s act s' hmem hd => ⟨hd, ?_⟩
    rw [List.mem_singleton.mp hmem]
    trivial
  | @left slot now acts r hq =>
    have hperm := boundIds_split c slot
    exact (requeues_acts hq h.roster (List.nodup_append.mp (hperm.nodup_iff.mpr h.nodup)).1
      fun x hx => h.bound x (hperm.subset (List.mem_append_left _ hx))).1
  | expired hq =>
    exact (requeues_acts hq h.roster (List.nodup_append.mp h.nodup).2.1
      fun x hx => h.bound x (List.mem_append_right _ hx)).1
  | _ => exact hdoes.imp fun s act s' hmem _ => absurd hmem List.not_mem_nil

theorem Sane.takes (h : Sane c) (ht : c.Takes config event c')
    (hwrap : ∀ id, event = .acted (.forgotten id) → id.generation ≠ Word.maxValue 32) :
    Sane c' := by
  have hacts := ht.acts h hwrap
  have hroster : c'.toRoster.Sane := (h.roster.chain hacts).1
  cases ht with
  | @acted act r hd free =>
    have hlegal : act.Legal c.toRoster := (Chain.cons_iff.mp hacts).choose_spec.1.2
    refine h.act hd hlegal rfl h.nodup fun x hx => Or.inl ⟨hx, fun record hrec => ?_⟩
    cases act with
    | submitted | preempted | forgotten =>
      rw [List.mem_singleton.mp hrec]
      rfl
    | dropped => cases hrec
    | _ => cases free
  | @ended c₁ act id r gone hd ends =>
    have hperm := boundIds_unbinds gone
    have hnd := hperm.nodup_iff.mpr h.nodup
    have hlegal : act.Legal c.toRoster := (Chain.cons_iff.mp hacts).choose_spec.1.2
    rw [gone.toRoster] at hd
    have hsame : (c₁.withRoster r).boundIds = c₁.boundIds := rfl
    refine h.act hd hlegal rfl (hsame ▸ (List.nodup_cons.mp hnd).2) fun x hx => Or.inl ?_
    rw [hsame] at hx
    refine ⟨hperm.subset (List.mem_cons_of_mem _ hx), fun record hrec => ?_⟩
    have hne : id ≠ x := fun he => (List.nodup_cons.mp hnd).1 (he ▸ hx)
    cases act with
    | completed y now | failed y now | requeued y now | evicted y now =>
      rw [List.mem_singleton.mp hrec]
      obtain rfl : y = id := by simpa [Act.ends] using ends
      simpa [frees] using hne
    | _ => cases ends
  | @cancelled id now r hd =>
    have hperm := boundIds_unbind h.nodup id
    rw [toRoster_unbind] at hd
    have hsame : ((c.unbind id).withRoster r).boundIds = (c.unbind id).boundIds := rfl
    refine h.act hd trivial rfl (hsame ▸ hperm.nodup_iff.mpr (h.nodup.erase id))
      fun x hx => Or.inl ?_
    rw [hsame] at hx
    obtain ⟨hne, hmem⟩ := (h.nodup.mem_erase_iff).mp (hperm.subset hx)
    refine ⟨hmem, fun record hrec => ?_⟩
    rw [List.mem_singleton.mp hrec]
    simpa [frees] using Ne.symm hne
  | refused gone no | unconfirmed gone no =>
    exact h.shrink gone.toRoster
      ((List.sublist_cons_self _ _).subperm.trans (boundIds_unbinds gone).subperm)
  | stale held no =>
    have gone : c.Unbinds _ c' := Or.inr held
    exact h.shrink gone.toRoster
      ((List.sublist_cons_self _ _).subperm.trans (boundIds_unbinds gone).subperm)
  | attached | drained => exact ⟨h.roster, h.bound, h.nodup⟩
  | @adopted c₁ id job inventory slot now held live state fits =>
    have gone : c.Unbinds id c₁ := Or.inr held
    have hbind : ({ c₁ with inventory := inventory }.bind id job slot now).boundIds.Perm
        (id :: c₁.boundIds) := boundIds_bind _ id job slot now
    exact h.shrink gone.toRoster (hbind.trans (boundIds_unbinds gone)).subperm
  | @rebound id r inventory slot found fits =>
    exact h.shrink rfl (boundIds_rebound found inventory slot ▸ List.Subperm.refl _)
  | @cycled now cycle ran =>
    obtain ⟨new, hc⟩ := Scheduler.runCycle_cycled h.roster.kept.mirror.faithful ran
    have hnew : cycle.decisions = new := by rw [hc.decisions, List.nil_append]
    have hd : c.toRoster.Does config (.dispatched (cycle.decisions.map (·.job)) now)
        { c.toRoster with scheduler := cycle.scheduler, jobs := cycle.jobs } := .dispatched ran
    have hafter : ∀ d ∈ cycle.decisions, ∃ job, cycle.jobs.get d.job = some job ∧
        job.state.onWorker = true := by
      intro d hd
      rw [hnew] at hd
      obtain ⟨job, hjob, -⟩ := hc.decided d hd
      exact ⟨job.withState .running, by
        rw [hc.get, if_pos (List.mem_map_of_mem hd), hjob]; rfl, rfl⟩
    have hperm := boundIds_bindEach now cycle.decisions { c with
      scheduler := cycle.scheduler, jobs := cycle.jobs, inventory := cycle.inventory }
      fun d hd => (hafter d hd).imp fun _ hj => hj.1
    -- A job to be dispatched is ready, so it was not bound before.
    have hfresh : ∀ x ∈ cycle.decisions.map (·.job), x ∉ c.boundIds := by
      intro x hx hmem
      obtain ⟨d, hd, rfl⟩ := List.mem_map.mp (hnew ▸ hx)
      obtain ⟨job, hjob, hst, -⟩ := hc.decided d hd
      obtain ⟨j, hj, hw⟩ := h.bound _ hmem
      obtain rfl := Option.some.inj (hjob.symm.trans hj)
      rw [hst] at hw
      cases hw
    refine h.act hd trivial (toRoster_bindEach _ _ _) (hperm.nodup_iff.mpr ?_) fun x hx => ?_
    · rw [List.nodup_append]
      exact ⟨hnew ▸ hc.nodup, h.nodup, fun x hx y hy hxy => hfresh x hx (hxy ▸ hy)⟩
    · rcases List.mem_append.mp (hperm.subset hx) with hx | hx
      · obtain ⟨d, hd, rfl⟩ := List.mem_map.mp hx
        exact Or.inr (hafter d hd)
      · refine Or.inl ⟨hx, fun record hrec => ?_⟩
        obtain ⟨y, -, rfl⟩ := List.mem_map.mp hrec
        rfl
  | @left slot now acts r hq =>
    have hperm := boundIds_split c slot
    have hnd := hperm.nodup_iff.mpr h.nodup
    obtain ⟨hnd₁, hnd₂, hdisj⟩ := List.nodup_append.mp hnd
    obtain ⟨-, hw⟩ := requeues_acts hq h.roster hnd₁ fun x hx =>
      h.bound x (hperm.subset (List.mem_append_left _ hx))
    have hsame : (((c.unbindSlot slot).withRoster r).vacate slot).boundIds =
        (c.unbindSlot slot).boundIds := rfl
    refine ⟨hroster, fun x hx => ?_, hsame ▸ hnd₂⟩
    rw [hsame] at hx
    exact (hw x fun hx' => hdisj x hx' x hx rfl).mpr
      (h.bound x (hperm.subset (List.mem_append_right _ hx)))
  | abandoned slot =>
    have hperm := boundIds_split c slot
    exact h.shrink rfl ((List.sublist_append_right _ _).subperm.trans hperm.subperm)
  | @expired now acts r hq =>
    obtain ⟨hnd₁, hnd₂, hdisj⟩ := List.nodup_append.mp h.nodup
    obtain ⟨-, hw⟩ := requeues_acts hq h.roster hnd₂ fun x hx =>
      h.bound x (List.mem_append_right _ hx)
    have hsame : ({ c with reconciling := [] }.withRoster r : Core).boundIds =
        c.running.map (·.job) := List.append_nil _
    refine ⟨hroster, fun x hx => ?_, hsame ▸ hnd₁⟩
    rw [hsame] at hx
    exact (hw x fun hx' => hdisj x hx x hx' rfl).mpr (h.bound x (List.mem_append_left _ hx))

end Core

namespace Engine

variable {e e' : Engine} {input : Input} {inputs : List Input} {events : List Event}

/-- No tick forgets a handle of the last generation: no slot is freed for the 2^32nd time. -/
def NoWrap (e : Engine) : Input → Prop
  | .tick now _ _ => ∀ id ∈ e.expired now, id.generation ≠ Word.maxValue 32
  | _ => True

instance (e : Engine) (input : Input) : Decidable (e.NoWrap input) :=
  match input with
  | .tick now _ _ => inferInstanceAs (Decidable (∀ id ∈ e.expired now, _))
  | .command _ _ _ | .quiesce _ => isTrue trivial

theorem Turns.unwrapped (h : Turns e input events e') (hw : e.NoWrap input) :
    ∀ ev ∈ events, ∀ id, ev = .acted (.forgotten id) → id.generation ≠ Word.maxValue 32 := by
  rintro ev hev id rfl
  have hcause := h.cause _ hev
  cases input with
  | command => exact absurd hcause not_false
  | tick => exact hw id (hcause.2 id rfl)
  | quiesce => exact absurd hcause not_false

theorem Turns.sane (h : Turns e input events e') (hs : e.toCore.Sane) (hw : e.NoWrap input) :
    e'.toCore.Sane ∧
      Chain (Roster.Acts e.cycle) e.toRoster (events.flatMap Event.acts) e'.toRoster := by
  have hchain := h.chain.imp fun c ev c' hmem ht =>
    (⟨ht, h.unwrapped hw ev hmem⟩ : c.Takes e.cycle ev c' ∧
      ∀ id, ev = .acted (.forgotten id) → id.generation ≠ Word.maxValue 32)
  exact hchain.simulate (fun _ _ _ ht hs => ⟨hs.takes ht.1 ht.2, ht.1.acts hs ht.2⟩) hs

theorem sane_build (config : DaemonConfig) (journal : Option Journal) :
    (build config journal).toCore.Sane := by
  have hnone : ∀ x job, (Arena.new : Arena Job).get x ≠ some job := fun _ _ h => nomatch h
  refine ⟨⟨(tidy_build config journal).kept, ⟨Arena.wf_new, ?_, ?_⟩, ?_⟩, ?_, ?_⟩
  · show Sound (withShares Scheduler.new config.shares).deps Arena.new
    rw [(withShares_spec config.shares Scheduler.new).2.1]
    exact Sound.of_unclassified fun id job hjob => absurd hjob (hnone id job)
  · intro id job hjob
    exact absurd hjob (hnone id job)
  · simp [build]
  · simp [build, Core.boundIds]
  · simp [build, Core.boundIds]

section

variable [Crc32]

/-- A turn in which no generation wraps. -/
def SafeSteps (e : Engine) (input : Input) (e' : Engine) : Prop :=
  e.Steps input e' ∧ e.NoWrap input

def safeRun (e : Engine) (inputs : List Input) : Option Engine :=
  inputs.foldlM (guarded NoWrap step) e

theorem chain_of_safeRun {inputs : List Input} {e e' : Engine} (h : e.safeRun inputs = some e') :
    Chain SafeSteps e inputs e' := Chain.of_guarded h

theorem SafeSteps.sane (h : e.SafeSteps input e') (hs : e.toCore.Sane) : e'.toCore.Sane := by
  obtain ⟨events, hturns⟩ := h.1.turns
  exact (hturns.sane hs h.2).1

theorem sane_of_run (h : Chain SafeSteps e inputs e') (hs : e.toCore.Sane) : e'.toCore.Sane :=
  h.keeps (P := fun e => e.toCore.Sane) (fun _ _ _ h hs => SafeSteps.sane h hs) hs

end

end Engine

end TaskerRT.Daemon
