/- module: TaskerRT/Daemon/Accounted
   source: crates/taskerd/src/engine.rs (reports, claims, evict_slot, plan_evictions, expire_reconcile)
   digest: A job is on a worker exactly when it is bound or held, if evictions are only confirmed
   for jobs that are being evicted. -/

import TaskerRT.Daemon.Restored
import TaskerRT.Policy.Needed

set_option autoImplicit false

namespace TaskerRT.Scheduling.Book

open Library Domain Cluster Policy Wal

variable {b b' : Book} {record : Record} {records : List Record} {x id : JobId}

def Runs (b : Book) (x : JobId) : Prop := ∃ job, b.jobs.get x = some job ∧ job.state = .running

private theorem Runs.worked (h : b.Runs x) : b.Worked x := by
  obtain ⟨job, hx, hst⟩ := h
  exact ⟨job, hx, by rw [hst]; rfl⟩

def evicts (x : JobId) : Record → Bool
  | .preempted id _ => id = x
  | _ => false

/-- The record neither takes `x` off its worker nor starts to. -/
def Spares (x : JobId) (record : Record) : Prop := frees x record = false ∧ evicts x record = false

private theorem Lawful.runs (h : Lawful b record b') (hv : Valid b) (hs : Spares x record)
    (hx : b.Runs x) : b'.Runs x := by
  have hshift := h.shift hv x
  obtain ⟨job, hx, hst⟩ := hx
  obtain ⟨hfree, hno⟩ := hs
  unfold Runs
  rw [hx] at hshift
  generalize b'.jobs.get x = new at hshift
  cases hshift with
  | same entry other => exact ⟨job, rfl, hst⟩
  | started at_ ready => rw [hst] at ready; cases ready
  | completed | failed | cancelled | requeued => simp [frees] at hfree
  | preempted at_ running => simp [evicts] at hno
  | forgotten ended => rw [hst] at ended; cases ended
  | promoted at_ other blocked => rw [hst] at blocked; cases blocked
  | doomed at_ other cause blocked => rw [hst] at blocked; cases blocked

private theorem Valid.runs (h : Chain Lawful b records b') :
    Valid b → (∀ record ∈ records, Spares x record) → b.Runs x → b'.Runs x := by
  induction h with
  | nil => exact fun _ _ hx => hx
  | cons head _ ih =>
    intro hv hs hx
    exact ih (hv.posts head) (fun record hmem => hs record (List.mem_cons_of_mem _ hmem))
      (head.runs hv (hs _ List.mem_cons_self) hx)

private theorem Lawful.freed (h : Lawful b record b') (hv : Valid b) (hf : frees x record = true) :
    ¬ b'.Worked x := by
  rw [h.worked hv, hf]
  rintro (⟨-, hno⟩ | hstart)
  · cases hno
  · cases record <;> simp_all [frees, starts]

private theorem Lawful.get_requeued {now : VirtualTime} (h : Lawful b (.requeued id now) b')
    (hv : Valid b)
    (hx : x ≠ id) : b'.jobs.get x = b.jobs.get x := by
  have hshift := h.shift hv x
  generalize b.jobs.get x = old, b'.jobs.get x = new at hshift
  cases hshift with
  | same => rfl
  | requeued => exact absurd rfl hx
  | doomed at_ other cause => rcases cause with h | h <;> cases h

end TaskerRT.Scheduling.Book

namespace TaskerRT.Daemon

open Library Domain Cluster Policy Scheduling Wal Book

private theorem Roster.Does.lawful_requeued {config : CycleConfig} {r r' : Roster} {id : JobId}
    {now : VirtualTime} (hd : r.Does config (.requeued id now) r') (hs : r.Sane)
    (hl : Act.Legal r (.requeued id now)) : Lawful r.book (.requeued id now) r'.book :=
  (hd.lawful hs hl).of_single

namespace Act

variable {act : Act} {x id : JobId}

private theorem spares_of_isFree (h : act.isFree = true) (hno : ∀ now, act ≠ .preempted x now) :
    ∀ record ∈ act.records, Spares x record := by
  intro record hmem
  cases act with
  | submitted | forgotten =>
    rw [List.mem_singleton.mp hmem]
    exact ⟨rfl, rfl⟩
  | preempted y now =>
    rw [List.mem_singleton.mp hmem]
    have hne : y ≠ x := fun he => hno now (he ▸ rfl)
    exact ⟨rfl, by simpa [evicts] using hne⟩
  | dropped => cases hmem
  | _ => cases h

private theorem unmoved_of_isFree (h : act.isFree = true) (x : JobId) :
    ∀ record ∈ act.records, frees x record = false ∧ starts x record = false := by
  intro record hmem
  cases act with
  | submitted | forgotten | preempted =>
    rw [List.mem_singleton.mp hmem]
    exact ⟨rfl, rfl⟩
  | dropped => cases hmem
  | _ => cases h

private theorem ends_record (h : act.ends id = true) : ∃ record, act.records = [record] ∧
    frees id record = true ∧
    ∀ x, x ≠ id → Spares x record ∧ starts x record = false := by
  cases act with
  | completed y now | failed y now | requeued y now | evicted y now =>
    obtain rfl : y = id := by simpa [ends] using h
    refine ⟨_, rfl, by simp [frees], fun x hx => ⟨⟨?_, rfl⟩, rfl⟩⟩
    simpa [frees] using Ne.symm hx
  | _ => cases h

end Act

/-- Neither an eviction nor the loss of a binding, and no handle is used up. -/
structure Event.Calm (event : Event) : Prop where
  unwrapped : ∀ id, event = .acted (.forgotten id) → id.generation ≠ Word.maxValue 32
  confirmed : ∀ id, event ≠ .unconfirmed id
  stayed : ∀ slot, event ≠ .abandoned slot
  unpicked : ∀ id now, event ≠ .acted (.preempted id now)

namespace Core

variable {config : CycleConfig} {c c₁ c' : Core} {id : JobId} {event : Event}

/-- A job is on a worker exactly when it is bound or held, and what is held runs. -/
structure Accounted (c : Core) : Prop where
  sane : c.Sane
  bound : ∀ x, Worked c.toRoster.book x → x ∈ c.boundIds
  held : ∀ x ∈ c.reconciling, Runs c.toRoster.book x

/-- What an event must not be: the loss of a running job's binding, or the eviction of a job that
no worker has claimed yet. -/
structure Minds (c : Core) (event : Event) : Prop where
  unwrapped : ∀ id, event = .acted (.forgotten id) → id.generation ≠ Word.maxValue 32
  confirmed : ∀ id, event = .unconfirmed id → ¬ Runs c.toRoster.book id
  stayed : ∀ slot, event ≠ .abandoned slot
  picked : ∀ id now, event = .acted (.preempted id now) → id ∉ c.reconciling

private theorem reconciling_release (c : Core) (id : JobId) :
    (c.release id).1.reconciling = c.reconciling := by
  unfold release
  split <;> rfl

private theorem reconciling_unhold (c : Core) (id : JobId) :
    ∀ x ∈ (c.unhold id).1.reconciling, x ∈ c.reconciling := by
  intro x hx
  unfold unhold at hx
  split at hx
  · rename_i hmem
    have hperm := swapRemove_perm (List.idxOf_lt_length_of_mem hmem)
    exact hperm.subset (List.mem_cons_of_mem _ hx)
  · exact hx

private theorem Unbinds.reconciling (h : c.Unbinds id c₁) :
    ∀ x ∈ c₁.reconciling, x ∈ c.reconciling := by
  rcases h with ⟨slot, heq⟩ | heq
  · have hsame := reconciling_release c id
    rw [heq] at hsame
    intro x hx
    exact hsame ▸ hx
  · have hsub := reconciling_unhold c id
    rwa [heq] at hsub

private theorem reconciling_bindEach (now : VirtualTime) (ds : List DispatchDecision) : ∀ c : Core,
    (c.bindEach now ds).reconciling = c.reconciling := by
  induction ds with
  | nil => exact fun _ => rfl
  | cons d ds ih =>
    intro c
    refine (ih _).trans ?_
    show (Option.elim (c.jobs.get d.job) c _).reconciling = _
    cases c.jobs.get d.job <;> rfl

private theorem Unbinds.not_mem (h : c.Unbinds id c₁) (hnd : c.boundIds.Nodup) : id ∉ c₁.boundIds :=
  (List.nodup_cons.mp ((boundIds_unbinds h).nodup_iff.mpr hnd)).1

private theorem Unbinds.mem (h : c.Unbinds id c₁) {x : JobId} (hx : x ∈ c.boundIds) (hne : x ≠ id) :
    x ∈ c₁.boundIds :=
  (List.mem_cons.mp ((boundIds_unbinds h).symm.subset hx)).resolve_left hne

private theorem Accounted.unbound (h : Accounted c) (hs : c₁.Sane) (gone : c.Unbinds id c₁)
    (hno : ¬ Worked c.toRoster.book id) : Accounted c₁ := by
  refine ⟨hs, fun x hx => ?_, fun x hx => ?_⟩
  · rw [gone.toRoster] at hx
    refine gone.mem (h.bound x hx) ?_
    rintro rfl
    exact hno hx
  · rw [gone.toRoster]
    exact h.held x (gone.reconciling x hx)

private theorem Accounted.freed {act : Act} {record : Record} {r : Roster} (h : Accounted c)
    (hs : c'.Sane) (hd : c.toRoster.Does config act r) (hl : act.Legal c.toRoster)
    (hc : c'.toRoster = r) (hrecord : act.records = [record]) (hself : frees id record = true)
    (hother : ∀ x, x ≠ id → Spares x record ∧ starts x record = false)
    (hbound : ∀ x ∈ c.boundIds, x ≠ id → x ∈ c'.boundIds)
    (hheld : ∀ x ∈ c'.reconciling, x ≠ id ∧ x ∈ c.reconciling) : Accounted c' := by
  subst hc
  have hlawful : Lawful c.toRoster.book record c'.toRoster.book := by
    have hchain := hd.lawful h.sane.roster hl
    rw [hrecord] at hchain
    exact hchain.of_single
  have hv := h.sane.roster.valid
  refine ⟨hs, fun x hx => ?_, fun x hx => ?_⟩
  · have hne : x ≠ id := by
      rintro rfl
      exact hlawful.freed hv hself hx
    rw [hlawful.worked hv, (hother x hne).2] at hx
    exact hbound x (h.bound x (hx.resolve_right nofun).1) hne
  · obtain ⟨hne, hmem⟩ := hheld x hx
    exact hlawful.runs hv (hother x hne).1 (h.held x hmem)

private theorem requeues_off {now : VirtualTime} {wanted : Job → Bool} {r r' : Roster}
    {ids : List JobId}
    {acts : List Act} (h : Requeues config now wanted r ids acts r') : r.Sane → ids.Nodup →
      (∀ id ∈ ids, ∃ job, r.jobs.get id = some job ∧ job.state.onWorker = true ∧
        wanted job = true) →
      ∀ x ∈ ids, ¬ Worked r'.book x := by
  induction h with
  | nil => exact fun _ _ _ x hx => absurd hx List.not_mem_nil
  | @done r r₁ r₂ id job ids acts live want h rest ih =>
    intro hs hnd hw x hx
    obtain ⟨hid, hnd'⟩ := List.nodup_cons.mp hnd
    obtain ⟨j, hj, hon, -⟩ := hw id List.mem_cons_self
    have hl : Act.Legal r (.requeued id now) := ⟨j, hj, hon⟩
    have hlawful := h.lawful_requeued hs hl
    have hsame : ∀ y ∈ ids, r₁.jobs.get y = r.jobs.get y := fun y hy =>
      hlawful.get_requeued hs.valid fun he => hid (he ▸ hy)
    have hw₁ : ∀ y ∈ ids, ∃ job, r₁.jobs.get y = some job ∧ job.state.onWorker = true ∧
        wanted job = true := by
      intro y hy
      rw [hsame y hy]
      exact hw y (List.mem_cons_of_mem _ hy)
    rcases List.mem_cons.mp hx with rfl | hx
    · -- It is off its worker at once, and the rest of the list does not name it.
      have hrest := (requeues_acts rest (hs.does h hl) hnd' fun y hy => by
        obtain ⟨j, hj, hon, -⟩ := hw₁ y hy
        exact ⟨j, hj, hon⟩).2 x hid
      rw [hrest]
      exact hlawful.freed hs.valid (by simp [frees])
    · exact ih (hs.does h hl) hnd' hw₁ x hx
  | @skipped r r₂ id ids acts no rest ih =>
    intro hs hnd hw
    obtain ⟨j, hj, hon, hwant⟩ := hw id List.mem_cons_self
    have hno := no j hj hwant
    rw [JobState.isRequeuable_of_onWorker hon] at hno
    cases hno

private theorem requeues_spare {now : VirtualTime} {wanted : Job → Bool} {r r' : Roster}
    {ids : List JobId} {acts : List Act} (h : Requeues config now wanted r ids acts r') {x : JobId}
    (hx : x ∉ ids) : ∀ record ∈ acts.flatMap Act.records, Spares x record := by
  induction h with
  | nil => exact fun record hmem => absurd hmem List.not_mem_nil
  | done live want h rest ih =>
    obtain ⟨hne, hx⟩ := not_or.mp (mt List.mem_cons.mpr hx)
    intro record hmem
    rcases List.mem_cons.mp hmem with rfl | hmem
    · exact ⟨by simpa [frees] using Ne.symm hne, rfl⟩
    · exact ih hx record hmem
  | skipped no rest ih => exact ih fun hmem => hx (List.mem_cons_of_mem _ hmem)

private theorem Accounted.takes (h : Accounted c) (ht : c.Takes config event c')
    (hm : c.Minds event) :
    Accounted c' := by
  have hs := h.sane.takes ht hm.unwrapped
  have hacts := ht.acts h.sane hm.unwrapped
  have hlawful := (h.sane.roster.chain hacts).2
  have hv := h.sane.roster.valid
  cases ht with
  | @acted act r hd free =>
    have hlegal : act.Legal c.toRoster := (Chain.cons_iff.mp hacts).choose_spec.1.2
    refine ⟨hs, fun x hx => ?_, fun x hx => ?_⟩
    · have hrecords := Act.unmoved_of_isFree free x
      have hworked := h.sane.roster.worked hd hlegal fun record hmem => (hrecords record hmem).1
      rcases hworked.mp hx with hx | ⟨record, hmem, hstart⟩
      · exact h.bound x hx
      · rw [(hrecords record hmem).2] at hstart
        cases hstart
    · refine Valid.runs (hd.lawful h.sane.roster hlegal) hv ?_ (h.held x hx)
      exact Act.spares_of_isFree free fun now he => hm.picked x now (he ▸ rfl) hx
  | @ended c₁ act id r gone hd ends =>
    have hlegal : act.Legal c.toRoster := (Chain.cons_iff.mp hacts).choose_spec.1.2
    rw [gone.toRoster] at hd
    obtain ⟨record, hrecord, hself, hother⟩ := Act.ends_record ends
    refine h.freed hs hd hlegal rfl hrecord hself hother (fun x hx hne => gone.mem hx hne)
      fun x hx => ⟨?_, gone.reconciling x hx⟩
    rintro rfl
    exact gone.not_mem h.sane.nodup (List.mem_append_right _ hx)
  | @cancelled id now r hd =>
    rw [toRoster_unbind] at hd
    have hperm := boundIds_unbind h.sane.nodup id
    have hsame : ((c.unbind id).withRoster r).boundIds = (c.unbind id).boundIds := rfl
    have hself : frees id (.cancelled id now) = true := by simp [frees]
    refine h.freed hs hd trivial rfl rfl hself
      (fun x hx => ⟨⟨by simpa [frees] using Ne.symm hx, rfl⟩, rfl⟩) (fun x hx hne => ?_)
      fun x hx => ?_
    · rw [hsame]
      exact hperm.symm.subset ((h.sane.nodup.mem_erase_iff).mpr ⟨hne, hx⟩)
    · have hx' : x ∈ (c.unbind id).reconciling := hx
      have hmem : x ∈ (c.unbind id).boundIds := List.mem_append_right _ hx'
      refine ⟨((h.sane.nodup.mem_erase_iff).mp (hperm.subset hmem)).1, ?_⟩
      rw [← reconciling_release c id]
      exact reconciling_unhold _ id x hx'
  | refused gone no =>
    refine h.unbound hs gone ?_
    rintro ⟨job, hid, hon⟩
    rw [no job hid] at hon
    cases hon
  | @unconfirmed _ id gone no =>
    refine h.unbound hs gone ?_
    rintro ⟨job, hid, hon⟩
    refine hm.confirmed id rfl ⟨job, hid, ?_⟩
    have hnot := no job hid
    revert hon hnot
    cases job.state <;> simp [JobState.onWorker]
  | @stale _ id held no =>
    obtain ⟨hmem, -⟩ := unhold_true held
    obtain ⟨job, hid, hst⟩ := h.held id hmem
    exact absurd hst (no job hid)
  | attached | drained => exact ⟨hs, h.bound, h.held⟩
  | @adopted c₁ id job inventory slot now held live state fits =>
    have gone : c.Unbinds id c₁ := Or.inr held
    have hroster : ({ c₁ with inventory := inventory }.bind id job slot now).toRoster =
        c.toRoster := gone.toRoster
    have hbind : ({ c₁ with inventory := inventory }.bind id job slot now).boundIds.Perm
        (id :: c₁.boundIds) := boundIds_bind _ id job slot now
    refine ⟨hs, fun x hx => ?_, fun x hx => ?_⟩
    · rw [hroster] at hx
      exact (hbind.trans (boundIds_unbinds gone)).symm.subset (h.bound x hx)
    · rw [hroster]
      exact h.held x (gone.reconciling x hx)
  | @rebound id r inventory slot found fits =>
    refine ⟨hs, fun x hx => ?_, h.held⟩
    rw [boundIds_rebound found]
    exact h.bound x hx
  | @cycled now cycle ran =>
    have hd : c.toRoster.Does config (.dispatched (cycle.decisions.map (·.job)) now)
        { c.toRoster with scheduler := cycle.scheduler, jobs := cycle.jobs } := .dispatched ran
    have hrecords : ∀ x, ∀ record ∈ Act.records (.dispatched (cycle.decisions.map (·.job)) now),
        Spares x record := by
      intro x record hmem
      obtain ⟨y, -, rfl⟩ := List.mem_map.mp hmem
      exact ⟨rfl, rfl⟩
    have hperm := boundIds_bindEach now cycle.decisions { c with
      scheduler := cycle.scheduler, jobs := cycle.jobs, inventory := cycle.inventory }
      (Scheduler.runCycle_live ran)
    refine ⟨hs, fun x hx => hperm.symm.subset ?_, fun x hx => ?_⟩
    · rw [toRoster_bindEach] at hx
      have hworked := h.sane.roster.worked (x := x) hd trivial fun record hmem =>
        (hrecords x record hmem).1
      rcases hworked.mp hx with hx | ⟨record, hmem, hstart⟩
      · exact List.mem_append_right _ (h.bound x hx)
      · obtain ⟨y, hy, rfl⟩ := List.mem_map.mp hmem
        rw [show y = x by simpa [starts] using hstart] at hy
        exact List.mem_append_left _ hy
    · rw [toRoster_bindEach]
      rw [reconciling_bindEach] at hx
      exact Valid.runs (hd.lawful h.sane.roster trivial) hv (hrecords x) (h.held x hx)
  | @left slot now acts r hq =>
    have hperm := boundIds_split c slot
    have hnd := hperm.nodup_iff.mpr h.sane.nodup
    obtain ⟨hnd₁, -, hdisj⟩ := List.nodup_append.mp hnd
    have hworked : ∀ x ∈ c.boundTo slot, Worked c.toRoster.book x := fun x hx =>
      h.sane.bound x (hperm.subset (List.mem_append_left _ hx))
    obtain ⟨-, hrest⟩ := requeues_acts hq h.sane.roster hnd₁ hworked
    have hoff := requeues_off hq h.sane.roster hnd₁ fun x hx => by
      obtain ⟨job, hid, hon⟩ := hworked x hx
      exact ⟨job, hid, hon, rfl⟩
    refine ⟨hs, fun x hx => ?_, fun x hx => ?_⟩
    · have hnot : x ∉ c.boundTo slot := fun hmem => hoff x hmem hx
      have hmem := hperm.symm.subset (h.bound x ((hrest x hnot).mp hx))
      exact (List.mem_append.mp hmem).resolve_left hnot
    · have hheld : x ∈ c.reconciling := hx
      have hnot : x ∉ c.boundTo slot := fun hmem =>
        hdisj x hmem x (List.mem_append_right _ hheld) rfl
      exact Valid.runs hlawful hv (requeues_spare hq hnot) (h.held x hheld)
  | abandoned slot => exact absurd rfl (hm.stayed slot)
  | @expired now acts r hq =>
    obtain ⟨-, hnd₂, -⟩ := List.nodup_append.mp h.sane.nodup
    obtain ⟨-, hrest⟩ := requeues_acts hq h.sane.roster hnd₂ fun x hx => (h.held x hx).worked
    have hoff := requeues_off hq h.sane.roster hnd₂ fun x hx => by
      obtain ⟨job, hid, hst⟩ := h.held x hx
      exact ⟨job, hid, by rw [hst]; rfl, by simpa using hst⟩
    refine ⟨hs, fun x hx => ?_, fun x hx => absurd hx List.not_mem_nil⟩
    have hnot : x ∉ c.reconciling := fun hmem => hoff x hmem hx
    have hmem := h.bound x ((hrest x hnot).mp hx)
    exact List.mem_append_left _ ((List.mem_append.mp hmem).resolve_right hnot)

theorem keeps_of_calm {P : Core → Prop} {events : List Event}
    (hcalm : ∀ {ev : Event} {c c' : Core}, P c → ev.Calm → c.Takes config ev c' → P c')
    (h : Chain (Takes config) c events c') (hall : ∀ ev ∈ events, ev.Calm) : P c → P c' :=
  (h.imp fun _ ev _ hmem ht => (⟨ht, hall ev hmem⟩ : _ ∧ ev.Calm)).keeps
    fun _ _ _ ht hp => hcalm hp ht.2 ht.1

/-- What the planner asks of a job it evicts: that it is bound, and was not evicted too often. -/
def Evictable (limit : Word 8) (c : Core) (x : JobId) : Prop :=
  x ∈ c.running.map (·.job) ∧ ∃ job, c.jobs.get x = some job ∧ job.preemptions < limit

private theorem Evictable.kept {limit : Word 8} {x : JobId} {now : VirtualTime}
    (hx : c.Evictable limit x) (h : c.Takes config (.acted (.preempted id now)) c') :
    c'.Evictable limit x := by
  obtain ⟨hbound, job, hjob, hfew⟩ := hx
  cases h with
  | acted hd free =>
    refine ⟨hbound, ?_⟩
    cases hd with
    | preempted _ ok =>
      obtain ⟨j, hid, hst⟩ := Scheduler.preempt_inv ok
      show ∃ job, (c.scheduler.preempt id c.jobs).jobs.get x = some job ∧ _
      rw [Scheduler.preempt_ok hid hst]
      by_cases hne : x = id
      · subst hne
        obtain rfl := Option.some.inj (hjob.symm.trans hid)
        exact ⟨job.withState .preempted, by rw [Arena.get_modify_self, hid]; rfl, hfew⟩
      · exact ⟨job, by rw [Arena.get_modify_ne _ hne]; exact hjob, hfew⟩
  | ended gone hd ends => cases ends

end Core

namespace Host

variable {h h₁ : Host} {now : VirtualTime}

section

variable [Crc32] {P : Core → Prop} {limit : Word 8}

private theorem evictEach_keeps
    (hevict : ∀ {config : CycleConfig} {id : JobId} {c c' : Core}, P c → c.Evictable limit id →
      c.Takes config (.acted (.preempted id now)) c' → P c') {vs : List Eviction} :
    ∀ {h : Host}, P h.engine.toCore → (∀ v ∈ vs, h.engine.toCore.Evictable limit v.job) →
      evictEach now vs h = some h₁ → P h₁.engine.toCore := by
  induction vs with
  | nil =>
    intro h hp _ he
    exact Option.some.inj he ▸ hp
  | cons v vs ih =>
    intro h hp hv he
    obtain ⟨h₂, hone, hrest⟩ := Option.bind_eq_some_iff.mp he
    obtain ⟨hfirst, hothers⟩ := List.forall_mem_cons.mp hv
    rcases evict_moves hone with hm | hm
    · rw [Chain.nil_iff.mp hm.chain] at hp hothers
      exact ih hp hothers hrest
    · have htakes := hm.chain.of_single
      exact ih (hevict hp hfirst htakes) (fun w hw => (hothers w hw).kept htakes) hrest

/-- A tick keeps what its other events keep and what evicting a job the planner may pick keeps. -/
theorem tick_keeps {room : Bool} {outcome : CycleOutcome}
    (hcalm : ∀ {config : CycleConfig} {ev : Event} {c c' : Core}, P c → ev.Calm →
      c.Takes config ev c' → P c')
    (hevict : ∀ {config : CycleConfig} {id : JobId} {c c' : Core}, P c →
      c.Evictable h.engine.cycle.preempt.maxPreemptions id →
        c.Takes config (.acted (.preempted id now)) c' → P c')
    (hw : ∀ id ∈ h.engine.expired now, id.generation ≠ Word.maxValue 32)
    (ht : h.tick now room = some (h₁, outcome)) (hp : P h.engine.toCore) :
    P h₁.engine.toCore := by
  obtain ⟨ids, h₂, h₃, e₃, e₄, e₅, hcycle, hevicts, haside, hforget, hexpire, hlast⟩ :=
    tick_split ht
  have hp₂ : P h₂.engine.toCore := Core.keeps_of_calm hcalm hcycle.chain (fun ev hev => by
    rw [List.mem_singleton.mp hev]
    exact ⟨nofun, nofun, nofun, nofun⟩) hp
  have hp₃ : P e₃.toCore := by
    rw [← Chain.nil_iff.mp haside.chain]
    rcases hevicts with rfl | ⟨head, hplanned⟩
    · exact hp₂
    · unfold planEvictions at hplanned
      split at hplanned
      · exact Option.some.inj hplanned ▸ hp₂
      · split at hplanned
        · exact Option.some.inj hplanned ▸ hp₂
        · rename_i plan hplan
          rw [hcycle.cycle] at hplan
          exact evictEach_keeps hevict hp₂ (evictable_of_planPreemption hplan) hplanned
  have hexpired : e₃.expired now = h.engine.expired now :=
    ((Places.one hcycle rfl).trans ((evicted_places hevicts).trans (.none haside))).expired_eq now
  have hp₄ : P e₄.toCore := by
    obtain ⟨events, hmoves, hall⟩ := Engine.forgetLoop_clears rfl hforget
    refine Core.keeps_of_calm hcalm hmoves.chain (fun ev hev => ?_) hp₃
    obtain ⟨id, rfl | ⟨rfl, hid⟩⟩ := hall ev hev
    · exact ⟨nofun, nofun, nofun, nofun⟩
    · refine ⟨fun x hx => ?_, nofun, nofun, nofun⟩
      cases hx
      exact hw id (hexpired ▸ hid)
  have hp₅ : P e₅.toCore := by
    rcases Engine.expireReconcile_moves hexpire with hm | ⟨acts, hm⟩
    · exact Chain.nil_iff.mp hm.chain ▸ hp₄
    · refine Core.keeps_of_calm hcalm hm.chain (fun ev hev => ?_) hp₄
      rw [List.mem_singleton.mp hev]
      exact ⟨nofun, nofun, nofun, nofun⟩
  exact Chain.nil_iff.mp hlast.chain ▸ hp₅

end

end Host

/-! Recovery. -/

private theorem Core.accounted_of_settle {config : CycleConfig} {c c' : Core} {latest : VirtualTime}
    (hs : c.toRoster.Sane) (hrunning : c.running = [])
    (h : c.settle config latest = .ok c') : c'.Accounted := by
  have hsane := Core.sane_of_settle hs hrunning h
  obtain ⟨r, hq, rfl⟩ := Core.settle_eq_ok.mp h
  have hlen := hs.valid.wf.bound
  have hrequeues := Roster.requeueEvicting_requeues hq
  have hnodup := nodup_iter_state hlen .preempted
  obtain ⟨hacts, hrest⟩ := Core.requeues_acts hrequeues hs hnodup hs.worked_evicting
  have hoff := Core.requeues_off hrequeues hs hnodup fun x hx => by
    obtain ⟨job, hid, hon⟩ := hs.worked_evicting x hx
    exact ⟨job, hid, hon, rfl⟩
  refine ⟨hsane, fun x hx => List.mem_append_right _ ?_, fun x hx => ?_⟩
  · have hnot : x ∉ Roster.evictingIds c.jobs := fun hmem => hoff x hmem hx
    obtain ⟨job, hget, hon⟩ := (hrest x hnot).mp hx
    refine (mem_iter_state hlen).mpr ⟨job, hget, ?_⟩
    have hne : job.state ≠ .preempted := fun hst => hnot ((mem_iter_state hlen).mpr ⟨job, hget, hst⟩)
    revert hon hne
    cases job.state <;> simp [JobState.onWorker]
  · obtain ⟨job, hget, hst⟩ := (mem_iter_state hlen).mp hx
    refine Valid.runs (hs.chain hacts).2 hs.valid (Core.requeues_spare hrequeues fun hmem => ?_)
      ⟨job, hget, hst⟩
    obtain ⟨job', hget', hst'⟩ := (mem_iter_state hlen).mp hmem
    obtain rfl := Option.some.inj (hget.symm.trans hget')
    rw [hst] at hst'
    cases hst'

namespace Engine

variable {e e' start : Engine} {input : Input} {inputs : List Input}

/-- A `Preempted` report, if it is one, is not about a job that is still running. -/
def Confirms (e : Engine) : Input → Prop
  | .command (.preempted id) _ _ => (e.jobs.get id).any (·.state = .running) = false
  | _ => True

instance (e : Engine) (input : Input) : Decidable (e.Confirms input) :=
  match input with
  | .command (.preempted id) _ _ => inferInstanceAs (Decidable ((e.jobs.get id).any _ = false))
  | .command (.submit _ _) _ _ | .command (.cancel _ _) _ _ | .command (.completed _) _ _
  | .command (.failed _) _ _ | .command (.workerJoined _ _ _ _) _ _
  | .command (.workerLeft _) _ _ | .command (.workerDraining _) _ _ | .command (.query _ _) _ _
  | .tick _ _ _ | .quiesce _ => isTrue trivial

private theorem accounted_build (config : DaemonConfig) (journal : Option Journal) :
    (build config journal).toCore.Accounted := by
  refine ⟨sane_build config journal, ?_, fun x hx => absurd hx List.not_mem_nil⟩
  rintro x ⟨job, hx, -⟩
  cases hx

section

variable [Crc32]

/-- An engine that started empty, or was recovered from a tail that fits where it is replayed. That
asks more than that an engine wrote the tail: where a rebuilt index misses an edge, a job that was
cancelled live is still blocked when its removal is replayed. -/
inductive Begins : Engine → Prop where
  | fresh (config : DaemonConfig) (journal : Option Journal) : Begins (build config journal)
  | recovered {config : DaemonConfig} {recovered : Recovered} {journal : Journal} {e : Engine}
      (fits : TailFits config recovered journal)
      (ok : recover config recovered journal = some (.ok e)) : Begins e

private theorem Begins.accounted (h : start.Begins) : start.toCore.Accounted := by
  cases h with
  | fresh config journal => exact accounted_build config journal
  | recovered fits ok =>
    obtain ⟨r, latest, c, hreload, hsettle, hcore, -⟩ := recover_eq_ok ok
    rw [hcore]
    exact Core.accounted_of_settle (sane_of_reload fits hreload) rfl hsettle

/-- A turn of an engine that is not shutting down: no generation wraps, and an eviction is only
confirmed for a job that has stopped running. -/
def AttendedSteps (e : Engine) (input : Input) (e' : Engine) : Prop :=
  e.SafeSteps input e' ∧ e.quiescing = false ∧ e.Confirms input

def attendedStep : Engine → Input → Option Engine :=
  guarded (fun e input => e.NoWrap input ∧ e.quiescing = false ∧ e.Confirms input) step

private theorem attendedSteps_of_eq (h : e.attendedStep input = some e') :
    e.AttendedSteps input e' := by
  obtain ⟨⟨hwrap, hcalm⟩, hstep⟩ := Option.ite_none_right_eq_some.mp h
  exact ⟨⟨hstep, hwrap⟩, hcalm⟩

private theorem AttendedSteps.accounted (h : e.AttendedSteps input e') (ha : e.toCore.Accounted) :
    e'.toCore.Accounted := by
  obtain ⟨⟨hstep, hwrap⟩, hquiet, hconfirms⟩ := h
  have hcalm : ∀ {config : CycleConfig} {ev : Event} {c c' : Core}, c.Accounted → ev.Calm →
      c.Takes config ev c' → c'.Accounted := fun ha hev ht => ha.takes ht
    ⟨hev.unwrapped, fun id he => absurd he (hev.confirmed id), hev.stayed,
      fun id now he => absurd he (hev.unpicked id now)⟩
  cases input with
  | command command now outbox =>
    obtain ⟨host, hhandle, rfl⟩ := Option.map_eq_some_iff.mp hstep
    by_cases hreport : ∃ id, command = .preempted id
    · obtain ⟨id, rfl⟩ := hreport
      simp only [Host.handle] at hhandle
      rcases onPreemptedReport_moves (Host.onEngine_eq hhandle) with ⟨events, hm, hplain⟩ | hm
      · refine Core.keeps_of_calm hcalm hm.chain (fun ev hev => ?_) ha
        have hev := hplain ev hev
        refine ⟨fun x hx => ?_, fun x hx => ?_, fun x hx => ?_, fun x at_ hx => ?_⟩ <;>
          (subst hx; cases hev)
      · refine ha.takes hm.chain.of_single
          ⟨fun x hx => ?_, fun x hx => ?_, fun x hx => ?_, fun x at_ hx => ?_⟩ <;> cases hx
        rintro ⟨job, hid, hst⟩
        have hno : (e.jobs.get id).any (·.state = .running) = false := hconfirms
        rw [show e.jobs.get id = some job from hid] at hno
        simp [hst] at hno
    · obtain ⟨events, hm, hdue⟩ := Host.handle_moves hhandle
      refine Core.keeps_of_calm hcalm hm.chain (fun ev hev => ?_) ha
      have hev := hdue ev hev
      refine ⟨fun x hx => ?_, fun x hx => ?_, fun x hx => ?_, fun x at_ hx => ?_⟩ <;> subst hx
      · exact absurd hev not_false
      · exact absurd ⟨x, hev⟩ hreport
      · rw [show e.quiescing = true from hev.1] at hquiet
        cases hquiet
      · exact absurd hev not_false
  | tick now outbox room =>
    obtain ⟨⟨host, outcome⟩, htick, rfl⟩ := Option.map_eq_some_iff.mp hstep
    refine Host.tick_keeps (h := ⟨e, outbox, []⟩) hcalm (fun ha hv ht => ?_) hwrap htick ha
    refine ha.takes ht ⟨fun _ heq => ?_, fun _ heq => ?_, fun _ heq => ?_,
      fun id at_ heq hheld => ?_⟩ <;> cases heq
    exact (List.nodup_append.mp ha.sane.nodup).2.2 _ hv.1 _ hheld rfl
  | quiesce leaving => exact Option.some.inj hstep ▸ ha

/-- A job is on a worker exactly when it is bound once or held once, and whatever is bound is on a
worker. -/
theorem on_worker_iff_bound (hstart : start.Begins) (hrun : Chain AttendedSteps start inputs e) :
    (∀ id job, e.jobs.get id = some job →
      ((job.state = .running ∨ job.state = .preempted) ↔
        (e.running.map (·.job)).count id + e.reconciling.count id = 1)) ∧
    (∀ id, (e.running.map (·.job)).count id + e.reconciling.count id ≤ 1) ∧
    ∀ r ∈ e.running, ∃ job, e.jobs.get r.job = some job ∧
      (job.state = .running ∨ job.state = .preempted) := by
  have ha : e.toCore.Accounted := hrun.keeps (P := fun e => e.toCore.Accounted)
    (fun _ _ _ hstep ha => AttendedSteps.accounted hstep ha) hstart.accounted
  have hcount : ∀ id, (e.running.map (·.job)).count id + e.reconciling.count id =
      e.boundIds.count id := fun id => List.count_append.symm
  have honce := List.nodup_iff_count_le_one.mp ha.sane.nodup
  have hstate : ∀ s : JobState, s.onWorker = true ↔ s = .running ∨ s = .preempted := by
    intro s
    cases s <;> simp [JobState.onWorker]
  refine ⟨fun id job hid => ?_, fun id => hcount id ▸ honce id, fun r hr => ?_⟩
  · rw [hcount, ← hstate]
    constructor
    · intro hon
      have hpos := List.count_pos_iff.mpr (ha.bound id ⟨job, hid, hon⟩)
      have hle := honce id
      omega
    · intro hone
      obtain ⟨j, hj, hon⟩ := ha.sane.bound id (List.count_pos_iff.mp (by omega))
      obtain rfl := Option.some.inj (hid.symm.trans hj)
      exact hon
  · obtain ⟨job, hid, hon⟩ := ha.sane.bound r.job
      (List.mem_append_left _ (List.mem_map_of_mem hr))
    exact ⟨job, hid, (hstate _).mp hon⟩

end

def evictingDaemon : DaemonConfig :=
  { sampleDaemon with
    cycle := { sampleConfig with preempt := ⟨some .high, 3, VirtualDuration.fromSecs 5⟩ } }

def evictedInputs : List Input :=
  [(sampleJoin 1).sent 0, (sampleSubmit .low 1 []).sent 0, tickAt 0,
    (sampleSubmit .urgent 1 []).sent 1, tickAt 1, (Command.preempted ⟨0⟩).sent 2, tickAt 2]

attribute [local instance] Crc32.ieee

/-- The evicted job is bound nowhere, the other one once. -/
theorem on_worker_iff_bound_sample : ∃ e evicted other,
    evictedInputs.foldlM attendedStep (Engine.new evictingDaemon) = some e ∧
      e.jobs.get ⟨0⟩ = some evicted ∧ evicted.state = .ready ∧
      (e.running.map (·.job)).count ⟨0⟩ + e.reconciling.count ⟨0⟩ ≠ 1 ∧
      e.jobs.get ⟨1⟩ = some other ∧ other.state = .running ∧
      (e.running.map (·.job)).count ⟨1⟩ + e.reconciling.count ⟨1⟩ = 1 := by
  have hlook : (evictedInputs.foldlM attendedStep (Engine.new evictingDaemon)).any
      (fun e => (e.jobs.get ⟨0⟩).any (·.state = .ready) &&
        (e.jobs.get ⟨1⟩).any (·.state = .running)) = true := by decide +kernel
  obtain ⟨e, hrun, hlook⟩ := (Option.any_eq_true _ _).mp hlook
  simp only [Bool.and_eq_true, Option.any_eq_true, decide_eq_true_eq] at hlook
  obtain ⟨⟨evicted, hget₀, hst₀⟩, other, hget₁, hst₁⟩ := hlook
  have hchain := (Chain.of_foldlM hrun).imp fun _ _ _ _ h => attendedSteps_of_eq h
  obtain ⟨hiff, -⟩ := on_worker_iff_bound (.fresh evictingDaemon none) hchain
  refine ⟨e, evicted, other, hrun, hget₀, hst₀, fun hone => ?_, hget₁, hst₁,
    (hiff ⟨1⟩ other hget₁).mp (Or.inl hst₁)⟩
  have hon := (hiff ⟨0⟩ evicted hget₀).mpr hone
  rw [hst₀] at hon
  rcases hon with hon | hon <;> cases hon

/-- A job runs, and its worker says it was evicted although nobody asked for that. -/
def strayInputs : List Input :=
  [(sampleJoin 1).sent 0, (sampleSubmit .normal 1 []).sent 0, tickAt 0,
    (Command.preempted ⟨0⟩).sent 1]

/-- The report is refused after the binding is gone: the job stays running and is on no slot. -/
theorem stray_report_unbinds_running_job : ∃ e job,
    run (Engine.new sampleDaemon) strayInputs = some e ∧ e.quiescing = false ∧
      e.jobs.get ⟨0⟩ = some job ∧ job.state = .running ∧ e.running = [] ∧ e.reconciling = [] := by
  have hlook : (run (Engine.new sampleDaemon) strayInputs).any (fun e =>
      (e.jobs.get ⟨0⟩).any (·.state = .running) && !e.quiescing && e.running.isEmpty &&
        e.reconciling.isEmpty) = true := by decide +kernel
  obtain ⟨e, hrun, hlook⟩ := (Option.any_eq_true _ _).mp hlook
  simp only [Bool.and_eq_true, Option.any_eq_true, decide_eq_true_eq, Bool.not_eq_true',
    List.isEmpty_iff] at hlook
  obtain ⟨⟨⟨⟨job, hget, hst⟩, hquiet⟩, hrunning⟩, hheld⟩ := hlook
  exact ⟨e, job, hrun, hquiet, hget, hst, hrunning, hheld⟩

end Engine

end TaskerRT.Daemon
