/- module: TaskerRT/Daemon/Immunity
   source: crates/taskerd/src/engine.rs (recover, apply), crates/tasker-core/src/engine/cycle.rs
     (on_preempted, requeue)
   digest: How often a job counts as evicted, along runs and across a restart. -/

import TaskerRT.Daemon.Owed

set_option autoImplicit false

namespace TaskerRT.Scheduling.Book

open Library Domain Cluster Policy Wal DependencyTracker Daemon

variable {b b₁ b' : Book} {records : List Record} {x : JobId}

def isRequeued (x : JobId) : Record → Bool
  | .requeued id _ => id = x
  | _ => false

/-- A record that does not requeue a job leaves its eviction count alone; a new job has none. What
is in its grace then was so before, or is sent there. -/
private theorem Lawful.counts {record : Record} {j' : Job} (h : Lawful b record b') (hv : Valid b)
    (hfresh : Roster.Fresh record) (hno : isRequeued x record = false)
    (hx : b'.jobs.get x = some j') :
    j'.preemptions = (b.jobs.get x).elim 0 Job.preemptions ∧
      (j'.state = .preempted →
        evicts x record = true ∨ ∃ j, b.jobs.get x = some j ∧ j.state = .preempted) := by
  have hshift := h.shift hv x
  rw [hx] at hshift
  generalize b.jobs.get x = old at hshift
  cases hshift with
  | same other => exact ⟨rfl, fun hst => Or.inr ⟨_, rfl, hst⟩⟩
  | requeued at_ preemptions worked => simp [isRequeued] at hno
  | born readiness => exact ⟨hfresh, fun hst => by cases readiness <;> cases hst⟩
  | preempted at_ running => exact ⟨rfl, fun _ => Or.inl (by simp [evicts])⟩
  | _ => exact ⟨rfl, fun hst => by cases hst⟩

/-- A handle that is gone is not given out again, so a job that is there later and not in between
was not there before. -/
private theorem between {P : Word 8 → Prop} {before : List Record} {j' : Job}
    (h₁ : Chain Lawful b before b₁) (h₂ : Chain Lawful b₁ records b') (hv : Valid b₁)
    (hx' : b'.jobs.get x = some j') (hnone : b.jobs.get x = none → P 0)
    (hsome : ∀ j₁, b₁.jobs.get x = some j₁ → P j₁.preemptions) :
    P ((b₁.jobs.get x).elim 0 Job.preemptions) := by
  cases hx₁ : b₁.jobs.get x with
  | some j₁ => exact hsome j₁ hx₁
  | none =>
    refine hnone (Option.eq_none_iff_forall_ne_some.mpr fun j hj => ?_)
    have hissued : b₁.jobs.Issued x := h₁.keeps (P := fun b => b.jobs.Issued x)
      (fun _ _ _ hl hx => hl.1.issued hl.2 hx) (Arena.issued_of_get hj)
    refine (noted_of_chain (P := fun _ => False) (fun _ hno => hno) h₂ hv
      ⟨hissued, fun j₁ hj₁ => ?_⟩).2 j' hx'
    rw [hx₁] at hj₁
    cases hj₁

private theorem counts_of_chain (h : Chain Lawful b records b') : Valid b →
    (∀ record ∈ records, Roster.Fresh record) → (∀ record ∈ records, isRequeued x record = false) →
      ∀ {j' : Job}, b'.jobs.get x = some j' →
        j'.preemptions = (b.jobs.get x).elim 0 Job.preemptions ∧
        (j'.state = .preempted → (∃ record ∈ records, evicts x record = true) ∨
          ∃ j, b.jobs.get x = some j ∧ j.state = .preempted) := by
  induction h with
  | nil =>
    intro _ _ _ j' hj'
    rw [hj']
    exact ⟨rfl, fun hst => Or.inr ⟨j', rfl, hst⟩⟩
  | @cons b b₁ b' record records head tail ih =>
    intro hv hfresh hno j' hj'
    rw [List.forall_mem_cons] at hfresh hno
    have hhead : ∀ {j₁ : Job}, b₁.jobs.get x = some j₁ → _ := head.counts hv hfresh.1 hno.1
    obtain ⟨hcount, hgrace⟩ := ih (hv.posts head) hfresh.2 hno.2 hj'
    refine ⟨hcount.trans (between (P := (· = _)) (.single head) tail (hv.posts head) hj'
      (fun hx => by rw [hx]; rfl) fun j₁ hj₁ => (hhead hj₁).1), fun hst => ?_⟩
    rcases hgrace hst with ⟨later, hmem, hev⟩ | ⟨j₁, hj₁, hst₁⟩
    · exact Or.inl ⟨later, List.mem_cons_of_mem _ hmem, hev⟩
    · exact ((hhead hj₁).2 hst₁).imp_left fun hev => ⟨record, List.mem_cons_self, hev⟩

end TaskerRT.Scheduling.Book

namespace TaskerRT.Daemon

open Library Domain Cluster Policy Scheduling Wal Book DependencyTracker

def Act.isEvicted (x : JobId) : Act → Bool
  | evicted id _ => id = x
  | _ => false

namespace Roster

variable {config : CycleConfig} {r r' : Roster} {record : Record} {records : List Record}
  {act : Act} {x : JobId}

private theorem Sane.replay_preemptions (hs : Sane r) (hf : r.Fits record)
    (h : r.applyRecord config record = some (.ok r')) {j' : Job} (hx : r'.jobs.get x = some j') :
    j'.preemptions = (r.jobs.get x).elim 0 Job.preemptions := by
  have hlawful := (hs.replay hf h).1
  by_cases hno : isRequeued x record = false
  · refine (hlawful.counts hs.valid ?_ hno hx).1
    cases record <;> first | exact hf | trivial
  · cases record with
    | requeued id at_ =>
      obtain rfl : id = x := by simpa [isRequeued] using hno
      obtain ⟨u, hok, rfl⟩ := replayed_eq_ok (Option.some.inj h)
      obtain ⟨job, hid, hq⟩ := Scheduler.requeue_inv hok
      simp only [adoptStep, Scheduler.requeue_ok hid hq] at hx
      rw [Arena.get_modify_self, hid] at hx
      rw [← Option.some.inj hx, hid]
      rfl
    | _ => exact absurd rfl hno

private theorem Sane.replayEach_preemptions : ∀ {r : Roster}
    {latest latest' : VirtualTime}, Sane r →
    AllFit config records r → applyEach config records r latest = some (.ok (r', latest')) →
      ∀ {j' : Job}, r'.jobs.get x = some j' →
        j'.preemptions = (r.jobs.get x).elim 0 Job.preemptions := by
  induction records with
  | nil =>
    intro r latest latest' _ _ h j' hj'
    obtain ⟨rfl, -⟩ := Prod.mk.inj (Except.ok.inj (Option.some.inj h))
    rw [hj']
    rfl
  | cons record records ih =>
    intro r latest latest' hs hfit h j' hj'
    obtain ⟨r₁, latest₁, hhead, hrest⟩ := applyEach_cons h
    obtain ⟨hlawful, hs₁⟩ := hs.replay hfit.1 hhead
    exact (ih hs₁ (hfit.2 r₁ hhead) hrest hj').trans
      (between (P := (· = _)) (.single hlawful) (hs₁.replayEach (hfit.2 r₁ hhead) hrest).1 hs₁.valid
        hj' (fun hx => by rw [show r.jobs.get x = none from hx]; rfl)
        fun j₁ hj₁ => hs.replay_preemptions hfit.1 hhead hj₁)

private theorem Does.live_of_isEvicted (hd : r.Does config act r') (he : act.isEvicted x = true) :
    ∃ j, r.jobs.get x = some j ∧ j.state = .preempted := by
  cases hd with
  | @evicted id u now ok =>
    obtain rfl : id = x := by simpa [Act.isEvicted] using he
    exact Scheduler.onPreempted_inv ok
  | _ => cases he

/-- Only a confirmed eviction counts, and only what is in its grace or is sent there is so then. -/
private theorem Does.counts (hd : r.Does config act r') (hs : Sane r) (hl : act.Legal r) {j' : Job}
    (hx' : r'.jobs.get x = some j') :
    j'.preemptions.val = min 255 (((r.jobs.get x).elim 0 Job.preemptions).val +
        if act.isEvicted x then 1 else 0) ∧
      (j'.state = .preempted → act.isEvicted x = false ∧
        ((∃ now, act = .preempted x now) ∨ ∃ j, r.jobs.get x = some j ∧ j.state = .preempted)) := by
  by_cases hno : ∀ record ∈ act.records, isRequeued x record = false
  · obtain ⟨hcount, hgrace⟩ := counts_of_chain (hd.lawful hs hl) hs.valid hd.fresh hno hx'
    have hnot : act.isEvicted x = false := by
      cases act with
      | evicted id now => exact hno _ List.mem_cons_self
      | _ => rfl
    have hlt := j'.preemptions.isLt
    refine ⟨?_, fun hst => ⟨hnot, (hgrace hst).imp_left ?_⟩⟩
    · rw [hnot, if_neg Bool.false_ne_true,
        show (r.jobs.get x).elim 0 Job.preemptions = _ from hcount.symm]
      omega
    · rintro ⟨record, hmem, hev⟩
      cases act with
      | preempted id now =>
        rw [List.mem_singleton.mp hmem] at hev
        obtain rfl : id = x := by simpa [evicts] using hev
        exact ⟨now, rfl⟩
      | dispatched ids now =>
        obtain ⟨y, -, rfl⟩ := List.mem_map.mp hmem
        cases hev
      | dropped => cases hmem
      | _ =>
        rw [List.mem_singleton.mp hmem] at hev
        cases hev
  · obtain ⟨record, hmem, hrec⟩ : ∃ record ∈ act.records, isRequeued x record = true := by
      simpa using hno
    cases hd with
    | @requeued id u now ok =>
      rw [List.mem_singleton.mp hmem] at hrec
      obtain rfl : id = x := by simpa [isRequeued] using hrec
      obtain ⟨job, hid, hq⟩ := Scheduler.requeue_inv ok
      simp only [adoptStep, Scheduler.requeue_ok hid hq] at hx'
      rw [Arena.get_modify_self, hid] at hx'
      rw [← Option.some.inj hx', hid]
      have hlt := job.preemptions.isLt
      refine ⟨?_, fun hst => by cases hst⟩
      show job.preemptions.val = min 255 (job.preemptions.val + 0)
      omega
    | @evicted id u now ok =>
      rw [List.mem_singleton.mp hmem] at hrec
      obtain rfl : id = x := by simpa [isRequeued] using hrec
      obtain ⟨job, hid, hst⟩ := Scheduler.onPreempted_inv ok
      simp only [adoptStep, Scheduler.onPreempted_ok hid hst] at hx'
      rw [Arena.get_modify_self, hid] at hx'
      rw [← Option.some.inj hx', hid, if_pos (by simp [Act.isEvicted])]
      refine ⟨?_, fun hst => by cases hst⟩
      show (Word.saturatingAdd job.preemptions 1).val = min 255 (job.preemptions.val + 1)
      rw [Word.val_saturatingAdd, show (1 : Word 8).val = 1 from rfl]
      omega
    | dispatched ran =>
      obtain ⟨y, -, rfl⟩ := List.mem_map.mp hmem
      cases hrec
    | dropped => cases hmem
    | submitted | completed | failed | cancelled | preempted | forgotten =>
      rw [List.mem_singleton.mp hmem] at hrec
      cases hrec

theorem count_of_acts {acts : List Act} (hd : Chain (Acts config) r acts r') : Sane r →
    ∀ {j' : Job}, r'.jobs.get x = some j' →
      j'.preemptions.val = min 255 (((r.jobs.get x).elim 0 Job.preemptions).val +
        acts.countP (Act.isEvicted x)) := by
  induction hd with
  | nil =>
    intro _ j' hj'
    have hlt := j'.preemptions.isLt
    rw [hj', List.countP_nil]
    show j'.preemptions.val = min 255 (j'.preemptions.val + 0)
    omega
  | @cons r r₁ r' act acts head tail ih =>
    intro hs j' hj'
    have hs₁ := hs.does head.1 head.2
    have hmid := between (x := x) (P := fun n => n.val = min 255 (((r.jobs.get x).elim 0
        Job.preemptions).val + if act.isEvicted x then 1 else 0)) (head.1.lawful hs head.2)
      (hs₁.chain tail).2 hs₁.valid hj' (fun hx => ?_) fun j₁ hj₁ => (head.1.counts hs head.2 hj₁).1
    · rw [ih hs₁ hj', show ((r₁.jobs.get x).elim 0 Job.preemptions).val = _ from hmid,
        List.countP_cons]
      omega
    · rw [show r.jobs.get x = none from hx, if_neg fun he => ?_]
      · rfl
      · obtain ⟨j, hj, -⟩ := head.1.live_of_isEvicted he
        rw [show r.jobs.get x = none from hx] at hj
        cases hj

/-- No job was evicted more often than allowed, and one that is being evicted less often. -/
def Spared (limit : Word 8) (jobs : Arena Job) : Prop :=
  ∀ x job, jobs.get x = some job →
    job.preemptions ≤ limit ∧ (job.state = .preempted → job.preemptions < limit)

private theorem Spared.does {limit : Word 8} (h : Spared limit r.jobs) (hs : Sane r)
    (hd : r.Acts config act r') (hpicked : ∀ id now, act = .preempted id now →
      ∃ job, r.jobs.get id = some job ∧ job.preemptions < limit) : Spared limit r'.jobs := by
  intro x j' hx'
  obtain ⟨hcount, hgrace⟩ := hd.1.counts hs hd.2 hx'
  simp only [Fin.le_def, Fin.lt_def]
  cases he : act.isEvicted x with
  | true =>
    obtain ⟨j, hj, hst⟩ := hd.1.live_of_isEvicted he
    have hfew := Fin.lt_def.mp ((h x j hj).2 hst)
    rw [hj, he, if_pos rfl, Option.elim_some] at hcount
    refine ⟨by omega, fun hst' => ?_⟩
    rw [(hgrace hst').1] at he
    cases he
  | false =>
    rw [he, if_neg Bool.false_ne_true] at hcount
    refine ⟨?_, fun hst => ?_⟩
    · cases hj : r.jobs.get x with
      | none =>
        rw [hj] at hcount
        have hzero : j'.preemptions.val = 0 := hcount
        omega
      | some j =>
        have hle := Fin.le_def.mp (h x j hj).1
        rw [hj, Option.elim_some] at hcount
        omega
    · have hfew : ∃ j, r.jobs.get x = some j ∧ j.preemptions < limit := by
        rcases (hgrace hst).2 with ⟨now, rfl⟩ | ⟨j, hj, hst⟩
        · exact hpicked x now rfl
        · exact ⟨j, hj, (h x j hj).2 hst⟩
      obtain ⟨j, hj, hlt⟩ := hfew
      rw [hj, Option.elim_some] at hcount
      have hlt := Fin.lt_def.mp hlt
      omega

/-- Settling and replaying change states only. -/
theorem Sane.count_of_stages {r₀ : Roster} {at_ latest : VirtualTime} {job₂ : Job} (hs : Sane r₀)
    (hfit : AllFit config records r₀)
    (happly : applyEach config records r₀ at_ = some (.ok (r, latest)))
    (hrequeue : Roster.requeueEvicting config latest (evictingIds r.jobs) r = .ok r')
    (hx : r'.jobs.get x = some job₂) :
    job₂.preemptions = (r₀.jobs.get x).elim 0 Job.preemptions := by
  have hs' := (hs.replayEach hfit happly).2
  have hlen := hs'.valid.wf.bound
  have hnodup : (evictingIds r.jobs).Nodup := nodup_iter_state hlen .preempted
  obtain ⟨r₁, hrequeue', -, hjobs⟩ := @Sane.requeueEvicting_ok config latest (evictingIds r.jobs) r
    hs' hnodup fun x hx => (mem_iter_state hlen).mp hx
  obtain rfl := Except.ok.inj (hrequeue'.symm.trans hrequeue)
  rw [hjobs, Arena.get_modifyAll hnodup] at hx
  split at hx
  · obtain ⟨j, hj, rfl⟩ := Option.map_eq_some_iff.mp hx
    show j.preemptions = _
    exact hs.replayEach_preemptions hfit happly hj
  · exact hs.replayEach_preemptions hfit happly hx

end Roster

namespace Core

variable {config : CycleConfig} {c c' : Core} {event : Event} {limit : Word 8}

/-- Sane, and no job was evicted too often. -/
structure Wary (limit : Word 8) (c : Core) : Prop where
  sane : c.Sane
  spared : Roster.Spared limit c.jobs

private theorem Wary.takes (h : Wary limit c) (ht : c.Takes config event c')
    (hwrap : ∀ id, event = .acted (.forgotten id) → id.generation ≠ Word.maxValue 32)
    (hpicked : ∀ id now, event = .acted (.preempted id now) → c.Evictable limit id) :
    Wary limit c' := by
  have hacts := ht.acts h.sane hwrap
  refine ⟨h.sane.takes ht hwrap, ?_⟩
  by_cases hev : ∃ id now, event = .acted (.preempted id now)
  · obtain ⟨id, now, rfl⟩ := hev
    refine h.spared.does h.sane.roster hacts.of_single fun id' now' heq => ?_
    cases heq
    exact (hpicked id now rfl).2
  · have hno : ∀ act ∈ event.acts, ∀ id now, act ≠ .preempted id now := by
      rintro act hact id now rfl
      cases ht with
      | left hq | expired hq =>
        obtain ⟨y, heq⟩ := hq.acts_eq _ hact
        cases heq
      | acted | ended | cancelled | cycled =>
        exact hev ⟨id, now, congrArg Event.acted (List.mem_singleton.mp hact).symm⟩
      | _ => cases hact
    exact ((hacts.imp fun _ act _ hmem ha => (⟨ha, hno act hmem⟩ : _ ∧ _)).keeps
      (P := fun r => r.Sane ∧ Roster.Spared limit r.jobs) (fun _ _ _ ha h =>
        ⟨h.1.does ha.1.1 ha.1.2, h.2.does h.1 ha.1 fun id now heq => absurd heq (ha.2 id now)⟩)
      ⟨h.sane.roster, h.spared⟩).2

end Core

namespace Engine

section

variable [Crc32] {config : DaemonConfig} {e e' e₂ : Engine} {input : Input} {inputs : List Input}
  {records rest : List Record} {recovered : Recovered} {journal : Journal} {now : VirtualTime}
  {x : JobId}

theorem acts_of_run (h : Chain SafeSteps e inputs e') : e.toCore.Sane →
    ∃ acts, Chain (Roster.Acts e.cycle) e.toRoster acts e'.toRoster ∧
      e'.logged = e.logged.map (· ++ acts.flatMap Act.records) := by
  induction h with
  | nil e =>
    refine fun _ => ⟨[], .nil _, ?_⟩
    cases e.logged <;> simp
  | cons head _ ih =>
    intro hs
    obtain ⟨events, hturns⟩ := head.1.turns
    obtain ⟨hs₁, hacts⟩ := hturns.sane hs head.2
    obtain ⟨acts, hrest, hlogged⟩ := ih hs₁
    rw [hturns.cycle] at hrest
    refine ⟨_, hacts.append hrest, ?_⟩
    rw [hlogged, hturns.logged, flatMap_records, List.flatMap_append, Option.map_map]
    exact congrArg (Option.map · _) (funext fun _ => List.append_assoc _ _ _)

theorem count_of_recover (h : Lives config e)
    (hordered : e.toRoster.book.SlotOrdered) (hrun : Chain SafeSteps e inputs e')
    (hlog : e.Since e' records) (hfound : e.Found config now recovered)
    (hcut : recovered.records ++ rest = records)
    (hok : recover config recovered journal = some (.ok e₂)) {job₂ : Job}
    (hx : e₂.jobs.get x = some job₂) :
    job₂.preemptions = (e.jobs.get x).elim 0 Job.preemptions := by
  obtain ⟨-, r₀, at_, r, latest, hreloads, -, hsane, hfit, happly, hrequeue⟩ :=
    recovers_of_found h.sturdy hordered hrun hlog hfound hcut hok
  rw [hsane.count_of_stages hfit happly hrequeue hx, hreloads.get,
    show e.toRoster.book.jobs.get x = e.jobs.get x from rfl]
  cases e.jobs.get x with
  | none => rfl
  | some job =>
    show (resumed job).preemptions = job.preemptions
    unfold resumed
    split <;> rfl

/-- A restart takes every job's eviction count back to the one in the snapshot: whatever was
confirmed after it is forgotten, so the recovered count is at most the live one. -/
theorem recovered_counts_are_the_snapshots (h : Lives config e)
    (hordered : e.toRoster.book.SlotOrdered) (hrun : Chain SafeSteps e inputs e')
    (hlog : e.Since e' records) (hstored : e.Stored now recovered)
    (hcut : recovered.records ++ rest = records)
    (hok : recover config recovered journal = some (.ok e₂)) {job₂ : Job}
    (hx : e₂.jobs.get x = some job₂) :
    job₂.preemptions = (e.jobs.get x).elim 0 Job.preemptions ∧
      ∀ job', e'.jobs.get x = some job' → job₂.preemptions ≤ job'.preemptions := by
  have hcount := count_of_recover h hordered hrun hlog (.inl hstored) hcut hok hx
  refine ⟨hcount, fun job' hjob' => ?_⟩
  have hs := h.sturdy.eligible.sane
  obtain ⟨acts, hacts, -⟩ := acts_of_run hrun hs
  have hlive := Roster.count_of_acts hacts hs.roster hjob'
  have hlt := job₂.preemptions.isLt
  rw [show (e.toRoster.jobs.get x).elim 0 Job.preemptions = _ from hcount.symm] at hlive
  rw [Fin.le_def]
  omega

end

attribute [local instance] Crc32.ieee

/-- A job is evicted after the snapshot: the live engine counts it, the recovered one does not. -/
theorem recovered_counts_are_the_snapshots_sample : ∃ e e' e₂ records job' job₂,
    safeRun (withJournal evictingDaemon (Journal.new 4096)) (evictedInputs.take 3) =
        some e ∧
      safeRun e (evictedInputs.drop 3) = some e' ∧ e.Since e' records ∧
      recover evictingDaemon ⟨0, some (e.snapshot 1), records, none⟩ (Journal.new 0) =
        some (.ok e₂) ∧
      e'.jobs.get ⟨0⟩ = some job' ∧ job'.preemptions = 1 ∧
      e₂.jobs.get ⟨0⟩ = some job₂ ∧ job₂.preemptions = 0 := by
  have hlook : (safeRun (withJournal evictingDaemon (Journal.new 4096))
      (evictedInputs.take 3)).any (fun e => (encodeSnapshot e 1).isSome &&
        decide (e.logged.map List.length = some 2) &&
        decide (∀ r ∈ e.logged.getD [], r ≠ .forgotten r.id) &&
        (e.jobs.get ⟨0⟩).any (fun job => decide (job.preemptions = 0)) &&
        (safeRun e (evictedInputs.drop 3)).any fun e' =>
          (e'.jobs.get ⟨0⟩).any (fun job => decide (job.preemptions = 1)) &&
          (recover evictingDaemon ⟨0, some (e.snapshot 1),
            (e'.logged.getD []).drop 2, none⟩ (Journal.new 0)).any fun out =>
              out.toOption.any fun e₂ => (e₂.jobs.get ⟨0⟩).isSome) = true := by
    decide +kernel
  obtain ⟨e, hrun, hlook⟩ := (Option.any_eq_true _ _).mp hlook
  simp only [Bool.and_eq_true, Option.any_eq_true, decide_eq_true_eq,
    Option.isSome_iff_exists] at hlook
  obtain ⟨⟨⟨⟨⟨bytes, hbytes⟩, hlen⟩, hno⟩, job, hjob, hcount⟩, e', hrun', ⟨job', hjob', hcount'⟩,
    out, hrecover, e₂, hout, job₂, hjob₂⟩ := hlook
  obtain ⟨hgrowing, hlog, -⟩ := parts_of_safeRun hrun hrun' hlen hno
  have hok : recover evictingDaemon
      ⟨0, some (e.snapshot 1), (e'.logged.getD []).drop 2, none⟩ (Journal.new 0) =
        some (.ok e₂) := by rw [hrecover, eq_ok_of_toOption hout]
  obtain ⟨hsame, -⟩ := recovered_counts_are_the_snapshots (lives_of_safeRun hrun)
    hgrowing.slotOrdered (chain_of_safeRun hrun') hlog
    ⟨bytes, e.snapshot 1, hbytes, decodeSnapshot_encodeSnapshot hbytes, rfl⟩
    (List.append_nil _) hok hjob₂
  refine ⟨e, e', e₂, _, job', job₂, hrun, hrun', hlog, hok, hjob', hcount', hjob₂, ?_⟩
  rw [hsame, hjob]
  exact hcount

end Engine

end TaskerRT.Daemon
