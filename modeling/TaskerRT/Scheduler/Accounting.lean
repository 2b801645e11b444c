/- module: TaskerRT/Scheduler/Accounting
   source: crates/tasker-core/src/engine/cycle.rs (run_cycle)
   digest: A cycle accounts for every entry it drains and for every slot it allocates. -/

import TaskerRT.Domain.Mapped
import TaskerRT.Policy.Placement
import TaskerRT.Scheduler.HeadDelay
import TaskerRT.Scheduler.Lifecycle

set_option autoImplicit false

namespace TaskerRT.Scheduling

open Library Domain Cluster Policy

private theorem holds_slot_inj {ready : ReadySet} (hw : ready.Wf) {c : PriorityClass} {x y : JobId}
    (hx : ready.Holds c x) (hy : ready.Holds c y) (hs : x.slot = y.slot) : x = y := by
  obtain ⟨p, hp⟩ := List.mem_iff_getElem?.mp hx
  obtain ⟨q, hq⟩ := List.mem_iff_getElem?.mp hy
  have hpq := (hw c).position_inj hp hq hs
  subst hpq
  exact Option.some.inj (hp.symm.trans hq)

/-- The live entries of the ready set are ready jobs in the bucket of their class. -/
structure Faithful (ready : ReadySet) (jobs : Arena Job) : Prop where
  wf : ready.Wf
  live : ∀ {c : PriorityClass} {id : JobId} {job : Job}, ready.Holds c id →
    jobs.get id = some job → job.state = .ready ∧ job.priorityClass = c

theorem Mirror.faithful {ready : ReadySet} {jobs : Arena Job} (h : Mirror ready jobs) :
    Faithful ready jobs :=
  ⟨h.wf, fun hx hid => (readyIn_iff hid _).mp ((h.holds_iff _ _).mp hx)⟩

namespace Scheduler

private theorem drained_of_perm {ready rest : ReadySet} {entries entries' : List ReadyEntry}
    (h : ready.Drained entries rest)
    (hperm : (entries'.map fun e => (e.priorityClass, e.job)).Perm
      (entries.map fun e => (e.priorityClass, e.job))) : ready.Drained entries' rest := by
  have hmem (c : PriorityClass) (x : JobId) :
      (∃ e ∈ entries', e.priorityClass = c ∧ e.job = x) ↔
        ∃ e ∈ entries, e.priorityClass = c ∧ e.job = x := by
    have := hperm.mem_iff (a := (c, x))
    simpa only [List.mem_map, Prod.mk.injEq] using this
  refine ⟨h.wf, hperm.nodup_iff.mpr h.nodup, fun e he => ?_, fun c x => ?_⟩
  · obtain ⟨e', he', hc, hx⟩ := (hmem e.priorityClass e.job).mp ⟨e, he, rfl, rfl⟩
    rw [← hc, ← hx]
    exact h.mem e' he'
  · rw [h.rest_iff c x]
    have hiff := hmem c x
    constructor
    · rintro ⟨hx, hnone⟩
      refine ⟨hx, fun e he heq => ?_⟩
      obtain ⟨e', he', heq'⟩ := hiff.mp ⟨e, he, heq⟩
      exact hnone e' he' heq'
    · rintro ⟨hx, hnone⟩
      refine ⟨hx, fun e he heq => ?_⟩
      obtain ⟨e', he', heq'⟩ := hiff.mpr ⟨e, he, heq⟩
      exact hnone e' he' heq'

private theorem rescore_pair (fairshare : FairShare) (jobs : Arena Job) (now : VirtualTime)
    (config : CycleConfig) (e : ReadyEntry) :
    ((rescore fairshare jobs now config e).priorityClass,
      (rescore fairshare jobs now config e).job) = (e.priorityClass, e.job) := by
  unfold rescore
  split <;> rfl

private theorem order_drained {s : Scheduler} (hw : s.ready.Wf) (jobs : Arena Job)
    (now : VirtualTime)
    (config : CycleConfig) :
    s.ready.Drained (s.order jobs now config).1 (s.order jobs now config).2.ready := by
  refine drained_of_perm (ReadySet.drainOrdered_spec hw) ?_
  refine ((List.perm_insertionSort _ _).map _).trans ?_
  rw [List.map_map]
  refine List.Perm.of_eq (List.map_congr_left fun e _ => ?_)
  exact rescore_pair _ _ _ _ e

/-- The ledgers after every decided job has been charged. -/
def chargeEach (jobs : Arena Job) (now : VirtualTime) (config : CycleConfig)
    (decisions : List DispatchDecision) (fairshare : FairShare) : FairShare :=
  decisions.foldl (fun f d => (jobs.get d.job).elim f fun job =>
    f.onDispatch job.account job.request.cpuMillis now config.fairshare) fairshare

/-- What the last stage leaves: decided jobs run and are charged, pending entries are back. -/
structure Emitted (jobs cur : Arena Job) (now : VirtualTime) (config : CycleConfig)
    (entries : List (ReadyEntry × Disposition)) (decisions : List DispatchDecision)
    (s : Scheduler) (out : Scheduler × Arena Job) : Prop where
  arena : out.2 = cur.modifyAll (decisions.map (·.job)) (·.withState .running)
  deps : out.1.deps = s.deps
  fairshare : out.1.fairshare = chargeEach jobs now config decisions s.fairshare
  wf : out.1.ready.Wf
  holds_iff : ∀ c x, out.1.ready.Holds c x ↔
    s.ready.Holds c x ∨ ∃ e, (e, .pending) ∈ entries ∧ e.priorityClass = c ∧ e.job = x

def Distinct (jobs : Arena Job) (entries : List ReadyEntry) : Prop :=
  entries.Pairwise fun a b => ∀ j, jobs.get a.job = some j → b.job ≠ a.job

private theorem emit_spec {jobs : Arena Job} {origin : ReadySet} (horigin : origin.Wf)
    {now : VirtualTime}
    {config : CycleConfig} {es : List ReadyEntry} {ms : List Disposition}
    {ds : List DispatchDecision} (hm : Marked jobs es ms ds) :
    ∀ {s : Scheduler} {cur : Arena Job}, s.ready.Wf →
      (∀ c x, s.ready.Holds c x → origin.Holds c x) →
      (∀ e ∈ es, origin.Holds e.priorityClass e.job) →
      (∀ e ∈ es, ∀ j, jobs.get e.job = some j → j.state = .ready) →
      (∀ e ∈ es, cur.get e.job = jobs.get e.job) → Distinct jobs es →
      ∃ out, emit now config (es.zip ms) (s, cur) = some out ∧
        Emitted jobs cur now config (es.zip ms) ds s out := by
  induction hm with
  | nil =>
    intro s cur hw _ _ _ _ _
    exact ⟨(s, cur), rfl, rfl, rfl, rfl, hw, by simp⟩
  | @pending e es ms ds _ ih =>
    intro s cur hw hsub hfrom hready hcur hdistinct
    rw [List.forall_mem_cons] at hfrom hready hcur
    have hslot : ∀ y, s.ready.Holds e.priorityClass y → y.slot = e.job.slot → y = e.job :=
      fun y hy hs => holds_slot_inj horigin (hsub _ y hy) hfrom.1 hs
    obtain ⟨hw', hiff⟩ := @ReadySet.insert_spec s.ready hw e.priorityClass e.job e.score hslot
    have hsub' : ∀ c x, (s.ready.reinsert e).Holds c x → origin.Holds c x := by
      intro c x hx
      rcases (hiff c x).mp hx with ⟨rfl, rfl⟩ | hx
      · exact hfrom.1
      · exact hsub c x hx
    obtain ⟨out, hout, hemit⟩ := @ih { s with ready := s.ready.reinsert e } cur hw' hsub' hfrom.2
      hready.2 hcur.2 (List.Pairwise.of_cons hdistinct)
    refine ⟨out, hout, hemit.arena, hemit.deps, hemit.fairshare, hemit.wf, fun c x => ?_⟩
    rw [hemit.holds_iff c x]
    have hstep : (s.ready.reinsert e).Holds c x ↔
        (c = e.priorityClass ∧ x = e.job) ∨ s.ready.Holds c x := hiff c x
    simp only [hstep, List.zip_cons_cons, List.mem_cons, Prod.mk.injEq, and_true]
    constructor
    · rintro ((⟨rfl, rfl⟩ | hx) | ⟨e', he', hc, hx⟩)
      · exact Or.inr ⟨e, Or.inl rfl, rfl, rfl⟩
      · exact Or.inl hx
      · exact Or.inr ⟨e', Or.inr he', hc, hx⟩
    · rintro (hx | ⟨e', rfl | he', hc, hx⟩)
      · exact Or.inl (Or.inr hx)
      · exact Or.inl (Or.inl ⟨hc.symm, hx.symm⟩)
      · exact Or.inr ⟨e', he', hc, hx⟩
  | @dropped e es ms ds _ _ ih =>
    intro s cur hw hsub hfrom hready hcur hdistinct
    rw [List.forall_mem_cons] at hfrom hready hcur
    obtain ⟨out, hout, hemit⟩ := ih hw hsub hfrom.2
      hready.2 hcur.2 (List.Pairwise.of_cons hdistinct)
    refine ⟨out, hout, hemit.arena, hemit.deps, hemit.fairshare, hemit.wf, fun c x => ?_⟩
    rw [hemit.holds_iff c x]
    simp
  | @dispatched e es ms ds job slot live _ ih =>
    intro s cur hw hsub hfrom hready hcur hdistinct
    rw [List.forall_mem_cons] at hfrom hready hcur
    have hst : job.state = .ready := hready.1 job live
    have hcan : job.state.canTransitionTo .running = true := by rw [hst]; rfl
    have hget : cur.get e.job = some job := hcur.1.trans live
    have hlater : ∀ e' ∈ es, e'.job ≠ e.job := fun e' he' =>
      List.rel_of_pairwise_cons hdistinct he' job live
    obtain ⟨out, hout, hemit⟩ := @ih (s.charge (job.withState .running) now config)
      (cur.modify e.job fun _ => job.withState .running) hw hsub hfrom.2 hready.2
      (fun e' he' => (Arena.get_modify_ne _ (hlater e' he')).trans (hcur.2 e' he'))
      (List.Pairwise.of_cons hdistinct)
    refine ⟨out, ?_, ?_, hemit.deps, ?_, hemit.wf, fun c x => ?_⟩
    · rw [List.zip_cons_cons, emit]
      simp only [emitOne, hget, Job.tryTransition_of_can hcan]
      exact hout
    · rw [hemit.arena]
      have hsame : (cur.modify e.job fun _ => job.withState .running) =
          cur.modify e.job (·.withState .running) := by
        refine Arena.modify_congr fun v hv => ?_
        rw [hget, Option.some.injEq] at hv
        rw [hv]
      rw [hsame]
      rfl
    · rw [hemit.fairshare]
      simp only [chargeEach, List.foldl_cons, live, Option.elim_some]
      rfl
    · rw [hemit.holds_iff c x]
      have hready' : (s.charge (job.withState .running) now config).ready = s.ready := rfl
      rw [hready']
      simp

section Stages

variable {jobs : Arena Job} {inventory : SlotInventory} {candidates : List ReadyEntry}
  {running : List RunningJob} {now : VirtualTime} {config : CycleConfig}
  {decisions : List DispatchDecision} {packed : PackState} {filled : BackfillState}
  {scratch : BackfillScratch}

private theorem marked_of_passed {settled marks : List Disposition} {front back : List ReadyEntry}
    {inv inv' : SlotInventory} {disposition : List Disposition}
    {ds ds' new : List DispatchDecision} {entries : List ReadyEntry}
    (hp : Passed jobs entries settled inv inv' disposition ds ds' front back marks new) :
    ∃ ms, disposition = settled ++ ms ∧ Marked jobs entries ms new := by
  refine ⟨marks ++ List.replicate back.length .pending, ?_, ?_⟩
  · rw [hp.disposition, List.append_assoc]
  · rw [hp.split]
    simpa using hp.marked.append (Marked.untouched jobs back)

/-- What backfilling does after a packing pass that stopped in front of `back`. -/
structure Filling (jobs : Arena Job) (packed : PackState) (filled : BackfillState)
    (front back : List ReadyEntry) (marks : List Disposition) (new : List DispatchDecision) :
    Prop where
  marked : Marked jobs back marks new
  disposition : filled.disposition = front.map (packMark jobs) ++ marks
  decisions : filled.decisions = packed.decisions ++ new
  grown : Grown jobs new packed.inventory filled.inventory
  backfilled : filled.outcome.backfilled = new.length
  behind : ∀ k, marks[k]? = some .dispatched → packed.outcome.head = some front.length ∧ 0 < k

theorem backfillStage_filling {front back : List ReadyEntry} {new : List DispatchDecision}
    (hp : Packing jobs config.budget candidates inventory decisions packed front back new)
    (hfill : backfillStage candidates jobs running now config packed scratch = some filled) :
    ∃ marks new', Filling jobs packed filled front back marks new' := by
  -- Where backfilling does not run, packing's result stays as it is.
  have hplain : ∀ {outcome : BackfillOutcome} {scratch : BackfillScratch},
      outcome.backfilled = 0 → filled = ⟨outcome, packed.inventory, packed.disposition,
        packed.decisions, scratch⟩ → ∃ marks new', Filling jobs packed filled front back marks new' := by
    rintro outcome scratch hzero rfl
    refine ⟨_, [], Marked.untouched jobs back, hp.disposition, (List.append_nil _).symm,
      Grown.refl jobs _, hzero, ?_⟩
    intro k hk
    have hpending := List.eq_of_mem_replicate (List.mem_of_getElem? hk)
    exact nomatch hpending
  unfold backfillStage at hfill
  cases hout : packed.outcome.head with
  | none =>
    simp only [hout] at hfill
    apply hplain _ (Option.some.inj hfill).symm
    rfl
  | some i =>
    simp only [hout] at hfill
    obtain ⟨hi, head, post, rfl⟩ : i = front.length ∧ ∃ head post, back = head :: post := by
      have hstop := hp.stop
      rw [hout] at hstop
      cases hstop with
      | misfit _ _ _ => exact ⟨rfl, _, _, rfl⟩
    unfold easyBackfill at hfill
    split at hfill
    · exact nomatch hfill
    have hat : candidates[i]? = some head := by
      rw [hp.split, hi, List.getElem?_append_right (Nat.le_refl _), Nat.sub_self]
      rfl
    have hdrop : candidates.drop (i + 1) = post := by
      rw [hp.split, hi, List.drop_append, List.drop_of_length_le (by omega), List.nil_append]
      simp
    simp only [hat] at hfill
    split at hfill
    · apply hplain _ (Option.some.inj hfill).symm
      rfl
    split at hfill
    · apply hplain _ (Option.some.inj hfill).symm
      rfl
    rw [hdrop] at hfill
    have hlen : i + 1 = (front.map (packMark jobs) ++ [Disposition.pending]).length := by
      rw [List.length_append, List.length_map, hi]
      rfl
    rw [hlen] at hfill
    have hsettled : packed.disposition =
        front.map (packMark jobs) ++ [.pending] ++ List.replicate post.length .pending := by
      rw [hp.disposition, List.length_cons, List.replicate_succ, List.append_assoc]
      rfl
    obtain ⟨front', back', marks', new', hp', hcount⟩ :=
      backfillLoop_passed (by exact hsettled) hfill
    obtain ⟨marks, hmarks, hmarked⟩ := marked_of_passed hp'
    refine ⟨.pending :: marks, new', .pending hmarked, ?_, hp'.decisions, hp'.grown, ?_, ?_⟩
    · rw [hmarks, List.append_assoc]
      rfl
    · simpa using hcount
    · intro k hk
      refine ⟨by rw [hout, hi], ?_⟩
      cases k with
      | zero => exact nomatch hk
      | succ k => omega

theorem stages_marked
    (hpack : pack candidates jobs inventory config.budget
      (List.replicate candidates.length .pending) decisions = some packed)
    (hfill : backfillStage candidates jobs running now config packed scratch = some filled) :
    ∃ ds, Marked jobs candidates filled.disposition ds ∧ filled.decisions = decisions ++ ds ∧
      Grown jobs ds inventory filled.inventory ∧
      packed.outcome.dispatched + filled.outcome.backfilled = ds.length := by
  obtain ⟨front, back, new, hp⟩ := pack_packing hpack
  obtain ⟨marks, new', hf⟩ := backfillStage_filling hp hfill
  refine ⟨new ++ new', ?_, ?_, hp.packs.grown.trans hf.grown, ?_⟩
  · rw [hf.disposition, hp.split]
    exact hp.packs.marked.append hf.marked
  · rw [hf.decisions, hp.decisions, List.append_assoc]
  · rw [hp.dispatched, hf.backfilled, List.length_append]

/-- Nothing in the two stages panics where every slot the candidates fit is within its
capacity. -/
private theorem stages_isSome (hopen : Open jobs candidates inventory) (running : List RunningJob)
    (now : VirtualTime) (config : CycleConfig) (decisions : List DispatchDecision)
    (scratch : BackfillScratch) :
    ∃ packed filled, pack candidates jobs inventory config.budget
        (List.replicate candidates.length .pending) decisions = some packed ∧
      backfillStage candidates jobs running now config packed scratch = some filled := by
  obtain ⟨packed, hloop⟩ := @packLoop_isSome jobs config.budget candidates 0
    ⟨⟨0, 0, none, false⟩, inventory, List.replicate candidates.length .pending, decisions⟩ hopen
  have hpack : pack candidates jobs inventory config.budget
      (List.replicate candidates.length .pending) decisions = some packed := by
    unfold pack
    rw [if_neg (by simp)]
    exact hloop
  refine ⟨packed, ?_⟩
  obtain ⟨front, back, new, hp⟩ := pack_packing hpack
  have hlength : ¬ packed.disposition.length < candidates.length := by
    rw [hp.disposition, hp.split]
    simp
  unfold backfillStage
  cases hout : packed.outcome.head with
  | none => exact ⟨_, hpack, rfl⟩
  | some i =>
    obtain ⟨entry, job, hentry, hjob, -⟩ := pack_head hpack hout
    simp only [easyBackfill, if_neg hlength, hentry, hjob]
    split
    · exact ⟨_, hpack, rfl⟩
    · refine Exists.imp (fun _ hfilled => ⟨hpack, hfilled⟩) ?_
      apply backfillLoop_isSome
      exact (hopen.mono (List.drop_subset _ _)).grown hp.packs.grown

end Stages

section Cycle

variable {s : Scheduler} {jobs : Arena Job} {inventory : SlotInventory}
  {running : List RunningJob} {now : VirtualTime} {config : CycleConfig}
  {decisions : List DispatchDecision} {result : CycleResult}

private theorem Marked.live_of_decided {es : List ReadyEntry} {ms : List Disposition}
    {ds : List DispatchDecision} (hm : Marked jobs es ms ds) {x : JobId}
    (hx : x ∈ ds.map (·.job)) : ∃ e ∈ es, e.job = x ∧ ∃ job, jobs.get x = some job := by
  induction hm with
  | nil => exact nomatch hx
  | pending _ ih | dropped _ _ ih =>
    obtain ⟨e, he, hrest⟩ := ih hx
    exact ⟨e, List.mem_cons_of_mem _ he, hrest⟩
  | @dispatched e es ms ds job slot live rest ih =>
    rw [List.map_cons] at hx
    rcases List.mem_cons.mp hx with rfl | hx
    · exact ⟨e, List.mem_cons_self, rfl, job, live⟩
    · obtain ⟨e', he', hrest⟩ := ih hx
      exact ⟨e', List.mem_cons_of_mem _ he', hrest⟩

private theorem emit_map {β : Type} {f : Job → β}
    (hf : ∀ job, job.state.canTransitionTo .running = true → f (job.withState .running) = f job)
    {entries : List (ReadyEntry × Disposition)} : ∀ {out out' : Scheduler × Arena Job},
    emit now config entries out = some out' → out'.2.map f = out.2.map f := by
  induction entries with
  | nil =>
    intro out out' h
    rw [Option.some.inj h]
  | cons entry entries ih =>
    intro out out' h
    obtain ⟨entry, disposition⟩ := entry
    unfold emit at h
    split at h
    · exact nomatch h
    · rename_i mid hone
      refine (ih h).trans ?_
      unfold emitOne at hone
      split at hone
      · split at hone
        · rw [Option.some.inj hone]
        · rename_i job hjob
          split at hone
          · exact nomatch hone
          · rename_i job' htry
            obtain ⟨hcan, rfl⟩ := Job.tryTransition_ok.mp htry
            obtain rfl := Option.some.inj hone
            refine Arena.map_modify_eq fun v hv => ?_
            obtain rfl := Option.some.inj (hjob.symm.trans hv)
            exact hf job hcan
      · rw [← Option.some.inj hone]
      · rw [Option.some.inj hone]

private theorem emitOne_deps {out out' : Scheduler × Arena Job} {entry : ReadyEntry}
    {mark : Disposition}
    (h : emitOne now config out entry mark = some out') : out'.1.deps = out.1.deps := by
  unfold emitOne at h
  split at h
  · split at h
    · rw [Option.some.inj h]
    · split at h
      · exact nomatch h
      · rw [← Option.some.inj h]
        rfl
  · rw [← Option.some.inj h]
  · rw [Option.some.inj h]

private theorem emit_deps {entries : List (ReadyEntry × Disposition)} :
    ∀ {out out' : Scheduler × Arena Job}, emit now config entries out = some out' →
      out'.1.deps = out.1.deps := by
  induction entries with
  | nil =>
    intro out out' h
    rw [Option.some.inj h]
  | cons entry entries ih =>
    intro out out' h
    unfold emit at h
    split at h
    · exact nomatch h
    · rename_i mid hone
      exact (ih h).trans (emitOne_deps hone)

theorem runCycle_deps (h : s.runCycle jobs inventory running now config decisions = some result) :
    result.scheduler.deps = s.deps := by
  obtain ⟨packed, filled, out, -, -, hout, hscheduler, -⟩ := runCycle_stages h
  rw [hscheduler]
  exact emit_deps hout

theorem runCycle_grown (h : s.runCycle jobs inventory running now config decisions = some result) :
    ∃ new, result.decisions = decisions ++ new ∧ Grown jobs new inventory result.inventory ∧
      (∀ d ∈ new, ∃ job, jobs.get d.job = some job) ∧
      ∀ {β : Type} {f : Job → β},
        (∀ job, job.state.canTransitionTo .running = true → f (job.withState .running) = f job) →
          result.jobs.map f = jobs.map f := by
  obtain ⟨packed, filled, out, hpack, hfill, hout, -, hjobs, hinventory, hdecided, -⟩ :=
    runCycle_stages h
  obtain ⟨new, hmarked, hdecisions, hgrown, -⟩ := stages_marked hpack hfill
  rw [hjobs, hinventory, hdecided]
  refine ⟨new, hdecisions, hgrown, fun d hd => ?_, fun hf => emit_map hf hout⟩
  obtain ⟨e, -, -, hlive⟩ := Marked.live_of_decided hmarked (List.mem_map_of_mem hd)
  exact hlive

theorem runCycle_live (h : s.runCycle jobs inventory running now config [] = some result) :
    ∀ d ∈ result.decisions, ∃ job, result.jobs.get d.job = some job := by
  intro d hd
  obtain ⟨new, hdecisions, -, hlive, hmap⟩ := runCycle_grown h
  rw [hdecisions, List.nil_append] at hd
  obtain ⟨job, hjob⟩ := hlive d hd
  have hsame := congrArg (·.get d.job) (hmap (f := fun _ => ()) fun _ _ => rfl)
  simp only [Arena.get_map, hjob, Option.map_some] at hsame
  obtain ⟨job', hjob', -⟩ := Option.map_eq_some_iff.mp hsame
  exact ⟨job', hjob'⟩

/-- Everything a cycle does, in terms of the decisions `new` it appends. -/
structure Cycled (s : Scheduler) (jobs : Arena Job) (inventory : SlotInventory)
    (now : VirtualTime) (config : CycleConfig) (decisions : List DispatchDecision)
    (result : CycleResult) (new : List DispatchDecision) : Prop where
  decisions : result.decisions = decisions ++ new
  nodup : (new.map (·.job)).Nodup
  decided : ∀ d ∈ new, ∃ job, jobs.get d.job = some job ∧ job.state = .ready ∧
    s.ready.Holds job.priorityClass d.job
  arena : result.jobs = jobs.modifyAll (new.map (·.job)) (·.withState .running)
  deps : result.scheduler.deps = s.deps
  fairshare : result.scheduler.fairshare =
    chargeEach jobs now config new (s.fairshare.refresh now config.fairshare)
  wf : result.scheduler.ready.Wf
  held : ∀ c x, result.scheduler.ready.Holds c x → s.ready.Holds c x ∧ x ∉ new.map (·.job)
  kept : ∀ c x job, s.ready.Holds c x → jobs.get x = some job → x ∉ new.map (·.job) →
    result.scheduler.ready.Holds c x
  grown : Grown jobs new inventory result.inventory
  count : result.outcome.dispatched + result.outcome.backfilled = new.length

private theorem order_distinct (hf : Faithful s.ready jobs) (now : VirtualTime)
    (config : CycleConfig) :
    Distinct jobs (s.order jobs now config).1 := by
  have hd := order_drained hf.wf jobs now config
  have hnd := hd.nodup
  rw [List.Nodup, List.pairwise_map] at hnd
  refine hnd.imp_of_mem fun {a b} ha hb hne j hj heq => hne ?_
  have hclass := (hf.live (hd.mem a ha) hj).2
  have hclass' := (hf.live (hd.mem b hb) (heq ▸ hj)).2
  rw [← hclass, ← hclass', heq]

private theorem Distinct.nodup {es : List ReadyEntry} {ms : List Disposition}
    {ds : List DispatchDecision} (hd : Distinct jobs es) (hm : Marked jobs es ms ds) :
    (ds.map (·.job)).Nodup := by
  induction hm with
  | nil => exact List.nodup_nil
  | pending _ ih | dropped _ _ ih => exact ih (List.Pairwise.of_cons hd)
  | @dispatched e es ms ds job slot live rest ih =>
    rw [List.map_cons, List.nodup_cons]
    refine ⟨fun hmem => ?_, ih (List.Pairwise.of_cons hd)⟩
    obtain ⟨e', he', heq⟩ := List.mem_map.mp (rest.sublist.subset hmem)
    exact List.rel_of_pairwise_cons hd he' job live heq

private theorem Marked.outcome {es : List ReadyEntry} {ms : List Disposition}
    {ds : List DispatchDecision} (hm : Marked jobs es ms ds) {e : ReadyEntry} (he : e ∈ es) :
    (e, .pending) ∈ es.zip ms ∨ jobs.get e.job = none ∨ e.job ∈ ds.map (·.job) := by
  induction hm with
  | nil => exact nomatch he
  | @pending e' es ms ds _ ih =>
    rcases List.mem_cons.mp he with rfl | he
    · exact Or.inl List.mem_cons_self
    · exact (ih he).imp_left (List.mem_cons_of_mem _)
  | @dropped e' es ms ds stale _ ih =>
    rcases List.mem_cons.mp he with rfl | he
    · exact Or.inr (Or.inl stale)
    · exact (ih he).imp_left (List.mem_cons_of_mem _)
  | @dispatched e' es ms ds job slot live _ ih =>
    rcases List.mem_cons.mp he with rfl | he
    · exact Or.inr (Or.inr List.mem_cons_self)
    · exact (ih he).imp (List.mem_cons_of_mem _) (Or.imp_right (List.mem_cons_of_mem _))

private theorem Distinct.pending_not_decided {es : List ReadyEntry} {ms : List Disposition}
    {ds : List DispatchDecision} (hd : Distinct jobs es) (hm : Marked jobs es ms ds)
    {e : ReadyEntry} (he : (e, .pending) ∈ es.zip ms) : e.job ∉ ds.map (·.job) := by
  induction hm with
  | nil => exact nomatch he
  | @pending e' es ms ds rest ih =>
    rw [List.zip_cons_cons] at he
    rcases List.mem_cons.mp he with heq | he
    · obtain rfl := (Prod.mk.inj heq).1
      intro hmem
      obtain ⟨e'', he'', hsame, job, hlive⟩ := Marked.live_of_decided rest hmem
      exact List.rel_of_pairwise_cons hd he'' job hlive hsame
    · exact ih (List.Pairwise.of_cons hd) he
  | @dropped e' es ms ds stale rest ih =>
    rw [List.zip_cons_cons] at he
    rcases List.mem_cons.mp he with heq | he
    · exact nomatch (Prod.mk.inj heq).2
    · exact ih (List.Pairwise.of_cons hd) he
  | @dispatched e' es ms ds job slot live rest ih =>
    rw [List.zip_cons_cons] at he
    rcases List.mem_cons.mp he with heq | he
    · exact nomatch (Prod.mk.inj heq).2
    · rw [List.map_cons, List.mem_cons, not_or]
      refine ⟨fun heq => ?_, ih (List.Pairwise.of_cons hd) he⟩
      exact List.rel_of_pairwise_cons hd (List.of_mem_zip he).1 job live heq

theorem runCycle_cycled (hf : Faithful s.ready jobs)
    (h : s.runCycle jobs inventory running now config decisions = some result) :
    ∃ new, Cycled s jobs inventory now config decisions result new := by
  have hdrained := order_drained hf.wf jobs now config
  have hdistinct := order_distinct hf now config
  obtain ⟨packed, filled, out, hpack, hfill, hout, hscheduler, hjobs, hinventory, hdecided,
    hdispatched, hbackfilled⟩ := runCycle_stages h
  obtain ⟨new, hmarked, hdecisions, hgrown, hcount⟩ := stages_marked hpack hfill
  obtain ⟨out', hout', hemit⟩ := @emit_spec jobs s.ready hf.wf now config _ _ new hmarked
    { (s.order jobs now config).2 with backfillScratch := filled.scratch } jobs hdrained.wf
    (fun c x hx => ((hdrained.rest_iff c x).mp hx).1) hdrained.mem
    (fun e he j hj => (hf.live (hdrained.mem e he) hj).1) (fun _ _ => rfl) hdistinct
  obtain rfl := Option.some.inj (hout'.symm.trans hout)
  obtain ⟨scheduler, jobs', inventory', decisions', outcome⟩ := result
  dsimp only at hscheduler hjobs hinventory hdecided hdispatched hbackfilled
  subst hscheduler hjobs hinventory hdecided
  rw [← hdispatched, ← hbackfilled] at hcount
  refine ⟨new, hdecisions, hdistinct.nodup hmarked, fun d hd => ?_, hemit.arena, hemit.deps,
    hemit.fairshare, hemit.wf, fun c x hx => ?_, fun c x job hx hjob hnew => ?_, hgrown, hcount⟩
  · obtain ⟨e, he, heq, job, hjob⟩ :=
      Marked.live_of_decided hmarked (List.mem_map_of_mem hd)
    have hholds := hdrained.mem e he
    rw [heq] at hholds
    obtain ⟨hst, hclass⟩ := hf.live hholds hjob
    exact ⟨job, hjob, hst, hclass.symm ▸ hholds⟩
  · rcases (hemit.holds_iff c x).mp hx with hx | ⟨e, he, hc, hx⟩
    · obtain ⟨hx, hnot⟩ := (hdrained.rest_iff c x).mp hx
      refine ⟨hx, fun hmem => ?_⟩
      obtain ⟨e, he, heq, job, hjob⟩ := Marked.live_of_decided hmarked hmem
      -- A live job is in one bucket only, so the drained entry is this one.
      have hclass := (hf.live (hdrained.mem e he) (heq ▸ hjob)).2
      exact hnot e he ⟨hclass.symm.trans (hf.live hx hjob).2, heq⟩
    · rw [← hc, ← hx]
      exact ⟨hdrained.mem e (List.of_mem_zip he).1, hdistinct.pending_not_decided hmarked he⟩
  · rw [hemit.holds_iff c x]
    by_cases hdr : ∃ e ∈ (s.order jobs now config).1, e.priorityClass = c ∧ e.job = x
    · obtain ⟨e, he, hc, rfl⟩ := hdr
      rcases Marked.outcome hmarked he with hpending | hstale | hdec
      · exact Or.inr ⟨e, hpending, hc, rfl⟩
      · rw [hstale] at hjob
        exact nomatch hjob
      · exact absurd hdec hnew
    · left
      refine (hdrained.rest_iff c x).mpr ⟨hx, fun e he heq => hdr ⟨e, he, heq⟩⟩

/-- Where every slot that a ready job fits is within its capacity, a cycle does not panic. -/
theorem runCycle_isSome (hf : Faithful s.ready jobs)
    (hroom : ∀ t ∈ inventory.slots, t.Within ∨ ∀ id job, jobs.get id = some job →
      job.state = .ready → job.request.fitsWithin t.free = false)
    (running : List RunningJob) (now : VirtualTime) (config : CycleConfig)
    (decisions : List DispatchDecision) :
    ∃ result, s.runCycle jobs inventory running now config decisions = some result := by
  have hdrained := order_drained hf.wf jobs now config
  have hopen : Open jobs (s.order jobs now config).1 inventory := fun t ht =>
    (hroom t ht).imp_right fun hno e he job hjob =>
      hno e.job job hjob (hf.live (hdrained.mem e he) hjob).1
  obtain ⟨packed, filled, hpack, hfill⟩ := stages_isSome hopen running now config decisions
    (s.order jobs now config).2.backfillScratch
  obtain ⟨new, hmarked, -, -, -⟩ := stages_marked hpack hfill
  obtain ⟨out, hout, -⟩ := @emit_spec jobs s.ready hf.wf now config _ _ new hmarked
    { (s.order jobs now config).2 with backfillScratch := filled.scratch } jobs hdrained.wf
    (fun c x hx => ((hdrained.rest_iff c x).mp hx).1) hdrained.mem
    (fun e he j hj => (hf.live (hdrained.mem e he) hj).1) (fun _ _ => rfl)
    (order_distinct hf now config)
  unfold runCycle
  dsimp only
  split
  · exact ⟨_, rfl⟩
  · simp only [hpack, hfill, hout]
    exact ⟨_, rfl⟩

private theorem shares_chargeEach (jobs : Arena Job) (now : VirtualTime) (config : CycleConfig)
    (ds : List DispatchDecision) : ∀ f : FairShare,
    (chargeEach jobs now config ds f).shares = f.shares := by
  induction ds with
  | nil => exact fun _ => rfl
  | cons d ds ih =>
    intro f
    refine (ih _).trans ?_
    show (Option.elim (jobs.get d.job) f _).shares = f.shares
    cases jobs.get d.job with
    | none => rfl
    | some job => exact FairShare.shares_onDispatch _ _ _ _ _

theorem Cycled.get {new : List DispatchDecision}
    (h : Cycled s jobs inventory now config decisions result new) (x : JobId) :
    result.jobs.get x = if x ∈ new.map (·.job) then (jobs.get x).map (·.withState .running)
      else jobs.get x := by
  rw [h.arena, Arena.get_modifyAll h.nodup]

theorem Cycled.mirror {new : List DispatchDecision} (hm : Mirror s.ready jobs)
    (h : Cycled s jobs inventory now config decisions result new) :
    Mirror result.scheduler.ready result.jobs := by
  refine ⟨h.wf, fun c x => ?_⟩
  by_cases hx : x ∈ new.map (·.job)
  · have hnot : ¬ ReadyIn result.jobs c x := by
      rintro ⟨job, hjob, hst, -⟩
      rw [h.get x, if_pos hx] at hjob
      obtain ⟨j, -, rfl⟩ := Option.map_eq_some_iff.mp hjob
      exact nomatch hst
    exact iff_of_false (fun hh => (h.held c x hh).2 hx) hnot
  · have hsame : result.jobs.get x = jobs.get x := by rw [h.get x, if_neg hx]
    rw [readyIn_congr hsame c, ← hm.holds_iff c x]
    refine ⟨fun hh => (h.held c x hh).1, fun hh => ?_⟩
    obtain ⟨job, hjob, -, -⟩ := (hm.holds_iff c x).mp hh
    exact h.kept c x job hh hjob hx

def ExactlyOne (p q r : Prop) : Prop := (p ∧ ¬ q ∧ ¬ r) ∨ (¬ p ∧ q ∧ ¬ r) ∨ (¬ p ∧ ¬ q ∧ r)

/-- A cycle over a faithful ready set and an inventory within its capacities does not panic,
and loses and duplicates nothing: every queued id is queued again, decided once or stale and
gone; only decided jobs change, to `running`; slots grow by exactly what was decided on them. -/
theorem cycle_accounts_for_every_entry (hw : s.ready.Wf)
    (hlive : ∀ c id job, s.ready.Holds c id → jobs.get id = some job →
      job.state = .ready ∧ job.priorityClass = c)
    (hcap : ∀ t ∈ inventory.slots, t.Within) :
    ∃ result new, s.runCycle jobs inventory running now config decisions = some result ∧
      result.decisions = decisions ++ new ∧
      (∀ id, (∃ c, s.ready.Holds c id) →
        ExactlyOne (∃ c, result.scheduler.ready.Holds c id) (id ∈ new.map (·.job))
          (jobs.get id = none ∧ (∀ c, ¬ result.scheduler.ready.Holds c id) ∧
            id ∉ new.map (·.job))) ∧
      (∀ c id, result.scheduler.ready.Holds c id → s.ready.Holds c id ∧
        ∀ job, result.jobs.get id = some job → job.state = .ready ∧ job.priorityClass = c) ∧
      (∀ id ∈ new.map (·.job), (∃ c, s.ready.Holds c id) ∧ (new.map (·.job)).count id = 1 ∧
        ∃ job, jobs.get id = some job ∧
          result.jobs.get id = some (job.withState .running)) ∧
      (∀ id, id ∉ new.map (·.job) → result.jobs.get id = jobs.get id) ∧
      result.jobs.shape = jobs.shape ∧ result.jobs.freeHead = jobs.freeHead ∧
      result.outcome.dispatched + result.outcome.backfilled = new.length ∧
      result.inventory.slots.length = inventory.slots.length ∧
      result.inventory.maxCapacity = inventory.maxCapacity ∧
      (∀ i t, inventory.slots[i]? = some t → ∃ t', result.inventory.slots[i]? = some t' ∧
        t'.capacity = t.capacity ∧ t'.Within ∧
        ∀ d, t'.allocated.amount d = t.allocated.amount d + demand jobs new i d) ∧
      result.scheduler.fairshare.shares = s.fairshare.shares ∧
      result.scheduler.deps = s.deps := by
  have hf : Faithful s.ready jobs := ⟨hw, fun hx hid => hlive _ _ _ hx hid⟩
  obtain ⟨result, hrun⟩ := runCycle_isSome hf (fun t ht => Or.inl (hcap t ht)) running now
    config decisions
  obtain ⟨new, h⟩ := runCycle_cycled hf hrun
  refine ⟨result, new, hrun, h.decisions, fun id hid => ?_, fun c id hheld => ?_,
    fun id hid => ?_, fun id hid => ?_, ?_, ?_, h.count, h.grown.length, h.grown.maxCapacity,
    fun i t ht => ?_, ?_, h.deps⟩
  · by_cases hnew : id ∈ new.map (·.job)
    · exact Or.inr (Or.inl ⟨fun ⟨c, hc⟩ => (h.held c id hc).2 hnew, hnew, fun hg => hg.2.2 hnew⟩)
    · by_cases hback : ∃ c, result.scheduler.ready.Holds c id
      · refine Or.inl ⟨hback, hnew, fun hg => ?_⟩
        obtain ⟨c, hc⟩ := hback
        exact hg.2.1 c hc
      · refine Or.inr (Or.inr ⟨hback, hnew, ?_, fun c hc => hback ⟨c, hc⟩, hnew⟩)
        obtain ⟨c, hc⟩ := hid
        cases hg : jobs.get id with
        | none => rfl
        | some job => exact absurd ⟨c, h.kept c id job hc hg hnew⟩ hback
  · obtain ⟨hbefore, hnew⟩ := h.held c id hheld
    refine ⟨hbefore, fun job hjob => hlive c id job hbefore ?_⟩
    rwa [h.get id, if_neg hnew] at hjob
  · obtain ⟨d, hd, rfl⟩ := List.mem_map.mp hid
    obtain ⟨job, hjob, -, hheld⟩ := h.decided d hd
    refine ⟨⟨_, hheld⟩, List.count_eq_one_of_mem h.nodup hid, job, hjob, ?_⟩
    rw [h.get d.job, if_pos hid, hjob]
    rfl
  · rw [h.get id, if_neg hid]
  · rw [h.arena, Arena.shape_modifyAll]
  · rw [h.arena, Arena.freeHead_modifyAll]
  · obtain ⟨t', ht', hcapacity, hamount, hwithin⟩ := h.grown.slot i t ht
    exact ⟨t', ht', hcapacity, hwithin (hcap t (List.mem_of_getElem? ht)), hamount⟩
  · rw [h.fairshare, shares_chargeEach, FairShare.shares_refresh]

end Cycle

private theorem kept_submitted {out : Scheduler × Arena Job} (h : Kept out.1 out.2) (job : Job)
    (fresh : job.state ≠ .ready) (hroom : (out.2.insert job).isSome = true) :
    Kept (submitted out job).1 (submitted out job).2 := by
  obtain ⟨⟨jobs', id⟩, inserted⟩ := Option.isSome_iff_exists.mp hroom
  simp only [submitted, inserted]
  exact (h.insert inserted fresh).submit id 0 sampleConfig

private theorem kept_delayQueue : Kept delayQueue.1 delayQueue.2 := by
  have hempty : Kept Scheduler.new (Arena.new : Arena Job) :=
    ⟨Mirror.of_none_ready (fun c id ⟨_, hj, _⟩ => nomatch hj), Nat.zero_le _⟩
  have hfirst := @kept_submitted (Scheduler.new, Arena.new) hempty (sampleJob .normal 1 100)
    (by decide) (by decide +kernel)
  have hrunning := hfirst.restoreRunning ⟨0⟩ 0 sampleConfig
  have hurgent := @kept_submitted (_, _) hrunning (sampleJob .urgent 1 10) (by decide)
    (by decide +kernel)
  have hhigh := kept_submitted hurgent (sampleJob .high 3 10) (by decide) (by decide +kernel)
  exact kept_submitted hhigh (sampleJob .normal 1 50) (by decide) (by decide +kernel)

/-- Of the queue, the first job was removed from the arena behind the scheduler's back and is
dropped, the second starts, and the third has no room left and goes back. -/
theorem cycle_accounts_for_sample : ∃ result,
    delayQueue.1.runCycle (delayQueue.2.remove ⟨1⟩).1 delayInventory [] 0 sampleConfig [] =
        some result ∧
      (delayQueue.1.ready.Holds .urgent ⟨1⟩ ∧ ¬ result.scheduler.ready.Holds .urgent ⟨1⟩) ∧
      result.decisions.map (·.job) = [⟨2⟩] ∧
      result.outcome.dispatched + result.outcome.backfilled = 1 ∧
      ∃ c, result.scheduler.ready.Holds c ⟨3⟩ := by
  have hheld : delayQueue.1.ready.Holds .urgent ⟨1⟩ ∧ delayQueue.1.ready.Holds .normal ⟨3⟩ := by
    unfold ReadySet.Holds
    decide +kernel
  have hlook : (delayQueue.1.runCycle (delayQueue.2.remove ⟨1⟩).1 delayInventory [] 0
      sampleConfig []).any (fun result => decide (result.decisions.map (·.job) = [⟨2⟩]) &&
        decide (⟨1⟩ ∉ (result.scheduler.ready.buckets .urgent).ids)) = true := by decide +kernel
  obtain ⟨result, new, hrun, hnew, hone, -, -, -, -, -, hcount, -⟩ :=
    @cycle_accounts_for_every_entry delayQueue.1 (delayQueue.2.remove ⟨1⟩).1 delayInventory [] 0
      sampleConfig [] kept_delayQueue.mirror.wf (fun c id job hx hid => by
        rw [Arena.get_remove] at hid
        split at hid
        · cases hid
        · exact kept_delayQueue.mirror.faithful.live hx hid) (by decide)
  rw [List.nil_append] at hnew
  simp only [hrun, Option.any_some, Bool.and_eq_true, decide_eq_true_eq, hnew] at hlook
  refine ⟨result, hrun, ⟨hheld.1, hlook.2⟩, by rw [hnew, hlook.1], ?_, ?_⟩
  · rw [hcount, ← List.length_map (·.job), hlook.1]
    rfl
  · have hnot : (⟨3⟩ : JobId) ∉ new.map (·.job) := by
      rw [hlook.1]
      decide
    have hlive : (delayQueue.2.remove ⟨1⟩).1.get ⟨3⟩ ≠ none := by decide +kernel
    rcases hone ⟨3⟩ ⟨_, hheld.2⟩ with ⟨hback, -⟩ | ⟨-, hmem, -⟩ | ⟨-, -, hnone, -⟩
    · exact hback
    · exact absurd hmem hnot
    · exact absurd hnone hlive

end Scheduler

end TaskerRT.Scheduling
