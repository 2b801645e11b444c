/- module: TaskerRT/Scheduler/Precedence
   source: crates/tasker-core/src/engine/cycle.rs (run_cycle), crates/tasker-core/src/policy/pack.rs,
     crates/tasker-core/src/policy/backfill.rs
   digest: A cycle dispatches in rank order, and only backfilling passes over a candidate. -/

import TaskerRT.Policy.ReadyOrder
import TaskerRT.Scheduler.Accounting

set_option autoImplicit false

namespace TaskerRT.Scheduling.Scheduler

open Library Domain Cluster Policy

variable {s : Scheduler} {jobs : Arena Job} {inventory : SlotInventory}
  {running : List RunningJob} {now : VirtualTime} {config : CycleConfig}
  {decisions : List DispatchDecision} {result : CycleResult}

private theorem ranksBefore_iff {a b : ReadyEntry} : ranksBefore a b = true ↔ a.Ahead b := by
  have hkey : (OrderKey.new a.score a.job).lt (OrderKey.new b.score b.job) = true ↔
      ReadyEntry.heapRank (a.job, a.score) < ReadyEntry.heapRank (b.job, b.score) :=
    ReadyEntry.ranked_heapRank.above_iff b.score b.job a.score a.job
  have hnot : (!(OrderKey.new a.score a.job).lt (OrderKey.new b.score b.job)) = true ↔
      ReadyEntry.heapRank (b.job, b.score) ≤ ReadyEntry.heapRank (a.job, a.score) := by
    rw [← not_lt, ← hkey, Bool.not_eq_true', Bool.not_eq_true]
  rw [ReadyEntry.ahead_iff, ← hnot]
  simp only [ranksBefore, Bool.or_eq_true, Bool.and_eq_true, beq_iff_eq]
  exact or_congr decide_eq_true_iff Iff.rfl

/-- The entries a cycle examines, at the scores they have now. -/
def examined (s : Scheduler) (jobs : Arena Job) (now : VirtualTime) (config : CycleConfig) :
    List ReadyEntry :=
  (s.ready.greatest config.maxCandidates).map
    (rescore (s.fairshare.refresh now config.fairshare) jobs now config)

private theorem order_perm (hbuilt : s.ready.Built) (jobs : Arena Job) (now : VirtualTime)
    (config : CycleConfig) :
    (s.order jobs now config).1.Perm (examined s jobs now config) := by
  unfold order examined
  rw [← ReadySet.drainOrdered_greatest hbuilt.heaped]
  exact List.perm_insertionSort _ _

private theorem order_ranked (s : Scheduler) (jobs : Arena Job) (now : VirtualTime)
    (config : CycleConfig) : (s.order jobs now config).1.Pairwise ReadyEntry.Ahead := by
  have htotal : Std.Total fun a b : ReadyEntry => ranksBefore a b = true :=
    ⟨fun a b => by simpa only [ranksBefore_iff] using ReadyEntry.Ahead.total a b⟩
  have htrans : IsTrans ReadyEntry fun a b => ranksBefore a b = true :=
    ⟨fun a b c => by simpa only [ranksBefore_iff] using ReadyEntry.Ahead.trans⟩
  unfold order
  exact (List.pairwise_insertionSort _ _).imp ranksBefore_iff.mp

/-- The decided jobs of a packing pass: the live ones among those it got past, in order. -/
private theorem Packs.jobs_eq {front : List ReadyEntry} {new : List DispatchDecision}
    {between : SlotInventory} (h : Packs jobs inventory front new between) :
    new.map (·.job) = (front.filter fun e => (jobs.get e.job).isSome).map (·.job) := by
  induction h with
  | done _ => rfl
  | stale hstale _ ih => rw [ih, List.filter_cons_of_neg (by simp [hstale])]
  | placed hlive _ _ _ ih =>
    rw [List.map_cons, ih, List.filter_cons_of_pos (by simp [hlive]), List.map_cons]

/-- How a cycle went through its candidates `front ++ back`: `packed` for those in front of where
packing stopped, on what became the inventory `between`, and `backfilled` for the others, whose
dispositions are `marks`. -/
structure Follows (s : Scheduler) (jobs : Arena Job) (inventory : SlotInventory)
    (running : List RunningJob) (now : VirtualTime) (config : CycleConfig)
    (decisions : List DispatchDecision) (result : CycleResult) (front back : List ReadyEntry)
    (packed backfilled : List DispatchDecision) (between : SlotInventory)
    (marks : List Disposition) : Prop where
  candidates : (front ++ back).Perm (examined s jobs now config)
  ranked : (front ++ back).Pairwise ReadyEntry.Ahead
  appends : result.decisions = decisions ++ packed ++ backfilled
  counts : result.outcome.dispatched = packed.length ∧
    result.outcome.backfilled = backfilled.length
  packs : Packs jobs inventory front packed between
  jobs_eq : packed.map (·.job) =
    (front.filter fun e => (jobs.get e.job).isSome).map (·.job)
  marked : Marked jobs back marks backfilled
  -- Packing ended with nothing left or no budget, or at a head that easy_backfill went on from.
  stop : PackStop jobs config.budget between packed.length packed.length front.length back none ∧
      backfilled = [] ∨
    PackStop jobs config.budget between packed.length packed.length front.length back
        (some front.length) ∧
      ∃ filled, easyBackfill (front ++ back) front.length jobs between running now config.budget
          (front.map (packMark jobs) ++ List.replicate back.length .pending)
          (decisions ++ packed) s.backfillScratch = some filled ∧
        filled.decisions = decisions ++ packed ++ backfilled
  -- A decision past an undispatched live candidate is one of `backfilled`, past the head.
  overtaken : ∀ i j e, i < j → (front ++ back)[i]? = some e → (jobs.get e.job).isSome →
    (front.map (packMark jobs) ++ marks)[i]? ≠ some .dispatched →
    (front.map (packMark jobs) ++ marks)[j]? = some .dispatched →
    PackStop jobs config.budget between packed.length packed.length front.length back
        (some front.length) ∧ front.length ≤ i ∧ front.length < j

private theorem dispatched_of_front {front : List ReadyEntry} {marks : List Disposition} {i : Nat}
    {e : ReadyEntry} (hi : i < front.length) (he : front[i]? = some e)
    (hlive : (jobs.get e.job).isSome) :
    (front.map (packMark jobs) ++ marks)[i]? = some .dispatched := by
  rw [List.getElem?_append_left (by rw [List.length_map]; exact hi), List.getElem?_map, he]
  simp [packMark, hlive]

/-- Cycles examine the greatest entries of the ready set, dispatch them in rank order up to the
first that fits nowhere, and let only backfilled ones pass it. -/
theorem cycle_follows_rank (hbuilt : s.ready.Built)
    (h : s.runCycle jobs inventory running now config decisions = some result) :
    ∃ front back packed backfilled between marks, Follows s jobs inventory running now config
      decisions result front back packed backfilled between marks := by
  have hperm := order_perm hbuilt jobs now config
  have hranked := order_ranked s jobs now config
  have hscratch : (s.order jobs now config).2.backfillScratch = s.backfillScratch := rfl
  obtain ⟨packed, filled, out, hpack, hfill, -, -, -, -, hdecided, hpacked, hfilled⟩ :=
    runCycle_stages h
  generalize s.order jobs now config = ordered at hpack hfill hperm hranked hscratch
  obtain ⟨candidates, s₁⟩ := ordered
  dsimp only at hpack hfill hperm hranked hscratch
  obtain ⟨front, back, new, hp⟩ := pack_packing hpack
  obtain ⟨marks, new', hf⟩ := backfillStage_filling hp hfill
  obtain rfl := hp.split
  have hdecisions : filled.decisions = decisions ++ new ++ new' := by
    rw [hf.decisions, hp.decisions]
  refine ⟨front, back, new, new', packed.inventory, marks, hperm, hranked,
    hdecided.trans hdecisions, ⟨hpacked.trans hp.dispatched, hfilled.trans hf.backfilled⟩, hp.packs,
    Packs.jobs_eq hp.packs, hf.marked, ?_, ?_⟩
  · have hstop := hp.stop
    cases hhead : packed.outcome.head with
    | none =>
      rw [hhead] at hstop
      simp only [backfillStage, hhead] at hfill
      have hplain : filled.decisions = packed.decisions := by
        obtain rfl := Option.some.inj hfill
        rfl
      rw [hf.decisions] at hplain
      exact .inl ⟨hstop, List.self_eq_append_right.mp hplain.symm⟩
    | some i =>
      obtain rfl : i = front.length := by
        rw [hhead] at hstop
        cases hstop with
        | misfit _ _ _ => rfl
      rw [hhead] at hstop
      simp only [backfillStage, hhead, hscratch, hp.disposition, hp.decisions] at hfill
      exact .inr ⟨hstop, filled, hfill, hdecisions⟩
  · intro i j e hij he hlive hpassed hdispatched
    have hfront : front.length ≤ i := by
      by_contra hlt
      rw [List.getElem?_append_left (by omega)] at he
      exact hpassed (dispatched_of_front (by omega) he hlive)
    rw [List.getElem?_append_right (by rw [List.length_map]; omega), List.length_map]
      at hdispatched
    obtain ⟨hhead, hbehind⟩ := hf.behind _ hdispatched
    have hstop := hp.stop
    rw [hhead] at hstop
    exact ⟨hstop, hfront, by omega⟩

/-- A job to start, a head too large to start and a short one behind it. -/
def rankedQueue : Scheduler :=
  { Scheduler.new with
    ready := ((ReadySet.new.insert .normal ⟨3⟩ 5).insert .high ⟨2⟩ 7).insert .urgent ⟨1⟩ 1 }

theorem cycle_follows_rank_sample : ∃ result,
    rankedQueue.runCycle delayQueue.2 delayInventory (delayRunning 100) 0 sampleConfig [] =
      some result ∧ result.decisions = [⟨⟨1⟩, 0⟩, ⟨⟨3⟩, 0⟩] ∧ result.outcome.head = some ⟨2⟩ ∧
    ∃ front back packed backfilled between marks, Follows rankedQueue delayQueue.2 delayInventory
      (delayRunning 100) 0 sampleConfig [] result front back packed backfilled between marks := by
  have hbuilt : rankedQueue.ready.Built := .insert (.insert (.insert .new _ _ _) _ _ _) _ _ _
  have hlook : (rankedQueue.runCycle delayQueue.2 delayInventory (delayRunning 100) 0 sampleConfig
      []).any (fun r => decide (r.decisions = [⟨⟨1⟩, 0⟩, ⟨⟨3⟩, 0⟩]) &&
        decide (r.outcome.head = some ⟨2⟩)) = true := by
    decide +kernel
  obtain ⟨result, hrun, hlook⟩ := (Option.any_eq_true _ _).mp hlook
  simp only [Bool.and_eq_true, decide_eq_true_eq] at hlook
  exact ⟨result, hrun, hlook.1, hlook.2, cycle_follows_rank hbuilt hrun⟩

end TaskerRT.Scheduling.Scheduler
