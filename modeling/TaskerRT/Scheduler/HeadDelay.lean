/- module: TaskerRT/Scheduler/HeadDelay
   source: crates/tasker-core/src/engine/cycle.rs (run_cycle)
   digest: When a cycle's backfill leaves the head's reservation where packing put it. -/

import TaskerRT.Policy.Backfilled
import TaskerRT.Scheduler.Cycle

set_option autoImplicit false

namespace TaskerRT.Scheduling

open Library Domain Cluster Policy

private theorem reservationTime_scratch {request : ResourceRequest} {inventory : SlotInventory}
    {running : List RunningJob} {now : VirtualTime} (scratch scratch' : BackfillScratch) :
    (reservationTime request inventory running now scratch).1 =
      (reservationTime request inventory running now scratch').1 := by
  have hloop : ∀ slots earliest scratch scratch',
      (reservationLoop request running now slots earliest scratch).1 =
        (reservationLoop request running now slots earliest scratch').1 := by
    intro slots
    induction slots with
    | nil =>
      intro earliest scratch scratch'
      rfl
    | cons entry rest ih =>
      intro earliest scratch scratch'
      obtain ⟨slot, i⟩ := entry
      simp only [reservationLoop]
      split
      · exact ih _ _ _
      split
      · rfl
      split
      · exact ih _ _ _
      · exact ih _ _ _
  exact hloop _ _ _ _

theorem pack_head {jobs : Arena Job} {budget : PackBudget} {candidates : List ReadyEntry}
    {inventory : SlotInventory} {decisions : List DispatchDecision} {packed : PackState} {i : Nat}
    (h : pack candidates jobs inventory budget (List.replicate candidates.length .pending)
      decisions = some packed)
    (hhead : packed.outcome.head = some i) :
    ∃ entry job, candidates[i]? = some entry ∧ jobs.get entry.job = some job ∧
      packed.inventory.firstFit job.request = none := by
  obtain ⟨front, back, new, hp⟩ := pack_packing h
  have hstop := hp.stop
  rw [hhead] at hstop
  cases hstop with
  | @misfit head later job left live nowhere =>
    refine ⟨head, job, ?_, live, nowhere⟩
    rw [hp.split, List.getElem?_append_right (Nat.le_refl _), Nat.sub_self]
    rfl

section Cycle

variable {s : Scheduler} {jobs : Arena Job} {inventory : SlotInventory}
  {running : List RunningJob} {now : VirtualTime} {config : CycleConfig}
  {decisions : List DispatchDecision} {result : Scheduler.CycleResult} {packed : PackState}

/-- A cycle whose packing stopped at a head goes on with a backfill from there. -/
private theorem runCycle_backfilled {i : Nat}
    (hcycle : s.runCycle jobs inventory running now config decisions = some result)
    (hpack : pack (s.order jobs now config).1 jobs inventory config.budget
      (List.replicate (s.order jobs now config).1.length .pending) decisions = some packed)
    (hhead : packed.outcome.head = some i) :
    ∃ filled, easyBackfill (s.order jobs now config).1 i jobs packed.inventory running now
        config.budget packed.disposition packed.decisions
        (s.order jobs now config).2.backfillScratch = some filled ∧
      result.inventory = filled.inventory ∧ result.decisions = filled.decisions := by
  obtain ⟨packed', filled, out, hpack', hfill, -, -, -, hinventory, hdecisions, -⟩ :=
    Scheduler.runCycle_stages hcycle
  obtain rfl := Option.some.inj (hpack'.symm.trans hpack)
  simp only [Scheduler.backfillStage, hhead] at hfill
  exact ⟨filled, hfill, hinventory, hdecisions⟩

def packedJobs (jobs : Arena Job) (now : VirtualTime) (decisions : List DispatchDecision)
    (packed : PackState) : List RunningJob :=
  placed jobs now (packed.decisions.drop decisions.length)

def backfilledJobs (jobs : Arena Job) (now : VirtualTime) (packed : PackState)
    (result : Scheduler.CycleResult) : List RunningJob :=
  placed jobs now (result.decisions.drop packed.decisions.length)

/-- The head is not delayed by a cycle that packs, stops at the head and backfills, when the jobs
just packed do not bring the head's reservation forward. -/
theorem head_not_delayed {i : Nat} {head : ReadyEntry} {headJob : Job} (scratch : BackfillScratch)
    (hcycle : s.runCycle jobs inventory running now config decisions = some result)
    (hpack : pack (s.order jobs now config).1 jobs inventory config.budget
      (List.replicate (s.order jobs now config).1.length .pending) decisions = some packed)
    (hhead : packed.outcome.head = some i) (hentry : (s.order jobs now config).1[i]? = some head)
    (hjob : jobs.get head.job = some headJob)
    (hpacked : ∀ alone t,
      (reservationTime headJob.request packed.inventory running now scratch).1 = some alone →
      (reservationTime headJob.request packed.inventory
        (running ++ packedJobs jobs now decisions packed) now scratch).1 = some t → alone ≤ t)
    {t : VirtualTime}
    (ht : (reservationTime headJob.request packed.inventory
      (running ++ packedJobs jobs now decisions packed) now scratch).1 = some t) :
    ∃ t', (reservationTime headJob.request result.inventory
        (running ++ packedJobs jobs now decisions packed ++
          backfilledJobs jobs now packed result) now scratch).1 = some t' ∧ t' ≤ t := by
  obtain ⟨filled, hfill, hinventory, hdecisions⟩ := runCycle_backfilled hcycle hpack hhead
  obtain ⟨entry, job, hentry', hjob', hfit⟩ := pack_head hpack hhead
  obtain rfl := Option.some.inj (hentry.symm.trans hentry')
  obtain rfl := Option.some.inj (hjob.symm.trans hjob')
  have hbusy := busy_of_firstFit hfit
  unfold easyBackfill at hfill
  split at hfill
  · exact nomatch hfill
  simp only [hentry, hjob] at hfill
  cases halone : (reservationTime headJob.request packed.inventory running now
      (s.order jobs now config).2.backfillScratch).1 with
  | none =>
    -- No reservation, no backfill: nothing changed since packing.
    simp only [halone] at hfill
    obtain rfl := Option.some.inj hfill
    have hnothing : backfilledJobs jobs now packed result = [] := by
      rw [backfilledJobs, hdecisions, List.drop_length]
      rfl
    rw [hnothing, List.append_nil, hinventory]
    exact ⟨t, ht, le_rfl⟩
  | some alone =>
    simp only [halone] at hfill
    have hle : alone ≤ t := hpacked alone t (by rw [← halone]; exact reservationTime_scratch _ _) ht
    have hroom : HasRoomBy headJob.request packed.inventory (running ++ []) alone := by
      rw [List.append_nil]
      exact hasRoomBy_of_reservationTime halone
    obtain ⟨new, hfills, hroom'⟩ := backfillLoop_fills (by exact hroom) hfill
    have hbusy' := hbusy.grown hfills.grown
    have hfilled : backfilledJobs jobs now packed result = placed jobs now new := by
      rw [backfilledJobs, hdecisions, hfills.decisions, List.drop_left]
    rw [hfilled, hinventory]
    apply reservationTime_le hbusy'
    apply hroom'.mono hle
    rw [List.nil_append, List.append_assoc]
    exact List.Sublist.append_left (List.sublist_append_right _ _) _

end Cycle

def sampleConfig : CycleConfig where
  priority := ⟨PriorityWeights.default, VirtualDuration.fromSecs 3600, ⟨4, 0, 0⟩⟩
  fairshare := ⟨VirtualDuration.fromSecs 3600⟩
  preempt := PreemptConfig.default
  budget := ⟨1024, 1024⟩
  maxCandidates := 1024

def sampleJob (priorityClass : PriorityClass) (cpu : Word 32) (walltime : VirtualDuration) : Job :=
  Job.new 0 priorityClass 0 ⟨cpu, 0, 0⟩ walltime

def submitted (out : Scheduler × Arena Job) (job : Job) : Scheduler × Arena Job :=
  match out.2.insert job with
  | none => out
  | some (jobs, id) =>
    let step := out.1.submit id jobs 0 sampleConfig
    (step.scheduler, step.jobs)

/-- One running job, then in order of rank a short job, a head too large to start beside the
running job, and a job of walltime 50. -/
def delayQueue : Scheduler × Arena Job :=
  let out := submitted (Scheduler.new, Arena.new) (sampleJob .normal 1 100)
  let step := out.1.restoreRunning ⟨0⟩ out.2 0 sampleConfig
  [sampleJob .urgent 1 10, sampleJob .high 3 10, sampleJob .normal 1 50].foldl submitted
    (step.scheduler, step.jobs)

def delayRunning (endsAt : VirtualTime) : List RunningJob := [⟨⟨0⟩, 0, ⟨1, 0, 0⟩, endsAt⟩]

def delayInventory : SlotInventory := ⟨[⟨⟨4, 0, 0⟩, ⟨1, 0, 0⟩⟩], ⟨4, 0, 0⟩⟩

def delayPacked : Option PackState :=
  pack (delayQueue.1.order delayQueue.2 0 sampleConfig).1 delayQueue.2 delayInventory
    sampleConfig.budget
    (List.replicate (delayQueue.1.order delayQueue.2 0 sampleConfig).1.length .pending) []

def delayResult (endsAt : VirtualTime) : Option Scheduler.CycleResult :=
  delayQueue.1.runCycle delayQueue.2 delayInventory (delayRunning endsAt) 0 sampleConfig []

/-- With the running job ending at 100, packing leaves the head a reservation at 10, where the
short job ends; the backfilled job moves it to 50. -/
theorem head_delayed_by_backfill :
    delayPacked.map (fun packed => (packed.outcome.head,
        (reservationTime ⟨3, 0, 0⟩ packed.inventory
          (delayRunning 100 ++ packedJobs delayQueue.2 0 [] packed) 0 .new).1)) =
      some (some 1, some 10) ∧
    (delayPacked.bind fun packed => (delayResult 100).map fun result =>
        (reservationTime ⟨3, 0, 0⟩ result.inventory
          (delayRunning 100 ++ packedJobs delayQueue.2 0 [] packed ++
            backfilledJobs delayQueue.2 0 packed result) 0 .new).1) =
      some (some 50) := by
  constructor <;> decide +kernel

private theorem delayPacked_isSome : delayPacked.isSome = true := by decide +kernel

private theorem delayResult_isSome : (delayResult 5).isSome = true := by decide +kernel

/-- With the running job ending at 5, the head keeps its reservation at 5. -/
theorem head_not_delayed_sample :
    ∃ t', (reservationTime ⟨3, 0, 0⟩ ((delayResult 5).get delayResult_isSome).inventory
      (delayRunning 5 ++ packedJobs delayQueue.2 0 [] (delayPacked.get delayPacked_isSome) ++
        backfilledJobs delayQueue.2 0 (delayPacked.get delayPacked_isSome)
          ((delayResult 5).get delayResult_isSome)) 0 .new).1 = some t' ∧ t' ≤ 5 := by
  have halone : (reservationTime ⟨3, 0, 0⟩ (delayPacked.get delayPacked_isSome).inventory
      (delayRunning 5) 0 .new).1 = some 5 := by decide +kernel
  have htogether : (reservationTime ⟨3, 0, 0⟩ (delayPacked.get delayPacked_isSome).inventory
      (delayRunning 5 ++ packedJobs delayQueue.2 0 [] (delayPacked.get delayPacked_isSome)) 0
      .new).1 = some 5 := by decide +kernel
  have hcycle : delayQueue.1.runCycle delayQueue.2 delayInventory (delayRunning 5) 0 sampleConfig
      [] = some ((delayResult 5).get delayResult_isSome) := (Option.some_get _).symm
  have hpack : pack (delayQueue.1.order delayQueue.2 0 sampleConfig).1 delayQueue.2 delayInventory
      sampleConfig.budget
      (List.replicate (delayQueue.1.order delayQueue.2 0 sampleConfig).1.length .pending) [] =
        some (delayPacked.get delayPacked_isSome) := (Option.some_get _).symm
  have hhead : (delayPacked.get delayPacked_isSome).outcome.head = some 1 := by decide +kernel
  have hentry : (delayQueue.1.order delayQueue.2 0 sampleConfig).1[1]?.map ReadyEntry.job =
      some ⟨2⟩ := by decide +kernel
  have hjob : delayQueue.2.get ⟨2⟩ = some ((sampleJob .high 3 10).withState .ready) := by
    decide +kernel
  obtain ⟨head, hsome, hid⟩ := Option.map_eq_some_iff.mp hentry
  rw [← hid] at hjob
  apply head_not_delayed .new hcycle hpack hhead hsome hjob _ htogether
  intro alone t h₁ h₂
  rw [Option.some.inj (h₁.symm.trans halone), Option.some.inj (h₂.symm.trans htogether)]

end TaskerRT.Scheduling
