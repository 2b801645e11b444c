/- module: TaskerRT/Daemon/Counts
   source: crates/taskerd/src/engine.rs (queue_summary)
   digest: What the queue query counts, against the states of the jobs, restarts included. -/

import TaskerRT.Daemon.Lives

set_option autoImplicit false

namespace TaskerRT.Daemon

open Library Domain Policy Scheduling Wal Book

namespace Engine

section

variable [Crc32] {config : DaemonConfig} {e : Engine}

/-- The queue query counts the ready jobs exactly. The running ones and those held for
reconciliation are on a worker, and are all of those exactly if no job on a worker was lost track
of. -/
theorem queue_summary_counts (h : Lives config e) :
    e.queueSummary.ready = e.jobs.iter.countP (fun entry => decide (entry.2.state = .ready)) ∧
      e.queueSummary.running + e.reconciling.length ≤
        e.jobs.iter.countP (fun entry => entry.2.state.onWorker) ∧
      (e.queueSummary.running + e.reconciling.length =
          e.jobs.iter.countP (fun entry => entry.2.state.onWorker) ↔
        ∀ id, Worked e.toRoster.book id → id ∈ e.boundIds) := by
  obtain ⟨⟨hsane, -⟩, -⟩ := h.sturdy
  have hlen : e.jobs.slots.length ≤ 2 ^ 32 := hsane.roster.valid.wf.bound
  have hsize : e.boundIds.length = e.queueSummary.running + e.reconciling.length := by
    simp [Core.boundIds, queueSummary]
  obtain ⟨hle, hiff⟩ := Arena.length_le_countP hlen (p := fun job : Job => job.state.onWorker)
    hsane.nodup hsane.bound
  rw [hsize] at hle hiff
  refine ⟨hsane.roster.kept.mirror.len_eq hlen, hle, hiff.trans ?_⟩
  exact ⟨fun hall id hw => hw.elim fun job hjob => hall id job hjob.1 hjob.2,
    fun hall id job hget hon => hall id ⟨job, hget, hon⟩⟩

end

def crowdedInputs : List Input :=
  [(sampleJoin 1).sent 0, (sampleSubmit .normal 1 []).sent 0, (sampleSubmit .normal 1 []).sent 0,
    (sampleSubmit .normal 1 []).sent 0, tickAt 0]

attribute [local instance] Crc32.ieee

/-- Two of them are ready and counted as such; one is on a worker and one counted as running, so
no job on a worker was lost track of. -/
theorem queue_summary_counts_sample : ∃ e, Lives sampleDaemon e ∧
    e.queueSummary.ready = 2 ∧
    e.jobs.iter.countP (fun entry => decide (entry.2.state = .ready)) = 2 ∧
    e.queueSummary.running = 1 ∧
    e.jobs.iter.countP (fun entry => entry.2.state.onWorker) = 1 ∧
    ∀ id, Worked e.toRoster.book id → id ∈ e.boundIds := by
  have hlook : (safeRun (Engine.new sampleDaemon) crowdedInputs).any (fun e =>
      decide (e.queueSummary.ready = 2) && decide (e.queueSummary.running = 1) &&
        decide (e.jobs.iter.countP (fun entry => entry.2.state.onWorker) = 1) &&
        decide (e.reconciling = [])) = true := by decide +kernel
  obtain ⟨e, hrun, hlook⟩ := (Option.any_eq_true _ _).mp hlook
  simp only [Bool.and_eq_true, decide_eq_true_eq] at hlook
  obtain ⟨⟨⟨hready, hrunning⟩, honworker⟩, hreconciling⟩ := hlook
  have hlives : Lives sampleDaemon e := lives_of_safeRun hrun
  obtain ⟨hcounts, -, hiff⟩ := queue_summary_counts hlives
  refine ⟨e, hlives, hready, hcounts ▸ hready, hrunning, honworker, hiff.mp ?_⟩
  rw [hrunning, hreconciling, honworker]
  rfl

end Engine

end TaskerRT.Daemon
