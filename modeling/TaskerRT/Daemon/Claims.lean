/- module: TaskerRT/Daemon/Claims
   source: crates/taskerd/src/engine.rs (claim, adopt_running, WorkerJoined)
   digest: Which bindings a joining worker can take over. -/

import TaskerRT.Daemon.Run

set_option autoImplicit false

namespace TaskerRT.Daemon

open Library Domain Cluster Policy Scheduling Wal

section Bindings

variable {running : List RunningJob} {r found : RunningJob} {id : JobId}

private theorem findIdx_of_find? (h : running.find? (·.job = id) = some found) :
    ∃ hlt : running.findIdx (·.job = id) < running.length,
      running[running.findIdx (·.job = id)] = found ∧ found.job = id := by
  have hjob : found.job = id := by simpa using List.find?_some h
  have hlt : running.findIdx (·.job = id) < running.length :=
    List.findIdx_lt_length_of_exists ⟨found, List.mem_of_find?_eq_some h, by simpa using hjob⟩
  rw [List.find?_eq_getElem?_findIdx, List.getElem?_eq_getElem hlt] at h
  exact ⟨hlt, Option.some.inj h, hjob⟩

private theorem mem_swapRemove_of_ne (h : running.find? (·.job = id) = some found)
    (hr : r ∈ running)
    (hne : r.job ≠ id) : r ∈ swapRemove running (running.findIdx (·.job = id)) := by
  obtain ⟨hlt, hfound, hjob⟩ := findIdx_of_find? h
  have hmem := (swapRemove_perm hlt).mem_iff.mpr hr
  rw [hfound] at hmem
  rcases List.mem_cons.mp hmem with rfl | hmem
  · exact absurd hjob hne
  · exact hmem

private theorem mem_set_of_ne (h : running.find? (·.job = id) = some found) (hr : r ∈ running)
    (hne : r.job ≠ id) (moved : RunningJob) :
    r ∈ running.set (running.findIdx (·.job = id)) moved := by
  obtain ⟨hlt, -, -⟩ := findIdx_of_find? h
  have hrest := mem_swapRemove_of_ne h hr hne
  exact (set_perm hlt moved).mem_iff.mpr (List.mem_cons_of_mem _ hrest)

end Bindings

namespace Host

@[simp] theorem running_pushDispatch (h : Host) (d : Dispatch) :
    (h.pushDispatch d).engine.running = h.engine.running := by
  unfold pushDispatch
  split <;> rfl

variable [Crc32] {h h' : Host} {id : JobId} {slot : SlotIndex} {now : VirtualTime}
  {r : RunningJob}

private theorem running_requeueLogged {e e' : Engine} (hdone : e.requeueLogged id now = some e') :
    e'.running = e.running := by
  rcases Engine.requeueLogged_cases hdone with ⟨_, _, _, rfl, _⟩ | ⟨_, rfl⟩
  · rfl
  · rfl

private theorem running_adoptRunning (hc : h.adoptRunning id slot now = some h')
    (hr : r ∈ h.engine.running) : r ∈ h'.engine.running := by
  unfold adoptRunning at hc
  split at hc
  · obtain rfl := Option.some.inj hc
    exact hr
  split at hc
  · obtain rfl := Option.some.inj hc
    exact hr
  split at hc
  · obtain rfl := Option.some.inj hc
    exact List.mem_append_left _ hr
  · obtain ⟨h₂, hreq, hret⟩ := Option.bind_eq_some_iff.mp hc
    obtain rfl := Option.some.inj hret
    rw [running_pushDispatch, running_requeueLogged (onEngine_eq hreq)]
    exact hr

private theorem mem_running_claim (hc : h.claim id slot now = some h') (hr : r ∈ h.engine.running)
    (hne : r.job ≠ id) : r ∈ h'.engine.running := by
  unfold claim at hc
  cases hu : h.engine.unhold id with
  | mk c held =>
  rw [hu] at hc
  cases held with
  | true =>
    obtain ⟨-, rfl⟩ := Core.unhold_true hu
    exact running_adoptRunning hc hr
  | false =>
    dsimp only at hc
    split at hc
    · rename_i found hfound
      unfold rebind at hc
      dsimp only at hc
      split at hc
      · obtain rfl := Option.some.inj hc
        exact mem_set_of_ne hfound hr hne _
      · obtain ⟨h₂, hreq, hret⟩ := Option.bind_eq_some_iff.mp hc
        obtain rfl := Option.some.inj hret
        rw [running_pushDispatch, running_requeueLogged (onEngine_eq hreq)]
        exact mem_swapRemove_of_ne hfound hr hne
    · obtain rfl := Option.some.inj hc
      rw [running_pushDispatch]
      exact hr

private theorem mem_running_claimEach {ids : List JobId} : ∀ {h : Host},
    claimEach slot now ids h = some h' → r ∈ h.engine.running → r.job ∉ ids →
      r ∈ h'.engine.running := by
  induction ids with
  | nil =>
    intro h hc hr _
    exact Option.some.inj hc ▸ hr
  | cons id ids ih =>
    intro h hc hr hnot
    obtain ⟨h₂, hone, hrest⟩ := Option.bind_eq_some_iff.mp hc
    obtain ⟨hne, hnot⟩ := not_or.mp (mt List.mem_cons.mpr hnot)
    exact ih hrest (mem_running_claim hone hr hne) hnot

end Host

namespace Engine

variable [Crc32] {e e' : Engine} {name : String} {capacity : Capacity} {inFlight : List JobId}
  {token : Token} {now : VirtualTime} {outbox : Outbox}

private theorem mem_running_join
    (h : e.Steps (.command (.workerJoined name capacity inFlight token) now outbox) e')
    {r : RunningJob} (hr : r ∈ e.running) (hnot : r.job ∉ inFlight) : r ∈ e'.running := by
  obtain ⟨host, hhandle, rfl⟩ := Option.map_eq_some_iff.mp h
  obtain ⟨h₂, hclaims, hret⟩ := Option.bind_eq_some_iff.mp hhandle
  obtain rfl := Option.some.inj hret
  have hkept : r ∈ h₂.engine.running := Host.mem_running_claimEach hclaims hr hnot
  exact hkept

/-- Every running job a joining worker claims is bound to a worker of that name. -/
def ClaimsOwn (e : Engine) (name : String) (inFlight : List JobId) : Prop :=
  ∀ r ∈ e.running, r.job ∈ inFlight → e.names[r.slot]? = some (some name)

instance (e : Engine) (name : String) (inFlight : List JobId) :
    Decidable (e.ClaimsOwn name inFlight) :=
  inferInstanceAs (Decidable (∀ r ∈ e.running, _))

/-- A worker that claims only its own jobs moves no binding away from a worker of another name. -/
theorem claims_follow_own_worker (hown : e.ClaimsOwn name inFlight)
    (h : e.Steps (.command (.workerJoined name capacity inFlight token) now outbox) e') :
    ∀ r ∈ e.running, e.names[r.slot]? ≠ some (some name) → r ∈ e'.running := by
  intro r hr hother
  apply mem_running_join h hr
  intro hclaimed
  exact hother (hown r hr hclaimed)

end Engine

def pairInputs : List Input :=
  [(Command.workerJoined "a" ⟨1, 0, 0⟩ [] 0).sent 0, (sampleSubmit .normal 1 []).sent 0, tickAt 0,
    (Command.workerJoined "b" ⟨1, 0, 0⟩ [] 0).sent 0, (sampleSubmit .normal 1 []).sent 0, tickAt 0]

def ownClaim : Input := (Command.workerJoined "a" ⟨1, 0, 0⟩ [⟨0⟩] 0).sent 1

attribute [local instance] Crc32.ieee

/-- The job of `b` stays with `b`. -/
theorem claims_follow_own_worker_sample : ∃ e e', Engine.Steps e ownClaim e' ∧
    e.ClaimsOwn "a" [⟨0⟩] ∧ (Engine.run (Engine.new sampleDaemon) pairInputs) = some e ∧
    ∃ r ∈ e.running, r.job = JobId.new 1 0 ∧ e.names[r.slot]? ≠ some (some "a") ∧
      r ∈ e'.running := by
  have hlook : (Engine.run (Engine.new sampleDaemon) pairInputs).any (fun e =>
      decide (e.ClaimsOwn "a" [⟨0⟩]) && (Engine.step e ownClaim).isSome &&
        (e.running.find? fun r => r.job = JobId.new 1 0 ∧ e.names[r.slot]? ≠ some (some "a")).isSome) =
      true := by decide +kernel
  obtain ⟨e, hrun, hlook⟩ := (Option.any_eq_true _ _).mp hlook
  simp only [Bool.and_eq_true, decide_eq_true_eq, Option.isSome_iff_exists] at hlook
  obtain ⟨⟨hown, e', hstep⟩, r, hr⟩ := hlook
  have hfound : r.job = JobId.new 1 0 ∧ e.names[r.slot]? ≠ some (some "a") := by
    simpa using List.find?_some hr
  have hmem := List.mem_of_find?_eq_some hr
  exact ⟨e, e', hstep, hown, hrun, r, hmem, hfound.1, hfound.2,
    Engine.claims_follow_own_worker hown hstep r hmem hfound.2⟩

/-- The job runs on `a`, which is lost; it is dispatched again, to `b`. -/
def strayInputs : List Input :=
  [(Command.workerJoined "a" ⟨1, 0, 0⟩ [] 0).sent 0, (sampleSubmit .normal 1 []).sent 0, tickAt 0,
    (Command.workerLeft 0).sent 1, (Command.workerJoined "b" ⟨1, 0, 0⟩ [] 0).sent 2, tickAt 2]

def strayClaim : Input := (Command.workerJoined "a" ⟨1, 0, 0⟩ [⟨0⟩] 0).sent 3

/-- `a` comes back, and its claim takes the job away from `b`. -/
theorem claim_strays :
    ((Engine.run (Engine.new sampleDaemon) strayInputs).any fun e =>
      decide (e.running.map (fun r => (r.job, r.slot)) = [(⟨0⟩, 0)] ∧
        e.names = [some "b"])) = true ∧
    ((Engine.run (Engine.new sampleDaemon) (strayInputs ++ [strayClaim])).any fun e =>
      decide (e.running.map (fun r => (r.job, r.slot)) = [(⟨0⟩, 1)] ∧
        e.names = [some "b", some "a"])) = true := by
  constructor <;> decide +kernel

end TaskerRT.Daemon
