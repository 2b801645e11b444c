/- module: TaskerRT/Daemon/Recovery
   source: crates/taskerd/src/engine.rs (recover, restore_snapshot, apply)
   digest: Rebuilding an engine from a snapshot and the records after it. -/

import TaskerRT.Daemon.Engine

set_option autoImplicit false

namespace TaskerRT.Daemon

open Library Domain Policy Scheduling Wal

inductive RecoverError where
  | wal (error : WalError)
  | arena (error : ArenaRestoreError)
  | lifecycle (error : LifecycleError)
  | idMismatch (expected found : JobId)
  deriving DecidableEq, Repr

namespace Roster

/-- A non-terminal job goes back to `submitted` so that `submit` classifies it again. -/
def reopen (job : Job) : Job :=
  if job.state.isTerminal then job else job.withState .submitted

section

variable (config : CycleConfig)

def submitEach (at_ : VirtualTime) : List (JobId × JobState) → Roster → Except RecoverError Roster
  | [], r => .ok r
  | (id, state) :: rest, r =>
    if state.isTerminal then submitEach at_ rest (r.noteTerminal id at_)
    else
      let step := r.scheduler.submit id r.jobs at_ config
      match step.result with
      | .error err => .error (.lifecycle err)
      | .ok state => submitEach at_ rest ((r.adoptStep step).noteIf state id at_)

def restoreRunningEach (at_ : VirtualTime) : List JobId → Roster → Except RecoverError Roster
  | [], r => .ok r
  | id :: rest, r =>
    let step := r.scheduler.restoreRunning id r.jobs at_ config
    match step.result with
    | .error err => .error (.lifecycle err)
    | .ok _ => restoreRunningEach at_ rest (r.adoptStep step)

/-- Loads a snapshot: the arena as it was, non-terminal jobs re-classified through `submit`,
running jobs restored, ledgers last. Returns `takenAt`. -/
def restoreSnapshot (r : Roster) (snapshot : Snapshot) :
    Except RecoverError (Roster × VirtualTime) :=
  match Arena.fromParts (snapshot.slots.map (Slot.map reopen)) snapshot.freeHead with
  | .error err => .error (.arena err)
  | .ok jobs => do
    let r := { r with jobs := jobs }
    let r ← submitEach config snapshot.takenAt (jobs.iter.map fun p => (p.1, p.2.state)) r
    let r ← restoreRunningEach config snapshot.takenAt snapshot.running r
    match r.scheduler.restoreLedgers snapshot.ledgers with
    | .error err => .error (.lifecycle err)
    | .ok scheduler => .ok ({ r with scheduler := scheduler }, snapshot.takenAt)

def replayed {α : Type} (r : Roster) (step : Step α) (note : Roster → α → Roster) :
    Except RecoverError Roster :=
  match step.result with
  | .error err => .error (.lifecycle err)
  | .ok a => .ok (note (r.adoptStep step) a)

/-- Replays one record through the same calls the live engine uses. `none` is the panic of an
arena that cannot issue another id. -/
def applyRecord (r : Roster) : Record → Option (Except RecoverError Roster)
  | .submitted id job => do
    let next ← r.jobs.nextId
    if next ≠ id then return .error (.idMismatch id next)
    else
      let inserted ← r.jobs.insert job
      let r := { r with jobs := inserted.1 }
      return r.replayed (r.scheduler.submit id r.jobs job.submitTime config)
        fun r state => r.noteIf state id job.submitTime
  | .dispatched id at_ =>
    some (r.replayed (r.scheduler.restoreRunning id r.jobs at_ config) fun r _ => r)
  | .completed id at_ =>
    some (r.replayed (r.scheduler.onCompleted id r.jobs at_ config)
      fun r _ => r.noteTerminal id at_)
  | .failed id at_ =>
    some (r.replayed (r.scheduler.onFailed id r.jobs at_ config)
      fun r cascade => (r.noteTerminal id at_).noteAll cascade at_)
  | .cancelled id at_ =>
    some (r.replayed (r.scheduler.cancel id r.jobs at_ config)
      fun r cascade => (r.noteTerminal id at_).noteAll cascade at_)
  | .requeued id at_ =>
    some (r.replayed (r.scheduler.requeue id r.jobs at_ config) fun r _ => r)
  | .preempted id _ => some (r.replayed (r.scheduler.preempt id r.jobs) fun r _ => r)
  | .forgotten id => some (.ok { r with jobs := (r.jobs.remove id).1 })

def recordTime : Record → VirtualTime
  | .submitted _ job => job.submitTime
  | .dispatched _ at_ | .completed _ at_ | .failed _ at_ | .cancelled _ at_ | .requeued _ at_
  | .preempted _ at_ => at_
  | .forgotten _ => 0

/-- `applyRecord`, keeping track of the latest time seen. -/
def apply (r : Roster) (record : Record) (latest : VirtualTime) :
    Option (Except RecoverError (Roster × VirtualTime)) := do
  match ← r.applyRecord config record with
  | .error err => return .error err
  | .ok r => return .ok (r, max latest (recordTime record))

def applyEach : List Record → Roster → VirtualTime →
    Option (Except RecoverError (Roster × VirtualTime))
  | [], r, latest => some (.ok (r, latest))
  | record :: rest, r, latest => do
    match ← r.apply config record latest with
    | .error err => return .error err
    | .ok (r, latest) => applyEach rest r latest

/-- Requeues the jobs that were being evicted when the log ended. -/
def requeueEvicting (latest : VirtualTime) : List JobId → Roster → Except RecoverError Roster
  | [], r => .ok r
  | id :: rest, r =>
    let step := r.scheduler.requeue id r.jobs latest config
    match step.result with
    | .error err => .error (.lifecycle err)
    | .ok _ => requeueEvicting latest rest (r.adoptStep step)

def evictingIds (jobs : Arena Job) : List JobId :=
  (jobs.iter.filter (·.2.state = .preempted)).map (·.1)

/-- The snapshot, if there is one, and the records after it. -/
def reload (r : Roster) (recovered : Recovered) :
    Option (Except RecoverError (Roster × VirtualTime)) :=
  match recovered.snapshot with
  | none => applyEach config recovered.records r 0
  | some snapshot =>
    match r.restoreSnapshot config snapshot with
    | .error err => some (.error err)
    | .ok (r, latest) => applyEach config recovered.records r latest

end

end Roster

/-- Holds what was running, requeues what was being evicted. -/
def Core.settle (config : CycleConfig) (c : Core) (latest : VirtualTime) :
    Except RecoverError Core := do
  let r ← Roster.requeueEvicting config latest (Roster.evictingIds c.jobs) c.toRoster
  return { c with toRoster := r, reconciling := Engine.runningIds c.jobs }

namespace Engine

section

variable [Crc32]

/-- Rebuilds an engine from what the store found, then queues a fresh snapshot so the first
commit compacts the log. -/
def recover (config : DaemonConfig) (recovered : Recovered) (journal : Journal) :
    Option (Except RecoverError Engine) := do
  let start := withJournal config journal
  match ← start.reload config.cycle recovered with
  | .error err => return .error err
  | .ok (r, latest) =>
    match (start.toCore.withRoster r).settle config.cycle latest with
    | .error err => return .error err
    | .ok c =>
      let e := start.withCore c
      let bytes ← e.encodeSnapshot latest
      return .ok (e.withLog (e.journal.map (·.attachSnapshot bytes)))

end

end Engine

end TaskerRT.Daemon
