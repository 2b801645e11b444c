/- module: TaskerRT/Domain/Job
   source: crates/tasker-core/src/domain/job.rs
   digest: The job record and its state machine. -/

import TaskerRT.Domain.FreeList
import TaskerRT.Library.Decoder

set_option autoImplicit false

namespace TaskerRT.Domain

open Library

abbrev AccountId := Word 32

/-- Quality-of-service tier. Higher variants outrank lower ones outright. -/
inductive PriorityClass where
  | low
  | normal
  | high
  | urgent
  deriving DecidableEq, Repr

namespace PriorityClass

def all : List PriorityClass := [low, normal, high, urgent]

def ordinal : PriorityClass → Word 8
  | low => 0
  | normal => 1
  | high => 2
  | urgent => 3

theorem ordinal_injective {a b : PriorityClass} (h : a.ordinal = b.ordinal) : a = b := by
  cases a <;> cases b <;> first | rfl | (revert h; decide)

theorem mem_all (c : PriorityClass) : c ∈ all := by
  cases c <;> decide

end PriorityClass

inductive JobState where
  | submitted
  | blocked
  | ready
  | running
  | completed
  | failed
  | preempted
  | cancelled
  deriving DecidableEq, Repr

namespace JobState

def all : List JobState :=
  [submitted, blocked, ready, running, completed, failed, preempted, cancelled]

def isTerminal : JobState → Bool
  | completed | failed | cancelled => true
  | _ => false

def canTransitionTo : JobState → JobState → Bool
  | submitted, blocked | submitted, ready | submitted, cancelled => true
  | blocked, ready | blocked, cancelled => true
  | ready, running | ready, cancelled => true
  | running, completed | running, failed | running, preempted | running, cancelled => true
  | preempted, ready | preempted, completed | preempted, failed | preempted, cancelled => true
  | _, _ => false

def onWorker : JobState → Bool
  | running | preempted => true
  | _ => false

/-- The states of a job past its dependencies and not yet over. -/
def isCleared : JobState → Bool
  | ready | running | preempted => true
  | _ => false

def isRequeuable : JobState → Bool
  | submitted | blocked | running | preempted => true
  | _ => false

theorem isRequeuable_of_onWorker {s : JobState} (h : s.onWorker = true) :
    s.isRequeuable = true := by
  cases s <;> first | rfl | (revert h; decide)

theorem not_terminal_of_isRequeuable {s : JobState} (h : s.isRequeuable = true) :
    s.isTerminal = false := by
  cases s <;> first | rfl | (revert h; decide)

theorem not_terminal_of_canTransitionTo {s t : JobState} (h : s.canTransitionTo t = true) :
    s.isTerminal = false := by
  cases s <;> cases t <;> first | rfl | (revert h; decide)

theorem not_terminal_of_onWorker {s : JobState} (h : s.onWorker = true) :
    s.isTerminal = false := by
  cases s <;> first | rfl | (revert h; decide)

theorem isCleared_of_onWorker {s : JobState} (h : s.onWorker = true) : s.isCleared = true := by
  cases s <;> first | rfl | (revert h; decide)

theorem cases_of_not_terminal {s : JobState} (h : s.isTerminal = false) :
    s = submitted ∨ s = blocked ∨ s.isCleared = true := by
  revert h
  cases s <;> decide

theorem canTransitionTo_completed {s : JobState} :
    s.canTransitionTo completed = true ↔ s.onWorker = true := by
  cases s <;> decide

theorem canTransitionTo_failed {s : JobState} :
    s.canTransitionTo failed = true ↔ s.onWorker = true := by
  cases s <;> decide

theorem canTransitionTo_cancelled {s : JobState} :
    s.canTransitionTo cancelled = true ↔ s.isTerminal = false := by
  cases s <;> decide

theorem canTransitionTo_running {s : JobState} :
    s.canTransitionTo running = true ↔ s = ready := by
  cases s <;> decide

theorem canTransitionTo_preempted {s : JobState} :
    s.canTransitionTo preempted = true ↔ s = running := by
  cases s <;> decide

end JobState

structure TransitionError where
  source : JobState
  target : JobState
  deriving DecidableEq, Repr

structure Job where
  account : AccountId
  priorityClass : PriorityClass
  submitTime : VirtualTime
  request : ResourceRequest
  walltimeLimit : VirtualDuration
  deps : List JobId
  payload : Bytes
  state : JobState
  preemptions : Word 8
  deriving DecidableEq, Repr

namespace Job

/-- A `submitted` job with no dependencies and no payload. -/
def new (account : AccountId) (priorityClass : PriorityClass) (submitTime : VirtualTime)
    (request : ResourceRequest) (walltimeLimit : VirtualDuration) : Job where
  account := account
  priorityClass := priorityClass
  submitTime := submitTime
  request := request
  walltimeLimit := walltimeLimit
  deps := []
  payload := []
  state := .submitted
  preemptions := 0

def withState (job : Job) (state : JobState) : Job := { job with state := state }

@[simp] theorem state_withState (job : Job) (s : JobState) : (job.withState s).state = s := rfl

@[simp] theorem deps_withState (job : Job) (s : JobState) :
    (job.withState s).deps = job.deps := rfl

@[simp] theorem account_withState (job : Job) (s : JobState) :
    (job.withState s).account = job.account := rfl

@[simp] theorem priorityClass_withState (job : Job) (s : JobState) :
    (job.withState s).priorityClass = job.priorityClass := rfl

@[simp] theorem request_withState (job : Job) (s : JobState) :
    (job.withState s).request = job.request := rfl

@[simp] theorem withState_withState (job : Job) (s t : JobState) :
    (job.withState s).withState t = job.withState t := rfl

def movedTo (next : JobState) (job : Job) : Job :=
  if job.state.canTransitionTo next then job.withState next else job

theorem movedTo_of_can {job : Job} {next : JobState}
    (h : job.state.canTransitionTo next = true) : job.movedTo next = job.withState next :=
  if_pos h

theorem movedTo_of_not {job : Job} {next : JobState}
    (h : job.state.canTransitionTo next = false) : job.movedTo next = job :=
  if_neg (by simp [h])

@[simp] theorem deps_movedTo (job : Job) (next : JobState) :
    (job.movedTo next).deps = job.deps := by
  unfold movedTo
  split <;> rfl

/-- Moves to `next` if legal; otherwise the error, and nothing changes. -/
def tryTransition (job : Job) (next : JobState) : Except TransitionError Job :=
  if job.state.canTransitionTo next then .ok (job.withState next)
  else .error ⟨job.state, next⟩

theorem tryTransition_ok {job job' : Job} {next : JobState} :
    job.tryTransition next = .ok job' ↔
      job.state.canTransitionTo next = true ∧ job' = job.withState next := by
  unfold tryTransition
  split
  · rename_i h
    simp only [Except.ok.injEq, h, true_and, eq_comm]
  · rename_i h
    simp only [reduceCtorEq, h, false_and]

theorem tryTransition_of_can {job : Job} {next : JobState}
    (h : job.state.canTransitionTo next = true) :
    job.tryTransition next = .ok (job.withState next) :=
  tryTransition_ok.mpr ⟨h, rfl⟩

theorem tryTransition_of_not {job : Job} {next : JobState}
    (h : job.state.canTransitionTo next = false) :
    job.tryTransition next = .error ⟨job.state, next⟩ := by
  unfold tryTransition
  rw [if_neg (by simp [h])]

end Job

end TaskerRT.Domain
