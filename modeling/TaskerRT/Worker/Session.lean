/- module: TaskerRT/Worker/Session
   source: crates/tasker-worker/src/worker.rs
   digest: The attach loop of a worker and the tasks it spawns, one indivisible step at a time. -/

import TaskerRT.Domain.Job
import TaskerRT.Library.Chain

set_option autoImplicit false

namespace TaskerRT.Worker

open Library Domain

/-- What a worker says of a task, without the number no worker sends. -/
inductive TaskResult where
  | succeeded
  | failed
  | timedOut
  | panicked
  | preempted
  deriving DecidableEq, Repr

/-- How the task of an executor ends. `cancelled` takes an abort of that inner task. -/
inductive Ended where
  | returned
  | erred
  | panicked
  | cancelled
  deriving DecidableEq, Repr

inductive Joined where
  | ended (how : Ended)
  | elapsed
  deriving DecidableEq, Repr

/-- Turns a join outcome into a report. `stopped` reads an error after a stop request as an
eviction. -/
def classify : Joined → Bool → Option TaskResult
  | .ended .returned, _ => some .succeeded
  | .ended .erred, true => some .preempted
  | .ended .erred, false => some .failed
  | .ended .panicked, _ => some .panicked
  | .ended .cancelled, _ => none
  | .elapsed, _ => some .timedOut

/-- Where `run_task` is. `done` tells what it sent, if anything. -/
inductive Phase where
  | racing
  | stopping
  | reporting (result : TaskResult)
  | done (sent : Option TaskResult)
  deriving DecidableEq, Repr

namespace Phase

def isDone : Phase → Bool
  | done _ => true
  | _ => false

def isReporting : Phase → Bool
  | reporting _ => true
  | _ => false

def sent : Phase → Option TaskResult
  | done result => result
  | _ => none

end Phase

/-- One `run_task`. `inner` is the end of the executor's own task, which is spawned apart and
outlives the abort of this one. `stop` is the value of the watch channel, `aborted` and `expired`
say that an abort of the outer or the inner task was asked for. -/
structure Run where
  job : JobId
  phase : Phase
  inner : Option Ended
  stop : Bool
  aborted : Bool
  expired : Bool
  deriving DecidableEq, Repr

/-- What a run can do by itself, and when. -/
inductive Turn where
  | executorEnds (how : Ended)
  | join
  | elapse
  | stopSeen
  | cancel
  deriving DecidableEq, Repr

namespace Run

def start (job : JobId) : Run := ⟨job, .racing, none, false, false, false⟩

def settle (r : Run) : Option TaskResult → Run
  | some result => { r with phase := .reporting result }
  | none => { r with phase := .done none }

/-- An abort takes effect at an await point, so an aborted run may still get further before it is
dropped. A timeout looks at the task before it looks at the clock, so both may have come. -/
def turn (r : Run) : Turn → Option Run
  | .executorEnds how =>
    if r.inner = none ∧ (how = .cancelled → r.expired = true) then
      some { r with inner := some how }
    else none
  | .join => r.inner.bind fun how => match r.phase with
    | .racing => some (r.settle (classify (.ended how) false))
    | .stopping => some (r.settle (classify (.ended how) true))
    | _ => none
  | .elapse => match r.phase with
    | .racing => some ({ r with expired := true }.settle (classify .elapsed false))
    | .stopping => some ({ r with expired := true }.settle (some .preempted))
    | _ => none
  | .stopSeen => if r.phase = .racing ∧ r.stop = true then some { r with phase := .stopping }
    else none
  | .cancel => if r.aborted = true ∧ r.phase.isDone = false then
      some { r with phase := .done none }
    else none

end Run

/-- `Up::Finished`, with the number of the run it is about. No decision reads the number. -/
structure Report where
  run : Nat
  job : JobId
  result : TaskResult
  deriving DecidableEq, Repr

inductive UpMessage where
  | hello (inFlight : List JobId)
  | draining
  | heartbeat
  | finished (report : Report)
  deriving DecidableEq, Repr

def UpMessage.report? : UpMessage → Option Report
  | finished report => some report
  | _ => none

inductive Exit where
  | drained
  | deadline
  | disconnected
  | signalled
  deriving DecidableEq, Repr

/-- Where the attach loop is: in `connect`, in `wait_backoff`, before `Welcome`, in the select
loop, or gone. -/
inductive Link where
  | connecting
  | waiting
  | greeting
  | up
  | exited (why : Exit)
  deriving DecidableEq, Repr

def backlog : Nat := 1024

/-- A worker process. `results` stands for the bounded channel of the runtime's library, which is
documented as first in, first out. `inHand` is a report on its way from there to the stream. `runs`,
`streams` and `dropped` are history: every task spawned, every message put on a stream (the
connection of today first), and every report the full backlog refused to take back. -/
structure Session where
  runs : List Run
  tasks : List (JobId × Nat)
  results : List Report
  inHand : Option Report
  draining : Bool
  link : Link
  streams : List (List UpMessage)
  dropped : List Report
  deriving DecidableEq, Repr

inductive Event where
  | connectFailed
  | connected
  | refused
  | welcomed
  | slept
  | assign (job : JobId)
  | kill (job : JobId)
  | preempt (job : JobId)
  | closed
  | broke
  | take
  | sent
  | unsent (kept : Bool)
  | heartbeat (ok : Bool)
  | sigterm
  | drainPoll
  | deadline
  | turn (k : Nat) (t : Turn)
  | deliver (k : Nat)
  deriving DecidableEq, Repr

namespace Session

def start : Session := ⟨[], [], [], none, false, .connecting, [], []⟩

def task (s : Session) (job : JobId) : Option Nat := (s.tasks.find? (·.1 = job)).map (·.2)

def isFinished (s : Session) (k : Nat) : Bool := (s.runs[k]?).all (·.phase.isDone)

def prune (s : Session) : Session :=
  { s with tasks := s.tasks.filter fun entry => !s.isFinished entry.2 }

def say (s : Session) (message : UpMessage) : Session :=
  { s with streams := match s.streams with
    | [] => [[message]]
    | open_ :: rest => (open_ ++ [message]) :: rest }

def remove (s : Session) (job : JobId) : Session :=
  { s with tasks := s.tasks.filter (·.1 ≠ job) }

def update (s : Session) (k : Nat) (r : Run) : Session := { s with runs := s.runs.set k r }

/-- `SessionEnd::Disconnected`. Only the task set is looked at, not the backlog. -/
def disconnect (s : Session) : Session :=
  { s with link := if s.draining = true ∧ s.tasks = [] then .exited .disconnected else .waiting }

def isServing (s : Session) : Bool := s.link = .up ∧ s.inHand = none

def isAlive (s : Session) : Bool := match s.link with
  | .exited _ => false
  | _ => true

/-- Runs that wait for room in the backlog. Room that was made may be promised to them already. -/
def waiting (s : Session) : Nat := s.runs.countP (·.phase.isReporting)

/-- `Assign`. The entry of an older run of the job is overwritten: that run goes on, and nobody
can stop it any more. -/
def onAssign (s : Session) (job : JobId) : Session :=
  let s' := s.remove job
  { s' with runs := s.runs ++ [.start job], tasks := s'.tasks ++ [(job, s.runs.length)] }

def onKill (s : Session) (job : JobId) : Session :=
  match s.task job with
  | none => s
  | some k => match s.runs[k]? with
    | none => s.remove job
    | some r => (s.remove job).update k { r with aborted := true }

def onPreempt (s : Session) (job : JobId) : Session :=
  match s.task job with
  | none => s
  | some k => match s.runs[k]? with
    | none => s
    | some r => s.update k { r with stop := true }

/-- The report could not be sent: back into the backlog if there is room. -/
def onUnsent (s : Session) (report : Report) (kept : Bool) : Option Session :=
  let s' := { s with inHand := none }
  if kept then
    if s.results.length < backlog then
      some { s' with results := s.results ++ [report] }.disconnect
    else none
  else if backlog ≤ s.results.length + s.waiting then
    some { s' with dropped := s.dropped ++ [report] }.disconnect
  else none

/-- SIGTERM, once. Between two connections the worker leaves at once if no task has an entry. -/
def onSigterm (s : Session) : Option Session :=
  let s' := { s with draining := true }
  if s.draining then none
  else if s.isServing then some (s'.say .draining)
  else if s.link = .waiting then
    some (if s.tasks = [] then { s' with link := .exited .signalled } else s')
  else none

def onDrainPoll (s : Session) : Session :=
  let s' := s.prune
  if s'.tasks = [] ∧ s'.results = [] then { s' with link := .exited .drained } else s'

def step (s : Session) : Event → Option Session
  | .connectFailed => if s.link = .connecting then some { s with link := .waiting } else none
  | .connected => if s.link = .connecting then
      let s' := s.prune
      some { s' with
        link := .greeting
        streams := [.hello (s'.tasks.map (·.1))] :: s.streams }
    else none
  | .refused => if s.link = .greeting then some { s with link := .waiting } else none
  | .welcomed => if s.link = .greeting then
      let s' := { s with link := .up }
      some (if s.draining then s'.say .draining else s')
    else none
  | .slept => if s.link = .waiting then some { s with link := .connecting } else none
  | .assign job => if s.isServing then some (s.onAssign job) else none
  | .kill job => if s.isServing then some (s.onKill job) else none
  | .preempt job => if s.isServing then some (s.onPreempt job) else none
  | .closed => if s.isServing then some s.disconnect else none
  | .broke => if s.isServing then some { s with link := .waiting } else none
  | .take => if s.isServing then match s.results with
      | [] => none
      | report :: rest => some { s with results := rest, inHand := some report }
    else none
  | .sent => s.inHand.map fun report => { s with inHand := none }.say (.finished report)
  | .unsent kept => s.inHand.bind fun report => s.onUnsent report kept
  | .heartbeat ok => if s.isServing then
      some (if ok then s.prune.say .heartbeat else s.prune.disconnect)
    else none
  | .sigterm => s.onSigterm
  | .drainPoll => if s.isServing ∧ s.draining then some s.onDrainPoll else none
  | .deadline => if s.draining ∧ (s.isServing ∨ s.link = .waiting) then
      some { s with link := .exited .deadline }
    else none
  | .turn k t => if s.isAlive then
      (s.runs[k]?).bind fun r => (r.turn t).map (s.update k)
    else none
  | .deliver k => if s.isAlive ∧ s.results.length < backlog then
      (s.runs[k]?).bind fun r => match r.phase with
        | .reporting result => some { s.update k { r with phase := .done (some result) } with
            results := s.results ++ [⟨k, r.job, result⟩] }
        | _ => none
    else none

def Steps (s : Session) (event : Event) (s' : Session) : Prop := s.step event = some s'

end Session

end TaskerRT.Worker
