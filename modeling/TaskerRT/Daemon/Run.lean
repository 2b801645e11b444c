/- module: TaskerRT/Daemon/Run
   source: crates/taskerd/src/engine.rs (run, drain, handle, tick)
   digest: Runs of the scheduler thread under any commands, ticks and outbox behaviour. -/

import TaskerRT.Daemon.Tick
import TaskerRT.Scheduler.HeadDelay

set_option autoImplicit false

namespace TaskerRT.Daemon

open Library Domain Cluster Policy Scheduling Wal

/-- One turn of the scheduler thread: a command, a tick, or a reading of the shutdown flag. The
outbox is in any condition, and the writer's channel has room or not. -/
inductive Input where
  | command (command : Command) (now : VirtualTime) (outbox : Outbox)
  | tick (now : VirtualTime) (outbox : Outbox) (room : Bool)
  | quiesce (leaving : Bool)

namespace Engine

variable [Crc32]

/-- What one turn leaves of the engine. `none` is a panic. -/
def step (e : Engine) : Input → Option Engine
  | .command command now outbox => (Host.handle ⟨e, outbox, []⟩ command now).map (·.engine)
  | .tick now outbox room => (Host.tick ⟨e, outbox, []⟩ now room).map (·.1.engine)
  | .quiesce leaving => some { e with quiescing := leaving }

def Steps (e : Engine) (input : Input) (e' : Engine) : Prop := e.step input = some e'

def run (e : Engine) (inputs : List Input) : Option Engine := inputs.foldlM step e

theorem chain_of_run {inputs : List Input} {e e' : Engine} (h : e.run inputs = some e') :
    Chain Steps e inputs e' := Chain.of_foldlM h

end Engine

def Event.From (e : Engine) (event : Event) : Input → Prop
  | .command command _ _ => event.Due e command
  | .tick now _ _ => event.isTick = true ∧ ∀ id, event = .acted (.forgotten id) → id ∈ e.expired now
  | .quiesce _ => False

namespace Engine

structure Turns (e : Engine) (input : Input) (events : List Event) (e' : Engine) : Prop where
  chain : Chain (Core.Takes e.cycle) e.toCore events e'.toCore
  cause : ∀ ev ∈ events, ev.From e input
  cycle : e'.cycle = e.cycle
  retain : e'.retain = e.retain
  logged : e'.logged = e.logged.map (· ++ events.flatMap Event.records)

private theorem Moves.turns {e e' : Engine} {events : List Event} {input : Input}
    (h : Moves e events e') (hcause : ∀ ev ∈ events, ev.From e input) :
    Turns e input events e' :=
  ⟨h.chain, hcause, h.cycle, h.retain, h.logged⟩

variable [Crc32] {e e' : Engine} {input : Input}

theorem Steps.turns (h : e.Steps input e') :
    ∃ events, Turns e input events e' := by
  cases input with
  | command command now outbox =>
    obtain ⟨host, hhandle, rfl⟩ := Option.map_eq_some_iff.mp h
    obtain ⟨events, hmoves, hdue⟩ := Host.handle_moves hhandle
    exact ⟨events, hmoves.turns hdue⟩
  | tick now outbox room =>
    obtain ⟨⟨host, outcome⟩, htick, rfl⟩ := Option.map_eq_some_iff.mp h
    obtain ⟨events, hmoves, hticks⟩ := Host.tick_ticks (h := ⟨e, outbox, []⟩) htick
    exact ⟨events, hmoves.turns hticks⟩
  | quiesce leaving =>
    obtain rfl := Option.some.inj h
    refine ⟨[], Chain.nil_iff.mpr rfl, by simp, rfl, rfl, ?_⟩
    show e.logged = _
    cases e.logged <;> simp

end Engine

def sampleDaemon : DaemonConfig where
  drainBudget := 64
  heartbeatTimeout := 0
  workerCpuMillis := 4
  minWorkers := 0
  maxWorkers := 4
  shares := []
  retain := 0
  cycle := sampleConfig

def sampleSubmit (priorityClass : PriorityClass) (cpu : Word 32) (deps : List JobId) : Command :=
  .submit ⟨{ sampleJob priorityClass cpu 10 with deps := deps }, rfl, rfl⟩ 0

def sampleJoin (cpu : Word 32) : Command := .workerJoined "w" ⟨cpu, 0, 0⟩ [] 0

def Command.sent (c : Command) (now : VirtualTime) : Input := .command c now (Outbox.new 8)

def tickAt (now : VirtualTime) : Input := .tick now (Outbox.new 8) true

end TaskerRT.Daemon
