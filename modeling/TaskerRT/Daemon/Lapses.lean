/- module: TaskerRT/Daemon/Lapses
   source: crates/taskerd/src/engine.rs (recover, restore_snapshot, apply, encode_snapshot)
   digest: What a restart may lose, runs that lose it, and when nothing is lost. -/

import TaskerRT.Daemon.Immunity

set_option autoImplicit false

namespace TaskerRT.Daemon

open Library Domain Cluster Policy Scheduling Wal Book DependencyTracker

namespace Engine

variable {config : DaemonConfig} {e e' e₂ : Engine} {inputs later : List Input}
  {records rest : List Record} {recovered : Recovered} {journal : Journal} {first : Option Journal}
  {now at_ : VirtualTime} {r : Roster}

attribute [local instance] Crc32.ieee

/-- One job runs and the other waits for it. -/
def waiting : Engine :=
  (safeRun (withJournal sampleDaemon (Journal.new 4096)) (replayInputs.take 4)).get
    (by decide +kernel)

/-- One job was evicted for the other. -/
def evicted : Engine :=
  (safeRun (withJournal evictingDaemon (Journal.new 4096)) evictedInputs).get (by decide +kernel)

end Engine

end TaskerRT.Daemon
