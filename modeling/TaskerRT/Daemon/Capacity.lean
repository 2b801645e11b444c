/- module: TaskerRT/Daemon/Capacity
   source: crates/taskerd/src/engine.rs, crates/tasker-core/src/cluster/slot.rs
   digest: Allocations match the bindings in every state; handles are bound once until one wraps. -/

import TaskerRT.Daemon.Balance
import TaskerRT.Daemon.Lives
import TaskerRT.Daemon.Wrapped

set_option autoImplicit false

namespace TaskerRT.Daemon

open Library Domain Cluster Policy Scheduling Wal

namespace Engine

section

variable [Crc32] {e e' start : Engine} {input : Input} {inputs : List Input}

private theorem Begins.sane (h : start.Begins) : start.toCore.Sane := by
  cases h with
  | fresh config journal => exact sane_build config journal
  | recovered fits ok => exact sane_of_recover fits ok

private theorem Starts.balanced (h : start.Starts) : Balanced start.running start.inventory := by
  obtain ⟨hrunning, hinventory⟩ := h.unbound
  rw [hrunning, hinventory]
  exact ⟨fun r hr => (nomatch hr), fun i s hs => (nomatch hs)⟩

private theorem Steps.balanced (h : e.Steps input e') (hb : Balanced e.running e.inventory) :
    Balanced e'.running e'.inventory := by
  obtain ⟨events, hturns⟩ := h.turns
  exact hturns.chain.keeps (P := fun c => Balanced c.running c.inventory)
    (fun _ _ _ ht hb => ht.balanced hb) hb

/-- In every state, and in between the events of every turn, a slot has allocated what its bindings
hold, and no binding holds more than that, so no release saturates. If the engine has a past or
began with a tail that fits, and as long as no slot of the arena is forgotten for the 2^32nd time,
no job is bound twice. -/
theorem capacity_accounting_exact (hstart : start.Starts) (hrun : Chain Steps start inputs e) :
    (∀ events c, Chain (Core.Takes e.cycle) e.toCore events c →
        (∀ i s, c.inventory.slots[i]? = some s →
          ∀ d, s.allocated.amount d = heldBy c.running i d) ∧
        ∀ r ∈ c.running, ∃ s, c.inventory.slots[r.slot]? = some s ∧
          r.resources.fitsWithin s.allocated = true) ∧
      ((start.Begins ∨ ∃ config, Lives config start) → Chain SafeSteps start inputs e →
        (e.running.map (·.job)).Nodup) := by
  have hbalanced : Balanced e.running e.inventory :=
    hrun.keeps (P := fun e => Balanced e.running e.inventory) (fun _ _ _ hstep => hstep.balanced)
      hstart.balanced
  refine ⟨fun events c hchain => ?_, fun hpast hsafe => ?_⟩
  · have hb : Balanced c.running c.inventory :=
      hchain.keeps (P := fun c => Balanced c.running c.inventory)
        (fun _ _ _ ht hb => ht.balanced hb) hbalanced
    exact ⟨hb.exact_, fun r hr => hb.le_allocated hr⟩
  · have hsane : start.toCore.Sane :=
      hpast.elim Begins.sane fun ⟨_, hlives⟩ => hlives.sturdy.eligible.sane
    exact (List.nodup_append.mp (sane_of_run hsafe hsane).nodup).1

end

attribute [local instance] Crc32.ieee

/-- Two jobs on one worker hold three of its four. -/
theorem capacity_accounting_exact_sample : ∃ e s,
    safeRun (Engine.new sampleDaemon) [(sampleJoin 4).sent 0,
        (sampleSubmit .normal 1 []).sent 0, (sampleSubmit .normal 2 []).sent 0, tickAt 0] = some e ∧
      e.inventory.slots[0]? = some s ∧ s.allocated.amount .cpuMillis = heldBy e.running 0 .cpuMillis ∧
      heldBy e.running 0 .cpuMillis = 3 ∧ (e.running.map (·.job)).Nodup := by
  have hlook : (safeRun (Engine.new sampleDaemon) [(sampleJoin 4).sent 0,
        (sampleSubmit .normal 1 []).sent 0, (sampleSubmit .normal 2 []).sent 0, tickAt 0]).any
      (fun e => e.inventory.slots[0]?.isSome && heldBy e.running 0 .cpuMillis == 3) = true := by
    decide +kernel
  obtain ⟨e, hrun, hlook⟩ := (Option.any_eq_true _ _).mp hlook
  obtain ⟨hslot, hheld⟩ := Bool.and_eq_true_iff.mp hlook
  obtain ⟨s, hs⟩ := Option.isSome_iff_exists.mp hslot
  have hsafe := chain_of_safeRun hrun
  obtain ⟨hexact, hnodup⟩ := @capacity_accounting_exact Crc32.ieee e (Engine.new sampleDaemon) _
    (Or.inl ⟨sampleDaemon, none, rfl⟩) (hsafe.imp fun _ _ _ _ h => h.1)
  exact ⟨e, s, hrun, hs, (hexact [] _ (.nil _)).1 0 s hs .cpuMillis, by simpa using hheld,
    hnodup (.inl (.fresh sampleDaemon none)) hsafe⟩

/-- A handle issued again after 2^32 generations, twice: its job is bound twice. -/
theorem reissued_handle_bound_twice : ∃ inputs e,
    Chain Steps (Engine.new sampleDaemon) inputs e ∧
      e.running.map (·.job) = [⟨1⟩, ⟨1⟩] := by
  obtain ⟨inputs, hchain⟩ := chain_boundTwice
  exact ⟨inputs, boundTwice, hchain, by decide +kernel⟩

end Engine

end TaskerRT.Daemon
