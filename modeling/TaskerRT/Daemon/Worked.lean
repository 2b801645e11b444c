/- module: TaskerRT/Daemon/Worked
   source: none (abstract layer over crates/taskerd/src/engine.rs)
   digest: Rosters that stay sane, act after act. -/

import TaskerRT.Daemon.Tidy
import TaskerRT.Scheduler.Shift

set_option autoImplicit false

namespace TaskerRT.Daemon

open Library Domain Cluster Policy Scheduling Wal Book DependencyTracker

namespace Act

/-- What an act needs for its record to be legal: a requeued job comes from a worker, and a
forgotten handle is not the last of its slot. -/
def Legal (r : Roster) : Act → Prop
  | requeued id _ => Worked r.book id
  | forgotten id => id.generation ≠ Word.maxValue 32
  | _ => True

end Act

namespace Roster

variable {config : CycleConfig} {r r' : Roster} {act : Act}

/-- The ready set mirrors the arena, the tracker is sound, and what retention will look at was
issued and is over. -/
structure Sane (r : Roster) : Prop where
  kept : Scheduler.Kept r.scheduler r.jobs
  valid : Valid r.book
  noted : ∀ p ∈ r.terminal, r.jobs.Issued p.2 ∧
    ∀ job, r.jobs.get p.2 = some job → job.state.isTerminal = true

theorem Sane.toNoted (h : Sane r) : r.Noted := fun p hp => (h.noted p hp).2

theorem Does.lawful (hd : r.Does config act r') (hs : Sane r) (hl : act.Legal r) :
    Chain Lawful r.book act.records r'.book := by
  have hposts := hd.posts hs.kept hs.toNoted
  cases act with
  | requeued id now =>
    exact .single ⟨hposts.of_single, hl⟩
  | evicted id now =>
    refine .single ⟨hposts.of_single, ?_⟩
    cases hd with
    | evicted now ok =>
      obtain ⟨job, hid, hst⟩ := Scheduler.onPreempted_inv ok
      exact ⟨job, hid, by rw [hst]; rfl⟩
  | forgotten id =>
    exact .single ⟨hposts.of_single, hl⟩
  | dispatched ids now =>
    refine hposts.imp fun s record s' hmem hp => ⟨hp, ?_⟩
    obtain ⟨id, -, rfl⟩ := List.mem_map.mp hmem
    trivial
  | submitted | completed | failed | cancelled | preempted =>
    refine hposts.imp fun s record s' hmem hp => ⟨hp, ?_⟩
    rw [List.mem_singleton.mp hmem]
    trivial
  | dropped id => exact hposts.imp fun s record s' hmem _ => nomatch hmem

def Acts (config : CycleConfig) (r : Roster) (act : Act) (r' : Roster) : Prop :=
  r.Does config act r' ∧ act.Legal r

private theorem Sane.cascade (h : Sane r) (id : JobId) (job : Job)
    (hid : r.jobs.get id = some job) :
    ∀ x ∈ (r.scheduler.deps.onTerminated id).2, ∃ j, r.jobs.get x = some j ∧
      j.state.isTerminal = false := by
  intro x hx
  obtain ⟨hne, hreach⟩ := mem_onTerminated.mp hx
  obtain ⟨j, hj, hst⟩ := (h.valid.sound.reach_blocked hid hreach).resolve_left hne
  exact ⟨j, hj, by rw [hst]; rfl⟩

theorem Sane.does (h : Sane r) (hd : r.Does config act r') (hl : act.Legal r) : Sane r' := by
  have hchain := hd.lawful h hl
  have hvalid : Valid r'.book := (Valid.chain hchain h.valid).1
  have hnoted : ∀ p ∈ r.terminal, r'.jobs.Issued p.2 ∧
      ∀ job, r'.jobs.get p.2 = some job → job.state.isTerminal = true := fun p hp =>
    noted_of_chain (fun hc h => (hc.2 h).symm ▸ h) hchain h.valid (h.noted p hp)
  refine ⟨hd.kept h.kept h.toNoted, hvalid, fun p hp => ?_⟩
  cases hd.queues h.valid.sound.placed h.cascade with
  | forgotten front jobs => exact hnoted p (front ▸ List.mem_cons_of_mem _ hp)
  | dropped front same => exact hnoted p (front ▸ List.mem_cons_of_mem _ hp)
  | extended keeps queue nodup ended =>
    rw [queue] at hp
    rcases List.mem_append.mp hp with hp | hp
    · exact hnoted p hp
    · obtain ⟨job, hjob, hover⟩ := (ended p hp).1
      refine ⟨Arena.issued_of_get hjob, fun j hj => ?_⟩
      rw [hjob, Option.some.injEq] at hj
      exact hj ▸ hover

theorem Sane.chain {acts : List Act} (h : Sane r) (hd : Chain (Acts config) r acts r') :
    Sane r' ∧ Chain Lawful r.book (acts.flatMap Act.records) r'.book :=
  hd.simulate (fun _ _ _ hd h => ⟨h.does hd.1 hd.2, hd.1.lawful h hd.2⟩) h

theorem Sane.worked (h : Sane r) (hd : r.Does config act r') (hl : act.Legal r) {x : JobId}
    (hfree : ∀ record ∈ act.records, frees x record = false) :
    Worked r'.book x ↔ Worked r.book x ∨ ∃ record ∈ act.records, starts x record = true :=
  (Valid.chain (hd.lawful h hl) h.valid).2 x hfree

end Roster

end TaskerRT.Daemon
