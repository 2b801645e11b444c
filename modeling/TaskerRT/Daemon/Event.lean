/- module: TaskerRT/Daemon/Event
   source: crates/taskerd/src/engine.rs
   digest: Everything a command or a tick can do to the scheduling state, as one step relation. -/

import TaskerRT.Daemon.Act

set_option autoImplicit false

namespace TaskerRT.Daemon

open Library Domain Cluster Policy Scheduling Wal

/-- One indivisible change of the scheduling state. `refused`, `stale` and `unconfirmed` drop a
job's binding without a transition: its report, its worker's claim or its eviction was not
accepted. -/
inductive Event where
  | acted (act : Act)
  | refused (id : JobId)
  | stale (id : JobId)
  | unconfirmed (id : JobId)
  | attached (slot : SlotIndex)
  | drained (slot : SlotIndex)
  | bound (id : JobId) (slot : SlotIndex)
  | left (slot : SlotIndex) (acts : List Act)
  | abandoned (slot : SlotIndex)
  | expired (acts : List Act)

namespace Event

def acts : Event → List Act
  | acted act => [act]
  | left _ acts | expired acts => acts
  | _ => []

def records (event : Event) : List Record := event.acts.flatMap Act.records

end Event

namespace Act

/-- Changes of the roster that leave every binding alone. -/
def isFree : Act → Bool
  | submitted _ _ | preempted _ _ | forgotten _ | dropped _ => true
  | _ => false

def ends (id : JobId) : Act → Bool
  | completed x _ | failed x _ | requeued x _ | evicted x _ => x = id
  | _ => false

end Act

namespace Core

def Unbinds (c : Core) (id : JobId) (c' : Core) : Prop :=
  (∃ slot, c.release id = (c', some slot)) ∨ c.unhold id = (c', true)

def bindEach (now : VirtualTime) (decisions : List DispatchDecision) (c : Core) : Core :=
  decisions.foldl (fun c d => (c.jobs.get d.job).elim c fun job => c.bind d.job job d.slot now) c

end Core

/-- Requeues in order what is wanted; a job that cannot be requeued is passed over. -/
inductive Requeues (config : CycleConfig) (now : VirtualTime) (wanted : Job → Bool) :
    Roster → List JobId → List Act → Roster → Prop where
  | nil (r : Roster) : Requeues config now wanted r [] [] r
  | done {r r₁ r₂ : Roster} {id : JobId} {job : Job} {ids : List JobId} {acts : List Act}
      (live : r.jobs.get id = some job) (want : wanted job = true)
      (h : r.Does config (.requeued id now) r₁) (rest : Requeues config now wanted r₁ ids acts r₂) :
      Requeues config now wanted r (id :: ids) (.requeued id now :: acts) r₂
  | skipped {r r₂ : Roster} {id : JobId} {ids : List JobId} {acts : List Act}
      (no : ∀ job, r.jobs.get id = some job → wanted job = true → job.state.isRequeuable = false)
      (rest : Requeues config now wanted r ids acts r₂) :
      Requeues config now wanted r (id :: ids) acts r₂

/-- The step relation behind every handler. -/
inductive Core.Takes (config : CycleConfig) : Core → Event → Core → Prop where
  | acted {c : Core} {act : Act} {r : Roster} (h : c.toRoster.Does config act r)
      (free : act.isFree = true) : Takes config c (.acted act) (c.withRoster r)
  | ended {c c₁ : Core} {act : Act} {id : JobId} {r : Roster} (gone : c.Unbinds id c₁)
      (h : c₁.toRoster.Does config act r) (ends : act.ends id = true) :
      Takes config c (.acted act) (c₁.withRoster r)
  | cancelled {c : Core} {id : JobId} {now : VirtualTime} {r : Roster}
      (h : (c.unbind id).toRoster.Does config (.cancelled id now) r) :
      Takes config c (.acted (.cancelled id now)) ((c.unbind id).withRoster r)
  | refused {c c₁ : Core} {id : JobId} (gone : c.Unbinds id c₁)
      (no : ∀ job, c.jobs.get id = some job → job.state.onWorker = false) :
      Takes config c (.refused id) c₁
  | stale {c c₁ : Core} {id : JobId} (held : c.unhold id = (c₁, true))
      (no : ∀ job, c.jobs.get id = some job → job.state ≠ .running) :
      Takes config c (.stale id) c₁
  | unconfirmed {c c₁ : Core} {id : JobId} (gone : c.Unbinds id c₁)
      (no : ∀ job, c.jobs.get id = some job → job.state ≠ .preempted) :
      Takes config c (.unconfirmed id) c₁
  | attached (c : Core) (name : String) (capacity : Capacity) :
      Takes config c (.attached (c.attach name capacity).2) (c.attach name capacity).1
  | drained (c : Core) (slot : SlotIndex) : Takes config c (.drained slot) (c.drain slot)
  | adopted {c c₁ : Core} {id : JobId} {job : Job} {inventory : SlotInventory} (slot : SlotIndex)
      (now : VirtualTime) (held : c.unhold id = (c₁, true)) (live : c.jobs.get id = some job)
      (state : job.state = .running)
      (fits : c.inventory.tryAllocate slot job.request = .ok inventory) :
      Takes config c (.bound id slot) ({ c₁ with inventory := inventory }.bind id job slot now)
  | rebound {c : Core} {id : JobId} {r : RunningJob} {inventory : SlotInventory}
      (slot : SlotIndex) (found : c.running.find? (·.job = id) = some r)
      (fits : (c.freed r).tryAllocate slot r.resources = .ok inventory) :
      Takes config c (.bound id slot) { c with
        inventory := inventory
        running := c.running.set (c.running.findIdx (·.job = id)) { r with slot := slot } }
  | cycled {c : Core} {now : VirtualTime} {cycle : Scheduler.CycleResult}
      (ran : c.scheduler.runCycle c.jobs c.inventory c.running now config [] = some cycle) :
      Takes config c (.acted (.dispatched (cycle.decisions.map (·.job)) now))
        ({ c with scheduler := cycle.scheduler, jobs := cycle.jobs, inventory := cycle.inventory
          }.bindEach now cycle.decisions)
  | left {c : Core} {slot : SlotIndex} {now : VirtualTime} {acts : List Act} {r : Roster}
      (h : Requeues config now (fun _ => true) c.toRoster (c.boundTo slot) acts r) :
      Takes config c (.left slot acts) (((c.unbindSlot slot).withRoster r).vacate slot)
  | abandoned (c : Core) (slot : SlotIndex) :
      Takes config c (.abandoned slot) ((c.unbindSlot slot).vacate slot)
  | expired {c : Core} {now : VirtualTime} {acts : List Act} {r : Roster}
      (h : Requeues config now (fun job => job.state = .running) c.toRoster c.reconciling acts r) :
      Takes config c (.expired acts) ({ c with reconciling := [] }.withRoster r)

namespace Core

variable {c c₁ : Core} {id : JobId}

/-! Bindings are not part of the roster. -/

private theorem toRoster_release (c : Core) (id : JobId) :
    (c.release id).1.toRoster = c.toRoster := by
  unfold release
  split <;> rfl

private theorem toRoster_unhold (c : Core) (id : JobId) :
    (c.unhold id).1.toRoster = c.toRoster := by
  unfold unhold
  split <;> rfl

theorem toRoster_unbind (c : Core) (id : JobId) : (c.unbind id).toRoster = c.toRoster :=
  (toRoster_unhold _ id).trans (toRoster_release c id)

theorem Unbinds.toRoster (h : c.Unbinds id c₁) : c₁.toRoster = c.toRoster := by
  rcases h with ⟨slot, heq⟩ | heq
  · rw [← toRoster_release c id, heq]
  · rw [← toRoster_unhold c id, heq]

theorem toRoster_bindEach (now : VirtualTime) (ds : List DispatchDecision) :
    ∀ c : Core, (c.bindEach now ds).toRoster = c.toRoster := by
  induction ds with
  | nil => exact fun _ => rfl
  | cons d ds ih =>
    intro c
    refine (ih _).trans ?_
    show (Option.elim (c.jobs.get d.job) c _).toRoster = c.toRoster
    cases c.jobs.get d.job <;> rfl

theorem release_none (h : (c.release id).2 = none) : (c.release id).1 = c := by
  unfold release at h ⊢
  split
  · rfl
  · rename_i r hr
    rw [hr] at h
    exact nomatch h

theorem letGo_unbinds (h : c.letGo id = (c₁, true)) : c.Unbinds id c₁ := by
  unfold letGo at h
  cases hr : c.release id with
  | mk c' found =>
    rw [hr] at h
    cases found with
    | some slot =>
      obtain rfl : c' = c₁ := (Prod.mk.inj h).1
      exact Or.inl ⟨slot, hr⟩
    | none =>
      -- Nothing was released, so nothing changed before `unhold`.
      have hsame : c' = c := by
        have := @release_none c id (by rw [hr])
        rwa [hr] at this
      rw [hsame] at h
      exact Or.inr h

theorem unhold_false (h : (c.unhold id).2 = false) : (c.unhold id).1 = c := by
  unfold unhold at h ⊢
  split
  · rename_i hmem
    rw [if_pos hmem] at h
    exact nomatch h
  · rfl

theorem unhold_true (h : c.unhold id = (c₁, true)) : id ∈ c.reconciling ∧
    c₁ = { c with reconciling := swapRemove c.reconciling (c.reconciling.idxOf id) } := by
  unfold unhold at h
  split at h
  · rename_i hmem
    exact ⟨hmem, (Prod.mk.inj h).1.symm⟩
  · exact nomatch (Prod.mk.inj h).2

theorem release_found {r : RunningJob} (h : c.running.find? (·.job = id) = some r) :
    c.release id = ({ c with
      running := swapRemove c.running (c.running.findIdx (·.job = id))
      inventory := c.freed r }, some r.slot) := by
  unfold release
  rw [h]

theorem refused_unbind (config : CycleConfig)
    (hno : ∀ job, c.jobs.get id = some job → job.state.onWorker = false) :
    ∃ events, Chain (Takes config) c events (c.unbind id) ∧ ∀ ev ∈ events, ev = .refused id := by
  have hrelease : ∃ events, Chain (Takes config) c events (c.release id).1 ∧
      ∀ ev ∈ events, ev = .refused id := by
    cases hf : (c.release id).2 with
    | none => exact ⟨[], Chain.nil_iff.mpr (release_none hf).symm, by simp⟩
    | some slot => exact ⟨_, .single (.refused (Or.inl ⟨slot, Prod.ext rfl hf⟩) hno), by simp⟩
  have hunhold : ∃ events, Chain (Takes config) (c.release id).1 events (c.unbind id) ∧
      ∀ ev ∈ events, ev = .refused id := by
    cases hf : ((c.release id).1.unhold id).2 with
    | false => exact ⟨[], Chain.nil_iff.mpr (unhold_false hf).symm, by simp⟩
    | true =>
      refine ⟨_, .single (.refused (Or.inr (Prod.ext rfl hf)) ?_), by simp⟩
      rw [toRoster_release]
      exact hno
  obtain ⟨events, hchain, hall⟩ := hrelease
  obtain ⟨events', hchain', hall'⟩ := hunhold
  refine ⟨events ++ events', hchain.append hchain', fun ev hev => ?_⟩
  exact (List.mem_append.mp hev).elim (hall ev) (hall' ev)

end Core

private theorem Requeues.chain {config : CycleConfig} {now : VirtualTime} {wanted : Job → Bool}
    {r r' : Roster} {ids : List JobId} {acts : List Act}
    (h : Requeues config now wanted r ids acts r') : Chain (Roster.Does config) r acts r' := by
  induction h with
  | nil r => exact .nil r
  | done live want h rest ih => exact .cons h ih
  | skipped no rest ih => exact ih

theorem Requeues.acts_eq {config : CycleConfig} {now : VirtualTime} {wanted : Job → Bool}
    {r r' : Roster} {ids : List JobId} {acts : List Act}
    (h : Requeues config now wanted r ids acts r') : ∀ act ∈ acts, ∃ id, act = .requeued id now := by
  induction h with
  | nil => simp
  | done live want h rest ih =>
    intro act hact
    rcases List.mem_cons.mp hact with rfl | hact
    · exact ⟨_, rfl⟩
    · exact ih act hact
  | skipped no rest ih => exact ih

theorem Requeues.terminal_eq {config : CycleConfig} {now : VirtualTime} {wanted : Job → Bool}
    {r r' : Roster} {ids : List JobId} {acts : List Act}
    (h : Requeues config now wanted r ids acts r') : r'.terminal = r.terminal := by
  induction h with
  | nil => rfl
  | done live want h rest ih =>
    cases h with
    | requeued => exact ih
  | skipped no rest ih => exact ih

theorem Core.Takes.act_cases {config : CycleConfig} {c c' : Core} {event : Event} {act : Act}
    (h : c.Takes config event c') (hmem : act ∈ event.acts) :
    event = .acted act ∨ ∃ id now, act = .requeued id now := by
  cases h with
  | acted | ended | cancelled | cycled =>
    exact Or.inl (congrArg Event.acted (List.mem_singleton.mp hmem).symm)
  | left hq | expired hq =>
    obtain ⟨id, heq⟩ := hq.acts_eq _ hmem
    exact Or.inr ⟨id, _, heq⟩
  | _ => exact nomatch hmem

theorem Core.Takes.does {config : CycleConfig} {c c' : Core} {event : Event}
    (h : c.Takes config event c') :
    Chain (Roster.Does config) c.toRoster event.acts c'.toRoster := by
  cases h with
  | acted h free => exact .single h
  | ended gone h ends => exact .single (gone.toRoster ▸ h)
  | @cancelled id now r h => exact .single (toRoster_unbind c id ▸ h)
  | refused gone no => exact Chain.nil_iff.mpr gone.toRoster.symm
  | @stale c₁ id held no =>
    have hroster := toRoster_unhold c id
    rw [held] at hroster
    exact Chain.nil_iff.mpr hroster.symm
  | unconfirmed gone no => exact Chain.nil_iff.mpr gone.toRoster.symm
  | attached | drained | rebound | abandoned => exact .nil _
  | @adopted c₁ id job inventory slot now held live state fits =>
    have hroster := toRoster_unhold c id
    rw [held] at hroster
    exact Chain.nil_iff.mpr hroster.symm
  | cycled ran =>
    rw [toRoster_bindEach]
    exact .single (.dispatched ran)
  | left h => exact h.chain
  | expired h => exact h.chain

end TaskerRT.Daemon
