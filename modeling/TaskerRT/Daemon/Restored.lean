/- module: TaskerRT/Daemon/Restored
   source: crates/taskerd/src/engine.rs (recover, restore_snapshot, apply)
   digest: An engine recovered from any snapshot and a tail that fits it is sane. -/

import TaskerRT.Daemon.Recovery
import TaskerRT.Daemon.Sane

set_option autoImplicit false

namespace TaskerRT.Daemon

open Library Domain Cluster Policy Scheduling Wal Book DependencyTracker

namespace Roster

variable {config : CycleConfig} {r r' : Roster} {record : Record} {id : JobId}

/-- What the live engine makes sure of before it writes a record and replay does not check. -/
def Fits (r : Roster) : Record → Prop
  | .submitted _ job => job.preemptions = 0
  | .requeued id _ => Worked r.book id
  | .forgotten id => id.generation ≠ Word.maxValue 32 ∧
    ∃ job, r.jobs.get id = some job ∧ job.state.isTerminal = true
  | _ => True

def AllFit (config : CycleConfig) : List Record → Roster → Prop
  | [], _ => True
  | record :: rest, r => r.Fits record ∧
    ∀ r', r.applyRecord config record = some (.ok r') → AllFit config rest r'

theorem replayed_eq_ok {α : Type} {step : Step α} {note : Roster → α → Roster}
    (h : r.replayed step note = .ok r') :
    ∃ a, step.result = .ok a ∧ r' = note (r.adoptStep step) a := by
  unfold replayed at h
  split at h
  · exact nomatch h
  · rename_i a ha
    exact ⟨a, ha, (Except.ok.inj h).symm⟩

/-- A record replayed: an act of the live engine, or one of the two calls only replay makes. -/
private theorem applyRecord_cases (h : r.applyRecord config record = some (.ok r'))
    (hf : r.Fits record) :
    (∃ act, r.Does config act r' ∧ act.records = [record] ∧ act.Legal r) ∨
      (∃ id at_ u, record = .dispatched id at_ ∧
        (r.scheduler.restoreRunning id r.jobs at_ config).result = .ok u ∧
        r' = r.adoptStep (r.scheduler.restoreRunning id r.jobs at_ config)) ∨
      ∃ id, record = .forgotten id ∧ r' = { r with jobs := (r.jobs.remove id).1 } := by
  cases record with
  | submitted id job =>
    simp only [applyRecord, Option.bind_eq_bind, Option.bind_eq_some_iff] at h
    obtain ⟨next, hnext, h⟩ := h
    split at h
    · exact nomatch h
    · rename_i heq
      obtain rfl : next = id := not_not.mp heq
      obtain ⟨⟨jobs, id⟩, hinsert, h⟩ := Option.bind_eq_some_iff.mp h
      obtain rfl : id = next := Option.some.inj ((Arena.nextId_of_insert hinsert).symm.trans hnext)
      obtain ⟨state, hok, rfl⟩ := replayed_eq_ok (Option.some.inj h)
      obtain ⟨-, -, -, -, hst, -⟩ := Scheduler.submit_fresh hinsert hok
      exact Or.inl ⟨.submitted id job, .submitted job.submitTime hinsert hst hf hok, rfl, trivial⟩
  | dispatched id at_ =>
    obtain ⟨u, hok, rfl⟩ := replayed_eq_ok (Option.some.inj h)
    exact Or.inr (Or.inl ⟨id, at_, u, rfl, hok, rfl⟩)
  | completed id at_ =>
    obtain ⟨promoted, hok, rfl⟩ := replayed_eq_ok (Option.some.inj h)
    exact Or.inl ⟨.completed id at_, .completed at_ hok, rfl, trivial⟩
  | failed id at_ =>
    obtain ⟨cascade, hok, rfl⟩ := replayed_eq_ok (Option.some.inj h)
    exact Or.inl ⟨.failed id at_, .failed at_ hok, rfl, trivial⟩
  | cancelled id at_ =>
    obtain ⟨cascade, hok, rfl⟩ := replayed_eq_ok (Option.some.inj h)
    exact Or.inl ⟨.cancelled id at_, .cancelled at_ hok, rfl, trivial⟩
  | requeued id at_ =>
    obtain ⟨u, hok, rfl⟩ := replayed_eq_ok (Option.some.inj h)
    exact Or.inl ⟨.requeued id at_, .requeued at_ hok, rfl, hf⟩
  | preempted id at_ =>
    obtain ⟨u, hok, rfl⟩ := replayed_eq_ok (Option.some.inj h)
    exact Or.inl ⟨.preempted id at_, .preempted at_ hok, rfl, trivial⟩
  | forgotten id =>
    exact Or.inr (Or.inr ⟨id, rfl, (Except.ok.inj (Option.some.inj h)).symm⟩)

private theorem Sane.posts (hs : Sane r) (hkept : Scheduler.Kept r'.scheduler r'.jobs)
    (hqueue : r'.terminal = r.terminal) (h : Lawful r.book record r'.book) : Sane r' :=
  ⟨hkept, hs.valid.posts h, fun p hp =>
    h.1.noted (fun hc h => (hc.2 h).symm ▸ h) h.2 hs.valid.sound.placed (hs.noted p (hqueue ▸ hp))⟩

private theorem Sane.restored {u : Unit} {at_ : VirtualTime} (hs : Sane r)
    (hok : (r.scheduler.restoreRunning id r.jobs at_ config).result = .ok u) :
    Lawful r.book (.dispatched id at_)
        (r.adoptStep (r.scheduler.restoreRunning id r.jobs at_ config)).book ∧
      Sane (r.adoptStep (r.scheduler.restoreRunning id r.jobs at_ config)) := by
  obtain ⟨job, hid, hst⟩ := Scheduler.restoreRunning_inv hok
  have hkept := hs.kept.restoreRunning id at_ config
  have hlawful : Lawful r.book (.dispatched id at_)
      (r.adoptStep (r.scheduler.restoreRunning id r.jobs at_ config)).book := by
    rw [adoptStep, Scheduler.restoreRunning_ok hid hst]
    exact ⟨.dispatched at_ hid hst, trivial⟩
  exact ⟨hlawful, hs.posts hkept rfl hlawful⟩

theorem Sane.replay (hs : Sane r) (hf : r.Fits record)
    (h : r.applyRecord config record = some (.ok r')) :
    Lawful r.book record r'.book ∧ Sane r' := by
  rcases applyRecord_cases h hf with ⟨act, hd, hrecords, hlegal⟩ | ⟨id, at_, u, rfl, hok, rfl⟩ |
    ⟨id, rfl, rfl⟩
  · have hlawful := hd.lawful hs hlegal
    rw [hrecords] at hlawful
    exact ⟨hlawful.of_single, hs.does hd hlegal⟩
  · exact hs.restored hok
  · obtain ⟨hwrap, job, hid, hover⟩ := hf
    have hlawful : Lawful r.book (.forgotten id)
        { r with jobs := (r.jobs.remove id).1 : Roster }.book := ⟨.forgotten hid hover, hwrap⟩
    refine ⟨hlawful, hs.posts (hs.kept.remove fun j hj hr => ?_) rfl hlawful⟩
    obtain rfl := Option.some.inj (hid.symm.trans hj)
    rw [hr] at hover
    exact nomatch hover

private theorem apply_eq_ok {latest latest' : VirtualTime}
    (h : r.apply config record latest = some (.ok (r', latest'))) :
    r.applyRecord config record = some (.ok r') ∧ latest' = max latest (recordTime record) := by
  unfold apply at h
  obtain ⟨result, hresult, h⟩ := Option.bind_eq_some_iff.mp h
  cases result with
  | error err => exact nomatch h
  | ok r₁ =>
    obtain ⟨rfl, rfl⟩ := Prod.mk.inj (Except.ok.inj (Option.some.inj h))
    exact ⟨hresult, rfl⟩

theorem applyEach_cons {records : List Record} {latest latest' : VirtualTime}
    (h : applyEach config (record :: records) r latest = some (.ok (r', latest'))) :
    ∃ r₁ latest₁, r.applyRecord config record = some (.ok r₁) ∧
      applyEach config records r₁ latest₁ = some (.ok (r', latest')) := by
  unfold applyEach at h
  obtain ⟨result, hresult, h⟩ := Option.bind_eq_some_iff.mp h
  cases result with
  | error err => exact nomatch h
  | ok out => exact ⟨out.1, out.2, (apply_eq_ok hresult).1, h⟩

/-- A tail that fits keeps a roster sane, and tells the whole story of its book. -/
theorem Sane.replayEach {records : List Record} : ∀ {r : Roster} {latest latest' : VirtualTime},
    Sane r → AllFit config records r →
      applyEach config records r latest = some (.ok (r', latest')) →
      Chain Lawful r.book records r'.book ∧ Sane r' := by
  induction records with
  | nil =>
    intro r latest latest' hs _ h
    obtain ⟨rfl, -⟩ := Prod.mk.inj (Except.ok.inj (Option.some.inj h))
    exact ⟨.nil _, hs⟩
  | cons record records ih =>
    intro r latest latest' hs hfit h
    obtain ⟨r₁, latest₁, hhead, htail⟩ := applyEach_cons h
    obtain ⟨hlawful, hs₁⟩ := hs.replay hfit.1 hhead
    obtain ⟨hchain, hs'⟩ := ih hs₁ (hfit.2 r₁ hhead) htail
    exact ⟨.cons hlawful hchain, hs'⟩

/-! Loading a snapshot. -/

/-- Half way through classifying a loaded arena: the jobs still to come are as the arena was
loaded, everything else is classified. -/
structure Loading (r : Roster) (rest : List (JobId × JobState)) : Prop where
  kept : Scheduler.Kept r.scheduler r.jobs
  wf : r.jobs.Wf
  sound : Sound r.scheduler.deps r.jobs
  account : ∀ x job, r.jobs.get x = some job → job.state.isTerminal = false →
    job.state ≠ .submitted → job.account.val < maxAccounts
  noted : ∀ p ∈ r.terminal, r.jobs.Issued p.2 ∧
    ∀ job, r.jobs.get p.2 = some job → job.state.isTerminal = true
  todo : ∀ x job, r.jobs.get x = some job → job.state = .submitted → ∃ s, (x, s) ∈ rest
  fits : ∀ p ∈ rest, ∃ job, r.jobs.get p.1 = some job ∧ job.state = p.2
  nodup : (rest.map Prod.fst).Nodup

private theorem Loading.sane (h : Loading r []) : Sane r := by
  refine ⟨h.kept, ⟨h.wf, h.sound, fun {x job} hx hopen => ?_⟩, h.noted⟩
  refine h.account x job hx hopen fun hst => ?_
  obtain ⟨s, hs⟩ := h.todo x job hx hst
  exact nomatch hs

private theorem Loading.skip {state : JobState} {rest : List (JobId × JobState)}
    (h : Loading r ((id, state) :: rest)) (hover : state.isTerminal = true) (at_ : VirtualTime) :
    Loading (r.noteTerminal id at_) rest := by
  obtain ⟨job, hid, hst⟩ := h.fits _ List.mem_cons_self
  have hterm : job.state.isTerminal = true := by rw [hst]; exact hover
  refine ⟨h.kept, h.wf, h.sound, h.account, fun p hp => ?_, fun x j hx hs => ?_,
    fun p hp => h.fits p (List.mem_cons_of_mem _ hp), (List.nodup_cons.mp h.nodup).2⟩
  · rcases List.mem_append.mp hp with hp | hp
    · exact h.noted p hp
    · rw [List.mem_singleton.mp hp]
      refine ⟨Arena.issued_of_get hid, fun j hj => ?_⟩
      obtain rfl := Option.some.inj (hid.symm.trans hj)
      exact hterm
  · obtain ⟨s, hs'⟩ := h.todo x j hx hs
    rcases List.mem_cons.mp hs' with heq | hmem
    · obtain ⟨rfl, -⟩ := Prod.mk.inj heq
      obtain rfl := Option.some.inj (hid.symm.trans hx)
      rw [hs] at hterm
      exact nomatch hterm
    · exact ⟨s, hmem⟩

private theorem Loading.step {state state' : JobState} {rest : List (JobId × JobState)}
    (h : Loading r ((id, state) :: rest)) {at_ : VirtualTime}
    (hok : (r.scheduler.submit id r.jobs at_ config).result = .ok state') :
    Loading ((r.adoptStep (r.scheduler.submit id r.jobs at_ config)).noteIf state' id at_)
      rest := by
  obtain ⟨job, fairshare, deps, readiness, hid, hst, hf, hreg, rfl⟩ := Scheduler.submit_inv hok
  have hkept := h.kept.submit id at_ config
  have hstep := @Scheduler.submit_ok r.scheduler r.jobs id job at_ config deps readiness fairshare
    hid hst hf hreg
  rw [hstep] at hkept
  have hget : ∀ x, (r.jobs.modify id fun _ => job.withState (Scheduler.stateOf readiness)).get x =
      if x = id then some (job.withState (Scheduler.stateOf readiness)) else r.jobs.get x := by
    intro x
    rw [Arena.get_modify, hid]
    rfl
  have hother : ∀ x, x ≠ id →
      (r.jobs.modify id fun _ => job.withState (Scheduler.stateOf readiness)).get x =
        r.jobs.get x := fun x hx => by rw [hget, if_neg hx]
  obtain ⟨hnot, hnodup⟩ := List.nodup_cons.mp h.nodup
  have hnew : (r.jobs.modify id fun _ => job.withState (Scheduler.stateOf readiness)).get id =
      some (job.withState (Scheduler.stateOf readiness)) := by rw [hget, if_pos rfl]
  have hjobs : ((r.adoptStep (r.scheduler.submit id r.jobs at_ config)).noteIf
      (Scheduler.stateOf readiness) id at_).jobs =
      r.jobs.modify id fun _ => job.withState (Scheduler.stateOf readiness) := by
    rw [jobs_noteIf, adoptStep, hstep]
  have hsched : ((r.adoptStep (r.scheduler.submit id r.jobs at_ config)).noteIf
      (Scheduler.stateOf readiness) id at_).scheduler = r.scheduler.classified fairshare deps id
        (job.withState (Scheduler.stateOf readiness)) at_ config := by
    rw [scheduler_noteIf, adoptStep, hstep]
  refine ⟨?_, ?_, ?_, ?_, ?_, ?_, ?_, hnodup⟩
  · rw [hjobs, hsched]
    exact hkept
  · rw [hjobs]
    exact h.wf.modify _ _
  · rw [hjobs, hsched, Scheduler.deps_classified]
    exact h.sound.classified hid hst hreg hget fun x hx => Arena.issued_modify.mpr hx
  · rw [hjobs]
    intro x j hx hopen hs
    by_cases hxid : x = id
    · rw [hxid, hnew, Option.some.injEq] at hx
      rw [← hx]
      exact FairShare.account_lt_of_ensure hf
    · exact h.account x j (hother x hxid ▸ hx) hopen hs
  · rw [hjobs]
    -- What was noted before is over, so it is not the job being classified.
    have hold : ∀ p ∈ r.terminal,
        (r.jobs.modify id fun _ => job.withState (Scheduler.stateOf readiness)).Issued p.2 ∧
          ∀ j, (r.jobs.modify id fun _ => job.withState (Scheduler.stateOf readiness)).get p.2 =
            some j → j.state.isTerminal = true := by
      intro p hp
      obtain ⟨hissued, hover⟩ := h.noted p hp
      have hne : p.2 ≠ id := fun he => by
        have := hover job (he ▸ hid)
        rw [hst] at this
        cases this
      exact ⟨Arena.issued_modify.mpr hissued, fun j hj => hover j (hother p.2 hne ▸ hj)⟩
    intro p hp
    unfold noteIf at hp
    split at hp
    · rename_i hover
      rcases List.mem_append.mp hp with hp | hp
      · exact hold p hp
      · rw [List.mem_singleton.mp hp]
        refine ⟨Arena.issued_modify.mpr (Arena.issued_of_get hid), fun j hj => ?_⟩
        obtain rfl := Option.some.inj (hnew.symm.trans hj)
        exact hover
    · exact hold p hp
  · rw [hjobs]
    intro x j hx hs
    have hxid : x ≠ id := by
      rintro rfl
      obtain rfl := Option.some.inj (hnew.symm.trans hx)
      cases readiness <;> cases hs
    obtain ⟨s, hs'⟩ := h.todo x j (hother x hxid ▸ hx) hs
    rcases List.mem_cons.mp hs' with heq | hmem
    · exact absurd (Prod.mk.inj heq).1 hxid
    · exact ⟨s, hmem⟩
  · rw [hjobs]
    intro p hp
    have hne : p.1 ≠ id := fun he => hnot (List.mem_map.mpr ⟨p, hp, he⟩)
    rw [hother p.1 hne]
    exact h.fits p (List.mem_cons_of_mem _ hp)

theorem Loading.submitEach {at_ : VirtualTime} {rest : List (JobId × JobState)} :
    ∀ {r : Roster}, Loading r rest → submitEach config at_ rest r = .ok r' → Sane r' := by
  induction rest with
  | nil =>
    intro r h hok
    obtain rfl := Except.ok.inj hok
    exact h.sane
  | cons p rest ih =>
    intro r h hok
    obtain ⟨id, state⟩ := p
    unfold Roster.submitEach at hok
    split at hok
    · rename_i hover
      exact ih (h.skip hover at_) hok
    · dsimp only at hok
      split at hok
      · exact nomatch hok
      · rename_i state' hresult
        exact ih (h.step hresult) hok

private theorem reopen_cases (job : Job) :
    (reopen job).state = .submitted ∨ (reopen job).state.isTerminal = true := by
  unfold reopen
  split
  · rename_i hover
    exact Or.inr hover
  · exact Or.inl rfl

theorem loading_start {slots : List (Slot Job)} {freeHead : Option (Word 32)} {jobs : Arena Job}
    {scheduler : Scheduler} (hlen : slots.length ≤ 2 ^ 32)
    (hparts : Arena.fromParts (slots.map (Slot.map reopen)) freeHead = .ok jobs)
    (hready : scheduler.ready = ReadySet.new) (hdeps : scheduler.deps = DependencyTracker.new)
    (haccounts : scheduler.fairshare.ledgers.length ≤ maxAccounts) :
    Loading ⟨jobs, scheduler, []⟩ (jobs.iter.map fun p => (p.1, p.2.state)) := by
  obtain ⟨hwf, hslots, -⟩ := Arena.wf_of_fromParts (by simpa using hlen) hparts
  have hstates : ∀ x job, jobs.get x = some job →
      job.state = .submitted ∨ job.state.isTerminal = true := by
    intro x job hx
    rw [Arena.get_eq_some, hslots, List.getElem?_map] at hx
    obtain ⟨slot, -, hslot⟩ := Option.map_eq_some_iff.mp hx
    cases slot with
    | occupied g v =>
      obtain ⟨-, rfl⟩ := Slot.occupied.inj hslot
      exact reopen_cases v
    | vacant => exact nomatch hslot
  have hnone : ∀ c x, ¬ ReadyIn jobs c x := by
    rintro c x ⟨job, hx, hst, -⟩
    rcases hstates x job hx with h | h <;> rw [hst] at h <;> exact nomatch h
  refine ⟨⟨?_, haccounts⟩, hwf, ?_, fun x job hx hopen hs => ?_, by simp, fun x job hx hs => ?_,
    fun p hp => ?_, ?_⟩
  · rw [hready]
    exact .of_none_ready hnone
  · rw [hdeps]
    exact .of_unclassified hstates
  · rcases hstates x job hx with h | h
    · exact absurd h hs
    · rw [h] at hopen
      exact nomatch hopen
  · exact ⟨job.state, List.mem_map.mpr ⟨(x, job), (Arena.mem_iter hwf.bound).mpr hx, rfl⟩⟩
  · obtain ⟨⟨x, job⟩, hmem, rfl⟩ := List.mem_map.mp hp
    exact ⟨job, (Arena.mem_iter hwf.bound).mp hmem, rfl⟩
  · rw [List.map_map]
    exact Arena.iter_nodup hwf.bound

private theorem Sane.restoreRunningEach {at_ : VirtualTime} {ids : List JobId} : ∀ {r : Roster},
    Sane r → restoreRunningEach config at_ ids r = .ok r' → Sane r' := by
  induction ids with
  | nil =>
    intro r hs h
    exact Except.ok.inj h ▸ hs
  | cons id ids ih =>
    intro r hs h
    unfold Roster.restoreRunningEach at h
    dsimp only at h
    split at h
    · exact nomatch h
    · rename_i u hok
      exact ih (hs.restored hok).2 h

theorem restoreSnapshot_eq_ok {snapshot : Snapshot} {at_ : VirtualTime} :
    r.restoreSnapshot config snapshot = .ok (r', at_) ↔
      ∃ jobs r₁ r₂ scheduler,
        Arena.fromParts (snapshot.slots.map (Slot.map reopen)) snapshot.freeHead = .ok jobs ∧
        submitEach config snapshot.takenAt (jobs.iter.map fun p => (p.1, p.2.state))
          { r with jobs := jobs } = .ok r₁ ∧
        restoreRunningEach config snapshot.takenAt snapshot.running r₁ = .ok r₂ ∧
        r₂.scheduler.restoreLedgers snapshot.ledgers = .ok scheduler ∧
        r' = { r₂ with scheduler := scheduler } ∧ at_ = snapshot.takenAt := by
  unfold restoreSnapshot
  cases hparts : Arena.fromParts (snapshot.slots.map (Slot.map reopen)) snapshot.freeHead with
  | error err => simp
  | ok jobs =>
    dsimp only
    cases hsubmit : submitEach config snapshot.takenAt (jobs.iter.map fun p => (p.1, p.2.state))
        { r with jobs := jobs } with
    | error err => simp [bind, Except.bind, hsubmit]
    | ok r₁ =>
      cases hrunning : restoreRunningEach config snapshot.takenAt snapshot.running r₁ with
      | error err => simp [bind, Except.bind, hsubmit, hrunning]
      | ok r₂ =>
        cases hledgers : r₂.scheduler.restoreLedgers snapshot.ledgers with
        | error err => simp [bind, Except.bind, hsubmit, hrunning, hledgers]
        | ok scheduler =>
          simp [bind, Except.bind, hsubmit, hrunning, hledgers, eq_comm]

theorem restoreLedgers_eq_ok {s s' : Scheduler} {ledgers : List Ledger}
    (h : s.restoreLedgers ledgers = .ok s') :
    ledgers.length ≤ maxAccounts ∧ s'.ready = s.ready ∧ s'.deps = s.deps ∧
      s'.fairshare.ledgers = ledgers := by
  unfold Scheduler.restoreLedgers FairShare.restore at h
  by_cases hlen : ledgers.length > maxAccounts
  · rw [if_pos hlen] at h
    exact nomatch h
  · rw [if_neg hlen] at h
    obtain rfl := Except.ok.inj h
    exact ⟨Nat.le_of_not_lt hlen, rfl, rfl, rfl⟩

theorem sane_of_restoreSnapshot {snapshot : Snapshot} {at_ : VirtualTime}
    (hready : r.scheduler.ready = ReadySet.new) (hdeps : r.scheduler.deps = DependencyTracker.new)
    (haccounts : r.scheduler.fairshare.ledgers.length ≤ maxAccounts) (hqueue : r.terminal = [])
    (hlen : snapshot.slots.length ≤ 2 ^ 32)
    (h : r.restoreSnapshot config snapshot = .ok (r', at_)) : Sane r' := by
  obtain ⟨jobs, r₁, r₂, scheduler, hparts, hsubmit, hrunning, hledgers, rfl, -⟩ :=
    restoreSnapshot_eq_ok.mp h
  have hload := loading_start hlen hparts hready hdeps haccounts
  rw [← hqueue] at hload
  have hs₂ := (hload.submitEach hsubmit).restoreRunningEach hrunning
  obtain ⟨hlen', hready', hdeps', hledgers'⟩ := restoreLedgers_eq_ok hledgers
  have hkept : Scheduler.Kept scheduler r₂.jobs :=
    ⟨hready' ▸ hs₂.kept.mirror, hledgers' ▸ hlen'⟩
  have hbook : ({ r₂ with scheduler := scheduler } : Roster).book = r₂.book := by
    simp only [book, hdeps']
  exact ⟨hkept, hbook ▸ hs₂.valid, hs₂.noted⟩

/-- What was being evicted goes back to the queue, one job after the other. -/
theorem requeueEvicting_requeues {latest : VirtualTime} {ids : List JobId} : ∀ {r : Roster},
    requeueEvicting config latest ids r = .ok r' →
      Requeues config latest (fun _ => true) r ids (ids.map (Act.requeued · latest)) r' := by
  induction ids with
  | nil =>
    intro r h
    obtain rfl := Except.ok.inj h
    exact .nil r
  | cons id ids ih =>
    intro r h
    unfold Roster.requeueEvicting at h
    dsimp only at h
    split at h
    · exact nomatch h
    · rename_i u hok
      obtain ⟨job, hid, -⟩ := Scheduler.requeue_inv hok
      exact .done hid rfl (.requeued latest hok) (ih h)

end Roster

theorem mem_iter_state {jobs : Arena Job} (hlen : jobs.slots.length ≤ 2 ^ 32) {s : JobState}
    {x : JobId} : x ∈ (jobs.iter.filter (·.2.state = s)).map (·.1) ↔
      ∃ job, jobs.get x = some job ∧ job.state = s := by
  simp only [List.mem_map, List.mem_filter, decide_eq_true_eq, Prod.exists, Arena.mem_iter hlen]
  constructor
  · rintro ⟨id, job, ⟨hget, hst⟩, rfl⟩
    exact ⟨job, hget, hst⟩
  · rintro ⟨job, hget, hst⟩
    exact ⟨x, job, ⟨hget, hst⟩, rfl⟩

theorem nodup_iter_state {jobs : Arena Job} (hlen : jobs.slots.length ≤ 2 ^ 32) (s : JobState) :
    ((jobs.iter.filter (·.2.state = s)).map (·.1)).Nodup :=
  (Arena.iter_nodup hlen).sublist (List.filter_sublist.map _)

theorem Roster.Sane.worked_evicting {r : Roster} (hs : r.Sane) :
    ∀ x ∈ Roster.evictingIds r.jobs, Worked r.book x := by
  intro x hx
  obtain ⟨job, hget, hst⟩ := (mem_iter_state hs.valid.wf.bound).mp hx
  exact ⟨job, hget, by rw [hst]; rfl⟩

theorem Core.settle_eq_ok {config : CycleConfig} {c c' : Core} {latest : VirtualTime} :
    c.settle config latest = .ok c' ↔ ∃ r,
      Roster.requeueEvicting config latest (Roster.evictingIds c.jobs) c.toRoster = .ok r ∧
        c' = { c with toRoster := r, reconciling := Engine.runningIds c.jobs } := by
  unfold Core.settle
  cases hq : Roster.requeueEvicting config latest (Roster.evictingIds c.jobs) c.toRoster with
  | error err => exact iff_of_false (fun h => nomatch h) fun ⟨r, h, _⟩ => nomatch h
  | ok r =>
    refine ⟨fun h => ⟨r, rfl, (Except.ok.inj h).symm⟩, fun ⟨r', hr', hc⟩ => ?_⟩
    rw [hc, ← Except.ok.inj hr']
    rfl

/-- A recovered core is sane: it holds what was running and requeues what was being evicted. -/
theorem Core.sane_of_settle {config : CycleConfig} {c c' : Core} {latest : VirtualTime}
    (hs : c.toRoster.Sane) (hrunning : c.running = [])
    (h : c.settle config latest = .ok c') : c'.Sane := by
  obtain ⟨r, hq, rfl⟩ := Core.settle_eq_ok.mp h
  have hlen := hs.valid.wf.bound
  obtain ⟨hacts, hrest⟩ := Core.requeues_acts (Roster.requeueEvicting_requeues hq) hs
    (nodup_iter_state hlen _) hs.worked_evicting
  have hbound : ({ c with toRoster := r, reconciling := Engine.runningIds c.jobs } : Core).boundIds
      = Engine.runningIds c.jobs := by
    rw [Core.boundIds, hrunning]
    rfl
  refine ⟨(hs.chain hacts).1, fun x hx => ?_, ?_⟩
  · rw [hbound] at hx
    obtain ⟨job, hget, hst⟩ := (mem_iter_state hlen).mp hx
    refine (hrest x fun hmem => ?_).mpr ⟨job, hget, by rw [hst]; rfl⟩
    obtain ⟨job', hget', hst'⟩ := (mem_iter_state hlen).mp hmem
    obtain rfl := Option.some.inj (hget.symm.trans hget')
    rw [hst] at hst'
    cases hst'
  · rw [hbound]
    exact nodup_iter_state hlen _

namespace Engine

/-- The tail of what the store found fits what it is replayed on. -/
def TailFits (config : DaemonConfig) (recovered : Recovered) (journal : Journal) : Prop :=
  match recovered.snapshot with
  | none => Roster.AllFit config.cycle recovered.records (withJournal config journal).toRoster
  | some snapshot => snapshot.slots.length ≤ 2 ^ 32 ∧
    ∀ r at_, (withJournal config journal).toRoster.restoreSnapshot config.cycle snapshot =
      .ok (r, at_) → Roster.AllFit config.cycle recovered.records r

variable [Crc32]

theorem recover_eq_ok {config : DaemonConfig} {recovered : Recovered} {journal : Journal}
    {e : Engine} (h : recover config recovered journal = some (.ok e)) :
    ∃ r latest c, (withJournal config journal).toRoster.reload config.cycle recovered =
        some (.ok (r, latest)) ∧
      ((withJournal config journal).toCore.withRoster r).settle config.cycle latest = .ok c ∧
      e.toCore = c ∧ e.cycle = config.cycle := by
  unfold recover at h
  obtain ⟨result, hreload, h⟩ := Option.bind_eq_some_iff.mp h
  cases result with
  | error err => exact nomatch h
  | ok out =>
    dsimp only at h
    split at h
    · exact nomatch h
    · rename_i c hsettle
      obtain ⟨bytes, -, h⟩ := Option.bind_eq_some_iff.mp h
      obtain rfl := Except.ok.inj (Option.some.inj h)
      exact ⟨out.1, out.2, c, hreload, hsettle, rfl, rfl⟩

omit [Crc32] in
theorem sane_of_reload {config : DaemonConfig} {recovered : Recovered} {journal : Journal}
    {r : Roster} {latest : VirtualTime} (hfit : TailFits config recovered journal)
    (hreload : (withJournal config journal).toRoster.reload config.cycle recovered =
      some (.ok (r, latest))) : r.Sane := by
  unfold Roster.reload at hreload
  unfold TailFits at hfit
  have hbuild := (sane_build config (some journal)).roster
  cases hsnap : recovered.snapshot with
  | none =>
    rw [hsnap] at hreload hfit
    exact (hbuild.replayEach hfit hreload).2
  | some snapshot =>
    rw [hsnap] at hreload hfit
    dsimp only at hreload hfit
    split at hreload
    · exact nomatch hreload
    · rename_i r₀ at_ hrestore
      obtain ⟨hready, hdeps, -, -⟩ := withShares_spec config.shares Scheduler.new
      have hs₀ := Roster.sane_of_restoreSnapshot hready hdeps hbuild.kept.accounts rfl hfit.1
        hrestore
      exact (hs₀.replayEach (hfit.2 _ _ hrestore) hreload).2

/-- An engine as the daemon starts it: with nothing to recover, or recovered. -/
def Starts (e : Engine) : Prop :=
  (∃ config journal, e = build config journal) ∨
    ∃ config recovered journal, recover config recovered journal = some (.ok e)

theorem Starts.unbound {e : Engine} (h : e.Starts) :
    e.running = [] ∧ e.inventory = SlotInventory.fromCapacities [] := by
  rcases h with ⟨config, journal, rfl⟩ | ⟨config, recovered, journal, h⟩
  · exact ⟨rfl, rfl⟩
  · obtain ⟨r, latest, c, -, hsettle, rfl, -⟩ := recover_eq_ok h
    obtain ⟨r', -, heq⟩ := Core.settle_eq_ok.mp hsettle
    rw [heq]
    exact ⟨rfl, rfl⟩

theorem sane_of_recover {config : DaemonConfig} {recovered : Recovered} {journal : Journal}
    {e : Engine} (hfit : TailFits config recovered journal)
    (h : recover config recovered journal = some (.ok e)) : e.toCore.Sane := by
  obtain ⟨r, latest, c, hreload, hsettle, rfl, -⟩ := recover_eq_ok h
  exact Core.sane_of_settle (sane_of_reload hfit hreload) rfl hsettle

end Engine

end TaskerRT.Daemon
