/- module: TaskerRT/Daemon/Handler
   source: crates/taskerd/src/engine.rs
   digest: Each handler of the engine is a run of events, and the log gets their records. -/

import TaskerRT.Daemon.Event

set_option autoImplicit false

namespace TaskerRT.Daemon

open Library Domain Cluster Policy Scheduling Wal

namespace Event

/-- What several commands can cause. The rest takes a submission, an unconfirmed eviction, a
worker that joins, drains or leaves, or a tick. -/
def isPlain : Event → Bool
  | acted (.submitted _ _) | acted (.dispatched _ _) | acted (.preempted _ _)
  | acted (.forgotten _) | acted (.dropped _) | unconfirmed _ | attached _ | drained _ | left _ _
  | abandoned _ | expired _ => false
  | _ => true

def isTick : Event → Bool
  | acted (.dispatched _ _) | acted (.preempted _ _) | acted (.forgotten _) | acted (.dropped _)
  | expired _ => true
  | _ => false

end Event

namespace Engine

def logged (e : Engine) : Option (List Record) := e.journal.map (·.logged)

/-- The engine went through these events, and logged them. -/
structure Moves (e : Engine) (events : List Event) (e' : Engine) : Prop where
  chain : Chain (Core.Takes e.cycle) e.toCore events e'.toCore
  cycle : e'.cycle = e.cycle
  retain : e'.retain = e.retain
  quiescing : e'.quiescing = e.quiescing
  logged : e'.logged = e.logged.map (· ++ events.flatMap Event.records)

namespace Moves

variable {e e₁ e₂ : Engine} {events events' : List Event}

theorem aside (hcore : e₁.toCore = e.toCore) (hcycle : e₁.cycle = e.cycle)
    (hretain : e₁.retain = e.retain) (hquiet : e₁.quiescing = e.quiescing)
    (hlogged : e₁.logged = e.logged) : Moves e [] e₁ := by
  refine ⟨Chain.nil_iff.mpr hcore.symm, hcycle, hretain, hquiet, ?_⟩
  rw [hlogged]
  cases e.logged <;> simp

theorem refl (e : Engine) : Moves e [] e := aside rfl rfl rfl rfl rfl

theorem trans (h : Moves e events e₁) (h' : Moves e₁ events' e₂) :
    Moves e (events ++ events') e₂ := by
  have hchain := h'.chain
  rw [h.cycle] at hchain
  refine ⟨h.chain.append hchain, h'.cycle.trans h.cycle, h'.retain.trans h.retain,
    h'.quiescing.trans h.quiescing, ?_⟩
  rw [h'.logged, h.logged]
  cases e.logged <;> simp

private theorem transAside (h : Moves e events e₁) (h' : Moves e₁ [] e₂) : Moves e events e₂ := by
  have htrans := h.trans h'
  rwa [List.append_nil] at htrans

end Moves

variable {e e₁ e₂ : Engine} {id : JobId} {now : VirtualTime}

theorem moves_of_takes {event : Event} {c : Core} (h : Core.Takes e.cycle e.toCore event c)
    (hcore : e₁.toCore = c) (hcycle : e₁.cycle = e.cycle) (hretain : e₁.retain = e.retain)
    (hquiet : e₁.quiescing = e.quiescing)
    (hlogged : e₁.logged = e.logged.map (· ++ event.records)) : Moves e [event] e₁ :=
  ⟨.single (hcore ▸ h), hcycle, hretain, hquiet, by simpa using hlogged⟩

theorem moves_of_silent {event : Event} {c : Core} (h : Core.Takes e.cycle e.toCore event c)
    (hrec : event.records = []) : Moves e [event] (e.withCore c) := by
  refine moves_of_takes h rfl rfl rfl rfl ?_
  rw [hrec]
  show e.logged = _
  cases e.logged <;> simp

/-- The engine went through events that several commands can cause. -/
def Plain (e e' : Engine) : Prop := ∃ events, Moves e events e' ∧ ∀ ev ∈ events, ev.isPlain = true

private theorem Plain.one {event : Event} (h : Moves e [event] e₁) (hp : event.isPlain = true) :
    Plain e e₁ :=
  ⟨_, h, by simpa using hp⟩

private theorem Plain.none (h : Moves e [] e₁) : Plain e e₁ := ⟨[], h, by simp⟩

private theorem Plain.trans (h : Plain e e₁) (h' : Plain e₁ e₂) : Plain e e₂ := by
  obtain ⟨events, hm, hp⟩ := h
  obtain ⟨events', hm', hp'⟩ := h'
  refine ⟨events ++ events', hm.trans hm', fun ev hev => ?_⟩
  exact (List.mem_append.mp hev).elim (hp ev) (hp' ev)

/-- A list of requeues leaves everything but the roster and the log alone. -/
structure Requeued (now : VirtualTime) (wanted : Job → Bool) (ids : List JobId)
    (e e' : Engine) (acts : List Act) : Prop where
  requeues : Requeues e.cycle now wanted e.toRoster ids acts e'.toRoster
  frame : ∃ journal, e' = (e.withRoster e'.toRoster).withLog journal
  logged : e'.logged = e.logged.map (· ++ acts.flatMap Act.records)

private theorem Requeued.nil (now : VirtualTime) (wanted : Job → Bool) (e : Engine) :
    Requeued now wanted [] e e [] :=
  ⟨.nil _, ⟨e.journal, rfl⟩, by cases h : e.logged <;> simp⟩

private theorem Requeued.skip {wanted : Job → Bool} {ids : List JobId} {acts : List Act}
    (hno : ∀ job, e.jobs.get id = some job → wanted job = true → job.state.isRequeuable = false)
    (h : Requeued now wanted ids e e₁ acts) : Requeued now wanted (id :: ids) e e₁ acts :=
  ⟨.skipped hno h.requeues, h.frame, h.logged⟩

section

variable [Crc32]

theorem record_eq {r : Record} (h : e.record r = some e₁) :
    ∃ journal, e₁ = e.withLog journal ∧ e₁.logged = e.logged.map (· ++ [r]) := by
  unfold record at h
  cases hj : e.journal with
  | none =>
    rw [hj] at h
    obtain rfl := Option.some.inj h
    exact ⟨none, by rw [← hj]; rfl, by simp [logged, hj]⟩
  | some journal =>
    rw [hj] at h
    cases hb : r.encode with
    | none => simp [Journal.record, hb] at h
    | some bytes =>
      obtain rfl : e.withLog (some (journal.grow r bytes)) = e₁ := by
        simpa [Journal.record, hb] using h
      exact ⟨_, rfl, by simp [logged, withLog, hj, Journal.grow]⟩

/-! Reports. -/

private theorem onCompletedReport_moves (h : e.onCompletedReport id now = some e₁) :
    Plain e e₁ := by
  unfold onCompletedReport at h
  cases hl : e.letGo id with
  | mk c found =>
  rw [hl] at h
  cases found with
  | false => exact Option.some.inj h ▸ .none (.refl e)
  | true =>
    have gone := Core.letGo_unbinds hl
    dsimp only at h
    rcases c.scheduler.onCompleted_cases id c.jobs now e.cycle with
      ⟨promoted, hok⟩ | ⟨hno, err, heq⟩
    · rw [hok] at h
      obtain ⟨e₂, hrec, hret⟩ := Option.bind_eq_some_iff.mp h
      obtain ⟨journal, rfl, hlogged⟩ := record_eq hrec
      obtain rfl := Option.some.inj hret
      exact .one (moves_of_takes (.ended gone (.completed now hok) (by simp [Act.ends])) rfl rfl
        rfl rfl hlogged) rfl
    · rw [heq] at h
      obtain rfl := Option.some.inj h
      rw [gone.toRoster] at hno
      exact .one (moves_of_silent (.refused gone hno) rfl) rfl

private theorem onFailedReport_moves (h : e.onFailedReport id now = some e₁) : Plain e e₁ := by
  unfold onFailedReport at h
  cases hl : e.letGo id with
  | mk c found =>
  rw [hl] at h
  cases found with
  | false => exact Option.some.inj h ▸ .none (.refl e)
  | true =>
    have gone := Core.letGo_unbinds hl
    dsimp only at h
    rcases c.scheduler.onFailed_cases id c.jobs now e.cycle with
      ⟨cascade, hok⟩ | ⟨hno, err, heq⟩
    · rw [hok] at h
      obtain ⟨e₂, hrec, hret⟩ := Option.bind_eq_some_iff.mp h
      obtain ⟨journal, rfl, hlogged⟩ := record_eq hrec
      obtain rfl := Option.some.inj hret
      exact .one (moves_of_takes (.ended gone (.failed now hok) (by simp [Act.ends])) rfl rfl
        rfl rfl hlogged) rfl
    · rw [heq] at h
      obtain rfl := Option.some.inj h
      rw [gone.toRoster] at hno
      exact .one (moves_of_silent (.refused gone hno) rfl) rfl

theorem onPreemptedReport_moves (h : e.onPreemptedReport id now = some e₁) :
    Plain e e₁ ∨ Moves e [.unconfirmed id] e₁ := by
  unfold onPreemptedReport at h
  cases hl : e.letGo id with
  | mk c found =>
  rw [hl] at h
  cases found with
  | false => exact Or.inl (Option.some.inj h ▸ .none (.refl e))
  | true =>
    have gone := Core.letGo_unbinds hl
    dsimp only at h
    rcases c.scheduler.onPreempted_cases id c.jobs now e.cycle with ⟨u, hok⟩ | ⟨hno, err, heq⟩
    · rw [hok] at h
      obtain ⟨journal, rfl, hlogged⟩ := record_eq h
      exact Or.inl (.one (moves_of_takes (.ended gone (.evicted now hok) (by simp [Act.ends])) rfl
        rfl rfl rfl hlogged) rfl)
    · rw [heq] at h
      obtain rfl := Option.some.inj h
      rw [gone.toRoster] at hno
      exact Or.inr (moves_of_silent (.unconfirmed gone hno) rfl)

/-! Requeueing. -/

theorem requeueLogged_cases (h : e.requeueLogged id now = some e₁) :
    (∃ r journal, e.toRoster.Does e.cycle (.requeued id now) r ∧
      e₁ = (e.withRoster r).withLog journal ∧
      e₁.logged = e.logged.map (· ++ [.requeued id now])) ∨
    ((∀ job, e.jobs.get id = some job → job.state.isRequeuable = false) ∧ e₁ = e) := by
  unfold requeueLogged at h
  dsimp only at h
  rcases e.scheduler.requeue_cases id e.jobs now e.cycle with ⟨u, hok⟩ | ⟨hno, err, heq⟩
  · rw [hok] at h
    obtain ⟨journal, rfl, hlogged⟩ := record_eq h
    exact Or.inl ⟨_, journal, .requeued now hok, rfl, hlogged⟩
  · rw [heq] at h
    exact Or.inr ⟨hno, (Option.some.inj h).symm⟩

private theorem Requeued.cons {wanted : Job → Bool} {ids : List JobId} {acts : List Act}
    (hw : ∀ job, e.jobs.get id = some job → wanted job = true)
    (h : e.requeueLogged id now = some e₁) (hrest : Requeued now wanted ids e₁ e₂ acts) :
    ∃ acts, Requeued now wanted (id :: ids) e e₂ acts := by
  rcases requeueLogged_cases h with ⟨r, journal, hdoes, rfl, hlogged⟩ | ⟨hno, rfl⟩
  · obtain ⟨job, hid⟩ : ∃ job, e.jobs.get id = some job := by
      cases hdoes with
      | requeued now ok =>
        obtain ⟨job, hid, -⟩ := Scheduler.requeue_inv ok
        exact ⟨job, hid⟩
    refine ⟨_, .done hid (hw job hid) hdoes hrest.requeues, hrest.frame, ?_⟩
    rw [hrest.logged, hlogged]
    cases e.logged <;> simp [Act.records]
  · exact ⟨acts, .skip (fun job hid _ => hno job hid) hrest⟩

private theorem requeueEach_requeued {ids : List JobId} : ∀ {e : Engine},
    requeueEach now ids e = some e₁ → ∃ acts, Requeued now (fun _ => true) ids e e₁ acts := by
  induction ids with
  | nil =>
    intro e h
    exact ⟨[], Option.some.inj h ▸ .nil now _ e⟩
  | cons id ids ih =>
    intro e h
    obtain ⟨e₂, hone, hrest⟩ := Option.bind_eq_some_iff.mp h
    obtain ⟨acts, hacts⟩ := ih hrest
    exact hacts.cons (fun _ _ => rfl) hone

theorem requeueHeld_requeued {ids : List JobId} : ∀ {e : Engine},
    requeueHeld now ids e = some e₁ →
      ∃ acts, Requeued now (fun job => job.state = .running) ids e e₁ acts := by
  induction ids with
  | nil =>
    intro e h
    exact ⟨[], Option.some.inj h ▸ .nil now _ e⟩
  | cons id ids ih =>
    intro e h
    obtain ⟨e₂, hone, hrest⟩ := Option.bind_eq_some_iff.mp h
    obtain ⟨acts, hacts⟩ := ih hrest
    split at hone
    · rename_i hrun
      refine hacts.cons (fun job hid => ?_) hone
      simpa [hid] using hrun
    · rename_i hrun
      obtain rfl := Option.some.inj hone
      refine ⟨acts, hacts.skip fun job hid hw => ?_⟩
      rw [hid] at hrun
      exact absurd hw hrun

private theorem evictSlot_moves {slot : SlotIndex} (h : e.evictSlot slot now = some e₁) :
    (∃ acts, Moves e [.left slot acts] e₁) ∨
      (e.quiescing = true ∧ Moves e [.abandoned slot] e₁) := by
  unfold evictSlot at h
  obtain ⟨e₂, hreq, hret⟩ := Option.bind_eq_some_iff.mp h
  obtain rfl := Option.some.inj hret
  split at hreq
  · rename_i hquiet
    obtain rfl := Option.some.inj hreq
    exact Or.inr ⟨hquiet, moves_of_silent (.abandoned e.toCore slot) rfl⟩
  · obtain ⟨acts, hacts⟩ := requeueEach_requeued hreq
    obtain ⟨journal, hframe⟩ := hacts.frame
    refine Or.inl ⟨acts, moves_of_takes (.left hacts.requeues) ?_ ?_ ?_ ?_ hacts.logged⟩
    all_goals rw [hframe]; rfl

end

end Engine

namespace Host

variable {h h₁ : Host} {id : JobId} {now : VirtualTime} {slot : SlotIndex}

/-! What goes to workers and callers is outside the scheduling state. -/

private theorem pushDispatch_aside (h : Host) (d : Dispatch) :
    Engine.Moves h.engine [] (h.pushDispatch d).engine := by
  unfold pushDispatch
  split
  · exact .refl _
  · exact .aside rfl rfl rfl rfl rfl

private theorem replyDurably_aside (h : Host) (token : Token) (answer : Answer) :
    Engine.Moves h.engine [] (h.replyDurably token answer).engine := by
  unfold replyDurably
  split
  · exact .refl _
  · rename_i journal hj
    refine .aside rfl rfl rfl rfl ?_
    simp [Engine.logged, Engine.withLog, hj, Journal.defer]

theorem pushDurably_aside (h : Host) (d : Dispatch) :
    Engine.Moves h.engine [] (h.pushDurably d).engine := by
  unfold pushDurably
  split
  · exact pushDispatch_aside h d
  · rename_i journal hj
    refine .aside rfl rfl rfl rfl ?_
    simp [Engine.logged, Engine.withLog, hj, Journal.hold]

theorem onEngine_eq {f : Engine → Option Engine} (hf : h.onEngine f = some h₁) :
    f h.engine = some h₁.engine := by
  obtain ⟨e, he, hret⟩ := Option.bind_eq_some_iff.mp hf
  obtain rfl := Option.some.inj hret
  exact he

private theorem classifyNew_ok {e : Engine} {state : JobState}
    (hok : (e.scheduler.submit id e.jobs now e.cycle).result = .ok state) :
    e.classifyNew id now =
      (e.withRoster ((e.adoptStep (e.scheduler.submit id e.jobs now e.cycle)).noteIf state id now),
        .ok state) := by
  unfold Engine.classifyNew
  simp only [hok]

section

variable [Crc32]

private theorem recordSubmitted_eq {e e₁ : Engine} {job : Job} (hid : e.jobs.get id = some job)
    (hrec : recordSubmitted e id = some e₁) : ∃ journal, e₁ = e.withLog journal ∧
      e₁.logged = e.logged.map (· ++ [.submitted id job]) := by
  unfold recordSubmitted at hrec
  cases hj : e.journal with
  | none =>
    rw [hj] at hrec
    obtain rfl := Option.some.inj hrec
    exact ⟨none, by rw [← hj]; rfl, by simp [Engine.logged, hj]⟩
  | some journal =>
    rw [hj, hid] at hrec
    cases hb : encodeSubmitted id job with
    | none => simp [Journal.recordSubmitted, hb] at hrec
    | some bytes =>
      obtain rfl : e.withLog (some (journal.grow (.submitted id job) bytes)) = e₁ := by
        simpa [Journal.recordSubmitted, hb] using hrec
      exact ⟨_, rfl, by simp [Engine.logged, Engine.withLog, hj, Journal.grow]⟩

private theorem onSubmit_moves {job : NewJob} {token : Token}
    (hs : h.onSubmit job.job token now = some h₁) : Engine.Moves h.engine [] h₁.engine ∨
      ∃ id, Engine.Moves h.engine [.acted (.submitted id job.job)] h₁.engine := by
  unfold onSubmit at hs
  obtain ⟨id, hnext, hs⟩ := Option.bind_eq_some_iff.mp hs
  cases hcheck : h.engine.scheduler.checkSubmit id job.job h.engine.jobs with
  | error err =>
    rw [hcheck] at hs
    obtain rfl := Option.some.inj hs
    exact Or.inl (.refl _)
  | ok readiness =>
    rw [hcheck] at hs
    obtain ⟨⟨jobs, id'⟩, hinsert, hs⟩ := Option.bind_eq_some_iff.mp hs
    obtain rfl : id' = id := by
      have := Arena.nextId_of_insert hinsert
      rw [hnext, Option.some.injEq] at this
      exact this.symm
    have hget : jobs.get id' = some job.job := by rw [Arena.get_insert hinsert, if_pos rfl]
    obtain ⟨e, hrec, hs⟩ := Option.bind_eq_some_iff.mp hs
    obtain ⟨journal, rfl, hlogged⟩ := recordSubmitted_eq hget hrec
    have hok := @Scheduler.submit_of_checkSubmit _ _ _ _ now h.engine.cycle _ _ hcheck hinsert
      job.submitted
    obtain rfl := Option.some.inj hs
    rw [@classifyNew_ok id' now
      ((h.engine.withRoster { h.engine.toRoster with jobs := jobs }).withLog journal) _ hok]
    refine Or.inr ⟨id', .transAside ?_ (replyDurably_aside _ _ _)⟩
    exact Engine.moves_of_takes (.acted (.submitted now hinsert job.submitted job.fresh hok)
      rfl) rfl rfl rfl rfl hlogged

private theorem onCancel_moves {token : Token} (hc : h.onCancel id token now = some h₁) :
    Engine.Plain h.engine h₁.engine := by
  unfold onCancel at hc
  obtain ⟨h₂, hmid, hret⟩ := Option.bind_eq_some_iff.mp hc
  obtain rfl := Option.some.inj hret
  refine .trans ?_ (.none (replyDurably_aside _ _ _))
  dsimp only at hmid
  rcases (h.engine.unbind id).scheduler.cancel_cases id (h.engine.unbind id).jobs now
    h.engine.cycle with ⟨cascade, hok⟩ | ⟨hno, err, heq⟩
  · rw [hok] at hmid
    obtain ⟨e₂, hrec, hret⟩ := Option.bind_eq_some_iff.mp hmid
    obtain ⟨journal, rfl, hlogged⟩ := Engine.record_eq hrec
    obtain rfl := Option.some.inj hret
    split
    · refine .trans ?_ (.none (pushDispatch_aside _ _))
      exact .one (Engine.moves_of_takes (.cancelled (.cancelled now hok)) rfl rfl rfl rfl
        hlogged) rfl
    · exact .one (Engine.moves_of_takes (.cancelled (.cancelled now hok)) rfl rfl rfl rfl
        hlogged) rfl
  · rw [heq] at hmid
    obtain rfl := Option.some.inj hmid
    rw [Core.toRoster_unbind] at hno
    obtain ⟨events, hchain, hall⟩ := @Core.refused_unbind h.engine.toCore id h.engine.cycle
      fun job hid => by
        have hover := hno job hid
        cases hst : job.state <;> first | rfl | (rw [hst] at hover; exact nomatch hover)
    have hsilent : events.flatMap Event.records = [] := by
      rw [List.flatMap_eq_nil_iff]
      intro ev hev
      rw [hall ev hev]
      rfl
    refine ⟨events, ⟨hchain, rfl, rfl, rfl, ?_⟩, fun ev hev => by rw [hall ev hev]; rfl⟩
    rw [hsilent]
    show h.engine.logged = _
    cases h.engine.logged <;> simp

private theorem requeue_moves {c : Core} (gone : h.engine.Unbinds id c)
    (hreq : { h with engine := h.engine.withCore c }.onEngine (·.requeueLogged id now) =
      some h₁) : Engine.Plain h.engine h₁.engine := by
  rcases Engine.requeueLogged_cases (onEngine_eq hreq) with
    ⟨r, journal, hdoes, heq, hlogged⟩ | ⟨hno, heq⟩
  · rw [heq] at hlogged ⊢
    exact .one (Engine.moves_of_takes (.ended gone hdoes (by simp [Act.ends])) rfl rfl rfl rfl
      hlogged) rfl
  · rw [heq]
    refine .one (Engine.moves_of_silent (.refused gone fun job hid => ?_) rfl) rfl
    rw [← gone.toRoster] at hid
    have hq := hno job hid
    cases hst : job.state <;> first | rfl | (rw [hst] at hq; exact nomatch hq)

private theorem claim_moves (hc : h.claim id slot now = some h₁) :
    Engine.Plain h.engine h₁.engine := by
  unfold claim at hc
  cases hu : h.engine.unhold id with
  | mk c found =>
  rw [hu] at hc
  cases found with
  | true =>
    -- Held after recovery: adopted, dropped as stale, or requeued.
    obtain ⟨-, hc₁⟩ := Core.unhold_true hu
    unfold adoptRunning at hc
    dsimp only at hc
    split at hc
    · rename_i hget
      obtain rfl := Option.some.inj hc
      refine .one (Engine.moves_of_silent (.stale hu fun job hid => ?_) rfl) rfl
      rw [hc₁] at hget
      exact nomatch hget.symm.trans hid
    · rename_i job hget
      have hlive : h.engine.jobs.get id = some job := by rw [hc₁] at hget; exact hget
      split at hc
      · rename_i hst
        obtain rfl := Option.some.inj hc
        refine .one (Engine.moves_of_silent (.stale hu fun j hid => ?_) rfl) rfl
        rw [hlive, Option.some.injEq] at hid
        exact hid ▸ hst
      · rename_i hst
        split at hc
        · rename_i inventory hfits
          have hfits : h.engine.inventory.tryAllocate slot job.request = .ok inventory := by
            rw [hc₁] at hfits
            exact hfits
          obtain rfl := Option.some.inj hc
          exact .one (Engine.moves_of_silent
            (.adopted slot now hu hlive (not_not.mp hst) hfits) rfl) rfl
        · obtain ⟨h₂, hreq, hret⟩ := Option.bind_eq_some_iff.mp hc
          obtain rfl := Option.some.inj hret
          exact (requeue_moves (Or.inr hu) hreq).trans (.none (pushDispatch_aside _ _))
  | false =>
    dsimp only at hc
    split at hc
    · rename_i r hfound
      unfold rebind at hc
      dsimp only at hc
      split at hc
      · rename_i inventory hfits
        obtain rfl := Option.some.inj hc
        exact .one (Engine.moves_of_silent (.rebound slot hfound hfits) rfl) rfl
      · obtain ⟨h₂, hreq, hret⟩ := Option.bind_eq_some_iff.mp hc
        obtain rfl := Option.some.inj hret
        exact (requeue_moves (Or.inl ⟨_, Core.release_found hfound⟩) hreq).trans
          (.none (pushDispatch_aside _ _))
    · obtain rfl := Option.some.inj hc
      exact .none (pushDispatch_aside _ _)

private theorem claimEach_moves {ids : List JobId} : ∀ {h : Host},
    claimEach slot now ids h = some h₁ → Engine.Plain h.engine h₁.engine := by
  induction ids with
  | nil =>
    intro h hc
    exact Option.some.inj hc ▸ .none (.refl _)
  | cons id ids ih =>
    intro h hc
    obtain ⟨h₂, hone, hrest⟩ := Option.bind_eq_some_iff.mp hc
    exact (claim_moves hone).trans (ih hrest)

private theorem onWorkerJoined_moves {name : String} {capacity : Capacity} {inFlight : List JobId}
    {token : Token} (hj : h.onWorkerJoined name capacity inFlight token now = some h₁) :
    ∃ events, Engine.Moves h.engine (.attached (h.engine.attach name capacity).2 :: events)
      h₁.engine ∧ ∀ ev ∈ events, ev.isPlain = true := by
  unfold onWorkerJoined at hj
  obtain ⟨h₂, hclaims, hret⟩ := Option.bind_eq_some_iff.mp hj
  obtain rfl := Option.some.inj hret
  obtain ⟨events, hmoves, hplain⟩ := claimEach_moves hclaims
  exact ⟨events,
    (Engine.moves_of_silent (.attached h.engine.toCore name capacity) rfl).trans hmoves, hplain⟩

end

end Host

def Event.Due (e : Engine) (command : Command) : Event → Prop
  | acted (.submitted _ job) => ∃ new reply, command = .submit new reply ∧ new.job = job
  | unconfirmed id => command = .preempted id
  | attached slot => ∃ name capacity inFlight reply,
      command = .workerJoined name capacity inFlight reply ∧ (e.attach name capacity).2 = slot
  | drained slot => command = .workerDraining slot
  | left slot _ => command = .workerLeft slot
  | abandoned slot => e.quiescing = true ∧ command = .workerLeft slot
  | acted (.dispatched _ _) | acted (.preempted _ _) | acted (.forgotten _) | acted (.dropped _)
  | expired _ => False
  | _ => True

private theorem Event.due_of_isPlain {event : Event} (h : event.isPlain = true) (e : Engine)
    (command : Command) : event.Due e command := by
  cases event with
  | acted act =>
    cases act with
    | submitted | dispatched | preempted | forgotten | dropped => exact nomatch h
    | _ => trivial
  | unconfirmed | attached | drained | left | abandoned | expired => exact nomatch h
  | _ => trivial

namespace Host

variable {h h₁ : Host} {now : VirtualTime}

private theorem due_of_single {e : Engine} {command : Command} {event : Event}
    (hdue : event.Due e command) :
    ∀ ev ∈ [event], ev.Due e command := fun _ hev => List.mem_singleton.mp hev ▸ hdue

theorem handle_moves [Crc32] {command : Command} (hc : h.handle command now = some h₁) :
    ∃ events, Engine.Moves h.engine events h₁.engine ∧ ∀ ev ∈ events, ev.Due h.engine command := by
  have hplain : Engine.Plain h.engine h₁.engine → ∃ events,
      Engine.Moves h.engine events h₁.engine ∧ ∀ ev ∈ events, ev.Due h.engine command :=
    fun ⟨events, hmoves, hall⟩ =>
      ⟨events, hmoves, fun ev hev => Event.due_of_isPlain (hall ev hev) _ _⟩
  cases command with
  | submit job reply =>
    rcases onSubmit_moves hc with hmoves | ⟨id, hmoves⟩
    · exact ⟨[], hmoves, fun ev hev => nomatch hev⟩
    · exact ⟨_, hmoves, due_of_single ⟨job, reply, rfl, rfl⟩⟩
  | cancel id reply => exact hplain (onCancel_moves hc)
  | completed id =>
    simp only [handle] at hc
    exact hplain (Engine.onCompletedReport_moves (onEngine_eq hc))
  | failed id =>
    simp only [handle] at hc
    exact hplain (Engine.onFailedReport_moves (onEngine_eq hc))
  | preempted id =>
    simp only [handle] at hc
    rcases Engine.onPreemptedReport_moves (onEngine_eq hc) with hall | hmoves
    · exact hplain hall
    · exact ⟨_, hmoves, due_of_single rfl⟩
  | workerJoined name capacity inFlight reply =>
    obtain ⟨events, hmoves, hall⟩ := onWorkerJoined_moves hc
    refine ⟨_, hmoves, fun ev hev => ?_⟩
    rcases List.mem_cons.mp hev with rfl | hev
    · exact ⟨name, capacity, inFlight, reply, rfl, rfl⟩
    · exact Event.due_of_isPlain (hall ev hev) _ _
  | workerLeft slot =>
    simp only [handle] at hc
    rcases Engine.evictSlot_moves (onEngine_eq hc) with ⟨acts, hmoves⟩ | ⟨hquiet, hmoves⟩
    · exact ⟨_, hmoves, due_of_single rfl⟩
    · exact ⟨_, hmoves, due_of_single ⟨hquiet, rfl⟩⟩
  | workerDraining slot =>
    obtain rfl := Option.some.inj hc
    exact ⟨_, Engine.moves_of_silent (.drained _ slot) rfl, due_of_single rfl⟩
  | query query reply =>
    obtain rfl := Option.some.inj hc
    exact ⟨[], .refl _, fun ev hev => nomatch hev⟩

end Host

end TaskerRT.Daemon
