/- module: TaskerRT/Daemon/Tick
   source: crates/taskerd/src/engine.rs (tick, plan_evictions, forget_expired, expire_reconcile)
   digest: A tick is a cycle, evictions, retention and reconciliation, each a run of events. -/

import TaskerRT.Daemon.Handler

set_option autoImplicit false

namespace TaskerRT.Daemon

open Library Domain Cluster Policy Scheduling Wal

/-- Dispatches and evictions: what a tick does before it looks at the retention queue. -/
def Event.isPlacement : Event → Bool
  | acted (.dispatched _ _) | acted (.preempted _ _) => true
  | _ => false

private theorem Core.Takes.terminal_eq {config : CycleConfig} {c c' : Core} {event : Event}
    (h : c.Takes config event c') (hp : event.isPlacement = true) : c'.terminal = c.terminal := by
  cases h with
  | acted h free =>
    cases h with
    | preempted => rfl
    | dispatched => exact nomatch free
    | _ => exact nomatch hp
  | @ended c₁ act id r gone h ends =>
    cases act with
    | dispatched | preempted => exact nomatch ends
    | _ => exact nomatch hp
  | cycled ran => rw [Core.toRoster_bindEach]
  | _ => exact nomatch hp

private theorem Core.terminal_of_chain {config : CycleConfig} {c c' : Core} {events : List Event}
    (h : Chain (Core.Takes config) c events c') (hp : ∀ ev ∈ events, ev.isPlacement = true) :
    c'.terminal = c.terminal := by
  induction h with
  | nil => rfl
  | cons head _ ih =>
    refine (ih fun ev hev => hp ev (List.mem_cons_of_mem _ hev)).trans ?_
    exact head.terminal_eq (hp _ List.mem_cons_self)

namespace Engine

variable {e e₁ e₂ : Engine} {now : VirtualTime}

/-- The jobs at the front of the retention queue whose time has come. -/
def expired (e : Engine) (now : VirtualTime) : List JobId :=
  (e.terminal.takeWhile fun p => !decide (Word.saturatingSub now p.1 < e.retain)).map (·.2)

/-- What a tick can cause when only these jobs may be forgotten. -/
def Ticks (forgettable : List JobId) (e e' : Engine) : Prop :=
  ∃ events, Moves e events e' ∧ ∀ ev ∈ events, ev.isTick = true ∧
    ∀ id, ev = .acted (.forgotten id) → id ∈ forgettable

variable {forgettable : List JobId}

private theorem Ticks.none (h : Moves e [] e₁) : Ticks forgettable e e₁ := ⟨[], h, by simp⟩

private theorem Ticks.one {event : Event} (h : Moves e [event] e₁) (ht : event.isTick = true)
    (hf : ∀ id, event = .acted (.forgotten id) → id ∈ forgettable) : Ticks forgettable e e₁ :=
  ⟨_, h, by simpa using ⟨ht, hf⟩⟩

private theorem Ticks.trans (h : Ticks forgettable e e₁) (h' : Ticks forgettable e₁ e₂) :
    Ticks forgettable e e₂ := by
  obtain ⟨events, hm, hp⟩ := h
  obtain ⟨events', hm', hp'⟩ := h'
  refine ⟨events ++ events', hm.trans hm', fun ev hev => ?_⟩
  exact (List.mem_append.mp hev).elim (hp ev) (hp' ev)

/-- What retention can cause when only these jobs may be forgotten. -/
def Clears (forgettable : List JobId) (e e' : Engine) : Prop :=
  ∃ events, Moves e events e' ∧ ∀ ev ∈ events,
    ∃ id, ev = .acted (.dropped id) ∨ ev = .acted (.forgotten id) ∧ id ∈ forgettable

private theorem Clears.refl (e : Engine) : Clears forgettable e e := ⟨[], .refl e, by simp⟩

private theorem Clears.head {event : Event} {id : JobId} (h : Moves e [event] e₁)
    (hev : event = .acted (.dropped id) ∨ event = .acted (.forgotten id) ∧ id ∈ forgettable)
    (h' : Clears forgettable e₁ e₂) : Clears forgettable e e₂ := by
  obtain ⟨events, hm, hp⟩ := h'
  refine ⟨event :: events, h.trans hm, fun ev hmem => ?_⟩
  rcases List.mem_cons.mp hmem with rfl | hmem
  · exact ⟨id, hev⟩
  · exact hp ev hmem

private theorem Clears.mono {more : List JobId} (h : Clears forgettable e e₁)
    (hsub : ∀ id ∈ forgettable, id ∈ more) : Clears more e e₁ := by
  obtain ⟨events, hm, hp⟩ := h
  refine ⟨events, hm, fun ev hev => ?_⟩
  obtain ⟨id, hid⟩ := hp ev hev
  exact ⟨id, hid.imp_right fun hf => ⟨hf.1, hsub id hf.2⟩⟩

private theorem Clears.ticks (h : Clears forgettable e e₁) : Ticks forgettable e e₁ := by
  obtain ⟨events, hm, hp⟩ := h
  refine ⟨events, hm, fun ev hev => ?_⟩
  obtain ⟨id, rfl | ⟨rfl, hid⟩⟩ := hp ev hev
  · exact ⟨rfl, nofun⟩
  · refine ⟨rfl, fun x hx => ?_⟩
    cases hx
    exact hid

private theorem commit_aside (e : Engine) (room : Bool) : Moves e [] (e.commit room) := by
  refine .aside rfl rfl rfl rfl ?_
  show (e.journal.map (·.commit room)).map (·.logged) = e.journal.map (·.logged)
  rw [Option.map_map]
  congr 1
  funext journal
  show (journal.commit room).logged = journal.logged
  unfold Journal.commit
  split
  · rfl
  · split <;> rfl

section

variable [Crc32]

private theorem rotateIfDue_aside (h : e.rotateIfDue now = some e₁) : Moves e [] e₁ := by
  unfold rotateIfDue at h
  cases hj : e.journal with
  | none =>
    rw [hj] at h
    exact Option.some.inj h ▸ .refl e
  | some journal =>
    rw [hj] at h
    dsimp only at h
    split at h
    · obtain ⟨bytes, -, hret⟩ := Option.bind_eq_some_iff.mp h
      obtain rfl := Option.some.inj hret
      refine .aside rfl rfl rfl rfl ?_
      simp [logged, withLog, hj, Journal.attachSnapshot]
    · exact Option.some.inj h ▸ .refl e

theorem forgetLoop_clears {queue : List (VirtualTime × JobId)} : ∀ {e : Engine},
    e.terminal = queue → forgetLoop now queue e = some e₁ → Clears (e.expired now) e e₁ := by
  induction queue with
  | nil =>
    intro e hq h
    obtain rfl := Option.some.inj h
    rw [← hq]
    exact .refl e
  | cons p rest ih =>
    intro e hq h
    obtain ⟨at_, id⟩ := p
    unfold forgetLoop at h
    split at h
    · obtain rfl := Option.some.inj h
      rw [← hq]
      exact .refl e
    · rename_i hdue
      have hexpired : e.expired now =
          id :: ((rest.takeWhile fun p => !decide (Word.saturatingSub now p.1 < e.retain)).map
            (·.2)) := by
        unfold expired
        rw [hq, List.takeWhile_cons_of_pos (by simpa using hdue), List.map_cons]
      cases hremove : e.jobs.remove id with
      | mk jobs removed =>
      have hget : e.jobs.get id = removed := by rw [← Arena.remove_snd, hremove]
      have hjobs : (e.jobs.remove id).1 = jobs := by rw [hremove]
      rw [hremove] at h
      cases removed with
      | none =>
        have hdrop : Moves e [.acted (.dropped id)]
            (e.withRoster { e.toRoster with terminal := rest }) :=
          moves_of_silent (.acted (.dropped hq hget) rfl) rfl
        have hrest := ih (e := e.withRoster { e.toRoster with terminal := rest }) rfl h
        refine .head hdrop (Or.inl rfl) (hrest.mono fun x hx => ?_)
        rw [hexpired]
        exact List.mem_cons_of_mem _ hx
      | some job =>
        obtain ⟨e₂, hrec, hloop⟩ := Option.bind_eq_some_iff.mp h
        obtain ⟨journal, rfl, hlogged⟩ := record_eq hrec
        have hdoes := @Roster.Does.forgotten e.cycle e.toRoster at_ id job rest hq hget
        rw [hjobs] at hdoes
        have hrest := ih (e := (e.withRoster
          { e.toRoster with jobs := jobs, terminal := rest }).withLog journal) rfl hloop
        have hforget : Moves e [.acted (.forgotten id)] ((e.withRoster
            { e.toRoster with jobs := jobs, terminal := rest }).withLog journal) :=
          moves_of_takes (.acted hdoes rfl) rfl rfl rfl rfl hlogged
        refine .head hforget (Or.inr ⟨rfl, ?_⟩) (hrest.mono fun x hx => ?_)
        · rw [hexpired]
          exact List.mem_cons_self
        · rw [hexpired]
          exact List.mem_cons_of_mem _ hx

private theorem forgetLoop_terminal {queue : List (VirtualTime × JobId)} : ∀ {e : Engine},
    forgetLoop now queue e = some e₁ → e₁.terminal =
      queue.dropWhile fun p => !decide (Word.saturatingSub now p.1 < e.retain) := by
  induction queue with
  | nil =>
    intro e h
    rw [← Option.some.inj h]
    rfl
  | cons p rest ih =>
    intro e h
    obtain ⟨at_, id⟩ := p
    unfold forgetLoop at h
    split at h
    · rename_i hlater
      rw [← Option.some.inj h, List.dropWhile_cons_of_neg (by simpa using hlater)]
      rfl
    · rename_i hdue
      rw [List.dropWhile_cons_of_pos (by simpa using hdue)]
      split at h
      · obtain ⟨e₂, hrec, hloop⟩ := Option.bind_eq_some_iff.mp h
        obtain ⟨journal, rfl, -⟩ := record_eq hrec
        have hrest := ih hloop
        exact hrest
      · have hrest := ih h
        exact hrest

theorem expireReconcile_moves (h : e.expireReconcile now = some e₁) :
    Moves e [] e₁ ∨ ∃ acts, Moves e [.expired acts] e₁ := by
  unfold expireReconcile at h
  split at h
  · obtain rfl := Option.some.inj h
    exact Or.inl (.aside rfl rfl rfl rfl rfl)
  · dsimp only at h
    split at h
    · obtain rfl := Option.some.inj h
      exact Or.inl (.aside rfl rfl rfl rfl rfl)
    · obtain ⟨e₂, hreq, hret⟩ := Option.bind_eq_some_iff.mp h
      obtain rfl := Option.some.inj hret
      obtain ⟨acts, hacts⟩ := requeueHeld_requeued hreq
      obtain ⟨journal, hframe⟩ := hacts.frame
      refine Or.inr ⟨acts, moves_of_takes (.expired hacts.requeues) ?_ ?_ ?_ ?_ hacts.logged⟩
      all_goals show _ = _; rw [hframe]; rfl

private theorem expireReconcile_ticks (h : e.expireReconcile now = some e₁) :
    Ticks forgettable e e₁ := by
  rcases expireReconcile_moves h with hm | ⟨acts, hm⟩
  · exact .none hm
  · exact .one hm rfl nofun

private theorem terminal_of_expireReconcile (h : e.expireReconcile now = some e₁) :
    e₁.terminal = e.terminal := by
  unfold expireReconcile at h
  split at h
  · rw [← Option.some.inj h]
  · dsimp only at h
    split at h
    · rw [← Option.some.inj h]
    · obtain ⟨e₂, hreq, hret⟩ := Option.bind_eq_some_iff.mp h
      obtain rfl := Option.some.inj hret
      obtain ⟨acts, hacts⟩ := requeueHeld_requeued hreq
      exact hacts.requeues.terminal_eq

end

end Engine

namespace Host

variable {h h₁ : Host} {now : VirtualTime} {forgettable : List JobId}

theorem flushLoop_aside (ds : List Dispatch) : ∀ h : Host,
    Engine.Moves h.engine [] (flushLoop ds h).engine := by
  induction ds with
  | nil => exact fun _ => .aside rfl rfl rfl rfl rfl
  | cons d ds ih =>
    intro h
    unfold flushLoop
    split
    · rename_i outbox _
      exact ih { h with outbox := outbox }
    · exact .aside rfl rfl rfl rfl rfl

def Places (e e' : Engine) : Prop :=
  ∃ events, Engine.Moves e events e' ∧ ∀ ev ∈ events, ev.isPlacement = true

theorem Places.none {e e₁ : Engine} (hm : Engine.Moves e [] e₁) : Places e e₁ :=
  ⟨[], hm, by simp⟩

theorem Places.one {e e₁ : Engine} {event : Event} (hm : Engine.Moves e [event] e₁)
    (hp : event.isPlacement = true) : Places e e₁ :=
  ⟨_, hm, by simpa using hp⟩

theorem Places.trans {e e₁ e₂ : Engine} (hp : Places e e₁) (hp' : Places e₁ e₂) :
    Places e e₂ := by
  obtain ⟨events, hm, hall⟩ := hp
  obtain ⟨events', hm', hall'⟩ := hp'
  refine ⟨events ++ events', hm.trans hm', fun ev hev => ?_⟩
  exact (List.mem_append.mp hev).elim (hall ev) (hall' ev)

private theorem Places.ticks {e e₁ : Engine} (hp : Places e e₁) :
    Engine.Ticks forgettable e e₁ := by
  obtain ⟨events, hm, hall⟩ := hp
  refine ⟨events, hm, fun ev hev => ⟨?_, ?_⟩⟩
  · have := hall ev hev
    revert this
    cases ev with
    | acted act => cases act <;> simp [Event.isPlacement, Event.isTick]
    | _ => simp [Event.isPlacement]
  · rintro id rfl
    exact nomatch hall _ hev

theorem Places.expired_eq {e e₁ : Engine} (hp : Places e e₁) (now : VirtualTime) :
    e₁.expired now = e.expired now := by
  obtain ⟨events, hm, hall⟩ := hp
  unfold Engine.expired
  rw [Core.terminal_of_chain hm.chain hall, hm.retain]

section

variable [Crc32]

private theorem onDispatchedEach_spec {ds : List DispatchDecision} : ∀ {h : Host},
    (∀ d ∈ ds, ∃ job, h.engine.jobs.get d.job = some job) →
    onDispatchedEach now ds h = some h₁ →
      h₁.engine.toCore = h.engine.toCore.bindEach now ds ∧ h₁.engine.cycle = h.engine.cycle ∧
      h₁.engine.retain = h.engine.retain ∧ h₁.engine.quiescing = h.engine.quiescing ∧
      h₁.engine.logged =
        h.engine.logged.map (· ++ ds.map fun d => .dispatched d.job now) := by
  induction ds with
  | nil =>
    intro h _ hd
    obtain rfl := Option.some.inj hd
    exact ⟨rfl, rfl, rfl, rfl, by cases h.engine.logged <;> simp⟩
  | cons d ds ih =>
    intro h hlive hd
    obtain ⟨job, hjob⟩ := hlive d List.mem_cons_self
    obtain ⟨h₂, hone, hrest⟩ := Option.bind_eq_some_iff.mp hd
    unfold onDispatched at hone
    rw [hjob] at hone
    obtain ⟨h₃, hlog, hret⟩ := Option.bind_eq_some_iff.mp hone
    obtain rfl := Option.some.inj hret
    obtain ⟨journal, hrec, hlogged⟩ := Engine.record_eq (onEngine_eq hlog)
    have haside := pushDurably_aside h₃ (.assign d.slot d.job job.payload job.walltimeLimit)
    have hcore : (h₃.pushDurably (.assign d.slot d.job job.payload job.walltimeLimit)).engine.toCore
        = h.engine.toCore.bind d.job job d.slot now := by
      rw [← Chain.nil_iff.mp haside.chain, hrec]
      rfl
    have hsame : ∀ c : Core, (c.bind d.job job d.slot now).jobs = c.jobs := fun _ => rfl
    obtain ⟨hbound, hcycle, hretain, hquiet, hlogged'⟩ := ih (fun x hx => by
      rw [hcore, hsame]
      exact hlive x (List.mem_cons_of_mem _ hx)) hrest
    refine ⟨?_, ?_, ?_, ?_, ?_⟩
    · rw [hbound, hcore]
      show _ = Core.bindEach now ds (Option.elim (h.engine.jobs.get d.job) _ _)
      rw [hjob]
      rfl
    · rw [hcycle, haside.cycle, hrec]
      rfl
    · rw [hretain, haside.retain, hrec]
      rfl
    · rw [hquiet, haside.quiescing, hrec]
      rfl
    · rw [hlogged', haside.logged, hlogged]
      show _ = h.engine.logged.map _
      have : (h.engine.withCore (h.engine.bind d.job job d.slot now)).logged = h.engine.logged :=
        rfl
      simp only [this]
      cases h.engine.logged <;> simp

theorem evict_moves {v : Eviction} (he : h.evict now v = some h₁) :
    Engine.Moves h.engine [] h₁.engine ∨
      Engine.Moves h.engine [.acted (.preempted v.job now)] h₁.engine := by
  unfold evict at he
  dsimp only at he
  split at he
  · exact Or.inl (Option.some.inj he ▸ .refl _)
  · rename_i u hok
    obtain ⟨h₂, hlog, hret⟩ := Option.bind_eq_some_iff.mp he
    obtain rfl := Option.some.inj hret
    obtain ⟨journal, hrec, hlogged⟩ := Engine.record_eq (onEngine_eq hlog)
    have hmoves : Engine.Moves h.engine [.acted (.preempted v.job now)] h₂.engine := by
      rw [hrec] at hlogged ⊢
      exact Engine.moves_of_takes (.acted (.preempted now hok) rfl) rfl rfl rfl rfl hlogged
    exact Or.inr (hmoves.trans (pushDurably_aside _ _))

private theorem evict_places {v : Eviction} (he : h.evict now v = some h₁) :
    Places h.engine h₁.engine := by
  rcases evict_moves he with hm | hm
  · exact .none hm
  · exact .one hm rfl

private theorem evictEach_places {vs : List Eviction} : ∀ {h : Host},
    evictEach now vs h = some h₁ → Places h.engine h₁.engine := by
  induction vs with
  | nil =>
    intro h he
    exact Option.some.inj he ▸ .none (.refl _)
  | cons v vs ih =>
    intro h he
    obtain ⟨h₂, hone, hrest⟩ := Option.bind_eq_some_iff.mp he
    exact (evict_places hone).trans (ih hrest)

private theorem planEvictions_places {head : JobId} (hp : h.planEvictions head now = some h₁) :
    Places h.engine h₁.engine := by
  unfold planEvictions at hp
  split at hp
  · exact Option.some.inj hp ▸ .none (.refl _)
  · split at hp
    · exact Option.some.inj hp ▸ .none (.refl _)
    · exact evictEach_places hp

theorem evicted_places (he : h₁ = h ∨ ∃ head, h.planEvictions head now = some h₁) :
    Places h.engine h₁.engine := by
  rcases he with rfl | ⟨head, hplanned⟩
  · exact .none (.refl _)
  · exact planEvictions_places hplanned

private theorem cycle_moves {cycle : Scheduler.CycleResult}
    (hrun : h.engine.scheduler.runCycle h.engine.jobs h.engine.inventory h.engine.running now
      h.engine.cycle [] = some cycle)
    (hd : onDispatchedEach now cycle.decisions
      { h with engine := h.engine.withCore { h.engine.toCore with
        scheduler := cycle.scheduler
        jobs := cycle.jobs
        inventory := cycle.inventory } } = some h₁) :
    Engine.Moves h.engine [.acted (.dispatched (cycle.decisions.map (·.job)) now)] h₁.engine := by
  obtain ⟨hcore, hcycle, hretain, hquiet, hlogged⟩ :=
    onDispatchedEach_spec (Scheduler.runCycle_live hrun) hd
  refine Engine.moves_of_takes (.cycled hrun) hcore hcycle hretain hquiet ?_
  rw [hlogged]
  simp [Event.records, Event.acts, Act.records, List.map_map, Function.comp_def]
  rfl

theorem tick_split {room : Bool} {outcome : CycleOutcome}
    (ht : h.tick now room = some (h₁, outcome)) :
    ∃ (ids : List JobId) (h₂ h₃ : Host) (e₃ e₄ e₅ : Engine),
      Engine.Moves h.engine [.acted (.dispatched ids now)] h₂.engine ∧
      (h₃ = h₂ ∨ ∃ head, h₂.planEvictions head now = some h₃) ∧ Engine.Moves h₃.engine [] e₃ ∧
      e₃.forgetExpired now = some e₄ ∧ e₄.expireReconcile now = some e₅ ∧
      Engine.Moves e₅ [] h₁.engine := by
  unfold tick at ht
  have hflush : Engine.Moves h.engine [] h.flushOverflow.engine := flushLoop_aside _ h
  obtain ⟨cycle, hrun, ht⟩ := Option.bind_eq_some_iff.mp ht
  obtain ⟨h₂, hdispatched, ht⟩ := Option.bind_eq_some_iff.mp ht
  obtain ⟨h₃, hplanned, ht⟩ := Option.bind_eq_some_iff.mp ht
  obtain ⟨e₄, hforget, ht⟩ := Option.bind_eq_some_iff.mp ht
  obtain ⟨e₅, hexpire, ht⟩ := Option.bind_eq_some_iff.mp ht
  obtain ⟨e₆, hrotate, ht⟩ := Option.bind_eq_some_iff.mp ht
  obtain ⟨rfl, rfl⟩ := Prod.mk.inj (Option.some.inj ht)
  have hevicts : h₃ = h₂ ∨ ∃ head, h₂.planEvictions head now = some h₃ := by
    split at hplanned
    · exact Or.inr ⟨_, hplanned⟩
    · exact Or.inl (Option.some.inj hplanned).symm
  have haside : Engine.Moves h₃.engine []
      ({ h₃.engine with cycles := h₃.engine.cycles + 1 } : Engine).refreshDemand :=
    .aside rfl rfl rfl rfl rfl
  exact ⟨_, h₂, h₃, _, e₄, e₅, hflush.trans (cycle_moves hrun hdispatched), hevicts, haside,
    hforget, hexpire, (Engine.rotateIfDue_aside hrotate).trans (Engine.commit_aside e₆ room)⟩

private theorem tick_stages {room : Bool} {outcome : CycleOutcome}
    (ht : h.tick now room = some (h₁, outcome)) :
    ∃ e₃ e₄ e₅, Places h.engine e₃ ∧ e₃.forgetExpired now = some e₄ ∧
      e₄.expireReconcile now = some e₅ ∧ Engine.Moves e₅ [] h₁.engine := by
  obtain ⟨ids, h₂, h₃, e₃, e₄, e₅, hcycle, hevicts, haside, hforget, hexpire, hlast⟩ :=
    tick_split ht
  have hplace := (evicted_places hevicts).trans (.none haside)
  exact ⟨e₃, e₄, e₅, (Places.one hcycle rfl).trans hplace, hforget, hexpire, hlast⟩

theorem tick_ticks {room : Bool} {outcome : CycleOutcome}
    (ht : h.tick now room = some (h₁, outcome)) :
    Engine.Ticks (h.engine.expired now) h.engine h₁.engine := by
  obtain ⟨e₃, e₄, e₅, hplace, hforget, hexpire, haside⟩ := tick_stages ht
  refine hplace.ticks.trans (.trans ?_ (.trans (Engine.expireReconcile_ticks hexpire)
    (.none haside)))
  rw [← hplace.expired_eq now]
  exact (Engine.forgetLoop_clears rfl hforget).ticks

theorem tick_terminal {room : Bool} {outcome : CycleOutcome}
    (ht : h.tick now room = some (h₁, outcome)) : h₁.engine.terminal =
      h.engine.terminal.dropWhile
        fun p => !decide (Word.saturatingSub now p.1 < h.engine.retain) := by
  obtain ⟨e₃, e₄, e₅, ⟨events, hmoves, hall⟩, hforget, hexpire, haside⟩ := tick_stages ht
  have hlast : h₁.engine.terminal = e₅.terminal :=
    congrArg (·.terminal) (Chain.nil_iff.mp haside.chain).symm
  have hmid := Engine.forgetLoop_terminal hforget
  rw [Core.terminal_of_chain hmoves.chain hall, hmoves.retain] at hmid
  rw [hlast, Engine.terminal_of_expireReconcile hexpire, hmid]

end

end Host

end TaskerRT.Daemon
