/- module: TaskerRT/Daemon/Restart
   source: crates/taskerd/src/engine.rs (recover, restore_snapshot, apply, encode_snapshot)
   digest: What a recovered engine is, for any snapshot of any run and any tail after it. -/

import TaskerRT.Daemon.Followed

set_option autoImplicit false

namespace TaskerRT.Daemon

open Library Domain Cluster Policy Scheduling Wal Book DependencyTracker

private theorem uncounted_resumed (job : Job) : uncounted (resumed job) = resumed
    (uncounted job) := by
  unfold resumed
  show uncounted (if job.state = .preempted then _ else _) = if job.state = .preempted then _ else _
  split <;> rfl

private theorem resumed_seen (grace : List JobId) (x : JobId) (job : Job) :
    resumed (seen grace x job) = resumed job := by
  unfold seen
  split
  · unfold resumed
    split <;> rfl
  · rfl

namespace Roster

variable {config : CycleConfig} {b : Book} {r r' : Roster} {act : Act} {records : List Record}
  {grace : List JobId}

theorem Does.fresh (h : r.Does config act r') : ∀ record ∈ act.records, Fresh record := by
  intro record hmem
  cases h with
  | submitted now fresh new unevicted ok =>
    rw [List.mem_singleton.mp hmem]
    exact unevicted
  | dispatched ran =>
    obtain ⟨x, -, rfl⟩ := List.mem_map.mp hmem
    trivial
  | dropped => exact absurd hmem List.not_mem_nil
  | completed | failed | cancelled | requeued | evicted | preempted | forgotten =>
    rw [List.mem_singleton.mp hmem]
    trivial

theorem Sane.requeueEvicting_ok (latest : VirtualTime) {ids : List JobId} : ∀ {r : Roster},
    Sane r → ids.Nodup → (∀ x ∈ ids, ∃ job, r.jobs.get x = some job ∧ job.state = .preempted) →
      ∃ r', Roster.requeueEvicting config latest ids r = .ok r' ∧
        Chain Lawful r.book (ids.map (Record.requeued · latest)) r'.book ∧
        r'.jobs = r.jobs.modifyAll ids (Job.withState · .ready) := by
  induction ids with
  | nil => exact fun _ _ _ => ⟨_, rfl, .nil _, rfl⟩
  | cons id ids ih =>
    intro r hs hnd hgrace
    obtain ⟨hnot, hnd⟩ := List.nodup_cons.mp hnd
    obtain ⟨job, hid, hst⟩ := hgrace id List.mem_cons_self
    have hworker : job.state.onWorker = true := by rw [hst]; rfl
    have hok := @Scheduler.requeue_ok r.scheduler r.jobs id job latest config hid
      (JobState.isRequeuable_of_onWorker hworker)
    have hjobs : (r.jobs.modify id fun _ => job.withState .ready) =
        r.jobs.modify id (Job.withState · .ready) :=
      Arena.modify_congr fun v hv => by rw [Option.some.inj (hid.symm.trans hv)]
    have hresult : (r.scheduler.requeue id r.jobs latest config).result = .ok () := by rw [hok]
    have hafter : (r.adoptStep (r.scheduler.requeue id r.jobs latest config)).jobs =
        r.jobs.modify id (Job.withState · .ready) := by rw [adoptStep, hok, ← hjobs]
    have hd : r.Does config (.requeued id latest) _ := .requeued latest hresult
    have hl : Act.Legal r (.requeued id latest) := ⟨job, hid, hworker⟩
    obtain ⟨r', hrest, hchain, hend⟩ := ih (hs.does hd hl) hnd fun x hx => by
      have hne : x ≠ id := fun he => hnot (he ▸ hx)
      obtain ⟨j, hj, hj'⟩ := hgrace x (List.mem_cons_of_mem _ hx)
      refine ⟨j, ?_, hj'⟩
      rw [hafter, Arena.get_modify_ne _ hne, hj]
    refine ⟨r', ?_, (hd.lawful hs hl).append hchain, ?_⟩
    · unfold Roster.requeueEvicting
      simp only [hresult]
      exact hrest
    · rw [hend, hafter]
      rfl

private theorem Reloads.follows (h : Reloads b r) (hlen : b.jobs.slots.length ≤ 2 ^ 32) :
    Follows (evictingIds b.jobs) b r.book := by
  refine ⟨?_, fun x => ?_, fun x hx => ?_⟩
  · show (r.jobs.map _) = _
    rw [h.jobs, Arena.outline_map]
  · show (r.jobs.get x).map uncounted = _
    rw [h.get, Option.map_map]
    cases hx : b.jobs.get x with
    | none => rfl
    | some job =>
      refine congrArg (fun j => some (uncounted j)) ?_
      by_cases hst : job.state = .preempted
      · have hmem : x ∈ evictingIds b.jobs := (mem_iter_state hlen).mpr ⟨job, hx, hst⟩
        exact (if_pos hmem).symm
      · rw [seen_of_ne _ x hst, resumed_of_ne hst]
  · obtain ⟨job, hjob, hst⟩ := (mem_iter_state hlen).mp hx
    refine ⟨Arena.issued_of_get hjob, fun j hj => ?_⟩
    rw [Option.some.inj (hj.symm.trans hjob)]
    exact Or.inl hst

end Roster

/-- The engine holds what `b` holds, with what was in its grace queued, waits for the workers of
what was running, and has bound nothing yet. -/
structure Core.Restores (b : Book) (c : Core) : Prop where
  sane : c.Sane
  settled : Settled c.toRoster.book
  noSelf : c.toRoster.book.NoSelfDeps
  outline : (c.jobs.map fun _ => PUnit.unit) = b.jobs.map fun _ => PUnit.unit
  jobs : ∀ x, (c.jobs.get x).map uncounted =
    (b.jobs.get x).map fun job => uncounted (resumed job)
  held : ∀ x, x ∈ c.reconciling ↔ InState b.jobs .running x

/-- Settling a roster that follows a book always succeeds, and restores that book. -/
private theorem Core.settle_follows {c : Core} {b : Book} {grace : List JobId}
    (hs : c.toRoster.Sane)
    (hsettled : Settled c.toRoster.book) (hself : b.NoSelfDeps)
    (hf : Follows grace b c.toRoster.book) (hidle : c.running = []) (config : CycleConfig)
    (latest : VirtualTime) : ∃ c', c.settle config latest = .ok c' ∧ Core.Restores b c' := by
  have hlen := hs.valid.wf.bound
  have hnodup : (Roster.evictingIds c.jobs).Nodup := nodup_iter_state hlen .preempted
  obtain ⟨r, hok, hchain, hjobs⟩ := hs.requeueEvicting_ok latest hnodup fun x hx =>
    (mem_iter_state hlen).mp hx
  have hsettle := Core.settle_eq_ok.mpr ⟨r, hok, rfl⟩
  refine ⟨_, hsettle, Core.sane_of_settle hs hidle hsettle, hsettled.run hchain,
    (hf.noSelfDeps hself).run hchain hs.valid, ?_, fun x => ?_, fun x => ?_⟩
  · show (r.jobs.map _) = _
    rw [hjobs, Arena.outline_modifyAll]
    exact hf.outline
  · -- Requeueing resumes exactly what is in its grace.
    have hget : r.jobs.get x = (c.jobs.get x).map resumed := by
      rw [hjobs, Arena.get_modifyAll hnodup]
      cases hx : c.jobs.get x with
      | none => simp
      | some j =>
        have hmem : x ∈ Roster.evictingIds c.jobs ↔ j.state = .preempted := by
          refine (mem_iter_state hlen).trans ⟨fun ⟨k, hk, hst⟩ => ?_, fun hst => ⟨j, hx, hst⟩⟩
          rw [Option.some.inj (hx.symm.trans hk)]
          exact hst
        simp only [hmem, Option.map_some]
        unfold resumed
        split <;> rfl
    show (r.jobs.get x).map uncounted = _
    have hside : ∀ o : Option Job, (o.map resumed).map uncounted = (o.map uncounted).map resumed := by
      intro o
      cases o with
      | none => rfl
      | some j => exact congrArg some (uncounted_resumed j)
    rw [hget, hside, show (c.jobs.get x).map uncounted = _ from hf.get x, Option.map_map]
    cases b.jobs.get x with
    | none => rfl
    | some j =>
      refine congrArg some ?_
      show resumed (uncounted (seen grace x j)) = uncounted (resumed j)
      rw [← uncounted_resumed, resumed_seen]
  · refine (mem_iter_state hlen).trans (hf.exists_iff fun {j j'} hu => ?_)
    rw [state_of_uncounted hu]
    unfold seen resumed
    split
    · split
      · rename_i hst
        rw [hst]
        exact iff_of_false (fun h => by cases h) (fun h => by cases h)
      · rfl
    · rfl

namespace Engine

structure Sturdy (e : Engine) : Prop where
  eligible : e.Eligible
  noSelf : e.toRoster.book.NoSelfDeps

theorem sturdy_build (config : DaemonConfig) (journal : Option Journal) :
    (build config journal).Sturdy :=
  ⟨eligible_build config journal, fun _ _ hx => by cases hx⟩

theorem sturdy_of_restores {b : Book} {e : Engine} (h : Core.Restores b e.toCore) : e.Sturdy :=
  ⟨⟨h.sane, h.settled⟩, h.noSelf⟩

section

variable {config : DaemonConfig} {journal : Journal} {e : Engine}

/-- A snapshot of a whole engine loads unless an open job lists something forgotten. -/
theorem Sturdy.loads (hs : e.Sturdy) (config : DaemonConfig) (journal : Journal)
    (now : VirtualTime) :
    ((∃ r at_, (withJournal config journal).toRoster.restoreSnapshot config.cycle
        (e.snapshot now) = .ok (r, at_)) ↔ e.toRoster.book.Rooted) ∧
    (∀ {r at_}, (withJournal config journal).toRoster.restoreSnapshot config.cycle
        (e.snapshot now) = .ok (r, at_) → Roster.Reloads e.toRoster.book r ∧
      r.scheduler.fairshare.ledgers = e.scheduler.fairshare.ledgers ∧ r.Sane) ∧
    ∀ err, (withJournal config journal).toRoster.restoreSnapshot config.cycle
        (e.snapshot now) = .error err →
      ∃ x d, e.toRoster.book.Orphaned x d ∧ err = .lifecycle (.dependency ⟨x, d⟩) := by
  obtain ⟨hready, hdeps, -, -⟩ := withShares_spec config.shares Scheduler.new
  have hroster := hs.eligible.sane.roster
  obtain ⟨hloads, hreloads, hnamed⟩ := @Roster.restoreSnapshot_settled e.toRoster.book
    (withJournal config journal).toRoster (e.snapshot now) hs.eligible.settled hs.noSelf hdeps rfl
    rfl rfl hroster.kept.accounts config.cycle
  refine ⟨hloads, fun hload => ?_, hnamed⟩
  obtain ⟨hreload, hledgers, -⟩ := hreloads _ _ hload
  exact ⟨hreload, hledgers, Roster.sane_of_restoreSnapshot hready hdeps
    (sane_build config (some journal)).roster.kept.accounts rfl hroster.valid.wf.bound hload⟩

/-- What a loaded snapshot of a whole engine is, and what replaying any lawful tail after it does,
when no blocked job waits for a higher slot: it stops at the first report on a job the snapshot has
in its grace, and follows the live book otherwise. -/
theorem replay_of_load (hs : e.Sturdy) (hordered : e.toRoster.book.SlotOrdered) {b : Book}
    {tail : List Record} (hchain : Chain Lawful e.toRoster.book tail b)
    (hfresh : ∀ record ∈ tail, Roster.Fresh record) {now at_ : VirtualTime} {r : Roster}
    (hload : (withJournal config journal).toRoster.restoreSnapshot config.cycle (e.snapshot now) =
      .ok (r, at_)) : Roster.Reloads e.toRoster.book r ∧
        r.scheduler.fairshare.ledgers = e.scheduler.fairshare.ledgers ∧ r.Sane ∧
        ((∀ record ∈ tail, Tolerated (Roster.evictingIds e.jobs) record) →
          Roster.AllFit config.cycle tail r ∧ ∃ r' latest,
            Roster.applyEach config.cycle tail r at_ = some (.ok (r', latest)) ∧ r'.Sane ∧
              Settled r'.book ∧ Follows (Roster.evictingIds e.jobs) b r'.book) ∧
        ((¬ ∀ record ∈ tail, Tolerated (Roster.evictingIds e.jobs) record) → ∃ err,
          Roster.applyEach config.cycle tail r at_ = some (.error (.lifecycle err))) := by
  obtain ⟨hreloads, hledgers, hsane⟩ := (hs.loads config journal now).2.1 hload
  have hsettled := (hreloads.settled_iff hs.eligible.settled hsane).mpr hordered
  exact ⟨hreloads, hledgers, hsane, Roster.follows_applyEach config.cycle hchain at_
    (hreloads.follows hs.eligible.sane.roster.valid.wf.bound) hs.eligible.settled hsettled hsane
    hfresh⟩

private theorem replay_of_log {b : Book} {tail : List Record} {first : Option Journal}
    (hchain : Chain Lawful (build config first).toRoster.book tail b)
    (hfresh : ∀ record ∈ tail, Roster.Fresh record) (journal : Journal) :
    Roster.AllFit config.cycle tail (withJournal config journal).toRoster ∧
      ∃ r latest, Roster.applyEach config.cycle tail (withJournal config journal).toRoster 0 =
        some (.ok (r, latest)) ∧ r.Sane ∧ Settled r.book ∧ Follows [] b r.book := by
  have hstart := sturdy_build config (some journal)
  have hfollows : Follows [] (build config first).toRoster.book
      (withJournal config journal).toRoster.book :=
    ⟨rfl, fun x => by cases (Arena.new : Arena Job).get x <;> rfl,
      fun x hx => absurd hx List.not_mem_nil⟩
  exact (Roster.follows_applyEach config.cycle hchain 0 hfollows (settled_build config first)
    hstart.eligible.settled hstart.eligible.sane.roster hfresh).1
      fun record _ => tolerated_nil record

private theorem reload_of_load {now at_ : VirtualTime} {r : Roster}
    {tail : List Record} (generation : Word 64) (tornAt : Option Nat)
    {out : Option (Except RecoverError _)}
    (hload : (withJournal config journal).toRoster.restoreSnapshot config.cycle (e.snapshot now) =
      .ok (r, at_)) (hout : Roster.applyEach config.cycle tail r at_ = out) :
    (withJournal config journal).toRoster.reload config.cycle
      ⟨generation, some (e.snapshot now), tail, tornAt⟩ = out := by
  simp only [Roster.reload, hload]
  exact hout

end

section

variable [Crc32] {config : DaemonConfig} {journal : Journal} {recovered : Recovered}
  {e e' : Engine} {input : Input} {inputs : List Input}

private theorem SafeSteps.logs (h : e.SafeSteps input e') (hs : e.toCore.Sane) :
    ∃ records, e'.logged = e.logged.map (· ++ records) ∧
      Chain Lawful e.toRoster.book records e'.toRoster.book ∧
      ∀ record ∈ records, Roster.Fresh record := by
  obtain ⟨events, hturns⟩ := h.1.turns
  refine ⟨_, hturns.logged, hturns.lawful hs h.2, fun record hmem => ?_⟩
  rw [flatMap_records] at hmem
  obtain ⟨act, hact, hrec⟩ := List.mem_flatMap.mp hmem
  obtain ⟨r, r', hdoes⟩ := hturns.does.mem hact
  exact hdoes.fresh record hrec

theorem logs_of_run (h : Chain SafeSteps e inputs e') : e.toCore.Sane →
    ∃ records, e'.logged = e.logged.map (· ++ records) ∧
      Chain Lawful e.toRoster.book records e'.toRoster.book ∧
      ∀ record ∈ records, Roster.Fresh record := by
  induction h with
  | nil e =>
    refine fun _ => ⟨[], ?_, .nil _, fun record hmem => absurd hmem List.not_mem_nil⟩
    cases e.logged <;> simp
  | cons head _ ih =>
    intro hs
    obtain ⟨front, hlogged, hchain, hfresh⟩ := head.logs hs
    obtain ⟨back, hlogged', hchain', hfresh'⟩ := ih (head.sane hs)
    refine ⟨front ++ back, ?_, hchain.append hchain', fun record hmem => ?_⟩
    · rw [hlogged', hlogged, Option.map_map]
      exact congrArg (Option.map · _) (funext fun _ => List.append_assoc _ _ _)
    · exact (List.mem_append.mp hmem).elim (hfresh record) (hfresh' record)

theorem sturdy_of_run (h : Chain SafeSteps e inputs e') (hs : e.Sturdy) : e'.Sturdy := by
  obtain ⟨records, -, hchain, -⟩ := logs_of_run h hs.eligible.sane
  exact ⟨eligible_of_run h hs.eligible, hs.noSelf.run hchain hs.eligible.sane.roster.valid⟩

private theorem recover_of_error {err : RecoverError}
    (h : (withJournal config journal).toRoster.reload config.cycle recovered =
      some (.error err)) : recover config recovered journal = some (.error err) := by
  simp only [recover, h, Option.bind_eq_bind, Option.bind_some]
  rfl

/-- Once everything is reloaded and settled, only the fresh snapshot is left to encode. -/
private theorem recover_of_settled {r : Roster} {latest : VirtualTime} {c : Core}
    (hreload : (withJournal config journal).toRoster.reload config.cycle recovered =
      some (.ok (r, latest)))
    (hsettle : ((withJournal config journal).toCore.withRoster r).settle config.cycle latest =
      .ok c) : (∀ err, recover config recovered journal ≠ some (.error err)) ∧
        ∀ e, recover config recovered journal = some (.ok e) → e.toCore = c := by
  refine ⟨fun err h => ?_, fun e h => ?_⟩
  · simp only [recover, hreload, hsettle, Option.bind_eq_bind, Option.bind_some] at h
    obtain ⟨bytes, -, h⟩ := Option.bind_eq_some_iff.mp h
    cases h
  · obtain ⟨r', latest', c', hreload', hsettle', hcore, -⟩ := recover_eq_ok h
    obtain ⟨rfl, rfl⟩ := Prod.mk.inj (Except.ok.inj (Option.some.inj (hreload'.symm.trans hreload)))
    exact hcore.trans (Except.ok.inj (hsettle'.symm.trans hsettle))

/-- What recovery does with a snapshot of a whole engine and any lawful tail after it, when no
blocked job waits for a higher slot: it refuses a snapshot that lists something forgotten and a
tail that reports on a job the snapshot has in its grace, and restores the live book otherwise. -/
theorem recover_snapshot (hs : e.Sturdy) (hordered : e.toRoster.book.SlotOrdered)
    {b : Book} {tail : List Record} (hchain : Chain Lawful e.toRoster.book tail b)
    (hfresh : ∀ record ∈ tail, Roster.Fresh record) (config : DaemonConfig) (journal : Journal)
    (now : VirtualTime) (generation : Word 64) (tornAt : Option Nat) :
    ((∃ err, recover config ⟨generation, some (e.snapshot now), tail, tornAt⟩ journal =
        some (.error err)) ↔ ¬ e.toRoster.book.Rooted ∨
          ∃ record ∈ tail, ¬ Tolerated (Roster.evictingIds e.jobs) record) ∧
    ∀ e₂, recover config ⟨generation, some (e.snapshot now), tail, tornAt⟩ journal =
      some (.ok e₂) → Core.Restores b e₂.toCore := by
  have hself := hs.noSelf.run hchain hs.eligible.sane.roster.valid
  obtain ⟨hloads, -⟩ := hs.loads config journal now
  cases hrestore : (withJournal config journal).toRoster.restoreSnapshot config.cycle
      (e.snapshot now) with
  | error err =>
    have hroot : ¬ e.toRoster.book.Rooted := by
      intro hroot
      obtain ⟨r, at_, hok⟩ := hloads.mpr hroot
      rw [hrestore] at hok
      cases hok
    have herr : recover config ⟨generation, some (e.snapshot now), tail, tornAt⟩ journal =
        some (.error err) := recover_of_error (by simp only [Roster.reload, hrestore])
    refine ⟨iff_of_true ⟨err, herr⟩ (Or.inl hroot), fun e₂ hok => ?_⟩
    rw [herr] at hok
    cases hok
  | ok out =>
    obtain ⟨r, at_⟩ := out
    have hroot := hloads.mp ⟨r, at_, hrestore⟩
    obtain ⟨-, -, -, htolerated, hrefused⟩ := replay_of_load hs hordered hchain hfresh hrestore
    by_cases hall : ∀ record ∈ tail, Tolerated (Roster.evictingIds e.jobs) record
    · obtain ⟨-, r', latest, happly, hsane', hsettled', hfollows⟩ := htolerated hall
      obtain ⟨c, hsettle, hrestores⟩ := Core.settle_follows
        (c := (withJournal config journal).toCore.withRoster r') hsane' hsettled' hself hfollows rfl
        config.cycle latest
      obtain ⟨hnever, hcore⟩ := recover_of_settled
        (reload_of_load generation tornAt hrestore happly) hsettle
      refine ⟨iff_of_false (fun ⟨err, herr⟩ => hnever err herr) ?_, fun e₂ hok => ?_⟩
      · rintro (hno | ⟨record, hmem, hno⟩)
        · exact hno hroot
        · exact hno (hall record hmem)
      · rw [hcore e₂ hok]
        exact hrestores
    · obtain ⟨err, happly⟩ := hrefused hall
      have herr := recover_of_error (reload_of_load generation tornAt hrestore happly)
      refine ⟨iff_of_true ⟨_, herr⟩ (Or.inr ?_), fun e₂ hok => ?_⟩
      · simpa using hall
      · rw [herr] at hok
        cases hok

/-- What a recovery went through: it was loaded from the book of `e`, replayed and settled. -/
def Staged (config : DaemonConfig) (e e₂ : Engine) (records : List Record) : Prop :=
  ∃ r₀ at_ r latest, Roster.Reloads e.toRoster.book r₀ ∧
    r₀.scheduler.fairshare.ledgers = e.scheduler.fairshare.ledgers ∧ r₀.Sane ∧
    Roster.AllFit config.cycle records r₀ ∧
    Roster.applyEach config.cycle records r₀ at_ = some (.ok (r, latest)) ∧
    Roster.requeueEvicting config.cycle latest (Roster.evictingIds r.jobs) r = .ok e₂.toRoster

theorem recover_stages (hs : e.Sturdy) (hordered : e.toRoster.book.SlotOrdered) {b : Book}
    {tail : List Record} (hchain : Chain Lawful e.toRoster.book tail b)
    (hfresh : ∀ record ∈ tail, Roster.Fresh record) {now : VirtualTime} {generation : Word 64}
    {tornAt : Option Nat} {e₂ : Engine}
    (hok : recover config ⟨generation, some (e.snapshot now), tail, tornAt⟩ journal =
      some (.ok e₂)) : Staged config e e₂ tail := by
  have hall : ∀ record ∈ tail, Tolerated (Roster.evictingIds e.jobs) record := by
    by_contra hno
    obtain ⟨err, herr⟩ := (recover_snapshot hs hordered hchain hfresh config journal now generation
      tornAt).1.mpr (Or.inr (by simpa using hno))
    rw [hok] at herr
    cases herr
  obtain ⟨r, latest, c, hreload, hsettle, hcore, -⟩ := recover_eq_ok hok
  unfold Roster.reload at hreload
  dsimp only at hreload
  split at hreload
  · cases hreload
  · rename_i r₀ at_ hrestore
    obtain ⟨hreloads, hledgers, hsane, htolerated, -⟩ :=
      replay_of_load hs hordered hchain hfresh hrestore
    obtain ⟨r', hrequeue, heq⟩ := Core.settle_eq_ok.mp hsettle
    obtain rfl : e₂.toRoster = r' := congrArg Core.toRoster (hcore.trans heq)
    exact ⟨r₀, at_, r, latest, hreloads, hledgers, hsane, (htolerated hall).1, hreload, hrequeue⟩

theorem recover_log {b : Book} {tail : List Record} {first : Option Journal}
    (hchain : Chain Lawful (build config first).toRoster.book tail b)
    (hfresh : ∀ record ∈ tail, Roster.Fresh record) (journal : Journal) (generation : Word 64)
    (tornAt : Option Nat) :
    (∀ err, recover config ⟨generation, none, tail, tornAt⟩ journal ≠ some (.error err)) ∧
    ∀ e₂, recover config ⟨generation, none, tail, tornAt⟩ journal = some (.ok e₂) →
      Core.Restores b e₂.toCore := by
  have hstart := sturdy_build config (some journal)
  have hself := hstart.noSelf.run hchain hstart.eligible.sane.roster.valid
  obtain ⟨-, r, latest, happly, hsane, hsettled, hend⟩ := replay_of_log hchain hfresh journal
  obtain ⟨c, hsettle, hrestores⟩ := Core.settle_follows
    (c := (withJournal config journal).toCore.withRoster r) hsane hsettled hself hend rfl
    config.cycle latest
  have hreload : (withJournal config journal).toRoster.reload config.cycle
      ⟨generation, none, tail, tornAt⟩ = some (.ok (r, latest)) := happly
  obtain ⟨hnever, hcore⟩ := recover_of_settled hreload hsettle
  exact ⟨hnever, fun e₂ hok => hcore e₂ hok ▸ hrestores⟩

theorem recover_log_stages {b : Book} {tail : List Record} {first : Option Journal}
    (hchain : Chain Lawful (build config first).toRoster.book tail b)
    (hfresh : ∀ record ∈ tail, Roster.Fresh record) {generation : Word 64} {tornAt : Option Nat}
    {e₂ : Engine}
    (hok : recover config ⟨generation, none, tail, tornAt⟩ journal = some (.ok e₂)) :
    Staged config (build config first) e₂ tail := by
  obtain ⟨r, latest, c, hreload, hsettle, hcore, -⟩ := recover_eq_ok hok
  obtain ⟨r', hrequeue, heq⟩ := Core.settle_eq_ok.mp hsettle
  obtain rfl : e₂.toRoster = r' := congrArg Core.toRoster (hcore.trans heq)
  exact ⟨(withJournal config journal).toRoster, 0, r, latest,
    ⟨rfl, fun _ _ hx => (by cases hx), fun _ _ hx => by cases hx⟩, rfl,
    (sane_build config (some journal)).roster, (replay_of_log hchain hfresh journal).1, hreload,
    hrequeue⟩

end

end Engine

end TaskerRT.Daemon
