/- module: TaskerRT/Daemon/Lives
   source: crates/taskerd/src/engine.rs (recover, restore_snapshot, apply, encode_snapshot, tick)
   digest: Engines with any number of crashes behind them, and what a restart keeps. -/

import TaskerRT.Daemon.Restart
import TaskerRT.Daemon.Accounted

set_option autoImplicit false

namespace TaskerRT.Scheduling.Book

open Library Domain Cluster Policy Wal DependencyTracker

variable {b b' : Book} {record : Record} {records : List Record} {x : JobId} {job : Job}

/-- No slot was ever given back, so slots are in the order the jobs came in, and whatever an open
job lists came before it. -/
structure Growing (b : Book) : Prop where
  full : b.jobs.freeHead = none
  before : ∀ x job, b.jobs.get x = some job → job.state.isTerminal = false → ∀ d ∈ job.deps,
    (∃ target, b.jobs.get d = some target) ∧ d.slot < x.slot

private theorem Growing.rooted (h : Growing b) : b.Rooted :=
  fun x job hx hopen d hd => (h.before x job hx hopen d hd).1

theorem Growing.slotOrdered (h : Growing b) : b.SlotOrdered :=
  fun x job hx hst a ha _ => (h.before x job hx (by rw [hst]; rfl) a ha).2

private theorem Posts.full (h : Posts b record b') (hno : ∀ id, record ≠ .forgotten id)
    (hfull : b.jobs.freeHead = none) : b'.jobs.freeHead = none := by
  cases h with
  | @submitted jobs id job deps readiness fresh state account registered =>
    have hkept : jobs.freeHead = none := by
      unfold Arena.insert at fresh
      simp only [hfull] at fresh
      split at fresh
      · obtain ⟨rfl, -⟩ := Prod.mk.inj (Option.some.inj fresh)
        rfl
      · cases fresh
    exact (Arena.freeHead_modify _ _ _).trans hkept
  | dispatched | requeued | preempted => exact (Arena.freeHead_modify _ _ _).trans hfull
  | completed | failed | cancelled =>
    exact (Arena.freeHead_modifyAll _ _ _).trans ((Arena.freeHead_modify _ _ _).trans hfull)
  | forgotten => exact absurd rfl (hno _)

private theorem Growing.posts (h : Growing b) (hplaced : b.deps.OwnersPlaced)
    (hp : Posts b record b')
    (hno : ∀ id, record ≠ .forgotten id) : Growing b' := by
  refine ⟨hp.full hno h.full, fun x k hx hopen d hd => ?_⟩
  have hlive : ∀ {target : Job}, b.jobs.get d = some target →
      ∃ target', b'.jobs.get d = some target' := by
    intro target htarget
    obtain ⟨target', htarget', -⟩ := hp.stays hplaced htarget (hno d)
    exact ⟨target', htarget'⟩
  rcases hp.open_cases hplaced hx hopen with ⟨j, hj, hjopen, hdeps⟩ | ⟨hnext, hlisted⟩
  · obtain ⟨⟨target, htarget⟩, hlt⟩ := h.before x j hj hjopen d (hdeps ▸ hd)
    exact ⟨hlive htarget, hlt⟩
  · obtain ⟨-, target, htarget⟩ := hlisted d hd
    -- With nothing free, the new job sits past the end.
    have hend : x.slot = b.jobs.slots.length := by
      unfold Arena.nextId at hnext
      simp only [h.full] at hnext
      split at hnext
      · rw [← Option.some.inj hnext, JobId.slot_new]
      · cases hnext
    have := Arena.slot_lt_of_get htarget
    exact ⟨hlive htarget, by omega⟩

private theorem Growing.run (h : Chain Lawful b records b') : Growing b → Valid b →
    (∀ id, .forgotten id ∉ records) → Growing b' := by
  induction h with
  | nil => exact fun hg _ _ => hg
  | cons head _ ih =>
    intro hg hv hno
    refine ih (hg.posts hv.sound.placed head.1 fun id he => ?_) (hv.posts head)
      fun id hmem => hno id (List.mem_cons_of_mem _ hmem)
    exact hno id (he ▸ List.mem_cons_self)

end TaskerRT.Scheduling.Book

namespace TaskerRT.Daemon

open Library Domain Cluster Policy Scheduling Wal Book DependencyTracker

namespace Engine

section

variable [Crc32] {config : DaemonConfig} {e e' e₂ : Engine} {input : Input} {inputs : List Input}
  {records rest : List Record} {recovered : Recovered} {journal first : Journal}
  {now : VirtualTime}

/-- What was logged between two states of a durable engine. -/
def Since (e e' : Engine) (records : List Record) : Prop :=
  ∃ before, e.logged = some before ∧ e'.logged = some (before ++ records)

/-- The snapshot the store found is the one taken at `e`. -/
def Stored (e : Engine) (now : VirtualTime) (recovered : Recovered) : Prop :=
  ∃ bytes snapshot, e.encodeSnapshot now = some bytes ∧ decodeSnapshot bytes = .ok snapshot ∧
    recovered.snapshot = some snapshot

/-- What a restart finds of an engine that logged on from `e`: the snapshot taken there, or none
if the log began with it. -/
def Found (e : Engine) (config : DaemonConfig) (now : VirtualTime) (recovered : Recovered) :
    Prop :=
  e.Stored now recovered ∨ recovered.snapshot = none ∧ ∃ first, e = withJournal config first

/-- An engine with a past. A restart finds the last snapshot and the first part of what was logged
after it, wherever the crash cut it off. -/
inductive Lives (config : DaemonConfig) : Engine → Prop where
  | started (journal : Option Journal) : Lives config (build config journal)
  | stepped {e e' : Engine} {input : Input} (past : Lives config e)
      (turn : e.SafeSteps input e') : Lives config e'
  | restarted {e e' e₂ : Engine} {inputs : List Input} {records rest : List Record}
      {recovered : Recovered} {journal : Journal} {now : VirtualTime} (past : Lives config e)
      (ordered : e.toRoster.book.SlotOrdered) (run : Chain SafeSteps e inputs e')
      (log : e.Since e' records) (stored : e.Stored now recovered)
      (cut : recovered.records ++ rest = records)
      (ok : recover config recovered journal = some (.ok e₂)) : Lives config e₂
  | replayed {e' e₂ : Engine} {inputs : List Input} {records rest : List Record}
      {recovered : Recovered} {first journal : Journal}
      (run : Chain SafeSteps (withJournal config first) inputs e')
      (log : (withJournal config first).Since e' records) (bare : recovered.snapshot = none)
      (cut : recovered.records ++ rest = records)
      (ok : recover config recovered journal = some (.ok e₂)) : Lives config e₂

private theorem Since.chain (hlog : e.Since e' records) (hrun : Chain SafeSteps e inputs e')
    (hs : e.toCore.Sane) : Chain Lawful e.toRoster.book records e'.toRoster.book ∧
      ∀ record ∈ records, Roster.Fresh record := by
  obtain ⟨before, hbefore, hafter⟩ := hlog
  obtain ⟨found, hlogged, hchain, hfresh⟩ := logs_of_run hrun hs
  rw [hbefore, hafter] at hlogged
  obtain rfl := List.append_cancel_left (Option.some.inj hlogged)
  exact ⟨hchain, hfresh⟩

/-- Wherever the log is cut, what is left is what the live book went through first. -/
theorem Since.cut (hlog : e.Since e' records) (hrun : Chain SafeSteps e inputs e')
    (hs : e.toCore.Sane) {tail : List Record} (hcut : tail ++ rest = records) :
    ∃ b, Chain Lawful e.toRoster.book tail b ∧ Chain Lawful b rest e'.toRoster.book ∧
      ∀ record ∈ tail, Roster.Fresh record := by
  obtain ⟨hchain, hfresh⟩ := hlog.chain hrun hs
  subst hcut
  obtain ⟨b, hfront, hback⟩ := hchain.split
  exact ⟨b, hfront, hback, fun record hmem => hfresh record (List.mem_append_left _ hmem)⟩

theorem Stored.eq (h : e.Stored now recovered) : recovered =
    ⟨recovered.generation, some (e.snapshot now), recovered.records, recovered.tornAt⟩ := by
  obtain ⟨bytes, snapshot, htaken, hread, hfound⟩ := h
  obtain rfl := Except.ok.inj ((decodeSnapshot_encodeSnapshot htaken).symm.trans hread)
  rw [← hfound]

omit [Crc32] in
theorem slotOrdered_build (journal : Option Journal) :
    (build config journal).toRoster.book.SlotOrdered := fun _ _ hx => by cases hx

theorem recovers_of_found (hs : e.Sturdy) (hordered : e.toRoster.book.SlotOrdered)
    (hrun : Chain SafeSteps e inputs e') (hlog : e.Since e' records)
    (hfound : e.Found config now recovered) (hcut : recovered.records ++ rest = records)
    (hok : recover config recovered journal = some (.ok e₂)) :
    (∃ b, Core.Restores b e₂.toCore) ∧ Staged config e e₂ recovered.records := by
  obtain ⟨b, hchain, -, hfresh⟩ := hlog.cut hrun hs.eligible.sane hcut
  rcases hfound with hstored | ⟨hnone, first, rfl⟩
  · rw [hstored.eq] at hok
    exact ⟨⟨b, (recover_snapshot hs hordered hchain hfresh config _ _ _ _).2 _ hok⟩,
      recover_stages hs hordered hchain hfresh hok⟩
  · obtain ⟨generation, snapshot, tail, tornAt⟩ := recovered
    obtain rfl : snapshot = none := hnone
    exact ⟨⟨b, (recover_log hchain hfresh journal generation tornAt).2 e₂ hok⟩,
      recover_log_stages hchain hfresh hok⟩

theorem Lives.sturdy (h : Lives config e) : e.Sturdy := by
  induction h with
  | started journal => exact sturdy_build config journal
  | stepped _ turn ih => exact sturdy_of_run (.single turn) ih
  | restarted _ ordered run log stored cut ok ih =>
    obtain ⟨⟨b, hrestores⟩, -⟩ := recovers_of_found ih ordered run log (.inl stored) cut ok
    exact sturdy_of_restores hrestores
  | replayed run log bare cut ok =>
    obtain ⟨⟨b, hrestores⟩, -⟩ := recovers_of_found (sturdy_build config _) (slotOrdered_build _)
      run log (show Found _ config 0 _ from .inr ⟨bare, _, rfl⟩) cut ok
    exact sturdy_of_restores hrestores

theorem Lives.found (h : Lives config e) (hordered : e.toRoster.book.SlotOrdered)
    (hrun : Chain SafeSteps e inputs e') (hlog : e.Since e' records)
    (hfound : e.Found config now recovered) (hcut : recovered.records ++ rest = records)
    (hok : recover config recovered journal = some (.ok e₂)) : Lives config e₂ := by
  rcases hfound with hstored | ⟨hnone, first, rfl⟩
  · exact .restarted h hordered hrun hlog hstored hcut hok
  · exact .replayed hrun hlog hnone hcut hok

theorem Lives.run (h : Lives config e) (hrun : Chain SafeSteps e inputs e') :
    Lives config e' :=
  hrun.keeps (P := Lives config) (fun _ _ _ turn past => .stepped past turn) h

private theorem exists_since (hrun : Chain SafeSteps e inputs e') (hs : e.toCore.Sane)
    (hdurable : e.logged.isSome = true) : ∃ records, e.Since e' records := by
  obtain ⟨before, hbefore⟩ := Option.isSome_iff_exists.mp hdurable
  obtain ⟨records, hlogged, -⟩ := logs_of_run hrun hs
  exact ⟨records, before, hbefore, by rw [hlogged, hbefore]; rfl⟩

theorem growing_of_run (hrun : Chain SafeSteps (withJournal config first) inputs e)
    (hlog : (withJournal config first).Since e records) (hno : ∀ id, .forgotten id ∉ records) :
    e.toRoster.book.Growing := by
  have hsane := sane_build config (some first)
  have hstart : (withJournal config first).toRoster.book.Growing :=
    ⟨rfl, fun _ _ hx => by cases hx⟩
  exact Growing.run (hlog.chain hrun hsane).1 hstart hsane.roster.valid hno

/-- The snapshot of any engine, however often it was restarted, loads again exactly when no open
job lists a dependency that was forgotten. -/
theorem snapshot_loads_iff_rooted (h : Lives config e) (journal : Journal) {bytes : Bytes}
    (htaken : e.encodeSnapshot now = some bytes) : ∃ snapshot,
      decodeSnapshot bytes = .ok snapshot ∧
        ((∃ r at_, (withJournal config journal).toRoster.restoreSnapshot config.cycle snapshot =
          .ok (r, at_)) ↔ e.toRoster.book.Rooted) :=
  ⟨e.snapshot now, decodeSnapshot_encodeSnapshot htaken, (h.sturdy.loads config journal now).1⟩

/-- Recovery from a snapshot and any first part of the records after it. It fails exactly when the
snapshot lists something forgotten or the tail reports on a job the snapshot has in its grace.
Otherwise every job is as the live engine had it after the same records, up to its eviction count,
with what was in its grace queued; and what ran waits for its worker. -/
theorem recovery_restores_live (h : Lives config e) (hordered : e.toRoster.book.SlotOrdered)
    (hrun : Chain SafeSteps e inputs e') (hlog : e.Since e' records)
    (hstored : e.Stored now recovered) (hcut : recovered.records ++ rest = records)
    (journal : Journal) :
    ∃ b, Chain Lawful e.toRoster.book recovered.records b ∧
      Chain Lawful b rest e'.toRoster.book ∧
      ((∃ err, recover config recovered journal = some (.error err)) ↔
        ¬ e.toRoster.book.Rooted ∨
          ∃ record ∈ recovered.records, ¬ Tolerated (Roster.evictingIds e.jobs) record) ∧
      ∀ e₂, recover config recovered journal = some (.ok e₂) →
        (∀ x, (e₂.jobs.get x).map uncounted =
          (b.jobs.get x).map fun job => uncounted (resumed job)) ∧
        ∀ x, x ∈ e₂.reconciling ↔ InState b.jobs .running x := by
  obtain ⟨b, hfront, hback, hfresh⟩ := hlog.cut hrun h.sturdy.eligible.sane hcut
  obtain ⟨hfails, hrestores⟩ := recover_snapshot h.sturdy hordered hfront hfresh config journal now
    recovered.generation recovered.tornAt
  rw [← hstored.eq] at hfails hrestores
  exact ⟨b, hfront, hback, hfails, fun e₂ hok => ⟨(hrestores e₂ hok).jobs, (hrestores e₂ hok).held⟩⟩

/-- As long as nothing was forgotten, every snapshot loads, and recovery fails only on a tail that
reports on a job the snapshot has in its grace. -/
theorem recovery_before_retention (hprior : Chain SafeSteps (withJournal config first) inputs e)
    {before : List Record} (hlogged : (withJournal config first).Since e before)
    (hno : ∀ id, .forgotten id ∉ before) {later : List Input} (hrun : Chain SafeSteps e later e')
    (hlog : e.Since e' records) (hstored : e.Stored now recovered)
    (hcut : recovered.records ++ rest = records) (journal : Journal) :
    (∃ err, recover config recovered journal = some (.error err)) ↔
      ∃ record ∈ recovered.records, ¬ Tolerated (Roster.evictingIds e.jobs) record := by
  have hgrowing := growing_of_run hprior hlogged hno
  have hs := sturdy_of_run hprior (sturdy_build config (some first))
  obtain ⟨b, hfront, -, hfresh⟩ := hlog.cut hrun hs.eligible.sane hcut
  obtain ⟨hfails, -⟩ := recover_snapshot hs hgrowing.slotOrdered hfront hfresh config journal now
    recovered.generation recovered.tornAt
  rw [← hstored.eq] at hfails
  exact hfails.trans (or_iff_right (not_not.mpr hgrowing.rooted))

end

attribute [local instance] Crc32.ieee

theorem lives_of_safeRun {config : DaemonConfig} {first : Option Journal}
    {inputs : List Input} {e : Engine} (h : safeRun (build config first) inputs = some e) :
    Lives config e :=
  (Lives.started first).run (chain_of_safeRun h)

theorem parts_of_safeRun {config : DaemonConfig} {inputs later : List Input}
    {e e' : Engine} {n bytes : Nat}
    (hrun : safeRun (withJournal config (Journal.new bytes)) inputs = some e)
    (hrun' : safeRun e later = some e') (hlen : e.logged.map List.length = some n)
    (hno : ∀ r ∈ e.logged.getD [], r ≠ .forgotten r.id) :
    e.toRoster.book.Growing ∧ e.Since e' ((e'.logged.getD []).drop n) ∧
      ∃ before, (withJournal config (Journal.new bytes)).Since e before ∧
        ∀ id, .forgotten id ∉ before := by
  have hs := sturdy_of_run (chain_of_safeRun hrun) (sturdy_build config (some (Journal.new bytes)))
  obtain ⟨before, hbefore, rfl⟩ := Option.map_eq_some_iff.mp hlen
  obtain ⟨records, before', hbefore', hafter⟩ := exists_since
    (chain_of_safeRun hrun') hs.eligible.sane (by rw [hbefore]; rfl)
  obtain rfl := Option.some.inj (hbefore.symm.trans hbefore')
  have hkept : ∀ id, .forgotten id ∉ before := by
    intro id hmem
    rw [hbefore] at hno
    exact hno (.forgotten id) hmem rfl
  have hstart : (withJournal config (Journal.new bytes)).Since e before := ⟨[], rfl, hbefore⟩
  refine ⟨growing_of_run (chain_of_safeRun hrun) hstart hkept, ⟨before, hbefore, ?_⟩, before,
    hstart, hkept⟩
  rw [hafter, Option.getD_some, List.drop_left]

theorem eq_ok_of_toOption {ε α : Type} {out : Except ε α} {a : α} (h : out.toOption = some a) :
    out = .ok a := by
  cases out with
  | error err => cases h
  | ok found => exact congrArg Except.ok (Option.some.inj h)

/-- A job still runs when the one it waited for is forgotten: that snapshot does not load. -/
theorem snapshot_loads_iff_rooted_sample : ∃ e bytes snapshot,
    safeRun (withJournal sampleDaemon (Journal.new 4096)) replayInputs = some e ∧
      encodeSnapshot e 6 = some bytes ∧
      decodeSnapshot bytes = .ok snapshot ∧
      ¬ ∃ r at_, (withJournal sampleDaemon (Journal.new 0)).toRoster.restoreSnapshot sampleConfig
        snapshot = .ok (r, at_) := by
  have hlook : (safeRun (withJournal sampleDaemon (Journal.new 4096)) replayInputs).any
      (fun e => (encodeSnapshot e 6).isSome && (e.jobs.get ⟨0⟩).isNone &&
        (e.jobs.get ⟨1⟩).any fun job => !job.state.isTerminal && decide (⟨0⟩ ∈ job.deps)) =
      true := by decide +kernel
  obtain ⟨e, hrun, hlook⟩ := (Option.any_eq_true _ _).mp hlook
  simp only [Bool.and_eq_true, Option.any_eq_true, decide_eq_true_eq, Bool.not_eq_true',
    Option.isNone_iff_eq_none, Option.isSome_iff_exists] at hlook
  obtain ⟨⟨⟨bytes, hbytes⟩, hgone⟩, job, hget, hopen, hmem⟩ := hlook
  obtain ⟨snapshot, hread, hiff⟩ := snapshot_loads_iff_rooted (lives_of_safeRun hrun)
    (Journal.new 0) hbytes
  refine ⟨e, bytes, snapshot, hrun, hbytes, hread, fun hloads => ?_⟩
  obtain ⟨target, htarget⟩ := hiff.mp hloads ⟨1⟩ job hget hopen ⟨0⟩ hmem
  have hnone : e.toRoster.book.jobs.get ⟨0⟩ = none := hgone
  rw [hnone] at htarget
  cases htarget

private theorem crash_sample : ∃ e e' records e₂,
    safeRun (withJournal sampleDaemon (Journal.new 4096)) (replayInputs.take 4) =
        some e ∧
      Chain SafeSteps e ((replayInputs.drop 4).take 1) e' ∧
      e.Since e' records ∧ Stored e 4 ⟨0, some (e.snapshot 4), records, none⟩ ∧
      e.toRoster.book.SlotOrdered ∧
      recover sampleDaemon ⟨0, some (e.snapshot 4), records, none⟩ (Journal.new 0) =
        some (.ok e₂) ∧
      InState e'.jobs .completed ⟨0⟩ ∧ InState e'.jobs .ready ⟨1⟩ := by
  have hlook : (safeRun (withJournal sampleDaemon (Journal.new 4096))
      (replayInputs.take 4)).any (fun e => (encodeSnapshot e 4).isSome &&
        decide (e.logged.map List.length = some 3) &&
        decide (∀ r ∈ e.logged.getD [], r ≠ .forgotten r.id) &&
        (safeRun e ((replayInputs.drop 4).take 1)).any fun e' =>
          ((recover sampleDaemon ⟨0, some (e.snapshot 4),
            (e'.logged.getD []).drop 3, none⟩ (Journal.new 0)).bind Except.toOption).isSome &&
          (e'.jobs.get ⟨0⟩).any (fun job => decide (job.state = .completed)) &&
          (e'.jobs.get ⟨1⟩).any fun job => decide (job.state = .ready)) = true := by
    decide +kernel
  obtain ⟨e, hrun, hlook⟩ := (Option.any_eq_true _ _).mp hlook
  simp only [Bool.and_eq_true, Option.any_eq_true, decide_eq_true_eq,
    Option.isSome_iff_exists] at hlook
  obtain ⟨⟨⟨⟨bytes, hbytes⟩, hlen⟩, hno⟩, e', hrun', ⟨⟨e₂, hrecover⟩, hdone⟩, hready⟩ := hlook
  obtain ⟨hgrowing, hlog, -⟩ := parts_of_safeRun hrun hrun' hlen hno
  refine ⟨e, e', _, e₂, hrun, chain_of_safeRun hrun', hlog,
    ⟨bytes, e.snapshot 4, hbytes, decodeSnapshot_encodeSnapshot hbytes, rfl⟩,
    hgrowing.slotOrdered, ?_, hdone, hready⟩
  obtain ⟨out, hout, hok⟩ := Option.bind_eq_some_iff.mp hrecover
  rw [hout, eq_ok_of_toOption hok]

/-- After the crash the completed job is over and the one behind it is queued. -/
theorem recovery_restores_live_sample : ∃ e e' records e₂,
    safeRun (withJournal sampleDaemon (Journal.new 4096)) (replayInputs.take 4) =
        some e ∧
      e.Since e' records ∧
      recover sampleDaemon ⟨0, some (e.snapshot 4), records, none⟩ (Journal.new 0) =
        some (.ok e₂) ∧
      InState e₂.jobs .completed ⟨0⟩ ∧ InState e₂.jobs .ready ⟨1⟩ := by
  obtain ⟨e, e', records, e₂, hrun, hchain, hlog, hstored, hordered, hok, hdone, hready⟩ :=
    crash_sample
  obtain ⟨b, -, hback, -, hrestores⟩ := recovery_restores_live (lives_of_safeRun hrun) hordered
    hchain hlog hstored (List.append_nil _) (Journal.new 0)
  obtain rfl := Chain.nil_iff.mp hback
  have hstate : ∀ {x : JobId} {s : JobState}, InState e'.jobs s x → s ≠ .preempted →
      InState e₂.jobs s x := by
    rintro x s ⟨job, hjob, rfl⟩ hne
    have hget := (hrestores e₂ hok).1 x
    rw [show e'.toRoster.book.jobs.get x = some job from hjob] at hget
    obtain ⟨j, hj, hu⟩ := Option.map_eq_some_iff.mp hget
    exact ⟨j, hj, (state_of_uncounted hu).trans (congrArg Job.state (resumed_of_ne hne))⟩
  exact ⟨e, e', records, e₂, hrun, hlog, hok, hstate hdone (by decide), hstate hready (by decide)⟩

/-- One job is being evicted for the other. -/
def graced : Engine :=
  (safeRun (withJournal evictingDaemon (Journal.new 4096)) (evictedInputs.take 5)).get
    (by decide +kernel)

theorem run_graced : safeRun (withJournal evictingDaemon (Journal.new 4096))
    (evictedInputs.take 5) = some graced := (Option.some_get _).symm

/-- The snapshot has a job in its grace, and the tail reports that it was evicted. -/
theorem recovery_before_retention_sample : ∃ e e' records err,
    safeRun (withJournal evictingDaemon (Journal.new 4096)) (evictedInputs.take 5) =
        some e ∧
      safeRun e (evictedInputs.drop 5) = some e' ∧ e.Since e' records ∧
      recover evictingDaemon ⟨0, some (e.snapshot 2), records, none⟩ (Journal.new 0) =
        some (.error err) := by
  have hlook : ((encodeSnapshot graced 2).isSome &&
      (safeRun graced (evictedInputs.drop 5)).any fun e' =>
        decide (Record.requeued ⟨0⟩ 2 ∈ (e'.logged.getD []).drop 4)) = true := by decide +kernel
  have hgrace : ⟨0⟩ ∈ Roster.evictingIds graced.jobs := by decide +kernel
  simp only [Bool.and_eq_true, Option.any_eq_true, decide_eq_true_eq,
    Option.isSome_iff_exists] at hlook
  obtain ⟨⟨bytes, hbytes⟩, e', hrun', hreport⟩ := hlook
  obtain ⟨-, hlog, before, hstart, hkept⟩ := parts_of_safeRun run_graced hrun'
    (by decide +kernel : _ = some 4) (by decide +kernel)
  have hstored : Stored graced 2
      ⟨0, some (graced.snapshot 2), (e'.logged.getD []).drop 4, none⟩ :=
    ⟨bytes, graced.snapshot 2, hbytes, decodeSnapshot_encodeSnapshot hbytes, rfl⟩
  obtain ⟨err, herr⟩ := (recovery_before_retention (chain_of_safeRun run_graced) hstart hkept
    (chain_of_safeRun hrun') hlog hstored (List.append_nil _) (Journal.new 0)).mpr
      ⟨_, hreport, fun ht => ht hgrace⟩
  exact ⟨graced, e', _, err, run_graced, hrun', hlog, herr⟩

end Engine

end TaskerRT.Daemon
