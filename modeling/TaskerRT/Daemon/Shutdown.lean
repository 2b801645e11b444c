/- module: TaskerRT/Daemon/Shutdown
   source: crates/taskerd/src/daemon.rs (serve), crates/taskerd/src/engine.rs (run, drain),
     crates/taskerd/src/worker_api.rs (attach), crates/taskerd/src/dispatcher.rs (deliver)
   digest: The shutdown task, the stream readers and the dispatcher against the scheduler loop. -/

import TaskerRT.Daemon.Run

set_option autoImplicit false

namespace TaskerRT.Daemon

open Library Domain Cluster Policy Scheduling Wal

inductive Stage where
  | serving
  | flagged
  | cleared
  | stopped
  deriving DecidableEq, Repr

/-- Where the scheduler thread is in its loop: parked, draining commands with the time of this
iteration, or out of the loop. -/
inductive Phase where
  | parked
  | draining (now : VirtualTime) (applied : Nat)
  | exited
  deriving DecidableEq

/-- A command in the inbox. `byClear` marks the reports of streams that the shutdown closed; the
source does not keep it. -/
structure Mail where
  command : Command
  byClear : Bool

/-- A daemon with its tasks. `readers` are in their loop; `ended` left it and still have to report
their worker, with the mark for the inbox; `dropped` are the slots whose sender the shutdown
dropped. As with `Outbox`, `inbox` stands for a third-party queue that is documented as first in,
first out.

The steps of the tasks interleave one at a time, and a load of a flag sees the latest store. The
source loads both flags with `Relaxed`, which promises less: a load may see an older value for a
while. Such a run is not among those below. -/
structure Tasks where
  engine : Engine
  phase : Phase
  inbox : List Mail
  inboxCapacity : Nat
  registry : List SlotIndex
  readers : List SlotIndex
  ended : List (SlotIndex × Bool)
  dropped : List SlotIndex
  quiesce : Bool
  stop : Bool
  stage : Stage

inductive TaskStep where
  | storeQuiesce
  | clearRegistry
  | storeStop
  | attach (slot : SlotIndex)
  | lapse (slot : SlotIndex)
  | closed (slot : SlotIndex)
  | reportLeft (slot : SlotIndex) (byClear : Bool)
  | giveUp (slot : SlotIndex) (byClear : Bool)
  | deliver (slot : SlotIndex)
  | sendFailed (slot : SlotIndex)
  | push (command : Command)
  | load (now : VirtualTime)
  | pop (outbox : Outbox)
  | tick (outbox : Outbox) (room : Bool)
  | exit

namespace Tasks

/-- Whatever does not fit is retried by its task, and given up in the end. -/
def pushMail (t : Tasks) (mail : Mail) : Tasks :=
  if t.inbox.length < t.inboxCapacity then { t with inbox := t.inbox ++ [mail] } else t

/-- The inbox while it drains: at most `drainBudget` commands, or until it is empty. -/
def drained (t : Tasks) (applied : Nat) : Bool :=
  decide (t.engine.drainBudget ≤ applied) || t.inbox.isEmpty

variable [Crc32]

/-- What a step does; `none` where its task is not at that point, or panics. -/
def act (t : Tasks) : TaskStep → Option Tasks
  -- The shutdown task: raise the flag, drop every sender, and stop the scheduler at the end.
  | .storeQuiesce =>
    if t.stage = .serving then some { t with quiesce := true, stage := .flagged } else none
  | .clearRegistry =>
    if t.stage = .flagged then
      some { t with
        registry := []
        dropped := t.registry
        stage := .cleared }
    else none
  | .storeStop => if t.stage = .cleared then some { t with stop := true, stage := .stopped } else none
  -- Worker streams. A reader leaves its loop after a lapse or an error, or because its stream was
  -- closed with its sender; then it gives up its entry and reports its worker.
  | .attach slot =>
    some { t with registry := t.registry.insert slot, readers := slot :: t.readers }
  | .lapse slot =>
    if slot ∈ t.readers then
      some { t with readers := t.readers.erase slot, ended := t.ended ++ [(slot, false)] }
    else none
  | .closed slot =>
    if slot ∈ t.readers ∧ slot ∈ t.dropped then
      some { t with readers := t.readers.erase slot, ended := t.ended ++ [(slot, true)] }
    else none
  | .reportLeft slot byClear =>
    if (slot, byClear) ∈ t.ended ∧ t.inbox.length < t.inboxCapacity then
      some ({ t with
        registry := t.registry.erase slot
        ended := t.ended.erase (slot, byClear) }.pushMail ⟨.workerLeft slot, byClear⟩)
    else none
  | .giveUp slot byClear =>
    if (slot, byClear) ∈ t.ended then
      some { t with
        registry := t.registry.erase slot
        ended := t.ended.erase (slot, byClear) }
    else none
  -- The dispatcher: no sender, or a sender whose stream is closed.
  | .deliver slot =>
    if slot ∈ t.registry then some t
    else some (t.pushMail ⟨.workerLeft slot, decide (slot ∈ t.dropped)⟩)
  | .sendFailed slot =>
    if slot ∈ t.registry then
      some ({ t with registry := t.registry.erase slot }.pushMail ⟨.workerLeft slot, false⟩)
    else none
  -- Everybody else.
  | .push command =>
    match command with
    | .workerLeft _ => none
    | command => some (t.pushMail ⟨command, false⟩)
  -- The scheduler thread.
  | .load now =>
    if t.phase = .parked ∧ t.stop = false then do
      let e ← t.engine.step (.quiesce t.quiesce)
      return { t with engine := e, phase := .draining now 0 }
    else none
  | .pop outbox =>
    match t.phase, t.inbox with
    | .draining now applied, mail :: rest =>
      if applied < t.engine.drainBudget then do
        let e ← t.engine.step (.command mail.command now outbox)
        return { t with engine := e, inbox := rest, phase := .draining now (applied + 1) }
      else none
    | _, _ => none
  | .tick outbox room =>
    match t.phase with
    | .draining now applied =>
      if t.drained applied then do
        let e ← t.engine.step (.tick now outbox room)
        return { t with engine := e, phase := .parked }
      else none
    | _ => none
  | .exit => if t.phase = .parked ∧ t.stop = true then some { t with phase := .exited } else none

def Acts (t : Tasks) (step : TaskStep) (t' : Tasks) : Prop := t.act step = some t'

def run (t : Tasks) (steps : List TaskStep) : Option Tasks := steps.foldlM act t

/-- The registry is not cleared in the middle of an iteration that found the flag down. -/
def InTime (t : Tasks) : TaskStep → Prop
  | .clearRegistry => ∀ now applied, t.phase = .draining now applied → t.engine.quiescing = true
  | _ => True

instance (t : Tasks) (step : TaskStep) : Decidable (t.InTime step) :=
  match step with
  | .clearRegistry =>
    match hphase : t.phase with
    | .draining _ _ => decidable_of_iff (t.engine.quiescing = true)
        ⟨fun h _ _ _ => h, fun h => h _ _ hphase⟩
    | .parked | .exited => isTrue fun _ _ h => nomatch hphase.symm.trans h
  | .storeQuiesce | .storeStop | .attach _ | .lapse _ | .closed _ | .reportLeft _ _ | .giveUp _ _
  | .deliver _ | .sendFailed _ | .push _ | .load _ | .pop _ | .tick _ _ | .exit => isTrue trivial

structure Serving (t : Tasks) : Prop where
  stage : t.stage = .serving
  dropped : t.dropped = []
  ended : ∀ entry ∈ t.ended, entry.2 = false
  inbox : ∀ mail ∈ t.inbox, mail.byClear = false

def Cleared (t : Tasks) : Prop := t.stage = .cleared ∨ t.stage = .stopped

/-- What holds in time: marks appear only after the registry was cleared, on departures, and from
then on the scheduler drains with the flag up. -/
structure Timely (t : Tasks) : Prop where
  flagged : t.stage ≠ .serving → t.quiesce = true
  quiet : t.Cleared → ∀ now applied, t.phase = .draining now applied → t.engine.quiescing = true
  dropped : ¬ t.Cleared → t.dropped = []
  ended : ¬ t.Cleared → ∀ entry ∈ t.ended, entry.2 = false
  inbox : ¬ t.Cleared → ∀ mail ∈ t.inbox, mail.byClear = false
  marked : ∀ mail ∈ t.inbox, mail.byClear = true → ∃ slot, mail.command = .workerLeft slot

variable {t t' : Tasks}

omit [Crc32] in
private theorem Serving.timely (h : t.Serving) : t.Timely := by
  have hnot : ¬ t.Cleared := by
    unfold Cleared
    rw [h.stage]
    exact nofun
  refine ⟨fun hne => absurd h.stage hne, fun hc => absurd hc hnot, fun _ => h.dropped,
    fun _ => h.ended, fun _ => h.inbox, fun mail hm hmark => ?_⟩
  exact nomatch hmark.symm.trans (h.inbox mail hm)

omit [Crc32] in
private theorem Timely.pushMail {mail : Mail} (h : t.Timely)
    (hmail : ¬ t.Cleared → mail.byClear = false)
    (hmarked : mail.byClear = true → ∃ slot, mail.command = .workerLeft slot) :
    (t.pushMail mail).Timely := by
  unfold Tasks.pushMail
  split
  · refine { h with inbox := fun hnot m hm => ?_, marked := fun m hm hmark => ?_ }
    · rcases List.mem_append.mp hm with hm | hm
      · exact h.inbox hnot m hm
      · rw [List.mem_singleton.mp hm]
        exact hmail hnot
    · rcases List.mem_append.mp hm with hm | hm
      · exact h.marked m hm hmark
      · rw [List.mem_singleton.mp hm] at hmark ⊢
        exact hmarked hmark
  · exact h

private theorem quiescing_step {e e' : Engine} {input : Input} (h : e.step input = some e')
    (hno : ∀ leaving, input ≠ .quiesce leaving) : e'.quiescing = e.quiescing := by
  cases input with
  | command command now outbox =>
    obtain ⟨host, hhandle, rfl⟩ := Option.map_eq_some_iff.mp h
    obtain ⟨events, hmoves, -⟩ := Host.handle_moves hhandle
    exact hmoves.quiescing
  | tick now outbox room =>
    obtain ⟨⟨host, outcome⟩, htick, rfl⟩ := Option.map_eq_some_iff.mp h
    obtain ⟨events, hmoves, -⟩ := Host.tick_ticks htick
    exact hmoves.quiescing
  | quiesce leaving => exact absurd rfl (hno leaving)

private theorem Timely.acts {step : TaskStep} (ht : t.Timely) (hin : t.InTime step)
    (h : t.Acts step t') :
    t'.Timely := by
  unfold Acts at h
  cases step with
  | storeQuiesce =>
    simp only [act] at h
    split at h
    · rename_i hstage
      obtain rfl := Option.some.inj h
      have hnot : ¬ t.Cleared := by
        unfold Cleared
        rw [hstage]
        exact nofun
      exact ⟨fun _ => rfl, fun hc => by simp [Cleared] at hc, fun _ => ht.dropped hnot,
        fun _ => ht.ended hnot, fun _ => ht.inbox hnot, ht.marked⟩
    · exact nomatch h
  | clearRegistry =>
    simp only [act] at h
    split at h
    · rename_i hstage
      obtain rfl := Option.some.inj h
      have hflag : t.quiesce = true := ht.flagged (by rw [hstage]; exact nofun)
      have hcleared : ({ t with registry := [], dropped := t.registry, stage := .cleared } :
        Tasks).Cleared := Or.inl rfl
      exact ⟨fun _ => hflag, fun _ => hin, fun hnot => absurd hcleared hnot,
        fun hnot => absurd hcleared hnot, fun hnot => absurd hcleared hnot, ht.marked⟩
    · exact nomatch h
  | storeStop =>
    simp only [act] at h
    split at h
    · rename_i hstage
      obtain rfl := Option.some.inj h
      have hflag : t.quiesce = true := ht.flagged (by rw [hstage]; exact nofun)
      have hcleared : ({ t with stop := true, stage := .stopped } : Tasks).Cleared := Or.inr rfl
      exact ⟨fun _ => hflag, fun _ => ht.quiet (Or.inl hstage), fun hnot => absurd hcleared hnot,
        fun hnot => absurd hcleared hnot, fun hnot => absurd hcleared hnot, ht.marked⟩
    · exact nomatch h
  | attach slot =>
    obtain rfl := Option.some.inj h
    exact { ht with }
  | lapse slot =>
    simp only [act] at h
    split at h
    · obtain rfl := Option.some.inj h
      refine { ht with ended := fun hnot entry he => ?_ }
      rcases List.mem_append.mp he with he | he
      · exact ht.ended hnot entry he
      · rw [List.mem_singleton.mp he]
    · exact nomatch h
  | closed slot =>
    simp only [act] at h
    split at h
    · rename_i hopen
      obtain rfl := Option.some.inj h
      refine { ht with ended := fun hnot => ?_ }
      rw [ht.dropped hnot] at hopen
      exact nomatch hopen.2
    · exact nomatch h
  | reportLeft slot byClear =>
    simp only [act] at h
    split at h
    · rename_i hopen
      obtain rfl := Option.some.inj h
      refine Timely.pushMail { ht with ended := fun hnot entry he => ?_ } (fun hnot => ?_)
        fun _ => ⟨slot, rfl⟩
      · exact ht.ended hnot entry (List.mem_of_mem_erase he)
      · exact ht.ended hnot _ hopen.1
    · exact nomatch h
  | giveUp slot byClear =>
    simp only [act] at h
    split at h
    · obtain rfl := Option.some.inj h
      exact { ht with ended := fun hnot entry he => ht.ended hnot entry (List.mem_of_mem_erase he) }
    · exact nomatch h
  | deliver slot =>
    simp only [act] at h
    split at h
    · exact Option.some.inj h ▸ ht
    · obtain rfl := Option.some.inj h
      refine ht.pushMail (fun hnot => ?_) fun _ => ⟨slot, rfl⟩
      simp [ht.dropped hnot]
  | sendFailed slot =>
    simp only [act] at h
    split at h
    · obtain rfl := Option.some.inj h
      exact Timely.pushMail { ht with } (fun _ => rfl) fun _ => ⟨slot, rfl⟩
    · exact nomatch h
  | push command =>
    simp only [act] at h
    split at h
    · exact nomatch h
    · obtain rfl := Option.some.inj h
      exact ht.pushMail (fun _ => rfl) nofun
  | load now =>
    simp only [act] at h
    split at h
    · obtain ⟨e, hload, hret⟩ := Option.bind_eq_some_iff.mp h
      obtain rfl := Option.some.inj hload
      obtain rfl := Option.some.inj hret
      -- The iteration that starts here drains with the flag as it is now.
      refine { ht with quiet := fun hc _ _ _ => ht.flagged fun hserving => ?_ }
      rcases hc with hc | hc
      · exact nomatch hserving.symm.trans hc
      · exact nomatch hserving.symm.trans hc
    · exact nomatch h
  | pop outbox =>
    simp only [act] at h
    split at h
    · rename_i now applied mail rest hphase hinbox
      split at h
      · obtain ⟨e, hstep, hret⟩ := Option.bind_eq_some_iff.mp h
        obtain rfl := Option.some.inj hret
        have hsame : e.quiescing = t.engine.quiescing := quiescing_step hstep nofun
        have hsub : ∀ m ∈ rest, m ∈ t.inbox := fun m hm => hinbox ▸ List.mem_cons_of_mem _ hm
        exact { ht with
          quiet := fun hc _ _ _ => hsame.trans (ht.quiet hc now applied hphase)
          inbox := fun hnot m hm => ht.inbox hnot m (hsub m hm)
          marked := fun m hm => ht.marked m (hsub m hm) }
      · exact nomatch h
    · exact nomatch h
  | tick outbox room =>
    simp only [act] at h
    split at h
    · split at h
      · obtain ⟨e, hstep, hret⟩ := Option.bind_eq_some_iff.mp h
        obtain rfl := Option.some.inj hret
        exact { ht with quiet := fun _ _ _ hphase => (nomatch hphase) }
      · exact nomatch h
    · exact nomatch h
  | exit =>
    simp only [act] at h
    split at h
    · obtain rfl := Option.some.inj h
      exact { ht with quiet := fun _ _ _ hphase => (nomatch hphase) }
    · exact nomatch h

/-- A departure applied while the daemon leaves changes no job and logs nothing. -/
private theorem left_quiescing {e e' : Engine} {slot : SlotIndex} {now : VirtualTime}
    {outbox : Outbox}
    (h : e.step (.command (.workerLeft slot) now outbox) = some e') (hquiet : e.quiescing = true) :
    e'.toRoster = e.toRoster ∧ e'.journal = e.journal := by
  obtain ⟨host, hhandle, rfl⟩ := Option.map_eq_some_iff.mp h
  simp only [Host.handle] at hhandle
  have hevict := Host.onEngine_eq hhandle
  unfold Engine.evictSlot at hevict
  have hflag : (e.withCore (e.unbindSlot slot)).quiescing = true := hquiet
  simp only [hflag, if_true, Option.bind_eq_bind, Option.bind_some] at hevict
  rw [← Option.some.inj hevict]
  exact ⟨rfl, rfl⟩

def TimelySteps (t : Tasks) (step : TaskStep) (t' : Tasks) : Prop := t.Acts step t' ∧ t.InTime step

/-- Whatever the timing of the tasks, a departure caused by the shutdown is applied with the flag
up, and no job is requeued for it. -/
theorem clean_stop_leaves_jobs {start : Tasks} {steps : List TaskStep} {mail : Mail}
    {rest : List Mail} {outbox : Outbox} (hstart : start.Serving)
    (hrun : Chain TimelySteps start steps t) (hinbox : t.inbox = mail :: rest)
    (hmail : mail.byClear = true) (hpop : t.Acts (.pop outbox) t') :
    t.engine.quiescing = true ∧ t'.engine.jobs = t.engine.jobs ∧
      t'.engine.journal = t.engine.journal := by
  have ht : t.Timely :=
    hrun.keeps (P := Timely) (fun _ _ _ hstep ht => ht.acts hstep.2 hstep.1) hstart.timely
  have hmem : mail ∈ t.inbox := hinbox ▸ List.mem_cons_self
  -- A marked report says that the registry has been cleared.
  have hcleared : t.Cleared := by
    by_contra hnot
    exact nomatch hmail.symm.trans (ht.inbox hnot mail hmem)
  obtain ⟨slot, hleft⟩ := ht.marked mail hmem hmail
  unfold Acts at hpop
  simp only [act, hinbox] at hpop
  split at hpop
  · rename_i now applied first others hphase hsame
    obtain ⟨rfl, rfl⟩ := List.cons.inj hsame
    have hquiet := ht.quiet hcleared now applied hphase
    split at hpop
    · obtain ⟨e, hstep, hret⟩ := Option.bind_eq_some_iff.mp hpop
      obtain rfl := Option.some.inj hret
      rw [hleft] at hstep
      obtain ⟨hroster, hjournal⟩ := left_quiescing hstep hquiet
      exact ⟨hquiet, congrArg Roster.jobs hroster, hjournal⟩
    · exact nomatch hpop
  · exact nomatch hpop

private theorem chain_of_run {steps : List TaskStep} {t t' : Tasks} (h : t.run steps = some t') :
    Chain Acts t steps t' := Chain.of_foldlM h

def timelyRun (t : Tasks) (steps : List TaskStep) : Option Tasks :=
  steps.foldlM (guarded InTime act) t

private theorem chain_of_timelyRun {steps : List TaskStep} {t t' : Tasks}
    (h : t.timelyRun steps = some t') : Chain TimelySteps t steps t' := Chain.of_guarded h

end Tasks

def sampleTasks : Tasks where
  engine := Engine.new sampleDaemon
  phase := .parked
  inbox := []
  inboxCapacity := 8
  registry := []
  readers := []
  ended := []
  dropped := []
  quiesce := false
  stop := false
  stage := .serving

def startedSteps : List TaskStep :=
  [.push (sampleJoin 1), .load 0, .pop (Outbox.new 8), .attach 0, .push (sampleSubmit .normal 1 []),
    .pop (Outbox.new 8), .tick (Outbox.new 8) true]

def timelySteps : List TaskStep :=
  startedSteps ++ [.storeQuiesce, .clearRegistry, .closed 0, .reportLeft 0 true, .load 1]

attribute [local instance] Crc32.ieee

/-- Then the job stays running. -/
theorem clean_stop_leaves_jobs_sample : ∃ t t' mail rest,
    Tasks.timelyRun sampleTasks timelySteps = some t ∧ t.inbox = mail :: rest ∧
      mail.byClear = true ∧ Tasks.Acts t (.pop (Outbox.new 8)) t' ∧
      (t.engine.jobs.get ⟨0⟩).map (·.state) = some .running ∧ t.engine.quiescing = true ∧
      t'.engine.jobs = t.engine.jobs ∧ t'.engine.journal = t.engine.journal := by
  have hlook : (Tasks.timelyRun sampleTasks timelySteps).any (fun t =>
      (t.inbox.head?.any (·.byClear)) &&
        decide ((t.engine.jobs.get ⟨0⟩).map (·.state) = some .running) &&
        (Tasks.act t (.pop (Outbox.new 8))).isSome) = true := by decide +kernel
  obtain ⟨t, hrun, hlook⟩ := (Option.any_eq_true _ _).mp hlook
  simp only [Bool.and_eq_true, decide_eq_true_eq, Option.isSome_iff_exists] at hlook
  obtain ⟨⟨hhead, hbefore⟩, t', hpop⟩ := hlook
  obtain ⟨mail, hhead, hmail⟩ := (Option.any_eq_true _ _).mp hhead
  obtain ⟨rest, hinbox⟩ := List.head?_eq_some_iff.mp hhead
  have hserving : sampleTasks.Serving := ⟨rfl, rfl, nofun, nofun⟩
  exact ⟨t, t', mail, rest, hrun, hinbox, hmail, hpop, hbefore,
    Tasks.clean_stop_leaves_jobs hserving
      (Tasks.chain_of_timelyRun hrun) hinbox hmail hpop⟩

/-- The scheduler reads the flag before it is raised; the stream is closed and its reader reports
while that iteration still drains. -/
def hastySteps : List TaskStep :=
  startedSteps ++ [.load 1, .storeQuiesce, .clearRegistry, .closed 0, .reportLeft 0 true]

/-- The departure that the shutdown caused requeues the running job. -/
theorem clean_stop_requeues : ∃ t t' mail rest,
    Chain Tasks.Acts sampleTasks hastySteps t ∧ t.inbox = mail :: rest ∧
      mail.byClear = true ∧ Tasks.Acts t (.pop (Outbox.new 8)) t' ∧
      t.engine.quiescing = false ∧ (t.engine.jobs.get ⟨0⟩).map (·.state) = some .running ∧
      (t'.engine.jobs.get ⟨0⟩).map (·.state) = some .ready := by
  have hlook : (Tasks.run sampleTasks hastySteps).any (fun t =>
      (t.inbox.head?.any (·.byClear)) && !t.engine.quiescing &&
        decide ((t.engine.jobs.get ⟨0⟩).map (·.state) = some .running) &&
        (Tasks.act t (.pop (Outbox.new 8))).any fun t' =>
          decide ((t'.engine.jobs.get ⟨0⟩).map (·.state) = some .ready)) = true := by
    decide +kernel
  obtain ⟨t, hrun, hlook⟩ := (Option.any_eq_true _ _).mp hlook
  simp only [Bool.and_eq_true, decide_eq_true_eq, Bool.not_eq_true'] at hlook
  obtain ⟨⟨⟨hhead, hquiet⟩, hbefore⟩, hpop⟩ := hlook
  obtain ⟨mail, hhead, hmail⟩ := (Option.any_eq_true _ _).mp hhead
  obtain ⟨t', hpop, hafter⟩ := (Option.any_eq_true _ _).mp hpop
  obtain ⟨rest, hinbox⟩ := List.head?_eq_some_iff.mp hhead
  exact ⟨t, t', mail, rest, Tasks.chain_of_run hrun, hinbox, hmail, hpop, hquiet,
    hbefore, of_decide_eq_true hafter⟩

end TaskerRT.Daemon
