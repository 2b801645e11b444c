/- module: TaskerRT/Daemon/Owed
   source: crates/taskerd/src/engine.rs (recover, restore_snapshot, apply),
     crates/tasker-core/src/engine/cycle.rs (restore_ledgers)
   digest: What recovered ledgers charge beyond what the recovered jobs hold. -/

import TaskerRT.Daemon.Lives
import TaskerRT.Daemon.Ledgers

set_option autoImplicit false

namespace TaskerRT.Daemon

open Library Domain Cluster Policy Scheduling Wal Book DependencyTracker

def graceCpu (i : Nat) (job : Job) : Nat :=
  if job.state = .preempted ∧ job.account.val = i then job.request.cpuMillis.val else 0

/-- Every ledger is charged for what its account holds and `debt` on top of it. -/
structure Owes (debt : Nat → Nat) (f : FairShare) (jobs : Arena Job) : Prop where
  ledger : ∀ x job, jobs.get x = some job → job.account.val < f.ledgers.length
  exact_ : ∀ i, f.runningCpu i = jobs.tally (heldCpu i) + debt i

namespace Owes

variable {debt : Nat → Nat} {f f' : FairShare} {b b' : Book} {record : Record} {id : JobId}
  {job : Job}

private theorem held_le (h : Owes debt f b.jobs) (i : Nat) (id : JobId) :
    (b.jobs.get id).elim 0 (heldCpu i) ≤ f.runningCpu i := by
  have hle : (b.jobs.get id).elim 0 (heldCpu i) ≤ b.jobs.tally (heldCpu i) :=
    Finset.single_le_sum (f := fun x => (b.jobs.get x).elim 0 (heldCpu i))
      (fun _ _ => Nat.zero_le _) id.mem_all
  rw [h.exact_]
  omega

private theorem posts (h : Owes debt f b.jobs) (hl : Lawful b record b') (hv : Valid b)
    (hledger : ∀ x j, b'.jobs.get x = some j → j.account.val < f'.ledgers.length)
    (hcpu : ∀ i, f'.runningCpu i + (b.jobs.get record.id).elim 0 (heldCpu i) =
      f.runningCpu i + (b'.jobs.get record.id).elim 0 (heldCpu i)) :
    Owes debt f' b'.jobs := by
  refine ⟨hledger, fun i => ?_⟩
  have hshift := Arena.tally_shift fun x hx => hl.held hv i x hx
  have hmoved := hcpu i
  rw [h.exact_] at hmoved
  omega

private theorem known (h : Owes debt f b.jobs) (hl : Lawful b record b') (hv : Valid b)
    (hlen : f'.ledgers.length = f.ledgers.length) (hold : ∀ x job, record ≠ .submitted x job)
    (x : JobId) (j : Job) (hx : b'.jobs.get x = some j) : j.account.val < f'.ledgers.length := by
  rcases hl.accounts hv hx with ⟨j₀, hj₀, haccount⟩ | ⟨job, hrecord, -⟩
  · rw [haccount, hlen]
    exact h.ledger x j₀ hj₀
  · exact absurd hrecord (hold x job)

private theorem release (now : VirtualTime) (config : FairShareConfig) (h : Owes debt f b.jobs)
    (hl : Lawful b record b') (hv : Valid b) (hid : b.jobs.get id = some job)
    (hon : job.state.onWorker = true) (hsubject : record.id = id)
    (hfrees : frees id record = true) :
    Owes debt (f.onRelease job.account job.request.cpuMillis now config) b'.jobs := by
  have hstays : starts id record = false ∧ ∀ x j, record ≠ .submitted x j := by
    cases record <;> simp_all [frees, starts]
  have hoff : ¬ Worked b' id := by
    rw [hl.worked hv, hfrees, hstays.1]
    simp
  refine h.posts hl hv (h.known hl hv (FairShare.length_onRelease _ _ _ _ _) hstays.2) fun i => ?_
  have hle := h.held_le i id
  rw [hsubject, held_of_not_worked hoff]
  rw [hid, Option.elim_some, heldCpu_on hon] at hle ⊢
  rw [FairShare.runningCpu_onRelease _ _ _ (h.ledger id job hid)]
  split
  · rename_i hi
    rw [if_pos hi] at hle
    omega
  · rfl

private theorem charge {at_ : VirtualTime} (now : VirtualTime) (config : FairShareConfig)
    (h : Owes debt f b.jobs) (hl : Lawful b (.dispatched id at_) b') (hv : Valid b)
    (hid : b.jobs.get id = some job) (hst : job.state = .ready)
    (hsmall : ∀ i, debt i < 2 ^ 32) :
    Owes debt (f.onDispatch job.account job.request.cpuMillis now config) b'.jobs := by
  have hid' : b'.jobs.get id = some (job.withState .running) := by
    have hshift := hl.shift hv id
    rw [hid] at hshift
    generalize b'.jobs.get id = new at hshift
    cases hshift with
    | same entry other => exact absurd rfl other
    | started at_ ready => rfl
    | doomed at_ other cause => rcases cause with cause | cause <;> cases cause
  refine h.posts hl hv (h.known hl hv (FairShare.length_onDispatch _ _ _ _ _)
    fun _ _ => by simp) fun i => ?_
  have hshift := Arena.tally_shift fun x hx => hl.held hv i x hx
  have hfits : b'.jobs.tally (heldCpu i) ≤ 2 ^ 32 * (2 ^ 32 - 1) :=
    Arena.tally_le (hv.posts hl).wf.bound (heldCpu_le i)
  have hsum := h.exact_ i
  have hdebt := hsmall i
  show _ + (b.jobs.get id).elim 0 (heldCpu i) = _ + (b'.jobs.get id).elim 0 (heldCpu i)
  change _ + (b.jobs.get id).elim 0 (heldCpu i) = _ + (b'.jobs.get id).elim 0 (heldCpu i) at hshift
  have hoff : heldCpu i job = 0 := heldCpu_off (by rw [hst]; rfl)
  have hon : heldCpu i (job.withState .running) =
      if i = job.account.val then job.request.cpuMillis.val else 0 := heldCpu_on rfl
  rw [hid, hid', Option.elim_some, Option.elim_some, hoff, hon] at hshift ⊢
  rw [FairShare.runningCpu_onDispatch _ _ _ (h.ledger id job hid)]
  by_cases hi : i = job.account.val
  · rw [if_pos hi] at hshift ⊢
    rw [if_pos hi]
    omega
  · rw [if_neg hi, if_neg hi]

private theorem idle (h : Owes debt f b.jobs) (hl : Lawful b record b') (hv : Valid b)
    (hold : ∀ x job, record ≠ .submitted x job) (hidle : ¬ Worked b record.id)
    (hstays : starts record.id record = false) : Owes debt f b'.jobs := by
  have hidle' : ¬ Worked b' record.id := by
    rw [hl.worked hv, hstays]
    simp [hidle]
  refine h.posts hl hv (h.known hl hv rfl hold) fun i => ?_
  rw [held_of_not_worked hidle, held_of_not_worked hidle']

end Owes

private theorem heldCpu_resumed (i : Nat) (job : Job) :
    heldCpu i job = heldCpu i (resumed job) + graceCpu i job := by
  unfold heldCpu graceCpu resumed
  by_cases hst : job.state = .preempted
  · by_cases hi : job.account.val = i <;> simp [hst, hi, JobState.onWorker]
  · simp [hst]

private theorem tally_resumed (i : Nat) (jobs : Arena Job) :
    jobs.tally (heldCpu i) = (jobs.map resumed).tally (heldCpu i) + jobs.tally (graceCpu i) := by
  unfold Arena.tally
  rw [← Finset.sum_add_distrib]
  refine Finset.sum_congr rfl fun x _ => ?_
  rw [Arena.get_map]
  cases jobs.get x with
  | none => rfl
  | some job => exact heldCpu_resumed i job

namespace Roster

variable {config : CycleConfig} {r r' : Roster} {record : Record} {records : List Record}
  {debt : Nat → Nat}

private theorem Sane.owes_replay (hs : Sane r) (hf : r.Fits record)
    (h : r.applyRecord config record = some (.ok r'))
    (ho : Owes debt r.scheduler.fairshare r.jobs) (hsmall : ∀ i, debt i < 2 ^ 32) :
    Owes debt r'.scheduler.fairshare r'.jobs := by
  have hlawful := (hs.replay hf h).1
  have hv := hs.valid
  have ho' : Owes debt r.scheduler.fairshare r.book.jobs := ho
  cases record with
  | submitted id job =>
    simp only [applyRecord, Option.bind_eq_bind, Option.bind_eq_some_iff] at h
    obtain ⟨next, hnext, h⟩ := h
    split at h
    · cases h
    · rename_i heq
      obtain rfl : next = id := not_not.mp heq
      obtain ⟨⟨jobs, id'⟩, hinsert, h⟩ := Option.bind_eq_some_iff.mp h
      obtain rfl : id' = next :=
        Option.some.inj ((Arena.nextId_of_insert hinsert).symm.trans hnext)
      obtain ⟨state, hok, rfl⟩ := replayed_eq_ok (Option.some.inj h)
      obtain ⟨fairshare, _, _, -, -, hfair, -, -, hstep⟩ := Scheduler.submit_fresh hinsert hok
      obtain ⟨hknown, hlen⟩ := FairShare.lt_length_ensure hfair
      have hopens : Owes debt fairshare _ := ho'.posts hlawful hv
        (fun x j hx => by
          rcases hlawful.accounts hv hx with ⟨j₀, hj₀, haccount⟩ | ⟨j₀, heq, haccount⟩
          · rw [haccount]
            exact (ho.ledger x j₀ hj₀).trans_le hlen
          · obtain ⟨-, rfl⟩ := Record.submitted.inj heq
            rw [haccount]
            exact hknown)
        (fun i => by
          have hidle : ¬ Worked r.book id' := by
            rintro ⟨j, hj, -⟩
            rw [show r.book.jobs.get id' = none from Arena.get_nextId hnext] at hj
            cases hj
          have hidle' := mt (hlawful.worked hv id').mp (by simp [hidle, starts])
          rw [FairShare.runningCpu_ensure hfair]
          show _ + (r.book.jobs.get id').elim 0 _ = _ + (Option.elim (Arena.get _ id') 0 _)
          rw [held_of_not_worked hidle, held_of_not_worked hidle'])
      rw [scheduler_noteIf]
      simp only [adoptStep, hstep, Scheduler.fairshare_classified, book] at hopens ⊢
      exact hopens
  | dispatched id at_ =>
    obtain ⟨u, hok, rfl⟩ := replayed_eq_ok (Option.some.inj h)
    obtain ⟨job, hid, hst⟩ := Scheduler.restoreRunning_inv hok
    have hcharged := ho'.charge at_ config.fairshare hlawful hv hid hst hsmall
    simp only [adoptStep, Scheduler.restoreRunning_ok hid hst, book] at hcharged ⊢
    exact hcharged
  | completed id at_ =>
    obtain ⟨promoted, hok, rfl⟩ := replayed_eq_ok (Option.some.inj h)
    obtain ⟨job, hid, hw⟩ := Scheduler.onCompleted_inv hok
    obtain ⟨s', heq, -, hfair, -⟩ :=
      @Scheduler.onCompleted_ok r.scheduler r.jobs id job at_ config hid hw
    have hreleased := ho'.release at_ config.fairshare hlawful hv hid hw rfl (by simp [frees])
    simp only [noteTerminal, adoptStep, heq, book] at hreleased ⊢
    rw [hfair]
    exact hreleased
  | failed id at_ =>
    obtain ⟨cascade, hok, rfl⟩ := replayed_eq_ok (Option.some.inj h)
    obtain ⟨job, hid, hw⟩ := Scheduler.onFailed_inv hok
    obtain ⟨s', heq, -, hfair, -⟩ :=
      @Scheduler.onFailed_ok r.scheduler r.jobs id job at_ config hid hw
    have hreleased := ho'.release at_ config.fairshare hlawful hv hid hw rfl (by simp [frees])
    simp only [noteTerminal, noteAll, adoptStep, heq, book] at hreleased ⊢
    rw [hfair]
    exact hreleased
  | cancelled id at_ =>
    obtain ⟨cascade, hok, rfl⟩ := replayed_eq_ok (Option.some.inj h)
    obtain ⟨job, hid, hopen⟩ := Scheduler.cancel_inv hok
    obtain ⟨s', heq, -, hfair, -⟩ :=
      @Scheduler.cancel_ok r.scheduler r.jobs id job at_ config hid hopen
    simp only [noteTerminal, noteAll, adoptStep, heq, book] at hlawful ⊢
    rw [hfair, Scheduler.fairshare_uncharged]
    by_cases hw : job.state.onWorker = true
    · rw [if_pos hw]
      exact ho'.release at_ config.fairshare hlawful hv hid hw rfl (by simp [frees])
    · rw [if_neg hw]
      refine ho'.idle hlawful hv (fun _ _ => by simp) ?_ rfl
      rintro ⟨j, hj, hon⟩
      obtain rfl := Option.some.inj (hid.symm.trans hj)
      exact hw hon
  | requeued id at_ =>
    obtain ⟨u, hok, rfl⟩ := replayed_eq_ok (Option.some.inj h)
    obtain ⟨job, hid, hq⟩ := Scheduler.requeue_inv hok
    obtain ⟨job', hid', hw⟩ := hf
    obtain rfl := Option.some.inj (hid.symm.trans hid')
    have hreleased := ho'.release at_ config.fairshare hlawful hv hid hw rfl (by simp [frees])
    simp only [adoptStep, Scheduler.requeue_ok hid hq, book] at hreleased ⊢
    exact hreleased
  | preempted id at_ =>
    obtain ⟨u, hok, rfl⟩ := replayed_eq_ok (Option.some.inj h)
    obtain ⟨job, hid, hst⟩ := Scheduler.preempt_inv hok
    simp only [adoptStep, Scheduler.preempt_ok hid hst, book] at hlawful ⊢
    refine ho'.posts hlawful hv (ho'.known hlawful hv rfl fun _ _ => by simp) fun i => ?_
    show _ + (r.jobs.get id).elim 0 _ = _ + ((r.jobs.modify id _).get id).elim 0 _
    have hsame : heldCpu i (job.withState .preempted) = heldCpu i job := by
      rw [heldCpu_on (rfl : (job.withState .preempted).state.onWorker = true),
        heldCpu_on (by rw [hst]; rfl)]
      rfl
    rw [Arena.get_modify_self, hid, Option.map_some, Option.elim_some, Option.elim_some, hsame]
  | forgotten id =>
    obtain rfl := Except.ok.inj (Option.some.inj h)
    obtain ⟨-, job, hid, hover⟩ := hf
    refine ho'.idle hlawful hv (fun _ _ => by simp) ?_ rfl
    rintro ⟨j, hj, hon⟩
    obtain rfl := Option.some.inj (hid.symm.trans hj)
    rw [JobState.not_terminal_of_onWorker hon] at hover
    cases hover

private theorem Sane.owes_replayEach (hsmall : ∀ i, debt i < 2 ^ 32) : ∀ {r : Roster}
    {latest latest' : VirtualTime}, Sane r → AllFit config records r →
      applyEach config records r latest = some (.ok (r', latest')) →
      Owes debt r.scheduler.fairshare r.jobs → Owes debt r'.scheduler.fairshare r'.jobs := by
  induction records with
  | nil =>
    intro r latest latest' _ _ h ho
    obtain ⟨rfl, -⟩ := Prod.mk.inj (Except.ok.inj (Option.some.inj h))
    exact ho
  | cons record records ih =>
    intro r latest latest' hs hfit h ho
    obtain ⟨r₁, latest₁, hhead, hrest⟩ := applyEach_cons h
    exact ih (hs.replay hfit.1 hhead).2 (hfit.2 r₁ hhead) hrest
      (hs.owes_replay hfit.1 hhead ho hsmall)

private theorem Sane.owes_requeueEvicting (hsmall : ∀ i, debt i < 2 ^ 32) {latest : VirtualTime}
    (hs : Sane r) (h : Roster.requeueEvicting config latest (evictingIds r.jobs) r = .ok r')
    (ho : Owes debt r.scheduler.fairshare r.jobs) : Owes debt r'.scheduler.fairshare r'.jobs := by
  have hacts := (Core.requeues_acts (requeueEvicting_requeues h) hs
    (nodup_iter_state hs.valid.wf.bound _) hs.worked_evicting).1
  refine ((hacts.imp fun _ act _ hmem hact => (⟨hact, List.mem_map.mp hmem⟩ : _ ∧ _)).keeps
    (P := fun r => Sane r ∧ Owes debt r.scheduler.fairshare r.jobs) ?_ ⟨hs, ho⟩).2
  rintro r act r' ⟨⟨hd, hl⟩, id, -, rfl⟩ ⟨hs, ho⟩
  refine ⟨hs.does hd hl, ?_⟩
  cases hd with
  | requeued _ hok =>
    have happly : r.applyRecord config (.requeued id latest) =
        some (.ok (r.adoptStep (r.scheduler.requeue id r.jobs latest config))) := by
      simp only [applyRecord, replayed, hok]
    exact hs.owes_replay (show r.Fits (.requeued id latest) from hl) happly ho hsmall

end Roster

namespace Engine

section

variable [Crc32] {config : DaemonConfig} {e e' e₂ : Engine} {inputs later : List Input}
  {records rest : List Record} {recovered : Recovered} {journal : Journal} {first : Option Journal}
  {now : VirtualTime}

theorem owes_of_recover (hprior : Chain SafeSteps (build config first) inputs e)
    (hordered : e.toRoster.book.SlotOrdered) (hrun : Chain SafeSteps e later e')
    (hlog : e.Since e' records) (hfound : e.Found config now recovered)
    (hcut : recovered.records ++ rest = records)
    (hsmall : ∀ i, e.jobs.tally (graceCpu i) < 2 ^ 32)
    (hok : recover config recovered journal = some (.ok e₂)) :
    Owes (fun i => e.jobs.tally (graceCpu i)) e₂.scheduler.fairshare e₂.jobs := by
  have hs := sturdy_of_run hprior (sturdy_build config first)
  have hcharged := charged_of_run hprior (sane_build config first) (charged_build config first)
  obtain ⟨-, r₀, at_, r, latest, hreloads, hledgers, hsane, hfit, happly, hrequeue⟩ :=
    recovers_of_found hs hordered hrun hlog hfound hcut hok
  have hloaded : Owes (fun i => e.jobs.tally (graceCpu i)) r₀.scheduler.fairshare r₀.jobs := by
    refine ⟨fun x j hx => ?_, fun i => ?_⟩
    · obtain ⟨job, hjob, rfl⟩ := hreloads.get_some hx
      rw [hledgers, show (resumed job).account = job.account by unfold resumed; split <;> rfl]
      exact hcharged.ledger x job hjob
    · have hsame : r₀.scheduler.fairshare.runningCpu i = e.scheduler.fairshare.runningCpu i := by
        unfold FairShare.runningCpu
        rw [hledgers]
      rw [hsame, hcharged.exact_, hreloads.jobs]
      exact tally_resumed i e.jobs
  have hsane' := (hsane.replayEach hfit happly).2
  exact hsane'.owes_requeueEvicting hsmall hrequeue
    (hsane.owes_replayEach hsmall hfit happly hloaded)

theorem Lives.tally_eq (h : Lives config e) (f : Job → Nat) :
    (e.jobs.iter.map fun p => f p.2).sum = e.jobs.tally f :=
  (Arena.tally_eq_iter h.sturdy.eligible.sane.roster.valid.wf.bound f).symm

/-- After a recovery every account is charged for what its jobs hold, and once more for what the
snapshot had in a grace: those jobs queue again, and nothing releases what they held. -/
theorem recovered_ledgers_keep_grace (hprior : Chain SafeSteps (build config first) inputs e)
    (hordered : e.toRoster.book.SlotOrdered) (hrun : Chain SafeSteps e later e')
    (hlog : e.Since e' records) (hstored : e.Stored now recovered)
    (hcut : recovered.records ++ rest = records)
    (hsmall : ∀ i, (e.jobs.iter.map fun p => graceCpu i p.2).sum < 2 ^ 32)
    (hok : recover config recovered journal = some (.ok e₂)) (i : Nat) :
    e₂.scheduler.fairshare.runningCpu i = (e₂.jobs.iter.map fun p => heldCpu i p.2).sum +
      (e.jobs.iter.map fun p => graceCpu i p.2).sum := by
  have hlives := (Lives.started first).run hprior
  have hlives₂ : Lives config e₂ := .restarted hlives hordered hrun hlog hstored hcut hok
  simp only [hlives.tally_eq] at hsmall ⊢
  rw [hlives₂.tally_eq]
  exact (owes_of_recover hprior hordered hrun hlog (.inl hstored) hcut hsmall hok).exact_ i

end

attribute [local instance] Crc32.ieee

/-- A crash right after a snapshot with a job in its grace: nothing runs, and its account pays. -/
theorem recovered_ledgers_keep_grace_sample : ∃ e e₂,
    safeRun (withJournal evictingDaemon (Journal.new 4096)) (evictedInputs.take 5) =
        some e ∧
      recover evictingDaemon ⟨0, some (e.snapshot 2), [], none⟩ (Journal.new 0) =
        some (.ok e₂) ∧
      (e₂.jobs.iter.map fun p => heldCpu 0 p.2).sum = 0 ∧
      e₂.scheduler.fairshare.runningCpu 0 = 1 := by
  have hlook : ((encodeSnapshot graced 2).isSome &&
      (recover evictingDaemon ⟨0, some (graced.snapshot 2), [], none⟩ (Journal.new 0)).any
        fun out => out.toOption.any fun e₂ =>
          decide ((e₂.jobs.iter.map fun p => heldCpu 0 p.2).sum = 0)) = true := by
    decide +kernel
  simp only [Bool.and_eq_true, Option.any_eq_true, decide_eq_true_eq,
    Option.isSome_iff_exists] at hlook
  obtain ⟨⟨bytes, hbytes⟩, out, hrecover, e₂, hout, hheld⟩ := hlook
  have hok : recover evictingDaemon ⟨0, some (graced.snapshot 2), [], none⟩ (Journal.new 0) =
      some (.ok e₂) := by rw [hrecover, eq_ok_of_toOption hout]
  obtain ⟨hgrowing, hlog, -⟩ := parts_of_safeRun run_graced
    (rfl : safeRun graced [] = some graced)
    (by decide +kernel : _ = some 4) (by decide +kernel)
  have hjobs : graced.jobs.iter.map (fun p =>
      (p.2.state, p.2.account.val, p.2.request.cpuMillis.val)) =
        [(.preempted, 0, 1), (.ready, 0, 1)] := by decide +kernel
  have hsum : ∀ i, (graced.jobs.iter.map fun p => graceCpu i p.2).sum =
      if i = 0 then 1 else 0 := by
    intro i
    have hread : (graced.jobs.iter.map fun p => graceCpu i p.2) = (graced.jobs.iter.map fun p =>
        (p.2.state, p.2.account.val, p.2.request.cpuMillis.val)).map fun q =>
          if q.1 = .preempted ∧ q.2.1 = i then q.2.2 else 0 := by
      rw [List.map_map]
      rfl
    rw [hread, hjobs]
    simp [eq_comm]
  have hcharge := recovered_ledgers_keep_grace (chain_of_safeRun run_graced) hgrowing.slotOrdered
    (.nil graced) hlog
    ⟨bytes, graced.snapshot 2, hbytes, decodeSnapshot_encodeSnapshot hbytes, rfl⟩
    (List.nil_append _) (fun i => by rw [hsum]; split <;> decide) hok 0
  rw [hsum, hheld] at hcharge
  exact ⟨graced, e₂, run_graced, hok, hheld, hcharge⟩

end Engine

end TaskerRT.Daemon
