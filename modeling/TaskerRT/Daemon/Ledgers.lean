/- module: TaskerRT/Daemon/Ledgers
   source: crates/tasker-core/src/engine/cycle.rs, crates/tasker-core/src/policy/fairshare.rs
   digest: As long as no generation wraps, accounts are charged for exactly what they hold. -/

import TaskerRT.Daemon.Restored
import TaskerRT.Daemon.Wrapped
import TaskerRT.Domain.Tally

set_option autoImplicit false

namespace TaskerRT.Daemon

open Library Domain Cluster Policy Scheduling Wal Book

def heldCpu (i : Nat) (job : Job) : Nat :=
  if job.state.onWorker = true ∧ job.account.val = i then job.request.cpuMillis.val else 0

theorem heldCpu_off {i : Nat} {job : Job} (h : job.state.onWorker = false) : heldCpu i job = 0 :=
  if_neg fun hboth => by simp [h] at hboth

theorem heldCpu_on {i : Nat} {job : Job} (h : job.state.onWorker = true) :
    heldCpu i job = if i = job.account.val then job.request.cpuMillis.val else 0 := by
  simp [heldCpu, h, eq_comm]

theorem heldCpu_le (i : Nat) (job : Job) : heldCpu i job ≤ 2 ^ 32 - 1 := by
  have hlt := job.request.cpuMillis.isLt
  unfold heldCpu
  split
  · omega
  · exact Nat.zero_le _

/-- Every live job's account has a ledger, and every ledger is charged for what its account
holds. -/
structure Charges (f : FairShare) (jobs : Arena Job) : Prop where
  ledger : ∀ x job, jobs.get x = some job → job.account.val < f.ledgers.length
  exact_ : ∀ i, f.runningCpu i = jobs.tally (heldCpu i)

namespace Charges

variable {f f' : FairShare} {jobs jobs' : Arena Job} {id : JobId} {job job' : Job}

private theorem tally_lt (hlen : jobs.slots.length ≤ 2 ^ 32) (i : Nat) : jobs.tally
    (heldCpu i) < 2 ^ 64 := by
  have := Arena.tally_le hlen (heldCpu_le i)
  omega

private theorem same (h : Charges f jobs) (hcpu : ∀ i, f'.runningCpu i = f.runningCpu i)
    (hledger : ∀ x j, jobs'.get x = some j → j.account.val < f'.ledgers.length)
    (hheld : ∀ i x, (jobs'.get x).elim 0 (heldCpu i) = (jobs.get x).elim 0 (heldCpu i)) :
    Charges f' jobs' :=
  ⟨hledger, fun i => by rw [hcpu, h.exact_, Arena.tally_congr (hheld i)]⟩

private theorem start (now : VirtualTime) (config : FairShareConfig) (h : Charges f jobs)
    (hid : jobs.get id = some job)
    (hoff : job.state.onWorker = false) (hid' : jobs'.get id = some job')
    (hon : job'.state.onWorker = true) (haccount : job'.account = job.account)
    (hlen : jobs'.slots.length ≤ 2 ^ 32)
    (hledger : ∀ x j, jobs'.get x = some j → j.account.val < f.ledgers.length)
    (hheld : ∀ i x, x ≠ id → (jobs'.get x).elim 0 (heldCpu i) = (jobs.get x).elim 0 (heldCpu i)) :
    Charges (f.onDispatch job'.account job'.request.cpuMillis now config) jobs' := by
  have hknown : job'.account.val < f.ledgers.length := haccount ▸ h.ledger id job hid
  refine ⟨fun x j hx => by simpa using hledger x j hx, fun i => ?_⟩
  have hshift := Arena.tally_shift (hheld i)
  have hfits := tally_lt hlen i
  rw [hid, hid', Option.elim_some, Option.elim_some, heldCpu_off hoff, heldCpu_on hon] at hshift
  rw [FairShare.runningCpu_onDispatch _ _ _ hknown, h.exact_]
  split
  · rename_i hi
    rw [if_pos hi] at hshift
    omega
  · rename_i hi
    rw [if_neg hi] at hshift
    omega

private theorem stop (now : VirtualTime) (config : FairShareConfig) (h : Charges f jobs)
    (hid : jobs.get id = some job)
    (hon : job.state.onWorker = true)
    (hoff : ∀ j, jobs'.get id = some j → j.state.onWorker = false)
    (hledger : ∀ x j, jobs'.get x = some j → j.account.val < f.ledgers.length)
    (hheld : ∀ i x, x ≠ id → (jobs'.get x).elim 0 (heldCpu i) = (jobs.get x).elim 0 (heldCpu i)) :
    Charges (f.onRelease job.account job.request.cpuMillis now config) jobs' := by
  refine ⟨fun x j hx => by simpa using hledger x j hx, fun i => ?_⟩
  have hshift := Arena.tally_shift (hheld i)
  have hnone : (jobs'.get id).elim 0 (heldCpu i) = 0 := by
    cases hget : jobs'.get id with
    | none => rfl
    | some j => exact heldCpu_off (hoff j hget)
  rw [hid, hnone, Option.elim_some, heldCpu_on hon] at hshift
  rw [FairShare.runningCpu_onRelease _ _ _ (h.ledger id job hid), h.exact_]
  split
  · rename_i hi
    rw [if_pos hi] at hshift
    omega
  · rename_i hi
    rw [if_neg hi] at hshift
    omega

end Charges

end TaskerRT.Daemon

namespace TaskerRT.Scheduling.Book

open Library Domain Cluster Policy Wal Daemon

variable {b b' : Book} {record : Record}

theorem Lawful.held (h : Lawful b record b') (hv : Valid b) (i : Nat) (x : JobId)
    (hx : x ≠ record.id) :
    (b'.jobs.get x).elim 0 (heldCpu i) = (b.jobs.get x).elim 0 (heldCpu i) := by
  have hshift := h.shift hv x
  generalize b.jobs.get x = old, b'.jobs.get x = new at hshift
  cases hshift with
  | same => rfl
  | promoted at_ other blocked =>
    rw [Option.elim_some, Option.elim_some, heldCpu_off rfl, heldCpu_off (by rw [blocked]; rfl)]
  | doomed at_ other cause blocked =>
    rw [Option.elim_some, Option.elim_some, heldCpu_off rfl, heldCpu_off (by rw [blocked]; rfl)]
  | _ => exact absurd rfl hx

theorem Lawful.accounts (h : Lawful b record b') (hv : Valid b) {x : JobId} {j : Job}
    (hx : b'.jobs.get x = some j) : (∃ j₀, b.jobs.get x = some j₀ ∧ j.account = j₀.account) ∨
      ∃ job, record = .submitted x job ∧ j.account = job.account := by
  have hshift := h.shift hv x
  rw [hx] at hshift
  generalize b.jobs.get x = old at hshift
  cases hshift with
  | same => exact Or.inl ⟨j, rfl, rfl⟩
  | born readiness => exact Or.inr ⟨_, rfl, rfl⟩
  | _ => exact Or.inl ⟨_, rfl, rfl⟩

variable {f f' : FairShare} {id : JobId} {job : Job}

private theorem Lawful.ledgers (h : Lawful b record b') (hv : Valid b) (hc : Charges f b.jobs)
    (hold : ∀ x job, record ≠ .submitted x job) (x : JobId) (j : Job)
    (hx : b'.jobs.get x = some j) : j.account.val < f.ledgers.length := by
  rcases h.accounts hv hx with ⟨j₀, hj₀, haccount⟩ | ⟨job, hrecord, -⟩
  · rw [haccount]
    exact hc.ledger x j₀ hj₀
  · exact absurd hrecord (hold x job)

/-- A record that takes a job off its worker, with the release that goes with it. -/
private theorem Lawful.releases (now : VirtualTime) (config : FairShareConfig)
    (h : Lawful b record b') (hv : Valid b) (hc : Charges f b.jobs)
    (hid : b.jobs.get id = some job) (hon : job.state.onWorker = true)
    (hsubject : record.id = id) (hfrees : frees id record = true) :
    Charges (f.onRelease job.account job.request.cpuMillis now config) b'.jobs := by
  have hstays : starts id record = false ∧ ∀ x j, record ≠ .submitted x j := by
    cases record <;> simp_all [frees, starts]
  refine hc.stop now config hid hon (fun j hj => ?_) (h.ledgers hv hc hstays.2) fun i x hx =>
    h.held hv i x (hsubject ▸ hx)
  rw [Bool.eq_false_iff]
  intro hw
  have hworked := (h.worked hv id).mp ⟨j, hj, hw⟩
  simp [hfrees, hstays.1] at hworked

private theorem Lawful.charges (h : Lawful b record b') (hv : Valid b) (hc : Charges f b.jobs)
    (hold : ∀ x job, record ≠ .submitted x job)
    (hself : ∀ i, (b'.jobs.get record.id).elim 0 (heldCpu i) =
      (b.jobs.get record.id).elim 0 (heldCpu i)) : Charges f b'.jobs := by
  refine hc.same (fun _ => rfl) (h.ledgers hv hc hold) fun i x => ?_
  by_cases hx : x = record.id
  · rw [hx]
    exact hself i
  · exact h.held hv i x hx

private theorem Lawful.opens (h : Lawful b (.submitted id job) b') (hv : Valid b)
    (hc : Charges f b.jobs)
    (hf : f.ensure job.account = .ok f') : Charges f' b'.jobs := by
  obtain ⟨hknown, hlen⟩ := FairShare.lt_length_ensure hf
  refine hc.same (FairShare.runningCpu_ensure hf) (fun x j hx => ?_) fun i x => ?_
  · rcases h.accounts hv hx with ⟨j₀, hj₀, haccount⟩ | ⟨job', heq, haccount⟩
    · rw [haccount]
      exact (hc.ledger x j₀ hj₀).trans_le hlen
    · cases heq
      rw [haccount]
      exact hknown
  · by_cases hx : x = id
    · have hshift := h.shift hv x
      generalize b.jobs.get x = old, b'.jobs.get x = new at hshift
      cases hshift with
      | same entry other => rfl
      | born readiness => exact heldCpu_off (by cases readiness <;> rfl)
      | doomed at_ other cause => rcases cause with cause | cause <;> cases cause
    · exact h.held hv i x hx

theorem held_of_not_worked {x : JobId} (h : ¬ Worked b x) (i : Nat) :
    (b.jobs.get x).elim 0 (heldCpu i) = 0 := by
  cases hx : b.jobs.get x with
  | none => rfl
  | some j => exact heldCpu_off (Bool.eq_false_iff.mpr fun hon => h ⟨j, hx, hon⟩)

private theorem Lawful.charges_of_idle (h : Lawful b record b') (hv : Valid b)
    (hc : Charges f b.jobs)
    (hold : ∀ x job, record ≠ .submitted x job) (hidle : ¬ Worked b record.id)
    (hstays : starts record.id record = false) : Charges f b'.jobs := by
  refine h.charges hv hc hold fun i => ?_
  have hidle' : ¬ Worked b' record.id := by
    rw [h.worked hv, hstays]
    simp [hidle]
  rw [held_of_not_worked hidle, held_of_not_worked hidle']

end TaskerRT.Scheduling.Book

namespace TaskerRT.Daemon

open Library Domain Cluster Policy Scheduling Wal Book

private theorem chargeEach_congr {jobs jobs' : Arena Job} {now : VirtualTime}
    {config : CycleConfig} {ds : List DispatchDecision} (h : ∀ x, (jobs'.get x).map
      (fun j => (j.account, j.request)) = (jobs.get x).map fun j => (j.account, j.request))
    {f : FairShare} : Scheduler.chargeEach jobs' now config ds f =
      Scheduler.chargeEach jobs now config ds f := by
  unfold Scheduler.chargeEach
  congr 1
  funext f d
  have hread := h d.job
  cases hj : jobs.get d.job with
  | none =>
    rw [hj, Option.map_none, Option.map_eq_none_iff] at hread
    rw [hread]
  | some j =>
    rw [hj, Option.map_some] at hread
    obtain ⟨j', hj', heq⟩ := Option.map_eq_some_iff.mp hread
    obtain ⟨haccount, hrequest⟩ := Prod.mk.inj heq
    rw [hj', Option.elim_some, Option.elim_some, haccount, hrequest]

private theorem Charges.chargeEach {now : VirtualTime} {config : CycleConfig}
    {ds : List DispatchDecision} : ∀ {f : FairShare} {jobs : Arena Job}, Charges f jobs →
      jobs.slots.length ≤ 2 ^ 32 → (ds.map (·.job)).Nodup →
      (∀ d ∈ ds, ∃ job, jobs.get d.job = some job ∧ job.state = .ready) →
      Charges (Scheduler.chargeEach jobs now config ds f)
        (jobs.modifyAll (ds.map (·.job)) (·.withState .running)) := by
  induction ds with
  | nil => exact fun h _ _ _ => h
  | cons d ds ih =>
    intro f jobs h hlen hnd hready
    obtain ⟨hnot, hnd⟩ := List.nodup_cons.mp hnd
    obtain ⟨job, hjob, hst⟩ := hready d List.mem_cons_self
    have hself : (jobs.modify d.job (·.withState .running)).get d.job =
        some (job.withState .running) := by rw [Arena.get_modify_self, hjob]; rfl
    have hlen' : (jobs.modify d.job (·.withState .running)).slots.length ≤ 2 ^ 32 := by
      simpa using hlen
    have hother : ∀ x, x ≠ d.job →
        (jobs.modify d.job (·.withState .running)).get x = jobs.get x := fun x hx =>
      Arena.get_modify_ne _ hx
    have hledger : ∀ x j, (jobs.modify d.job (·.withState .running)).get x = some j →
        j.account.val < f.ledgers.length := by
      intro x j hx
      by_cases hxd : x = d.job
      · subst hxd
        obtain rfl := Option.some.inj (hself.symm.trans hx)
        exact h.ledger _ job hjob
      · exact h.ledger x j (hother x hxd ▸ hx)
    have hstart := h.start now config.fairshare hjob (by rw [hst]; rfl) hself rfl rfl hlen' hledger
      fun i x hx => by rw [hother x hx]
    -- Starting a job changes neither who pays for it nor what it asks for.
    have hreads : ∀ x, ((jobs.modify d.job (·.withState .running)).get x).map
        (fun j => (j.account, j.request)) = (jobs.get x).map fun j => (j.account, j.request) := by
      intro x
      by_cases hxd : x = d.job
      · rw [hxd, hself, hjob]
        rfl
      · rw [hother x hxd]
    have hrest := ih hstart hlen' hnd fun d' hd' => by
      have hne : d'.job ≠ d.job := fun he => hnot (List.mem_map.mpr ⟨d', hd', he⟩)
      rw [hother _ hne]
      exact hready d' (List.mem_cons_of_mem _ hd')
    rw [chargeEach_congr hreads] at hrest
    show Charges (Scheduler.chargeEach jobs now config ds (Option.elim (jobs.get d.job) f _)) _
    rw [hjob]
    exact hrest

namespace Roster

variable {config : CycleConfig} {r r' : Roster} {act : Act}

/-- The roster's ledgers are charged for what its jobs hold. -/
def Charged (r : Roster) : Prop := Charges r.scheduler.fairshare r.jobs

/-- What takes a job off its worker releases what it held. -/
private theorem Does.releases (hd : r.Does config act r') {id : JobId}
    (hends : act.ends id = true) : ∃ job now, r.jobs.get id = some job ∧
      (act.Legal r → job.state.onWorker = true) ∧ r'.scheduler.fairshare =
        r.scheduler.fairshare.onRelease job.account job.request.cpuMillis now config.fairshare := by
  cases hd with
  | completed now ok =>
    obtain rfl := of_decide_eq_true hends
    obtain ⟨job, hid, hw⟩ := Scheduler.onCompleted_inv ok
    obtain ⟨s', heq, -, hfair, -⟩ := Scheduler.onCompleted_ok hid hw
    refine ⟨job, now, hid, fun _ => hw, Eq.trans ?_ hfair⟩
    simp only [noteTerminal, adoptStep, heq]
  | failed now ok =>
    obtain rfl := of_decide_eq_true hends
    obtain ⟨job, hid, hw⟩ := Scheduler.onFailed_inv ok
    obtain ⟨s', heq, -, hfair, -⟩ := Scheduler.onFailed_ok hid hw
    refine ⟨job, now, hid, fun _ => hw, Eq.trans ?_ hfair⟩
    simp only [noteTerminal, noteAll, adoptStep, heq]
  | requeued now ok =>
    obtain rfl := of_decide_eq_true hends
    obtain ⟨job, hid, hq⟩ := Scheduler.requeue_inv ok
    refine ⟨job, now, hid, fun hl => ?_, ?_⟩
    · obtain ⟨job', hid', hw⟩ := hl
      rwa [Option.some.inj (hid.symm.trans hid')]
    · rw [adoptStep, Scheduler.requeue_ok hid hq]
      rfl
  | evicted now ok =>
    obtain rfl := of_decide_eq_true hends
    obtain ⟨job, hid, hst⟩ := Scheduler.onPreempted_inv ok
    refine ⟨job, now, hid, fun _ => by rw [hst]; rfl, ?_⟩
    rw [adoptStep, Scheduler.onPreempted_ok hid hst]
    rfl
  | _ => cases hends

private theorem Does.charged (hd : r.Does config act r') (hs : r.Sane) (hl : act.Legal r)
    (hc : r.Charged) : r'.Charged := by
  have hlawful := hd.lawful hs hl
  have hv := hs.valid
  have hreleases := @hd.releases
  cases hd with
  | @submitted jobs id job state now fresh new unevicted ok =>
    have hrecord : Lawful r.book (.submitted id job) _ := hlawful.of_single
    obtain ⟨fairshare, _, _, -, -, hf, -, -, hstep⟩ := Scheduler.submit_fresh fresh ok
    have hopens := hrecord.opens hv hc hf
    rw [Charged, scheduler_noteIf]
    simp only [adoptStep, hstep, Scheduler.fairshare_classified, book] at hopens ⊢
    exact hopens
  | @dispatched inventory running now cycle ran =>
    obtain ⟨new, hcycled⟩ := Scheduler.runCycle_cycled hs.kept.mirror.faithful ran
    have hrefreshed : Charges (r.scheduler.fairshare.refresh now config.fairshare) r.jobs :=
      hc.same (FairShare.runningCpu_refresh _ _ _)
        (fun x j hx => by simpa using hc.ledger x j hx) fun _ _ => rfl
    rw [Charged, hcycled.fairshare, hcycled.arena]
    refine hrefreshed.chargeEach hv.wf.bound hcycled.nodup fun d hd => ?_
    obtain ⟨job, hjob, hst, -⟩ := hcycled.decided d hd
    exact ⟨job, hjob, hst⟩
  | @completed id | @failed id | @requeued id | @evicted id =>
    obtain ⟨job, now, hid, hw, hfair⟩ := hreleases (decide_eq_true rfl)
    rw [Charged, hfair]
    exact hlawful.of_single.releases now config.fairshare hv hc hid (hw hl) rfl (by simp [frees])
  | @cancelled id cascade now ok =>
    obtain ⟨job, hid, hopen⟩ := Scheduler.cancel_inv ok
    obtain ⟨s', heq, -, hfair, -⟩ :=
      @Scheduler.cancel_ok r.scheduler r.jobs id job now config hid hopen
    have hcancelled := hlawful.of_single
    rw [Charged]
    simp only [noteTerminal, noteAll, adoptStep, heq, book] at hcancelled ⊢
    rw [hfair]
    by_cases hw : job.state.onWorker = true
    · rw [Scheduler.fairshare_uncharged, if_pos hw]
      exact hcancelled.releases now config.fairshare hv hc hid hw rfl (by simp [frees])
    · rw [Scheduler.fairshare_uncharged, if_neg hw]
      refine hcancelled.charges_of_idle hv hc (fun _ _ => by simp) ?_ rfl
      rintro ⟨j, hj, hon⟩
      obtain rfl := Option.some.inj (hid.symm.trans hj)
      exact hw hon
  | @preempted id u now ok =>
    obtain ⟨job, hid, hst⟩ := Scheduler.preempt_inv ok
    have hcharges := hlawful.of_single.charges hv hc (fun _ _ => by simp) fun i => by
      simp only [Record.id, adoptStep, Scheduler.preempt_ok hid hst, book]
      rw [Arena.get_modify_self, hid, Option.map_some, Option.elim_some, Option.elim_some,
        heldCpu_on rfl, heldCpu_on (by rw [hst]; rfl)]
      rfl
    simp only [adoptStep, Scheduler.preempt_ok hid hst, book, Charged] at hcharges ⊢
    exact hcharges
  | @forgotten at_ id job rest front live =>
    have hover := hs.toNoted _ (by rw [front]; exact List.mem_cons_self) job live
    refine hlawful.of_single.charges_of_idle hv hc (fun _ _ => by simp) ?_ rfl
    rintro ⟨j, hj, hon⟩
    obtain rfl := Option.some.inj (live.symm.trans hj)
    rw [JobState.not_terminal_of_onWorker hon] at hover
    cases hover
  | dropped => exact hc

def Enrolled (r : Roster) : Prop :=
  ∀ x job, r.jobs.get x = some job → job.account.val < r.scheduler.fairshare.ledgers.length

private theorem Does.ledgers (hd : r.Does config act r')
    (hk : Scheduler.Kept r.scheduler r.jobs) :
    r.scheduler.fairshare.ledgers.length ≤ r'.scheduler.fairshare.ledgers.length ∧
      ∀ id job, act = .submitted id job →
        job.account.val < r'.scheduler.fairshare.ledgers.length := by
  have hreleases := @hd.releases
  cases hd with
  | @submitted jobs id job state now fresh new unevicted ok =>
    obtain ⟨fairshare, _, _, -, -, hf, -, -, hstep⟩ := Scheduler.submit_fresh fresh ok
    obtain ⟨hknown, hlen⟩ := FairShare.lt_length_ensure hf
    simp only [scheduler_noteIf, adoptStep, hstep, Scheduler.fairshare_classified]
    refine ⟨hlen, fun id' job' heq => ?_⟩
    cases heq
    exact hknown
  | dispatched ran =>
    obtain ⟨new, hcycled⟩ := Scheduler.runCycle_cycled hk.mirror.faithful ran
    rw [hcycled.fairshare, Scheduler.length_chargeEach, FairShare.length_refresh]
    exact ⟨le_rfl, fun _ _ heq => by cases heq⟩
  | completed | failed | requeued | evicted =>
    obtain ⟨job, now, -, -, hfair⟩ := hreleases (decide_eq_true rfl)
    rw [hfair, FairShare.length_onRelease]
    exact ⟨le_rfl, fun _ _ heq => by cases heq⟩
  | @cancelled id cascade now ok =>
    obtain ⟨job, hid, hopen⟩ := Scheduler.cancel_inv ok
    obtain ⟨s', heq, -, hfair, -⟩ :=
      @Scheduler.cancel_ok r.scheduler r.jobs id job now config hid hopen
    simp only [noteTerminal, noteAll, adoptStep, heq, hfair, Scheduler.fairshare_uncharged]
    refine ⟨?_, fun _ _ heq => by cases heq⟩
    split
    · rw [FairShare.length_onRelease]
    · exact le_rfl
  | @preempted id u now ok =>
    obtain ⟨job, hid, hst⟩ := Scheduler.preempt_inv ok
    simp only [adoptStep, Scheduler.preempt_ok hid hst]
    exact ⟨le_rfl, fun _ _ heq => by cases heq⟩
  | forgotten front live => exact ⟨le_rfl, fun _ _ heq => by cases heq⟩
  | dropped => exact ⟨le_rfl, fun _ _ heq => by cases heq⟩

private theorem Does.enrolled (hd : r.Does config act r') (hk : Scheduler.Kept r.scheduler r.jobs)
    (h : r.Enrolled) : r'.Enrolled := by
  intro x job hx
  obtain ⟨hlen, hopens⟩ := hd.ledgers hk
  have hcore := hd.get_core x
  rw [hx, Option.map_some] at hcore
  -- The job was stored before, or this act stored it.
  have hkept : some (core job) = (r.jobs.get x).map core →
      job.account.val < r'.scheduler.fairshare.ledgers.length := by
    intro hold
    obtain ⟨j, hj, heq⟩ := Option.map_eq_some_iff.mp hold.symm
    rw [account_of_core heq.symm]
    exact (h x j hj).trans_le hlen
  unfold Act.leaves at hcore
  split at hcore
  · split at hcore
    · rw [account_of_core (Option.some.inj hcore)]
      exact hopens _ _ rfl
    · exact hkept hcore
  · split at hcore
    · exact nomatch hcore
    · exact hkept hcore
  · exact hkept hcore

private theorem Charged.chain {acts : List Act} (hc : r.Charged) (hs : r.Sane)
    (hd : Chain (Acts config) r acts r') : r'.Charged :=
  (hd.keeps (P := fun r => r.Sane ∧ r.Charged)
    (fun _ _ _ hact h => ⟨h.1.does hact.1 hact.2, hact.1.charged h.1 hact.2 h.2⟩) ⟨hs, hc⟩).2

end Roster

namespace Engine

variable {e e' start : Engine} {input : Input} {inputs : List Input}

theorem charged_build (config : DaemonConfig) (journal : Option Journal) :
    (build config journal).toRoster.Charged := by
  have hcpu := (withShares_spec config.shares Scheduler.new).2.2.1
  have hnone : ∀ x, (Arena.new : Arena Job).get x = none := fun _ => rfl
  refine ⟨fun x job hx => absurd ((hnone x).symm.trans hx) (by simp), fun i => ?_⟩
  show (withShares Scheduler.new config.shares).fairshare.runningCpu i = _
  rw [hcpu]
  exact (Finset.sum_eq_zero fun x _ => rfl).symm

section

variable [Crc32]

private theorem SafeSteps.charged (h : e.SafeSteps input e') (hs : e.toCore.Sane)
    (hc : e.toRoster.Charged) : e'.toRoster.Charged := by
  obtain ⟨events, hturns⟩ := h.1.turns
  exact hc.chain hs.roster (hturns.sane hs h.2).2

theorem charged_of_run (h : Chain SafeSteps e inputs e') (hs : e.toCore.Sane)
    (hc : e.toRoster.Charged) : e'.toRoster.Charged :=
  (h.keeps (P := fun e => e.toCore.Sane ∧ e.toRoster.Charged)
    (fun _ _ _ hstep hboth => ⟨hstep.sane hboth.1, hstep.charged hboth.1 hboth.2⟩) ⟨hs, hc⟩).2

private theorem Steps.enrolled (h : e.Steps input e') (ht : e.toRoster.Tidy)
    (he : e.toRoster.Enrolled) :
    e'.toRoster.Enrolled := by
  obtain ⟨events, hturns⟩ := h.turns
  exact (hturns.does.keeps (P := fun r => r.Tidy ∧ r.Enrolled)
    (fun _ _ _ hd hboth => ⟨hboth.1.does hd, hd.enrolled hboth.1.kept hboth.2⟩) ⟨ht, he⟩).2

/-- Every live job's account has a ledger; and as long as no slot is forgotten for the 2^32nd
time, every account is charged for what its running and evicted jobs hold. -/
theorem accounts_charged_for_held (config : DaemonConfig)
    (hrun : Chain Steps (Engine.new config) inputs e) :
    (∀ id job, e.jobs.get id = some job →
        job.account.val < e.scheduler.fairshare.ledgers.length) ∧
      (Chain SafeSteps (Engine.new config) inputs e →
        ∀ i, e.scheduler.fairshare.runningCpu i =
          (e.jobs.iter.map fun p => heldCpu i p.2).sum) := by
  have hcharged := charged_build config none
  refine ⟨?_, fun hsafe i => ?_⟩
  · exact (hrun.keeps (P := fun e => e.toRoster.Tidy ∧ e.toRoster.Enrolled)
      (fun _ _ _ hstep hboth => ⟨hstep.tidy hboth.1, hstep.enrolled hboth.1 hboth.2⟩)
      ⟨tidy_build config none, hcharged.ledger⟩).2
  · have hs := sane_build config none
    have hlen : e.jobs.slots.length ≤ 2 ^ 32 := (sane_of_run hsafe hs).roster.valid.wf.bound
    rw [(charged_of_run hsafe hs hcharged).exact_ i]
    exact Arena.tally_eq_iter hlen _

end

def chargedInputs : List Input :=
  [(sampleJoin 4).sent 0, (sampleSubmit .normal 1 []).sent 0, (sampleSubmit .normal 2 []).sent 0,
    tickAt 0]

attribute [local instance] Crc32.ieee

/-- The account of both is charged for three. -/
theorem accounts_charged_for_held_sample : ∃ e,
    safeRun (Engine.new sampleDaemon) chargedInputs = some e ∧
      e.scheduler.fairshare.runningCpu 0 = (e.jobs.iter.map fun p => heldCpu 0 p.2).sum ∧
      (e.jobs.iter.map fun p => heldCpu 0 p.2).sum = 3 := by
  have hlook : (safeRun (Engine.new sampleDaemon) chargedInputs).any
      (fun e => (e.jobs.iter.map fun p => heldCpu 0 p.2).sum = 3) = true := by decide +kernel
  obtain ⟨e, hrun, hsum⟩ := (Option.any_eq_true _ _).mp hlook
  have hsafe := chain_of_safeRun hrun
  exact ⟨e, hrun, (@accounts_charged_for_held e chargedInputs Crc32.ieee sampleDaemon
    (hsafe.imp fun _ _ _ _ h => h.1)).2 hsafe 0, by simpa using hsum⟩

/-- A handle issued again after 2^32 generations: its job is cancelled while it runs, and the
account goes on paying for it. -/
theorem reissued_handle_keeps_charge : ∃ inputs e,
    Chain Steps (Engine.new sampleDaemon) inputs e ∧
      e.scheduler.fairshare.runningCpu 0 = 1 ∧
      (e.jobs.iter.map fun p => heldCpu 0 p.2).sum = 0 :=
  ⟨_, cutOff, chain_cutOff, by decide +kernel, by decide +kernel⟩

end Engine

end TaskerRT.Daemon
