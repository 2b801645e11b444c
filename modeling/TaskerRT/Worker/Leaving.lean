/- module: TaskerRT/Worker/Leaving
   source: crates/tasker-worker/src/worker.rs
   digest: What a worker says when it comes back, what it keeps while it is away, and what it
   leaves behind when it goes for good. -/

import TaskerRT.Worker.Reports

set_option autoImplicit false

namespace TaskerRT.Worker

open Library Domain

namespace Session

variable {s s' : Session} {event : Event} {events : List Event} {job : JobId} {k : Nat}

/-! The end of the process. -/

structure Closed (s : Session) : Prop where
  hand : ∀ report, s.inHand = some report → s.link = .up
  idle : ∀ why, s.link = .exited why → why ≠ .deadline → s.tasks = []
  drained : s.link = .exited .drained → s.results = []

namespace Closed

private theorem of_alive (hhand : ∀ report, s.inHand = some report → s.link = .up)
    (hlink : ∀ why, s.link ≠ .exited why) : s.Closed :=
  ⟨hhand, fun why hw => absurd hw (hlink why), fun hw => absurd hw (hlink _)⟩

private theorem disconnect (hhand : s.inHand = none) : s.disconnect.Closed := by
  refine ⟨fun report hr => absurd (hhand.symm.trans hr) (by simp), fun why hw _ => ?_, fun hw => ?_⟩
  · simp only [Session.disconnect] at hw
    split at hw
    · rename_i hdone
      exact hdone.2
    · cases hw
  · simp only [Session.disconnect] at hw
    split at hw <;> cases hw

private theorem step (h : s.Closed) (hs : s.Steps event s') : s'.Closed := by
  -- While the loop waits for an event there is nothing in hand and no end.
  have hserving : s.isServing = true → s.link = .up ∧ s.inHand = none := isServing_iff.mp
  have hquiet : ∀ {t : Session}, t.inHand = none → (∀ why, t.link ≠ .exited why) → t.Closed := by
    intro t hnone hlink
    exact of_alive (fun report hr => absurd (hnone.symm.trans hr) (by simp)) hlink
  have hgoing : s.link = .up → ∀ why, s.link ≠ .exited why := by
    intro hup why hw
    cases hup.symm.trans hw
  have hnohand : ∀ {link : Link}, link ≠ .up → s.link = link → s.inHand = none := by
    intro link hne hlink
    cases hhand : s.inHand with
    | none => rfl
    | some report => exact absurd (hlink.symm.trans (h.hand report hhand)) hne
  cases event with
  | connectFailed | refused | slept | connected =>
    obtain ⟨hlink, hs⟩ := Option.ite_none_right_eq_some.mp hs
    obtain rfl := Option.some.inj hs
    exact hquiet (hnohand (by simp) hlink) (by simp)
  | welcomed =>
    obtain ⟨hlink, hs⟩ := Option.ite_none_right_eq_some.mp hs
    obtain rfl := Option.some.inj hs
    have hnone := hnohand (by simp) hlink
    split <;> exact hquiet hnone (by simp [say])
  | assign job =>
    obtain ⟨hserve, hs⟩ := Option.ite_none_right_eq_some.mp hs
    obtain rfl := Option.some.inj hs
    obtain ⟨hup, hnone⟩ := hserving hserve
    exact hquiet hnone (hgoing hup)
  | kill job =>
    obtain ⟨hserve, hs⟩ := Option.ite_none_right_eq_some.mp hs
    obtain ⟨hup, hnone⟩ := hserving hserve
    obtain rfl : s.onKill job = s' := Option.some.inj hs
    have hsame : (s.onKill job).inHand = s.inHand ∧ (s.onKill job).link = s.link := by
      unfold onKill
      split
      · exact ⟨rfl, rfl⟩
      · split <;> exact ⟨rfl, rfl⟩
    exact hquiet (hsame.1.trans hnone) (hsame.2 ▸ hgoing hup)
  | preempt job =>
    obtain ⟨hserve, hs⟩ := Option.ite_none_right_eq_some.mp hs
    obtain ⟨hup, hnone⟩ := hserving hserve
    obtain rfl : s.onPreempt job = s' := Option.some.inj hs
    have hsame : (s.onPreempt job).inHand = s.inHand ∧ (s.onPreempt job).link = s.link := by
      unfold onPreempt
      split
      · exact ⟨rfl, rfl⟩
      · split <;> exact ⟨rfl, rfl⟩
    exact hquiet (hsame.1.trans hnone) (hsame.2 ▸ hgoing hup)
  | closed =>
    obtain ⟨hserve, hs⟩ := Option.ite_none_right_eq_some.mp hs
    exact Option.some.inj hs ▸ disconnect (hserving hserve).2
  | broke =>
    obtain ⟨hserve, hs⟩ := Option.ite_none_right_eq_some.mp hs
    exact Option.some.inj hs ▸ hquiet (hserving hserve).2 (by simp)
  | take =>
    obtain ⟨hserve, hs⟩ := Option.ite_none_right_eq_some.mp hs
    obtain ⟨hup, -⟩ := hserving hserve
    split at hs
    · cases hs
    · obtain rfl := Option.some.inj hs
      exact of_alive (fun _ _ => hup) (hgoing hup)
  | sent =>
    obtain ⟨report, hhand, rfl⟩ := Option.map_eq_some_iff.mp hs
    have hup := h.hand report hhand
    exact hquiet rfl (hgoing hup)
  | unsent kept =>
    obtain ⟨report, hhand, hs⟩ := Option.bind_eq_some_iff.mp hs
    unfold onUnsent at hs
    split at hs
    · obtain ⟨-, hs⟩ := Option.ite_none_right_eq_some.mp hs
      exact Option.some.inj hs ▸ disconnect rfl
    · obtain ⟨-, hs⟩ := Option.ite_none_right_eq_some.mp hs
      exact Option.some.inj hs ▸ disconnect rfl
  | heartbeat ok =>
    obtain ⟨hserve, hs⟩ := Option.ite_none_right_eq_some.mp hs
    obtain ⟨hup, hnone⟩ := hserving hserve
    obtain rfl := Option.some.inj hs
    split
    · exact hquiet hnone (hgoing hup)
    · exact disconnect (s := s.prune) hnone
  | sigterm =>
    have hs : s.onSigterm = some s' := hs
    unfold onSigterm at hs
    split at hs
    · cases hs
    · split at hs
      · rename_i hserve
        obtain ⟨hup, hnone⟩ := hserving hserve
        exact Option.some.inj hs ▸ hquiet hnone (hgoing hup)
      · obtain ⟨hlink, hs⟩ := Option.ite_none_right_eq_some.mp hs
        have hnone := hnohand (by simp) hlink
        obtain rfl := Option.some.inj hs
        split
        · rename_i hempty
          exact ⟨fun report hr => absurd (hnone.symm.trans hr) (by simp), fun _ _ _ => hempty,
            fun hw => by cases hw⟩
        · exact hquiet hnone fun why hw => absurd (hlink.symm.trans hw) (by simp)
  | drainPoll =>
    obtain ⟨⟨hserve, -⟩, hs⟩ := Option.ite_none_right_eq_some.mp hs
    obtain ⟨hup, hnone⟩ := hserving hserve
    obtain rfl : s.onDrainPoll = s' := Option.some.inj hs
    unfold onDrainPoll
    dsimp only
    split
    · rename_i hdone
      exact ⟨fun report hr => absurd (hnone.symm.trans hr) (by simp), fun _ _ _ => hdone.1,
        fun _ => hdone.2⟩
    · exact hquiet hnone (hgoing hup)
  | deadline =>
    obtain ⟨⟨-, hwhere⟩, hs⟩ := Option.ite_none_right_eq_some.mp hs
    have hnone : s.inHand = none :=
      hwhere.elim (fun hserve => (hserving hserve).2) (hnohand (by simp))
    obtain rfl := Option.some.inj hs
    refine ⟨fun report hr => absurd (hnone.symm.trans hr) (by simp), fun why hw hne => ?_,
      fun hw => by cases hw⟩
    obtain rfl : Exit.deadline = why := by simpa using hw
    exact absurd rfl hne
  | turn k t =>
    obtain ⟨halive, hs⟩ := Option.ite_none_right_eq_some.mp hs
    obtain ⟨r, hr, hs⟩ := Option.bind_eq_some_iff.mp hs
    obtain ⟨r', -, rfl⟩ := Option.map_eq_some_iff.mp hs
    exact ⟨h.hand, h.idle, h.drained⟩
  | deliver k =>
    obtain ⟨⟨halive, -⟩, hs⟩ := Option.ite_none_right_eq_some.mp hs
    have hstays : ∀ why, s.link ≠ .exited why := by
      intro why hw
      simp [isAlive, hw] at halive
    obtain ⟨r, hr, hs⟩ := Option.bind_eq_some_iff.mp hs
    split at hs
    · exact Option.some.inj hs ▸ of_alive h.hand hstays
    · cases hs

end Closed

private theorem closed_of_run (h : Chain Steps start events s) : s.Closed :=
  h.keeps (P := Closed) (fun _ _ _ hs hinv => hinv.step hs)
    (.of_alive (fun report hr => by cases hr) fun why hw => by cases hw)

/-- A worker that leaves before its drain deadline has no task it could still wait for: a run that
goes on was killed or its entry was overwritten. Every report it made is on a stream, unless the
full backlog dropped it or the worker left between two connections, which looks at the task set
only and takes the backlog with it. -/
theorem leaving_worker_owes_its_backlog {why : Exit} (h : Chain Steps start events s)
    (hexit : s.link = .exited why) (hwhy : why ≠ .deadline) :
    (∀ (k : Nat) (r : Run), s.runs[k]? = some r → r.phase.isDone = false → r.aborted = true ∨
      ∃ (k' : Nat) (r' : Run), k < k' ∧ s.runs[k']? = some r' ∧ r'.job = r.job) ∧
    ∀ report ∈ s.reports, report ∈ s.handed ∨ report ∈ s.dropped ∨
      (report ∈ s.results ∧ why ≠ .drained) := by
  have htracks := (honest_of_run h).1
  have hclosed := closed_of_run h
  have hempty := hclosed.idle why hexit hwhy
  refine ⟨fun k r hr hgoing => ?_, fun report hmem => ?_⟩
  · by_contra hnot
    rw [not_or] at hnot
    have hfree : r.aborted = false := Bool.eq_false_iff.mpr hnot.1
    have hlatest : s.Latest k r.job := by
      intro k' r' hlt hr' hjob
      exact hnot.2 ⟨k', r', hlt, hr', hjob⟩
    have hentry := htracks.complete k r hr hgoing hfree hlatest
    rw [hempty] at hentry
    exact absurd hentry List.not_mem_nil
  · have hnone : s.inHand = none := by
      cases hhand : s.inHand with
      | none => rfl
      | some report =>
        have hup := hclosed.hand report hhand
        rw [hexit] at hup
        cases hup
    rw [reports, hnone] at hmem
    simp only [Option.toList_none, List.append_nil, List.mem_append] at hmem
    rcases hmem with (hresult | hhanded) | hdropped
    · refine Or.inr (Or.inr ⟨hresult, fun hd => ?_⟩)
      subst hd
      rw [hclosed.drained hexit] at hresult
      exact absurd hresult List.not_mem_nil
    · exact Or.inl hhanded
    · exact Or.inr (Or.inl hdropped)

/-- SIGTERM; the task ends and is pruned; the stream closes before its report is taken. -/
def forsakenEvents : List Event :=
  [.connected, .welcomed, .assign ⟨0⟩, .sigterm, .turn 0 (.executorEnds .returned), .turn 0 .join,
    .deliver 0, .heartbeat true, .closed]

theorem leaving_worker_owes_its_backlog_sample : ∃ s report,
    forsakenEvents.foldlM step start = some s ∧ s.link = .exited .disconnected ∧
      report ∈ s.reports ∧ report.result = .succeeded ∧ report ∈ s.results := by
  have hlook : (forsakenEvents.foldlM step start).any (fun s =>
      decide (s.link = .exited .disconnected) && decide (⟨0, ⟨0⟩, .succeeded⟩ ∈ s.reports) &&
        decide (s.handed = []) && decide (s.dropped = [])) = true := by
    decide +kernel
  obtain ⟨s, hrun, hlook⟩ := (Option.any_eq_true _ _).mp hlook
  simp only [Bool.and_eq_true, decide_eq_true_eq] at hlook
  obtain ⟨⟨⟨hexit, hmem⟩, hhanded⟩, hdropped⟩ := hlook
  have hwhere := (leaving_worker_owes_its_backlog (Chain.of_foldlM hrun) hexit (by simp)).2 _ hmem
  rw [hhanded, hdropped] at hwhere
  refine ⟨s, _, hrun, hexit, hmem, rfl, ?_⟩
  exact ((hwhere.resolve_left List.not_mem_nil).resolve_left List.not_mem_nil).1

/-! Coming back. -/

/-- `Hello` names exactly the jobs whose last assignment is still going and was not killed, each
once. A job whose report waits in the backlog is not among them. -/
theorem hello_lists_what_is_going (h : Chain Steps start events s) (hs : s.Steps .connected s') :
    ∃ inFlight, s'.streams = [.hello inFlight] :: s.streams ∧ inFlight.Nodup ∧
      ∀ job, job ∈ inFlight ↔ ∃ (k : Nat) (r : Run), s.runs[k]? = some r ∧ r.job = job ∧
        r.phase.isDone = false ∧ r.aborted = false ∧ s.Latest k job := by
  obtain ⟨-, hs⟩ := Option.ite_none_right_eq_some.mp hs
  obtain rfl := Option.some.inj hs
  have htracks := (honest_of_run h).1
  refine ⟨s.prune.tasks.map (·.1), rfl, htracks.prune.nodup, fun job => ⟨fun hmem => ?_, ?_⟩⟩
  · obtain ⟨entry, hentry, rfl⟩ := List.mem_map.mp hmem
    obtain ⟨hentry, hgoing⟩ := List.mem_filter.mp hentry
    obtain ⟨r, hr, hjob, hfree, hlatest⟩ := htracks.entry entry.1 entry.2 hentry
    refine ⟨entry.2, r, hr, hjob, ?_, hfree, hlatest⟩
    simpa [isFinished, hr] using hgoing
  · rintro ⟨k, r, hr, rfl, hgoing, hfree, hlatest⟩
    exact List.mem_map.mpr ⟨(r.job, k), htracks.prune.complete k r hr hgoing hfree hlatest, rfl⟩

/-- The daemon assigns a job again while its first run is still going, and kills another one. -/
def reassignedEvents : List Event :=
  [.connected, .welcomed, .assign ⟨0⟩, .assign ⟨1⟩, .assign ⟨0⟩, .kill ⟨1⟩, .broke, .slept]

theorem hello_lists_what_is_going_sample : ∃ s s' inFlight,
    reassignedEvents.foldlM step start = some s ∧ s.Steps .connected s' ∧
      s'.streams = [.hello inFlight] :: s.streams ∧ inFlight.Nodup ∧ ⟨0⟩ ∈ inFlight ∧
      ⟨1⟩ ∉ inFlight := by
  have hlook : (reassignedEvents.foldlM step start).any (fun s =>
      (s.step .connected).isSome && decide (s.runs = [.start ⟨0⟩,
        { Run.start ⟨1⟩ with aborted := true }, .start ⟨0⟩])) = true := by
    decide +kernel
  obtain ⟨s, hrun, hlook⟩ := (Option.any_eq_true _ _).mp hlook
  simp only [Bool.and_eq_true, decide_eq_true_eq, Option.isSome_iff_exists] at hlook
  obtain ⟨⟨s', hs⟩, hruns⟩ := hlook
  obtain ⟨inFlight, hstreams, hnodup, hmem⟩ := hello_lists_what_is_going (Chain.of_foldlM hrun) hs
  refine ⟨s, s', inFlight, hrun, hs, hstreams, hnodup, (hmem ⟨0⟩).mpr ?_, fun hin => ?_⟩
  · refine ⟨2, .start ⟨0⟩, by rw [hruns]; rfl, rfl, rfl, rfl, fun k r hlt hr => ?_⟩
    rw [hruns, List.getElem?_eq_none (by simp only [List.length_cons, List.length_nil]; omega)] at hr
    cases hr
  · obtain ⟨k, r, hr, hjob, -, hfree, -⟩ := (hmem ⟨1⟩).mp hin
    have hr := List.mem_of_getElem? hr
    rw [hruns] at hr
    simp only [List.mem_cons, List.not_mem_nil, or_false] at hr
    rcases hr with rfl | rfl | rfl
    · exact absurd hjob (by decide)
    · exact absurd hfree (by decide)
    · exact absurd hjob (by decide)

/-! Away. -/

private theorem countP_done_update {r r' : Run} (found : s.runs[k]? = some r) :
    (s.update k r').runs.countP (·.phase.isDone) + (if r.phase.isDone = true then 1 else 0) =
      s.runs.countP (·.phase.isDone) + if r'.phase.isDone = true then 1 else 0 := by
  obtain ⟨hlt, hget⟩ := List.getElem?_eq_some_iff.mp found
  have hset := List.countP_set (p := fun r : Run => r.phase.isDone) (a := r') hlt
  have hpos : r.phase.isDone = true → 0 < s.runs.countP (·.phase.isDone) := fun hdone =>
    List.countP_pos_iff.mpr ⟨r, List.mem_of_getElem? found, hdone⟩
  rw [hget] at hset
  show (s.runs.set k r').countP _ + _ = _
  rw [hset]
  split
  · rename_i hdone
    have := hpos hdone
    omega
  · omega

private theorem countP_done_le {r r' : Run} (found : s.runs[k]? = some r)
    (hdone : r'.phase.isDone = false → r.phase.isDone = false) :
    s.runs.countP (·.phase.isDone) ≤ (s.update k r').runs.countP (·.phase.isDone) := by
  have hcount := @countP_done_update s k r r' found
  cases hd : r'.phase.isDone with
  | true =>
    simp only [hd, if_true] at hcount
    split at hcount <;> omega
  | false =>
    simp only [hd, hdone hd] at hcount
    omega

private theorem Change.reports_le (hc : s.Change event s')
    (h : s.reports.length ≤ s.runs.countP (·.phase.isDone)) :
    s'.reports.length ≤ s'.runs.countP (·.phase.isDone) := by
  cases hc with
  | settled hruns htasks hreports hdropped =>
    rw [hruns, hreports.length_eq]
    exact h
  | assigned job =>
    show s.reports.length ≤ (s.runs ++ [Run.start job]).countP _
    rw [List.countP_append]
    omega
  | killed hentry found => exact h.trans (countP_done_le found id)
  | stopped hentry found => exact h.trans (countP_done_le found id)
  | turned found ok => exact h.trans (countP_done_le found (Run.keeps_turn ok).going)
  | @delivered k r result found hphase =>
    have hcount := @countP_done_update s k r { r with phase := .done (some result) } found
    have hgoing : r.phase.isDone = false := by rw [hphase]; rfl
    rw [hgoing] at hcount
    have hcount : (s.update k { r with phase := .done (some result) }).runs.countP
        (·.phase.isDone) = s.runs.countP (·.phase.isDone) + 1 := hcount
    simp only [reports, List.length_append] at h
    show (s.results ++ [_] ++ s.inHand.toList ++ s.handed ++ s.dropped).length ≤
      (s.update k { r with phase := .done (some result) }).runs.countP (·.phase.isDone)
    simp only [List.length_append, List.length_singleton]
    omega

/-- A report in hand goes back into the backlog, or onto a stream, as long as no more jobs were
assigned than the backlog has room for: whatever the streams do, no report is dropped. -/
theorem backlog_takes_its_reports_back (h : Chain Steps start events s)
    (hfew : s.runs.length ≤ backlog) : s.dropped = [] := by
  have hinv : s.Tracks ∧ s.reports.length ≤ s.runs.countP (·.phase.isDone) ∧
      (s.runs.length ≤ backlog → s.dropped = []) := by
    refine h.keeps (P := fun s => s.Tracks ∧ s.reports.length ≤ s.runs.countP (·.phase.isDone) ∧
      (s.runs.length ≤ backlog → s.dropped = [])) (fun s event s' hs hinv => ?_)
      ⟨(honest_of_run (.nil start)).1, Nat.le_refl 0, fun _ => rfl⟩
    obtain ⟨htracks, hcount, hnone⟩ := hinv
    have hc := step_change htracks hs
    refine ⟨htracks.step hs, hc.reports_le hcount, fun hroom => ?_⟩
    cases hc with
    | settled hruns htasks hreports hdropped =>
      rw [hruns] at hroom
      rcases hdropped with heq | ⟨hhand, hfull⟩
      · exact heq.trans (hnone hroom)
      · -- The report in hand, those in the backlog and those before it are of different runs.
        exfalso
        have hsplit := List.length_eq_countP_add_countP (fun r : Run => r.phase.isDone)
          (l := s.runs)
        have hwaiting : s.waiting ≤ s.runs.countP fun r => decide ¬r.phase.isDone = true := by
          refine List.countP_mono_left fun r _ hr => ?_
          cases hphase : r.phase with
          | done sent => rw [hphase] at hr; cases hr
          | _ => simp [Phase.isDone]
        have hlen : s.results.length + 1 ≤ s.reports.length := by
          obtain ⟨report, hreport⟩ := Option.ne_none_iff_exists'.mp hhand
          simp only [reports, hreport, List.length_append, Option.toList_some,
            List.length_singleton]
          omega
        omega
    | assigned job =>
      have hlt : s.runs.length + 1 ≤ backlog := by simpa [onAssign] using hroom
      exact hnone (by omega)
    | killed | stopped | turned | delivered =>
      exact hnone (by simpa [update, remove] using hroom)
  exact hinv.2.2 hfew

theorem backlog_takes_its_reports_back_sample : ∃ s, bouncedEvents.foldlM step start = some s ∧
    s.runs.length = 2 ∧ s.dropped = [] := by
  have hlook : (bouncedEvents.foldlM step start).any (fun s =>
      decide (s.runs.length = 2)) = true := by
    decide +kernel
  obtain ⟨s, hrun, hlook⟩ := (Option.any_eq_true _ _).mp hlook
  have hlen : s.runs.length = 2 := of_decide_eq_true hlook
  exact ⟨s, hrun, hlen, backlog_takes_its_reports_back (Chain.of_foldlM hrun)
    (by rw [hlen]; decide)⟩

end Session

end TaskerRT.Worker
