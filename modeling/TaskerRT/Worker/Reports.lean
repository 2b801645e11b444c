/- module: TaskerRT/Worker/Reports
   source: crates/tasker-worker/src/worker.rs
   digest: What becomes of every assignment a worker takes, across any interleaving of its tasks,
   its connections and its signals. -/

import TaskerRT.Worker.Session
import Mathlib.Data.List.Basic
import Mathlib.Data.List.Nodup

set_option autoImplicit false

namespace TaskerRT.Worker

open Library Domain

namespace Session

def handed (s : Session) : List Report := s.streams.flatten.filterMap UpMessage.report?

def reports (s : Session) : List Report :=
  s.results ++ s.inHand.toList ++ s.handed ++ s.dropped

def Latest (s : Session) (k : Nat) (job : JobId) : Prop :=
  ∀ k' r, k < k' → s.runs[k']? = some r → r.job ≠ job

/-- What one step does to the runs, the task set and the reports. -/
inductive Change (s : Session) : Event → Session → Prop where
  | settled {event : Event} {s' : Session} (runs : s'.runs = s.runs)
      (tasks : s'.tasks = s.tasks ∨ s'.tasks = s.prune.tasks)
      (reports : s'.reports.Perm s.reports) (dropped : s'.dropped = s.dropped ∨
        s.inHand ≠ none ∧ backlog ≤ s.results.length + s.waiting) : Change s event s'
  | assigned (job : JobId) : Change s (.assign job) (s.onAssign job)
  | killed {job : JobId} {k : Nat} {r : Run} (entry : s.task job = some k)
      (found : s.runs[k]? = some r) :
      Change s (.kill job) ((s.remove job).update k { r with aborted := true })
  | stopped {job : JobId} {k : Nat} {r : Run} (entry : s.task job = some k)
      (found : s.runs[k]? = some r) :
      Change s (.preempt job) (s.update k { r with stop := true })
  | turned {k : Nat} {t : Turn} {r r' : Run} (found : s.runs[k]? = some r)
      (ok : r.turn t = some r') : Change s (.turn k t) (s.update k r')
  | delivered {k : Nat} {r : Run} {result : TaskResult} (found : s.runs[k]? = some r)
      (phase : r.phase = .reporting result) :
      Change s (.deliver k) { s.update k { r with phase := .done (some result) } with
        results := s.results ++ [⟨k, r.job, result⟩] }

variable {s s' : Session} {event : Event} {job : JobId} {k : Nat}

/-! Where reports go. -/

private theorem handed_say (s : Session) (message : UpMessage) :
    (s.say message).handed.Perm (message.report?.toList ++ s.handed) := by
  have hone : [message].filterMap UpMessage.report? = message.report?.toList := by
    cases message <;> rfl
  unfold say handed
  cases s.streams with
  | nil => simp only [List.flatten_cons, List.flatten_nil, List.append_nil, hone,
      List.filterMap_nil, List.Perm.refl]
  | cons open_ rest =>
    simp only [List.flatten_cons, List.filterMap_append, hone]
    rw [← List.append_assoc]
    exact List.perm_append_comm.append_right _

private theorem reports_say (s : Session) (message : UpMessage) :
    (s.say message).reports.Perm (message.report?.toList ++ s.reports) := by
  have hcount := fun a => List.perm_iff_count.mp (handed_say s message) a
  refine List.perm_iff_count.mpr fun a => ?_
  have ha := hcount a
  simp only [reports, List.count_append] at ha ⊢
  show s.results.count a + s.inHand.toList.count a + _ + s.dropped.count a = _
  omega

private theorem reports_say_quiet (s : Session) {message : UpMessage} (h : message.report? = none) :
    (s.say message).reports.Perm s.reports := by
  have hsay := reports_say s message
  rwa [h] at hsay

private theorem reports_take {report : Report} {rest : List Report}
    (hr : s.results = report :: rest)
    (hhand : s.inHand = none) :
    ({ s with results := rest, inHand := some report } : Session).reports.Perm s.reports := by
  refine List.perm_iff_count.mpr fun a => ?_
  simp only [reports, hr, hhand, List.count_append, List.count_cons, Option.toList_some,
    Option.toList_none, List.count_nil]
  show _ + s.handed.count a + _ = _
  omega

private theorem reports_sent {report : Report} (hhand : s.inHand = some report) :
    (({ s with inHand := none } : Session).say (.finished report)).reports.Perm s.reports := by
  refine (reports_say _ _).trans (List.perm_iff_count.mpr fun a => ?_)
  simp only [reports, hhand, List.count_append, UpMessage.report?, Option.toList_some,
    Option.toList_none, List.count_nil]
  show _ + (s.results.count a + 0 + s.handed.count a + _) = _
  omega

private theorem reports_kept {report : Report} (hhand : s.inHand = some report) :
    ({ s with inHand := none, results := s.results ++ [report] } : Session).reports.Perm
      s.reports := by
  refine List.perm_iff_count.mpr fun a => ?_
  simp only [reports, hhand, List.count_append, Option.toList_some, Option.toList_none,
    List.count_nil]
  show _ + 0 + s.handed.count a + _ = _
  omega

private theorem reports_dropped {report : Report} (hhand : s.inHand = some report) :
    ({ s with inHand := none, dropped := s.dropped ++ [report] } : Session).reports.Perm
      s.reports := by
  refine List.perm_iff_count.mpr fun a => ?_
  simp only [reports, hhand, List.count_append, Option.toList_some, Option.toList_none,
    List.count_nil]
  show _ + 0 + s.handed.count a + _ = _
  omega

theorem isServing_iff : s.isServing = true ↔ s.link = .up ∧ s.inHand = none := by
  simp [isServing]

/-! The task set. -/

private theorem mem_of_task (h : s.task job = some k) : (job, k) ∈ s.tasks := by
  unfold task at h
  obtain ⟨entry, hfind, rfl⟩ := Option.map_eq_some_iff.mp h
  have hjob := List.find?_some hfind
  rw [decide_eq_true_eq] at hjob
  exact hjob ▸ List.mem_of_find?_eq_some hfind

private theorem mem_remove {x : JobId} : (x, k) ∈ (s.remove job).tasks ↔
    (x, k) ∈ s.tasks ∧ x ≠ job := by
  simp [remove]

private theorem runs_update {r : Run} (found : s.runs[k]? = some r) (r' : Run) (i : Nat) :
    (s.update k r').runs[i]? = if k = i then some r' else s.runs[i]? := by
  show (s.runs.set k r')[i]? = _
  rw [List.getElem?_set, if_pos (List.getElem?_eq_some_iff.mp found).1]

private theorem runs_onAssign (s : Session) (job : JobId) (i : Nat) : (s.onAssign job).runs[i]? =
    if i = s.runs.length then some (.start job) else s.runs[i]? := by
  show (s.runs ++ [Run.start job])[i]? = _
  rw [List.getElem?_append]
  rcases Nat.lt_trichotomy i s.runs.length with hlt | heq | hgt
  · rw [if_pos hlt, if_neg (by omega)]
  · subst heq
    simp
  · rw [if_neg (by omega), if_neg (by omega), List.getElem?_eq_none (by omega : s.runs.length ≤ i)]
    exact List.getElem?_eq_none (by simp only [List.length_singleton]; omega)

/-- The task set has the latest run of every job, until it is killed or found finished. -/
structure Tracks (s : Session) : Prop where
  nodup : (s.tasks.map (·.1)).Nodup
  entry : ∀ job k, (job, k) ∈ s.tasks → ∃ r, s.runs[k]? = some r ∧ r.job = job ∧
    r.aborted = false ∧ s.Latest k job
  complete : ∀ k r, s.runs[k]? = some r → r.phase.isDone = false → r.aborted = false →
    s.Latest k r.job → (r.job, k) ∈ s.tasks

private theorem latest_update {r r' : Run} (found : s.runs[k]? = some r) (hjob : r'.job = r.job)
    {i : Nat}
    {x : JobId} : (s.update k r').Latest i x ↔ s.Latest i x := by
  have hget : ∀ j : Nat, ((s.update k r').runs[j]?).map Run.job = (s.runs[j]?).map Run.job := by
    intro j
    rw [runs_update found]
    split
    · rename_i heq
      subst heq
      rw [found]
      exact congrArg some hjob
    · rfl
  have hthere : ∀ {t t' : Session}, (∀ j : Nat, (t.runs[j]?).map Run.job = (t'.runs[j]?).map Run.job) →
      t.Latest i x → t'.Latest i x := by
    intro t t' hsame hl j q hlt hq hx
    have hmap := hsame j
    rw [hq] at hmap
    obtain ⟨q', hq', hjob'⟩ := Option.map_eq_some_iff.mp hmap
    exact hl j q' hlt hq' (hjob'.trans hx)
  exact ⟨hthere hget, hthere fun j => (hget j).symm⟩

namespace Tracks

private theorem congr (h : s.Tracks) (hruns : s'.runs = s.runs) (htasks : s'.tasks = s.tasks) :
    s'.Tracks := by
  have hlatest : ∀ k job, s'.Latest k job ↔ s.Latest k job := by
    intro k job
    unfold Latest
    rw [hruns]
  refine ⟨by rw [htasks]; exact h.nodup, fun job k hmem => ?_, fun k r hr hgoing hno hl => ?_⟩
  · rw [htasks] at hmem
    obtain ⟨r, hr, hjob, hno, hl⟩ := h.entry job k hmem
    exact ⟨r, by rw [hruns]; exact hr, hjob, hno, (hlatest k job).mpr hl⟩
  · rw [htasks]
    rw [hruns] at hr
    exact h.complete k r hr hgoing hno ((hlatest k _).mp hl)

theorem prune (h : s.Tracks) : s.prune.Tracks := by
  refine ⟨(List.filter_sublist.map _).nodup h.nodup, fun job k hmem => ?_,
    fun k r hr hgoing hno hl => ?_⟩
  · exact h.entry job k (List.mem_of_mem_filter hmem)
  · refine List.mem_filter.mpr ⟨h.complete k r hr hgoing hno hl, ?_⟩
    have hr' : s.runs[k]? = some r := hr
    simp [isFinished, hr', hgoing]

private theorem assign (h : s.Tracks) (job : JobId) : (s.onAssign job).Tracks := by
  have hget := runs_onAssign s job
  refine ⟨?_, fun x i hmem => ?_, fun i r hr hgoing hno hl => ?_⟩
  · show (((s.remove job).tasks ++ [(job, s.runs.length)]).map (·.1)).Nodup
    rw [List.map_append]
    refine List.Nodup.append ((List.filter_sublist.map _).nodup h.nodup) (by simp) ?_
    intro x hx hx'
    obtain ⟨entry, hentry, rfl⟩ := List.mem_map.mp hx
    exact (mem_remove.mp hentry).2 (by simpa using hx')
  · rcases List.mem_append.mp hmem with hold | hnew
    · obtain ⟨hold, hne⟩ := mem_remove.mp hold
      obtain ⟨r, hr, hjob, hno, hl⟩ := h.entry x i hold
      have hlt := (List.getElem?_eq_some_iff.mp hr).1
      refine ⟨r, by rw [hget, if_neg (by omega)]; exact hr, hjob, hno, fun j q hj hq => ?_⟩
      rw [hget] at hq
      split at hq
      · obtain rfl := Option.some.inj hq
        exact fun heq => hne heq.symm
      · exact hl j q hj hq
    · obtain ⟨rfl, rfl⟩ : x = job ∧ i = s.runs.length := by simpa using hnew
      refine ⟨.start x, by rw [hget, if_pos rfl], rfl, rfl, fun j q hj hq => ?_⟩
      rw [hget, if_neg (by omega), List.getElem?_eq_none (by omega)] at hq
      exact absurd hq (by simp)
  · rw [hget] at hr
    split at hr
    · rename_i heq
      obtain rfl := Option.some.inj hr
      subst heq
      exact List.mem_append_right _ (by simp [Run.start])
    · rename_i hne
      have hlt := (List.getElem?_eq_some_iff.mp hr).1
      have hother : r.job ≠ job := fun heq => hl s.runs.length (.start job) hlt
        (by rw [hget, if_pos rfl]) heq.symm
      refine List.mem_append_left _ (mem_remove.mpr ⟨h.complete i r hr hgoing hno ?_, hother⟩)
      intro j q hj hq
      refine hl j q hj ?_
      rw [hget, if_neg (Nat.ne_of_lt (List.getElem?_eq_some_iff.mp hq).1)]
      exact hq

private theorem update {r r' : Run} (h : s.Tracks) (found : s.runs[k]? = some r)
    (hjob : r'.job = r.job)
    (hno : r'.aborted = r.aborted)
    (hgoing : r'.phase.isDone = false → r.phase.isDone = false) : (s.update k r').Tracks := by
  have hget := runs_update found r'
  refine ⟨h.nodup, fun x i hmem => ?_, fun i q hq hgo hfree hl => ?_⟩
  · obtain ⟨q, hq, hx, hfree, hl⟩ := h.entry x i hmem
    rw [hget]
    refine ⟨if k = i then r' else q, ?_, ?_, ?_, (latest_update found hjob).mpr hl⟩
    · split <;> simp_all
    · split
      · rename_i heq
        subst heq
        obtain rfl := Option.some.inj (found.symm.trans hq)
        exact hjob.trans hx
      · exact hx
    · split
      · rename_i heq
        subst heq
        obtain rfl := Option.some.inj (found.symm.trans hq)
        exact hno.trans hfree
      · exact hfree
  · have hl' := (latest_update found hjob).mp hl
    rw [hget] at hq
    split at hq
    · rename_i heq
      subst heq
      obtain rfl := Option.some.inj hq
      rw [hjob] at hl' ⊢
      exact h.complete k r found (hgoing hgo) (hno ▸ hfree) hl'
    · exact h.complete i q hq hgo hfree hl'

private theorem kill {r : Run} (h : s.Tracks) (hentry : s.task job = some k)
    (found : s.runs[k]? = some r) :
    ((s.remove job).update k { r with aborted := true }).Tracks := by
  obtain ⟨q, hq, hjob, -, -⟩ := h.entry job k (mem_of_task hentry)
  obtain rfl := Option.some.inj (found.symm.trans hq)
  have hget := @runs_update (s.remove job) k r found { r with aborted := true }
  have hlatest : ∀ i x, ((s.remove job).update k { r with aborted := true }).Latest i x ↔
      s.Latest i x := fun i x =>
    @latest_update (s.remove job) k r { r with aborted := true } found rfl i x
  refine ⟨(List.filter_sublist.map _).nodup h.nodup, fun x i hmem => ?_,
    fun i q hq hgo hfree hl => ?_⟩
  · obtain ⟨hmem, hne⟩ := mem_remove.mp hmem
    obtain ⟨q, hq, hx, hfree, hl⟩ := h.entry x i hmem
    have hik : k ≠ i := by
      rintro rfl
      obtain rfl := Option.some.inj (found.symm.trans hq)
      exact hne (hx.symm.trans hjob)
    exact ⟨q, (hget i).trans (by rw [if_neg hik]; exact hq), hx, hfree, (hlatest i x).mpr hl⟩
  · have hq' := (hget i).symm.trans hq
    split at hq'
    · obtain rfl := Option.some.inj hq'
      exact absurd hfree (by simp)
    · rename_i hik
      have hmem := h.complete i q hq' hgo hfree ((hlatest i _).mp hl)
      refine mem_remove.mpr ⟨hmem, fun heq => hik ?_⟩
      -- Two entries of one job would be the same entry.
      have hsame := List.inj_on_of_nodup_map h.nodup hmem (mem_of_task hentry) heq
      exact (congrArg Prod.snd hsame).symm

end Tracks

private theorem Change.quiet (hruns : s'.runs = s.runs) (htasks : s'.tasks = s.tasks)
    (hreports : s'.reports = s.reports) (hdropped : s'.dropped = s.dropped) : s.Change event s' :=
  .settled hruns (Or.inl htasks) (hreports ▸ List.Perm.refl _) (Or.inl hdropped)

theorem step_change (ht : s.Tracks) (h : s.Steps event s') : s.Change event s' := by
  cases event with
  | connectFailed | refused | slept | broke | deadline =>
    obtain ⟨-, h⟩ := Option.ite_none_right_eq_some.mp h
    exact Option.some.inj h ▸ .quiet rfl rfl rfl rfl
  | connected =>
    obtain ⟨-, h⟩ := Option.ite_none_right_eq_some.mp h
    exact Option.some.inj h ▸ .settled rfl (Or.inr rfl) (List.Perm.refl _) (Or.inl rfl)
  | welcomed =>
    obtain ⟨-, h⟩ := Option.ite_none_right_eq_some.mp h
    obtain rfl := Option.some.inj h
    split
    · exact .settled rfl (Or.inl rfl) (reports_say_quiet _ rfl) (Or.inl rfl)
    · exact .quiet rfl rfl rfl rfl
  | assign job =>
    obtain ⟨-, h⟩ := Option.ite_none_right_eq_some.mp h
    exact Option.some.inj h ▸ .assigned job
  | kill job =>
    obtain ⟨-, h⟩ := Option.ite_none_right_eq_some.mp h
    obtain rfl : s.onKill job = s' := Option.some.inj h
    unfold onKill
    cases hentry : s.task job with
    | none => exact .quiet rfl rfl rfl rfl
    | some k =>
      obtain ⟨r, hr, -⟩ := ht.entry job k (mem_of_task hentry)
      simp only [hr]
      exact .killed hentry hr
  | preempt job =>
    obtain ⟨-, h⟩ := Option.ite_none_right_eq_some.mp h
    obtain rfl : s.onPreempt job = s' := Option.some.inj h
    unfold onPreempt
    cases hentry : s.task job with
    | none => exact .quiet rfl rfl rfl rfl
    | some k =>
      obtain ⟨r, hr, -⟩ := ht.entry job k (mem_of_task hentry)
      simp only [hr]
      exact .stopped hentry hr
  | closed =>
    obtain ⟨-, h⟩ := Option.ite_none_right_eq_some.mp h
    exact Option.some.inj h ▸ .quiet rfl rfl rfl rfl
  | take =>
    obtain ⟨hserving, h⟩ := Option.ite_none_right_eq_some.mp h
    cases hr : s.results with
    | nil =>
      rw [hr] at h
      cases h
    | cons report rest =>
      rw [hr] at h
      obtain rfl := Option.some.inj h
      exact .settled rfl (Or.inl rfl) (reports_take hr (isServing_iff.mp hserving).2)
        (Or.inl rfl)
  | sent =>
    obtain ⟨report, hhand, rfl⟩ := Option.map_eq_some_iff.mp h
    exact .settled rfl (Or.inl rfl) (reports_sent hhand) (Or.inl rfl)
  | unsent kept =>
    obtain ⟨report, hhand, h⟩ := Option.bind_eq_some_iff.mp h
    unfold onUnsent at h
    split at h
    · obtain ⟨-, h⟩ := Option.ite_none_right_eq_some.mp h
      exact Option.some.inj h ▸ .settled rfl (Or.inl rfl) (reports_kept hhand) (Or.inl rfl)
    · obtain ⟨hfull, h⟩ := Option.ite_none_right_eq_some.mp h
      exact Option.some.inj h ▸ .settled rfl (Or.inl rfl) (reports_dropped hhand)
        (Or.inr ⟨by rw [hhand]; simp, hfull⟩)
  | heartbeat ok =>
    obtain ⟨-, h⟩ := Option.ite_none_right_eq_some.mp h
    obtain rfl := Option.some.inj h
    split
    · exact .settled rfl (Or.inr rfl) (reports_say_quiet s.prune rfl) (Or.inl rfl)
    · exact .settled rfl (Or.inr rfl) (List.Perm.refl _) (Or.inl rfl)
  | sigterm =>
    have h : s.onSigterm = some s' := h
    unfold onSigterm at h
    split at h
    · cases h
    · split at h
      · exact Option.some.inj h ▸ .settled rfl (Or.inl rfl) (reports_say_quiet _ rfl) (Or.inl rfl)
      · obtain ⟨-, h⟩ := Option.ite_none_right_eq_some.mp h
        obtain rfl := Option.some.inj h
        split <;> exact .quiet rfl rfl rfl rfl
  | drainPoll =>
    obtain ⟨-, h⟩ := Option.ite_none_right_eq_some.mp h
    obtain rfl : s.onDrainPoll = s' := Option.some.inj h
    unfold onDrainPoll
    dsimp only
    split <;> exact .settled rfl (Or.inr rfl) (List.Perm.refl _) (Or.inl rfl)
  | turn k t =>
    obtain ⟨-, h⟩ := Option.ite_none_right_eq_some.mp h
    obtain ⟨r, hr, h⟩ := Option.bind_eq_some_iff.mp h
    obtain ⟨r', hturn, rfl⟩ := Option.map_eq_some_iff.mp h
    exact .turned hr hturn
  | deliver k =>
    obtain ⟨-, h⟩ := Option.ite_none_right_eq_some.mp h
    obtain ⟨r, hr, h⟩ := Option.bind_eq_some_iff.mp h
    split at h
    · rename_i result hphase
      exact Option.some.inj h ▸ .delivered hr hphase
    · cases h

end Session

/-! One run. -/

private theorem Phase.sent_of_going {phase : Phase} (h : phase.isDone = false) :
    phase.sent = none := by
  cases phase with
  | done result => cases h
  | _ => rfl

namespace Run

variable {hist : List Event} {r r' : Run} {t : Turn}

def Tells (r : Run) : TaskResult → Prop
  | .succeeded => r.inner = some .returned
  | .failed => r.inner = some .erred
  | .timedOut => r.expired = true
  | .panicked => r.inner = some .panicked
  | .preempted => r.stop = true ∧ (r.inner = some .erred ∨ r.expired = true)

/-- What holds of a run of a worker whose events so far are among `hist`. -/
structure Sound (hist : List Event) (r : Run) : Prop where
  racing : r.phase = .racing ∨ r.phase = .stopping → r.expired = false
  cancelled : r.inner = some .cancelled → r.expired = true
  stopping : r.phase = .stopping → r.stop = true
  silent : r.phase = .done none → r.aborted = true
  tells : ∀ result, r.phase = .reporting result ∨ r.phase = .done (some result) → r.Tells result
  killed : r.aborted = true → .kill r.job ∈ hist
  stopped : r.stop = true → .preempt r.job ∈ hist
  assigned : .assign r.job ∈ hist

private theorem sound_start {job : JobId} (hmem : .assign job ∈ hist) :
    (Run.start job).Sound hist := by
  refine ⟨fun _ => rfl, fun h => ?_, fun h => ?_, fun h => ?_, fun _ h => ?_, fun h => ?_,
    fun h => ?_, hmem⟩
  all_goals simp [start] at h

/-- An executor that was not aborted has ended one of the other ways, so the walltime race always
comes to a result. -/
private theorem settle_raced {how : Ended} (h : r.Sound hist) (hinner : r.inner = some how)
    (hphase : r.phase = .racing ∨ r.phase = .stopping) {stopped : Bool}
    (hstop : stopped = true → r.stop = true) :
    ∃ result, classify (.ended how) stopped = some result ∧ r.Tells result := by
  have hfree := h.racing hphase
  cases how with
  | returned => exact ⟨.succeeded, by cases stopped <;> rfl, hinner⟩
  | erred =>
    cases stopped with
    | true => exact ⟨.preempted, rfl, hstop rfl, Or.inl hinner⟩
    | false => exact ⟨.failed, rfl, hinner⟩
  | panicked => exact ⟨.panicked, by cases stopped <;> rfl, hinner⟩
  | cancelled => exact absurd (h.cancelled hinner) (by rw [hfree]; simp)

private theorem Sound.toPhase {result : TaskResult} {phase : Phase} (h : r.Sound hist)
    (hphase : phase = .reporting result ∨ phase = .done (some result)) (htells : r.Tells result) :
    ({ r with phase := phase } : Run).Sound hist := by
  have htells' : ({ r with phase := phase } : Run).Tells result := by cases result <;> exact htells
  rcases hphase with rfl | rfl
  all_goals
    refine ⟨fun hp => ?_, h.cancelled, fun hp => ?_, fun hp => ?_, fun x hp => ?_, h.killed,
      h.stopped, h.assigned⟩
    · simp at hp
    · simp at hp
    · simp at hp
    · have hx : result = x := by simpa using hp
      exact hx ▸ htells'

private theorem Sound.turn (h : r.Sound hist) (ht : r.turn t = some r') : r'.Sound hist := by
  cases t with
  | executorEnds how =>
    obtain ⟨⟨hnone, hcancel⟩, hr⟩ := Option.ite_none_right_eq_some.mp ht
    obtain rfl := Option.some.inj hr
    refine ⟨h.racing, fun hc => hcancel (Option.some.inj hc), h.stopping, h.silent, ?_, h.killed,
      h.stopped, h.assigned⟩
    intro result hphase
    have htold := h.tells result hphase
    -- Only a timeout reports on an executor that is still going.
    cases result with
    | succeeded | failed | panicked =>
      rw [Tells, hnone] at htold
      cases htold
    | timedOut => exact htold
    | preempted => exact ⟨htold.1, Or.inr (htold.2.resolve_left (by rw [hnone]; simp))⟩
  | join =>
    obtain ⟨how, hinner, hr⟩ := Option.bind_eq_some_iff.mp ht
    split at hr
    · rename_i hphase
      obtain ⟨result, hclass, htells⟩ := @settle_raced hist r how h hinner (Or.inl hphase) false
        (by simp)
      rw [hclass] at hr
      exact Option.some.inj hr ▸ h.toPhase (Or.inl rfl) htells
    · rename_i hphase
      obtain ⟨result, hclass, htells⟩ := @settle_raced hist r how h hinner (Or.inr hphase) true
        fun _ => h.stopping hphase
      rw [hclass] at hr
      exact Option.some.inj hr ▸ h.toPhase (Or.inl rfl) htells
    · cases hr
  | elapse =>
    -- Whatever the executor does later, its abort was asked for.
    have hgrace : ∀ result, ({ r with expired := true } : Run).Tells result →
        ({ r with expired := true }.settle (some result)).Sound hist := by
      intro result htells
      refine ⟨fun hp => ?_, fun _ => rfl, fun hp => ?_, fun hp => ?_, fun x hp => ?_, h.killed,
        h.stopped, h.assigned⟩
      · simp [settle] at hp
      · simp [settle] at hp
      · simp [settle] at hp
      · have hx : result = x := by simpa [settle] using hp
        subst hx
        cases result <;> exact htells
    simp only [Run.turn] at ht
    split at ht
    · exact Option.some.inj ht ▸ hgrace .timedOut rfl
    · rename_i hphase
      exact Option.some.inj ht ▸ hgrace .preempted ⟨h.stopping hphase, Or.inr rfl⟩
    · cases ht
  | stopSeen =>
    obtain ⟨⟨hracing, hstop⟩, hr⟩ := Option.ite_none_right_eq_some.mp ht
    obtain rfl := Option.some.inj hr
    refine ⟨fun _ => h.racing (Or.inl hracing), h.cancelled, fun _ => hstop, ?_, ?_, h.killed,
      h.stopped, h.assigned⟩
    · intro hp
      cases hp
    · intro x hp
      simp at hp
  | cancel =>
    obtain ⟨⟨haborted, -⟩, hr⟩ := Option.ite_none_right_eq_some.mp ht
    obtain rfl := Option.some.inj hr
    refine ⟨fun hp => ?_, h.cancelled, fun hp => ?_, fun _ => haborted, fun x hp => ?_, h.killed,
      h.stopped, h.assigned⟩
    all_goals simp at hp

structure Keeps (r r' : Run) : Prop where
  job : r'.job = r.job
  stop : r'.stop = r.stop
  aborted : r'.aborted = r.aborted
  sent : r'.phase.sent = r.phase.sent
  going : r'.phase.isDone = false → r.phase.isDone = false

private theorem keeps_settle (h : r.phase.isDone = false) (result : Option TaskResult) :
    r.Keeps (r.settle result) := by
  have hnone := Phase.sent_of_going h
  cases result <;> exact ⟨rfl, rfl, rfl, hnone.symm, fun _ => h⟩

theorem keeps_turn (h : r.turn t = some r') : r.Keeps r' := by
  cases t with
  | executorEnds how =>
    obtain ⟨-, hr⟩ := Option.ite_none_right_eq_some.mp h
    exact Option.some.inj hr ▸ ⟨rfl, rfl, rfl, rfl, id⟩
  | join =>
    obtain ⟨how, -, hr⟩ := Option.bind_eq_some_iff.mp h
    split at hr
    · rename_i hphase
      exact Option.some.inj hr ▸ keeps_settle (by rw [hphase]; rfl) _
    · rename_i hphase
      exact Option.some.inj hr ▸ keeps_settle (by rw [hphase]; rfl) _
    · cases hr
  | elapse =>
    have hexpire : ∀ result, r.phase.isDone = false →
        r.Keeps ({ r with expired := true }.settle result) := by
      intro result hgoing
      have hk := @keeps_settle { r with expired := true } hgoing result
      exact ⟨hk.job, hk.stop, hk.aborted, hk.sent, hk.going⟩
    simp only [Run.turn] at h
    split at h
    · rename_i hphase
      exact Option.some.inj h ▸ hexpire _ (by rw [hphase]; rfl)
    · rename_i hphase
      exact Option.some.inj h ▸ hexpire _ (by rw [hphase]; rfl)
    · cases h
  | stopSeen =>
    obtain ⟨⟨hracing, -⟩, hr⟩ := Option.ite_none_right_eq_some.mp h
    obtain rfl := Option.some.inj hr
    exact ⟨rfl, rfl, rfl, by rw [hracing]; rfl, fun _ => by rw [hracing]; rfl⟩
  | cancel =>
    obtain ⟨⟨-, hgoing⟩, hr⟩ := Option.ite_none_right_eq_some.mp h
    obtain rfl := Option.some.inj hr
    exact ⟨rfl, rfl, rfl, (Phase.sent_of_going hgoing).symm, fun _ => hgoing⟩

end Run

/-! The whole worker. -/

namespace Session

variable {s s' : Session} {event : Event} {events hist : List Event} {job : JobId} {k : Nat}

def told (s : Session) (k : Nat) : List Report :=
  ((s.runs[k]?).bind fun r => r.phase.sent.map fun result => ⟨k, r.job, result⟩).toList

private theorem eq_told_of_perm {l : List Report} (h : l.Perm (s.told k)) : l = s.told k := by
  unfold told at h ⊢
  cases hopt : (s.runs[k]?).bind fun r => r.phase.sent.map fun result => (⟨k, r.job, result⟩ :
    Report) with
  | none =>
    rw [hopt] at h
    exact h.eq_nil
  | some report =>
    rw [hopt] at h
    exact List.perm_singleton.mp h

/-- Every report there is was made by its run, once, and each run is sound. -/
structure Honest (hist : List Event) (s : Session) : Prop where
  sound : ∀ (k : Nat) (r : Run), s.runs[k]? = some r → r.Sound hist
  told : ∀ k, s.reports.filter (·.run = k) = s.told k

namespace Honest

private theorem congr (h : s.Honest hist) (hruns : s'.runs = s.runs)
    (hreports : s'.reports.Perm s.reports) : s'.Honest hist := by
  refine ⟨by rw [hruns]; exact h.sound, fun k => eq_told_of_perm ?_⟩
  have hsame : s'.told k = s.told k := by
    unfold Session.told
    rw [hruns]
  rw [hsame, ← h.told k]
  exact hreports.filter _

private theorem assign (h : s.Honest hist) (hmem : .assign job ∈ hist) :
    (s.onAssign job).Honest hist := by
  have hget := runs_onAssign s job
  refine ⟨fun k r hr => ?_, fun k => (h.told k).trans ?_⟩
  · rw [hget] at hr
    split at hr
    · exact Option.some.inj hr ▸ Run.sound_start hmem
    · exact h.sound k r hr
  · unfold Session.told
    rw [hget]
    split
    · rw [List.getElem?_eq_none (by omega)]
      rfl
    · rfl

private theorem update {r r' : Run} (h : s.Honest hist) (found : s.runs[k]? = some r)
    (hsound : r'.Sound hist) (hjob : r'.job = r.job) (hsent : r'.phase.sent = r.phase.sent) :
    (s.update k r').Honest hist := by
  refine ⟨fun i q hq => ?_, fun i => (h.told i).trans ?_⟩
  · rw [runs_update found] at hq
    split at hq
    · exact Option.some.inj hq ▸ hsound
    · exact h.sound i q hq
  · unfold Session.told
    rw [runs_update found]
    split
    · rename_i heq
      subst heq
      rw [found, Option.bind_some, Option.bind_some, hjob, hsent]
    · rfl

/-- A report moves from its run into the backlog: the only one of a run that had made none. -/
private theorem deliver {r : Run} {result : TaskResult} (h : s.Honest hist)
    (found : s.runs[k]? = some r) (hphase : r.phase = .reporting result) :
    ({ s.update k { r with phase := .done (some result) } with
      results := s.results ++ [⟨k, r.job, result⟩] } : Session).Honest hist := by
  have hget := @runs_update s k r found { r with phase := .done (some result) }
  have hr := h.sound k r found
  refine ⟨fun i q hq => ?_, fun i => ?_⟩
  · have hq' := (hget i).symm.trans hq
    split at hq'
    · exact Option.some.inj hq' ▸ hr.toPhase (Or.inr rfl) (hr.tells result (Or.inl hphase))
    · exact h.sound i q hq'
  · have hperm : ({ s.update k { r with phase := .done (some result) } with
        results := s.results ++ [⟨k, r.job, result⟩] } : Session).reports.Perm
          (⟨k, r.job, result⟩ :: s.reports) := by
      refine List.perm_iff_count.mpr fun a => ?_
      simp only [reports, List.count_append, List.count_cons, List.count_nil]
      show _ + s.inHand.toList.count a + s.handed.count a + s.dropped.count a = _
      omega
    apply eq_told_of_perm
    refine (hperm.filter _).trans ?_
    rw [List.filter_cons, h.told i]
    unfold Session.told
    show List.Perm _ ((((s.update k { r with phase := .done (some result) }).runs[i]?).bind
      _).toList)
    rw [hget]
    by_cases hik : k = i
    · subst hik
      simp [found, hphase, Phase.sent]
    · simp [hik]

theorem step (h : s.Honest hist) (ht : s.Tracks) (hmem : event ∈ hist) (hs : s.Steps event s') :
    s'.Honest hist := by
  cases step_change ht hs with
  | settled hruns htasks hreports hdropped => exact h.congr hruns hreports
  | assigned job => exact h.assign hmem
  | @killed job k r hentry found =>
    obtain ⟨q, hq, hjob, -, -⟩ := ht.entry job k (mem_of_task hentry)
    obtain rfl := Option.some.inj (found.symm.trans hq)
    have hr := h.sound k r found
    have hkilled : ({ r with aborted := true } : Run).Sound hist :=
      ⟨hr.racing, hr.cancelled, hr.stopping, fun _ => rfl, fun x hp => by
        have := hr.tells x hp
        cases x <;> exact this, fun _ => hjob ▸ hmem, hr.stopped, hr.assigned⟩
    exact (h.update found hkilled rfl rfl).congr rfl (List.Perm.refl _)
  | @stopped job k r hentry found =>
    obtain ⟨q, hq, hjob, -, -⟩ := ht.entry job k (mem_of_task hentry)
    obtain rfl := Option.some.inj (found.symm.trans hq)
    have hr := h.sound k r found
    have hstopped : ({ r with stop := true } : Run).Sound hist :=
      ⟨hr.racing, hr.cancelled, fun _ => rfl, hr.silent, fun x hp => by
        have := hr.tells x hp
        cases x with
        | preempted => exact ⟨rfl, this.2⟩
        | _ => exact this, hr.killed, fun _ => hjob ▸ hmem, hr.assigned⟩
    exact h.update found hstopped rfl rfl
  | @turned k t r r' found ok =>
    have hk := Run.keeps_turn ok
    exact h.update found ((h.sound k r found).turn ok) hk.job hk.sent
  | delivered found hphase => exact h.deliver found hphase

end Honest

theorem Tracks.step (h : s.Tracks) (hs : s.Steps event s') : s'.Tracks := by
  cases step_change h hs with
  | settled hruns htasks hreports hdropped =>
    rcases htasks with heq | heq
    · exact h.congr hruns heq
    · exact h.prune.congr hruns heq
  | assigned job => exact h.assign job
  | killed hentry found => exact h.kill hentry found
  | stopped hentry found => exact h.update found rfl rfl id
  | turned found ok =>
    have hk := Run.keeps_turn ok
    exact h.update found hk.job hk.aborted hk.going
  | @delivered k r result found hphase =>
    have hrun : (s.update k { r with phase := .done (some result) }).Tracks :=
      h.update found rfl rfl fun hd => by cases hd
    exact hrun.congr rfl rfl

theorem honest_of_run (h : Chain Steps start events s) : s.Tracks ∧ s.Honest events := by
  have hfirst : start.Tracks ∧ start.Honest events := by
    refine ⟨⟨List.nodup_nil, fun job k hmem => ?_, fun k r hr => ?_⟩, fun k r hr => ?_, fun k => rfl⟩
    · exact absurd hmem List.not_mem_nil
    all_goals simp [start] at hr
  have hchain : Chain (fun s event s' => event ∈ events ∧ s.Steps event s') start events s :=
    h.imp fun _ _ _ hmem hs => ⟨hmem, hs⟩
  refine hchain.keeps (P := fun s => s.Tracks ∧ s.Honest events) (fun s event s' hs hinv => ?_)
    hfirst
  exact ⟨hinv.1.step hs.2, hinv.2.step hinv.1 hs.1 hs.2⟩

private theorem Honest.not_told {r : Run} (h : s.Honest hist) (hr : s.runs[k]? = some r)
    (hsent : r.phase.sent = none) : ∀ report ∈ s.reports, report.run ≠ k := by
  intro report hmem heq
  have hin : report ∈ s.reports.filter (·.run = k) := List.mem_filter.mpr ⟨hmem, by simpa using heq⟩
  rw [h.told k, Session.told, hr, Option.bind_some, hsent] at hin
  exact absurd hin List.not_mem_nil

/-- Every assignment is still going, or has made exactly one report, or was killed and makes none.
Reconnects, refused streams, evictions and a drain change nothing of it. -/
theorem assignment_is_reported_once {r : Run} (h : Chain Steps start events s)
    (hr : s.runs[k]? = some r) :
    (r.phase.isDone = false ∧ ∀ report ∈ s.reports, report.run ≠ k) ∨
      (∃ result, r.phase = .done (some result) ∧
        s.reports.filter (·.run = k) = [⟨k, r.job, result⟩]) ∨
      (r.phase = .done none ∧ (∀ report ∈ s.reports, report.run ≠ k) ∧ .kill r.job ∈ events) := by
  obtain ⟨-, hhonest⟩ := honest_of_run h
  have hsound := hhonest.sound k r hr
  cases hphase : r.phase with
  | done sent =>
    cases sent with
    | some result =>
      refine Or.inr (Or.inl ⟨result, rfl, ?_⟩)
      rw [hhonest.told k, told, hr, Option.bind_some, hphase]
      rfl
    | none =>
      have hnone : r.phase.sent = none := by rw [hphase]; rfl
      exact Or.inr (Or.inr ⟨rfl, hhonest.not_told hr hnone, hsound.killed (hsound.silent hphase)⟩)
  | racing | stopping | reporting =>
    have hnone : r.phase.sent = none := by rw [hphase]; rfl
    exact Or.inl ⟨rfl, hhonest.not_told hr hnone⟩

/-- Two jobs; the first report comes back from a stream that closed, the second job is evicted. -/
def bouncedEvents : List Event :=
  [.connected, .welcomed, .assign ⟨0⟩, .assign ⟨1⟩, .preempt ⟨1⟩, .turn 0 (.executorEnds .returned),
    .turn 0 .join, .deliver 0, .take, .unsent true, .slept, .connected, .welcomed, .take, .sent,
    .turn 1 .stopSeen, .turn 1 .elapse, .deliver 1]

theorem assignment_is_reported_once_sample : ∃ s r, bouncedEvents.foldlM step start = some s ∧
    s.runs[0]? = some r ∧ ∃ result, r.phase = .done (some result) ∧
      s.reports.filter (·.run = 0) = [⟨0, r.job, result⟩] := by
  have hlook : (bouncedEvents.foldlM step start).any (fun s =>
      (s.runs[0]?).any fun r => decide (r.phase.sent ≠ none)) = true := by
    decide +kernel
  obtain ⟨s, hrun, hlook⟩ := (Option.any_eq_true _ _).mp hlook
  obtain ⟨r, hr, hsent⟩ := (Option.any_eq_true _ _).mp hlook
  have hsent : r.phase.sent ≠ none := of_decide_eq_true hsent
  refine ⟨s, r, hrun, hr, ?_⟩
  rcases assignment_is_reported_once (Chain.of_foldlM hrun) hr with
    ⟨hgoing, -⟩ | hreported | ⟨hsilent, -⟩
  · exact absurd (Phase.sent_of_going hgoing) hsent
  · exact hreported
  · exact absurd (by rw [hsilent]; rfl) hsent

/-- A report is about an assignment of its job and says how that assignment ended; a worker says
it stopped a job only if it was told to. -/
theorem reports_tell_the_truth {report : Report} (h : Chain Steps start events s)
    (hmem : report ∈ s.reports) :
    ∃ r, s.runs[report.run]? = some r ∧ r.job = report.job ∧ r.Tells report.result ∧
      .assign report.job ∈ events ∧
      (report.result = .preempted → .preempt report.job ∈ events) := by
  obtain ⟨-, hhonest⟩ := honest_of_run h
  have hin : report ∈ s.reports.filter (·.run = report.run) :=
    List.mem_filter.mpr ⟨hmem, by simp⟩
  rw [hhonest.told, told] at hin
  obtain ⟨r, hr, hsent⟩ := Option.bind_eq_some_iff.mp (Option.mem_toList.mp hin)
  obtain ⟨result, hsent, heq⟩ := Option.map_eq_some_iff.mp hsent
  have hsound := hhonest.sound report.run r hr
  have hphase : r.phase = .done (some result) := by
    cases hp : r.phase with
    | done sent =>
      rw [hp] at hsent
      exact congrArg Phase.done hsent
    | _ =>
      rw [hp] at hsent
      cases hsent
  have htells := hsound.tells result (Or.inr hphase)
  rw [← heq]
  refine ⟨r, hr, rfl, htells, hsound.assigned, fun hpre => hsound.stopped ?_⟩
  subst hpre
  exact htells.1

theorem reports_tell_the_truth_sample : ∃ s report, bouncedEvents.foldlM step start = some s ∧
    report ∈ s.reports ∧ report.result = .preempted ∧ .preempt report.job ∈ bouncedEvents := by
  have hlook : (bouncedEvents.foldlM step start).any (fun s =>
      decide (⟨1, ⟨1⟩, .preempted⟩ ∈ s.reports)) = true := by
    decide +kernel
  obtain ⟨s, hrun, hlook⟩ := (Option.any_eq_true _ _).mp hlook
  have hmem : (⟨1, ⟨1⟩, .preempted⟩ : Report) ∈ s.reports := of_decide_eq_true hlook
  obtain ⟨-, -, -, -, -, hpreempt⟩ := reports_tell_the_truth (Chain.of_foldlM hrun) hmem
  exact ⟨s, _, hrun, hmem, rfl, hpreempt rfl⟩

end Session

end TaskerRT.Worker
