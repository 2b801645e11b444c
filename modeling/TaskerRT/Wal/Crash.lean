/- module: TaskerRT/Wal/Crash
   source: crates/tasker-wal/src/store.rs (Store::rotate)
   digest: Where a rotation may stop so that the directory it leaves still loads. -/

import TaskerRT.Wal.Store

set_option autoImplicit false

namespace TaskerRT.Wal

open Library Domain

structure Installed (files left : Directory) (next : Word 64) (snapshot : Bytes) : Prop where
  snapshot_eq : left.lookup (snapshotPath next) = some snapshot
  log_eq : left.lookup (logPath next) = some logMagic
  known : ∀ n ∈ left, generationOf n ≠ none → n ∈ files ∨ n = snapshotPath next ∨ n = logPath next

private theorem installed_of_retired {files middle left : Directory} {old next : Word 64}
    {snapshot : Bytes} (hne : next ≠ old) (hrenamed : Renamed files middle next snapshot)
    (hlog : middle.lookup (logPath next) = some logMagic)
    (hsame : ∀ n, n ≠ snapshotPath old → n ≠ logPath old → left.lookup n = middle.lookup n)
    (hsub : ∀ n ∈ left, n ∈ middle) : Installed files left next snapshot := by
  have hnext : ∀ n, generationOf n = some next → left.lookup n = middle.lookup n := fun n hn =>
    hsame n (ne_of_generationOf (by simp [hn, hne])) (ne_of_generationOf (by simp [hn, hne]))
  refine ⟨?_, ?_, fun n hn hg => ?_⟩
  · rw [hnext _ (generationOf_snapshotPath next), hrenamed.snapshot_eq]
  · rw [hnext _ (generationOf_logPath next), hlog]
  · by_cases hs : n = snapshotPath next
    · exact .inr (.inl hs)
    by_cases hl : n = logPath next
    · exact .inr (.inr hl)
    have hsome := AList.lookup_isSome.2 (hsub n hn)
    rw [hrenamed.other n hg hs hl] at hsome
    exact .inl (AList.lookup_isSome.1 hsome)

/-- How a rotation ends: on the new store, or on the old one with the directory as it was or the
new snapshot in place. -/
theorem rotate_cases (fault : Option Fault) (snapshot : Bytes) {store : Store} {files : Directory}
    (hmax : store.generation ≠ Word.maxValue 64)
    (h : LogUnused files (logPath (store.generation + 1))) :
    (∃ result left, store.rotate fault snapshot files = (result,
        ⟨store.generation + 1, ⟨logPath (store.generation + 1), logMagic.length⟩⟩, left) ∧
      (files.lookup (logPath (store.generation + 1)) = none → Spares fault .writeMagic) ∧
      Installed files left (store.generation + 1) snapshot) ∨
    ∃ e left, store.rotate fault snapshot files = (.error e, store, left) ∧
      ((Untouched files left ∧ FailsEarly fault) ∨
        (Renamed files left (store.generation + 1) snapshot ∧
          LogLeft fault left (logPath (store.generation + 1)))) := by
  have hne : store.generation + 1 ≠ store.generation := by
    intro heq
    have hval := Word.val_add_one hmax
    rw [heq] at hval
    omega
  have hinstall := install_post fault snapshot h
  cases hres : Store.install fault (store.generation + 1) snapshot files with
  | error e =>
    rw [hres] at hinstall
    exact .inr ⟨e.1, e.2, by simp only [Store.rotate, hres], hinstall⟩
  | ok out =>
    obtain ⟨log, middle⟩ := out
    rw [hres] at hinstall
    obtain ⟨rfl, hspares, hrenamed, hlog⟩ := hinstall
    have hretire := retire_post fault store.generation middle
    cases hout : Store.retire fault store.generation middle with
    | error e =>
      rw [hout] at hretire
      exact .inl ⟨.error e.1, e.2, by simp only [Store.rotate, hres, hout], hspares,
        installed_of_retired hne hrenamed hlog hretire.1 hretire.2⟩
    | ok last =>
      rw [hout] at hretire
      exact .inl ⟨.ok (), last, by simp only [Store.rotate, hres, hout], hspares,
        installed_of_retired hne hrenamed hlog hretire.1 hretire.2⟩

def UpTo (files : Directory) (next : Word 64) : Prop :=
  ∀ n ∈ files, ∀ g, generationOf n = some g → g ≤ next

section Crash

variable {files : Directory} {next : Word 64} {snapshot : Bytes}

theorem Renamed.upTo {left : Directory} (h : Renamed files left next snapshot)
    (hle : UpTo files next) : UpTo left next := by
  intro n hn g hg
  by_cases hs : n = snapshotPath next
  · rw [hs, generationOf_snapshotPath] at hg
    exact (Option.some.inj hg).symm.le
  by_cases hl : n = logPath next
  · rw [hl, generationOf_logPath] at hg
    exact (Option.some.inj hg).symm.le
  have hsome := AList.lookup_isSome.2 hn
  rw [h.other n (by simp [hg]) hs hl] at hsome
  exact hle n (AList.lookup_isSome.1 hsome) g hg

theorem Installed.upTo {left : Directory} (h : Installed files left next snapshot)
    (hle : UpTo files next) : UpTo left next := by
  intro n hn g hg
  rcases h.known n hn (by simp [hg]) with hn | rfl | rfl
  · exact hle n hn g hg
  · rw [generationOf_snapshotPath] at hg
    exact (Option.some.inj hg).symm.le
  · rw [generationOf_logPath] at hg
    exact (Option.some.inj hg).symm.le

/-- The directory in front of a rotation: the newest generation is the store's. -/
theorem upTo_next {old : Word 64} (hmax : old ≠ Word.maxValue 64) (hold : newest files = old) :
    UpTo files (old + 1) ∧ files.lookup (logPath (old + 1)) = none := by
  have hval := Word.val_add_one hmax
  have hle : ∀ n ∈ files, ∀ g, generationOf n = some g → g ≤ old := fun n hn g hg =>
    hold ▸ le_newest hn hg
  refine ⟨fun n hn g hg => le_trans (hle n hn g hg) (Fin.le_def.2 (by omega)),
    AList.lookup_eq_none.2 fun hmem => ?_⟩
  have := Fin.le_def.1 (hle _ hmem _ (generationOf_logPath (old + 1)))
  omega

variable [Crc32] {s : Snapshot}

/-- With the new snapshot in place and its log unused, recovery takes the new generation. -/
private theorem Renamed.loads {left : Directory} (h : Renamed files left next snapshot)
    (hbytes : decodeSnapshot snapshot = .ok s) (hle : UpTo files next)
    (hlog : LogUnused left (logPath next)) : Loads left (some s) [] :=
  loads_fresh hbytes (h.upTo hle) h.snapshot_eq hlog

private theorem Installed.loads {left : Directory} (h : Installed files left next snapshot)
    (hbytes : decodeSnapshot snapshot = .ok s) (hle : UpTo files next) :
    Loads left (some s) [] :=
  loads_fresh hbytes (h.upTo hle) h.snapshot_eq (.inr h.log_eq)

omit [Crc32] in
private theorem ne_writeMagic {crash : Option Op}
    (h : Spares (crash.map (⟨·, 0⟩)) .writeMagic) : crash ≠ some .writeMagic := by
  rintro rfl
  exact h 0 rfl

/-- A rotation stopped between two steps leaves a directory that loads the old generation or the
new snapshot, unless it stopped between creating the new log and writing its magic. -/
theorem rotate_crash_loads_iff {files' left : Directory} {old : Recovered} {store store' : Store}
    {result : Except WalError Unit} (crash : Option Op)
    (hold : Store.recover files = .ok (old, files')) (hstore : store.generation = old.generation)
    (hmax : old.generation ≠ Word.maxValue 64) (hbytes : decodeSnapshot snapshot = .ok s)
    (hrotate : store.rotate (crash.map (⟨·, 0⟩)) snapshot files = (result, store', left)) :
    (Loads left old.snapshot old.records ∨ Loads left (some s) []) ↔
      crash ≠ some .writeMagic := by
  have hnewest : newest files = store.generation := by rw [hstore, (recover_eq_ok hold).1]
  rw [← hstore] at hmax
  obtain ⟨hle, hlog⟩ := upTo_next hmax hnewest
  rcases rotate_cases (crash.map (⟨·, 0⟩)) snapshot hmax (.inl hlog) with
    ⟨_, _, hcase, hspares, hinstalled⟩ |
      ⟨_, _, hcase, ⟨huntouched, hearly⟩ | ⟨hrenamed, ⟨hunused, hspares⟩ | ⟨n, hfault, hleft⟩⟩⟩
  all_goals obtain ⟨-, -, rfl⟩ := hcase.symm.trans hrotate
  · exact iff_of_true (.inr (hinstalled.loads hbytes hle)) (ne_writeMagic (hspares hlog))
  · exact iff_of_true (.inl (loads_congr huntouched ⟨old, files', hold, rfl, rfl⟩))
      (ne_writeMagic hearly.spares)
  · exact iff_of_true (.inr (hrenamed.loads hbytes hle hunused)) (ne_writeMagic hspares)
  · obtain ⟨op, rfl, hop⟩ := Option.map_eq_some_iff.1 hfault
    obtain ⟨rfl, rfl⟩ := Fault.mk.inj hop
    have hnot := fun snapshot records =>
      not_loads_of_empty_log snapshot records (hrenamed.upTo hle) hleft
    exact iff_of_false (fun h => h.elim (hnot _ _) (hnot _ _)) (fun h => h rfl)

end Crash

/-- A data directory with a log of no frames and no snapshot, as a first start leaves it. -/
def freshFiles : Directory := AList.singleton (logPath 0) logMagic

def freshStore : Store := ⟨0, ⟨logPath 0, logMagic.length⟩⟩

def emptySnapshot : Snapshot := ⟨0, [], none, [], []⟩

attribute [local instance] Crc32.ieee

def emptyImage : Bytes := (encodeSnapshot emptySnapshot).getD []

/-- Stopped between creating the new log and writing its magic, a rotation leaves a directory that
neither generation loads from. -/
theorem rotate_crash_before_magic :
    Store.recover freshFiles = .ok (⟨0, none, [], none⟩, freshFiles) ∧
      decodeSnapshot emptyImage = .ok emptySnapshot ∧
      Store.recover (freshStore.rotate (some ⟨.writeMagic, 0⟩) emptyImage
        freshFiles).2.2 = .error (.badMagic .log) := by
  refine ⟨rfl, ?_, ?_⟩ <;> decide +kernel

/-- Stopped in front of the rename, a rotation leaves the old generation. -/
theorem rotate_crash_before_rename :
    Loads (freshStore.rotate (some ⟨.renameTmp, 0⟩) emptyImage freshFiles).2.2
        none [] ∨
      Loads (freshStore.rotate (some ⟨.renameTmp, 0⟩) emptyImage freshFiles).2.2
        (some emptySnapshot) [] :=
  (@rotate_crash_loads_iff _ _ Crc32.ieee emptySnapshot freshFiles _ ⟨0, none, [], none⟩
    freshStore _ _ (some .renameTmp) rfl rfl (by decide) (by decide +kernel)
    rfl).2 (by decide)

end TaskerRT.Wal
