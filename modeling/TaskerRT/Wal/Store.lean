/- module: TaskerRT/Wal/Store
   source: crates/tasker-wal/src/store.rs, crates/tasker-wal/src/log.rs (LogWriter)
   digest: Recovery picks the newest generation; rotation and the one crash it does not survive. -/

import TaskerRT.Wal.Directory

set_option autoImplicit false

namespace TaskerRT.Wal

open Library Domain

/-- The file-system calls of the writer that can fail. -/
inductive Op where
  | appendBefore
  | syncBefore
  | createTmp
  | writeTmp
  | syncTmp
  | renameTmp
  | syncDirectory
  | createLog
  | readMagic
  | writeMagic
  | syncLog
  | removeSnapshot
  | removeLog
  | appendFrames
  | syncFrames
  deriving DecidableEq, Repr

/-- The calls up to the rename that puts a snapshot in place. -/
def Op.beforeRename : Op → Bool
  | appendBefore | syncBefore | createTmp | writeTmp | syncTmp | renameTmp => true
  | _ => false

/-- The call that fails, and for a write how many bytes it wrote first. Nothing runs after it. -/
structure Fault where
  op : Op
  written : Nat
  deriving DecidableEq, Repr

/-- A file-system computation: its result, or the error and the directory it left behind. -/
abbrev Fs := Except (WalError × Directory)

/-- One call: the directory it produces, or the one it leaves when it is the call that fails. -/
def attempt (fault : Option Fault) (op : Op) (left : Nat → Directory) (files : Directory) :
    Fs Directory :=
  match fault with
  | some f => if f.op = op then .error (.io .other, left f.written) else .ok files
  | none => .ok files

def contents (files : Directory) (path : Name) : Bytes := (files.lookup path).getD []

/-- Appends bytes to a file; a failing call may have written some of them. -/
def writeAll (fault : Option Fault) (op : Op) (path : Name) (bytes : Bytes) (files : Directory) :
    Fs Directory :=
  attempt fault op (fun n => files.insert path (contents files path ++ bytes.take n))
    (files.insert path (contents files path ++ bytes))

def sync (fault : Option Fault) (op : Op) (files : Directory) : Fs Directory :=
  attempt fault op (fun _ => files) files

structure LogWriter where
  path : Name
  len : Nat
  deriving DecidableEq, Repr

/-- Opens or creates `path` for appending; a new file gets the magic. -/
def openLog (fault : Option Fault) (path : Name) (files : Directory) :
    Fs (LogWriter × Directory) := do
  let files ← attempt fault .createLog (fun _ => files)
    (if path ∈ files then files else files.insert path [])
  let len := (contents files path).length
  if len = 0 then
    let files ← writeAll fault .writeMagic path logMagic files
    let files ← sync fault .syncLog files
    return (⟨path, logMagic.length⟩, files)
  else
    let files ← sync fault .readMagic files
    if len < logMagic.length then .error (.io .other, files)
    else if (contents files path).take logMagic.length ≠ logMagic then
      .error (.badMagic .log, files)
    else return (⟨path, len⟩, files)

/-- Everything found on disk at startup. -/
structure Recovered where
  generation : Word 64
  snapshot : Option Snapshot
  records : List Record
  tornAt : Option Nat
  deriving DecidableEq, Repr

/-- The open log of the current generation. -/
structure Store where
  generation : Word 64
  log : LogWriter
  deriving DecidableEq, Repr

def readSnapshot [Crc32] (files : Directory) (generation : Word 64) :
    Except WalError (Option Snapshot) :=
  match files.lookup (snapshotPath generation) with
  | some bytes => (decodeSnapshot bytes).map some
  | none => .ok none

/-- The parsed log of a generation; a missing one is empty. -/
def readLog [Crc32] (files : Directory) (generation : Word 64) : Except WalError Replay :=
  match files.lookup (logPath generation) with
  | some bytes => parseLog bytes
  | none => .ok ⟨[], none⟩

/-- Cuts a torn tail off so the next append starts at a frame boundary. -/
def truncateLog (path : Name) (len : Nat) (files : Directory) : Directory :=
  files.insert path ((contents files path).take len)

def cutTorn (path : Name) (tornAt : Option Nat) (files : Directory) : Directory :=
  match tornAt with
  | some pos => truncateLog path pos files
  | none => files

namespace Store

/-- Reads the highest generation: its snapshot and log, either of which may be absent. A torn tail
is cut off the log in place. -/
def recover [Crc32] (files : Directory) : Except WalError (Recovered × Directory) := do
  let generation := newest files
  let snapshot ← readSnapshot files generation
  let replay ← readLog files generation
  return (⟨generation, snapshot, replay.records, replay.tornAt⟩,
    cutTorn (logPath generation) replay.tornAt files)

def resume (fault : Option Fault) (generation : Word 64) (files : Directory) :
    Fs (Store × Directory) := do
  let (log, files) ← openLog fault (logPath generation) files
  return (⟨generation, log⟩, files)

/-- The first half of `rotate`: the snapshot of the next generation and its empty log. -/
def install (fault : Option Fault) (next : Word 64) (snapshot : Bytes) (files : Directory) :
    Fs (LogWriter × Directory) := do
  let files ← attempt fault .createTmp (fun _ => files) (files.insert (tmpPath next) [])
  let files ← writeAll fault .writeTmp (tmpPath next) snapshot files
  let files ← sync fault .syncTmp files
  let files ← attempt fault .renameTmp (fun _ => files)
    ((files.erase (tmpPath next)).insert (snapshotPath next) (contents files (tmpPath next)))
  let files ← sync fault .syncDirectory files
  openLog fault (logPath next) files

/-- The second half of `rotate`: the old pair goes. A missing file is no error. -/
def retire (fault : Option Fault) (old : Word 64) (files : Directory) : Fs Directory := do
  let files ← attempt fault .removeSnapshot (fun _ => files) (files.erase (snapshotPath old))
  attempt fault .removeLog (fun _ => files) (files.erase (logPath old))

/-- Writes `snapshot` as the next generation, opens its empty log, deletes the old pair. The store
moves to the new log as soon as that is open. -/
def rotate (fault : Option Fault) (snapshot : Bytes) (store : Store) (files : Directory) :
    Except WalError Unit × Store × Directory :=
  let next := store.generation + 1
  match install fault next snapshot files with
  | .error (e, files) => (.error e, store, files)
  | .ok (log, files) =>
    let moved : Store := ⟨next, log⟩
    match retire fault store.generation files with
    | .error (e, files) => (.error e, moved, files)
    | .ok files => (.ok (), moved, files)

end Store

/-- Recovery succeeds with this snapshot and these records. -/
def Loads [Crc32] (files : Directory) (snapshot : Option Snapshot) (records : List Record) : Prop :=
  ∃ r files', Store.recover files = .ok (r, files') ∧ r.snapshot = snapshot ∧ r.records = records

section Recovery

variable [Crc32]

theorem recover_eq_ok {files files' : Directory} {r : Recovered}
    (h : Store.recover files = .ok (r, files')) :
    r.generation = newest files ∧ readSnapshot files (newest files) = .ok r.snapshot ∧
      readLog files (newest files) = .ok ⟨r.records, r.tornAt⟩ ∧
      files' = cutTorn (logPath (newest files)) r.tornAt files := by
  unfold Store.recover at h
  cases hsnapshot : readSnapshot files (newest files) with
  | error e =>
    simp only [hsnapshot] at h
    exact nomatch h
  | ok snapshot =>
    cases hlog : readLog files (newest files) with
    | error e =>
      simp only [hsnapshot, hlog] at h
      exact nomatch h
    | ok replay =>
      simp only [hsnapshot, hlog] at h
      obtain ⟨rfl, rfl⟩ := Prod.mk.inj (Except.ok.inj h)
      exact ⟨rfl, rfl, rfl, rfl⟩

theorem slots_of_recover {files files' : Directory} {r : Recovered} {s : Snapshot}
    (h : Store.recover files = .ok (r, files')) (hs : r.snapshot = some s) :
    s.slots.length < 2 ^ 32 := by
  obtain ⟨-, hread, -, -⟩ := recover_eq_ok h
  rw [hs] at hread
  unfold readSnapshot at hread
  split at hread
  · rename_i bytes _
    cases hdecode : decodeSnapshot bytes with
    | error e =>
      rw [hdecode] at hread
      exact nomatch hread
    | ok s' =>
      rw [hdecode] at hread
      obtain rfl := Option.some.inj (Except.ok.inj hread)
      exact slots_of_decodeSnapshot hdecode
  · exact nomatch hread

theorem loads_iff {files : Directory} {snapshot : Option Snapshot} {records : List Record} :
    Loads files snapshot records ↔ readSnapshot files (newest files) = .ok snapshot ∧
      ∃ tornAt, readLog files (newest files) = .ok ⟨records, tornAt⟩ := by
  constructor
  · rintro ⟨r, files', h, rfl, rfl⟩
    obtain ⟨_, hsnapshot, hlog, _⟩ := recover_eq_ok h
    exact ⟨hsnapshot, r.tornAt, hlog⟩
  · rintro ⟨hsnapshot, tornAt, hlog⟩
    refine ⟨⟨newest files, snapshot, records, tornAt⟩,
      cutTorn (logPath (newest files)) tornAt files, ?_, rfl, rfl⟩
    simp only [Store.recover, hsnapshot, hlog]
    rfl

theorem loads_congr {files files' : Directory} {snapshot : Option Snapshot} {records : List Record}
    (h : ∀ n, generationOf n ≠ none → files'.lookup n = files.lookup n)
    (hl : Loads files snapshot records) : Loads files' snapshot records := by
  have hnewest : newest files' = newest files := newest_congr fun n hn => by
    rw [← AList.lookup_isSome, ← AList.lookup_isSome, h n hn]
  rw [loads_iff] at hl ⊢
  rw [hnewest]
  unfold readSnapshot readLog at hl ⊢
  rwa [h _ (by simp), h _ (by simp)]

/-- A directory whose newest name is a good snapshot with no log, or a log of no frames. -/
theorem loads_fresh {files : Directory} {next : Word 64} {s : Snapshot} {bytes : Bytes}
    (hbytes : decodeSnapshot bytes = .ok s)
    (hle : ∀ n ∈ files, ∀ g, generationOf n = some g → g ≤ next)
    (hsnapshot : files.lookup (snapshotPath next) = some bytes)
    (hlog : files.lookup (logPath next) = none ∨ files.lookup (logPath next) = some logMagic) :
    Loads files (some s) [] := by
  have hmem : snapshotPath next ∈ files := AList.lookup_isSome.1 (by rw [hsnapshot]; rfl)
  rw [loads_iff, newest_eq hmem (generationOf_snapshotPath next) hle]
  constructor
  · rw [readSnapshot, hsnapshot]
    exact congrArg (Except.map some) hbytes
  · refine ⟨none, ?_⟩
    rcases hlog with hlog | hlog
    · rw [readLog, hlog]
    · rw [readLog, hlog]
      exact parseLog_eq_ok.2 ⟨List.prefix_rfl, _, parses_magic, rfl⟩

theorem not_loads_of_empty_log {files : Directory} {next : Word 64}
    (snapshot : Option Snapshot) (records : List Record)
    (hle : ∀ n ∈ files, ∀ g, generationOf n = some g → g ≤ next)
    (hlog : files.lookup (logPath next) = some []) : ¬ Loads files snapshot records := by
  have hmem : logPath next ∈ files := AList.lookup_isSome.1 (by rw [hlog]; rfl)
  rw [loads_iff, newest_eq hmem (generationOf_logPath next) hle, readLog, hlog]
  rintro ⟨_, tornAt, h⟩
  exact nomatch (parseLog_eq_ok.1 h).1

end Recovery

section Rotation

/-- What holds of the result, or of the directory left behind. -/
def Post {α : Type} (m : Fs α) (result : α → Prop) (left : Directory → Prop) : Prop :=
  match m with
  | .ok a => result a
  | .error (_, files) => left files

theorem Post.pure {α : Type} {a : α} {P : α → Prop} {E : Directory → Prop} (h : P a) :
    Post (.ok a) P E := h

theorem Post.bind {α β : Type} {m : Fs α} {f : α → Fs β} {P : α → Prop} {Q : β → Prop}
    {E : Directory → Prop} (hm : Post m P E) (hf : ∀ a, P a → Post (f a) Q E) :
    Post (m >>= f) Q E := by
  cases m with
  | error e => exact hm
  | ok a => exact hf a hm

theorem Post.weaken {α : Type} {m : Fs α} {P Q : α → Prop} {E F : Directory → Prop}
    (hm : Post m P E) (hq : ∀ a, P a → Q a) (hf : ∀ files, E files → F files) : Post m Q F := by
  cases m with
  | error e => exact hf _ hm
  | ok a => exact hq a hm

/-- The call that fails is another one. -/
def Spares (fault : Option Fault) (op : Op) : Prop := ∀ n, fault ≠ some ⟨op, n⟩

private theorem spares_of_ne {fault : Option Fault} {op op' : Op} {n : Nat}
    (h : fault = some ⟨op, n⟩) (hne : op ≠ op') : Spares fault op' := by
  intro m hm
  exact hne (Fault.mk.inj (Option.some.inj (h.symm.trans hm))).1

/-- The call that fails is one before the rename is through. -/
def FailsEarly (fault : Option Fault) : Prop := ∃ f, fault = some f ∧ f.op.beforeRename = true

theorem FailsEarly.spares {fault : Option Fault} (h : FailsEarly fault) :
    Spares fault .writeMagic := by
  obtain ⟨f, rfl, hop⟩ := h
  intro n hn
  rw [Option.some.inj hn] at hop
  exact nomatch hop

private theorem failsEarly_of_eq {fault : Option Fault} {op : Op} {n : Nat}
    (h : fault = some ⟨op, n⟩)
    (hop : op.beforeRename = true) : FailsEarly fault := ⟨_, h, hop⟩

theorem Post.attempt {fault : Option Fault} {op : Op} {left : Nat → Directory}
    {files : Directory} {E : Directory → Prop} (h : ∀ n, fault = some ⟨op, n⟩ → E (left n)) :
    Post (attempt fault op left files) (fun out => out = files ∧ Spares fault op) E := by
  unfold Wal.attempt
  split
  next f =>
    split
    next hop => exact h f.written (by rw [← hop])
    next hop => exact ⟨rfl, fun n hn => hop (congrArg Fault.op (Option.some.inj hn))⟩
  next => exact ⟨rfl, fun n hn => nomatch hn⟩

def Untouched (files left : Directory) : Prop :=
  ∀ n, generationOf n ≠ none → left.lookup n = files.lookup n

/-- The new snapshot is in place and nothing else changed, the new log aside. -/
structure Renamed (files left : Directory) (next : Word 64) (snapshot : Bytes) : Prop where
  snapshot_eq : left.lookup (snapshotPath next) = some snapshot
  other : ∀ n, generationOf n ≠ none → n ≠ snapshotPath next → n ≠ logPath next →
    left.lookup n = files.lookup n

private theorem contents_insert (files : Directory) (path : Name) (bytes : Bytes) :
    contents (files.insert path bytes) path = bytes := by
  rw [contents, AList.lookup_insert, Option.getD_some]

/-- The log of a generation not yet in use: none, or only its magic. -/
def LogUnused (files : Directory) (path : Name) : Prop :=
  files.lookup path = none ∨ files.lookup path = some logMagic

/-- What a failed rotation can leave of a log not yet in use: part of its magic, when writing that
is the call that failed. -/
def LogLeft (fault : Option Fault) (files : Directory) (path : Name) : Prop :=
  (LogUnused files path ∧ Spares fault .writeMagic) ∨
    ∃ n, fault = some ⟨.writeMagic, n⟩ ∧ files.lookup path = some (logMagic.take n)

theorem openLog_post (fault : Option Fault) {path : Name} {files : Directory}
    (h : LogUnused files path) :
    Post (openLog fault path files)
      (fun out => out.1 = ⟨path, logMagic.length⟩ ∧ out.2.lookup path = some logMagic ∧
        (files.lookup path = none → Spares fault .writeMagic) ∧
        ∀ n, n ≠ path → out.2.lookup n = files.lookup n)
      (fun left => LogLeft fault left path ∧ ∀ n, n ≠ path → left.lookup n = files.lookup n) := by
  refine Post.bind (Post.attempt fun _ hf =>
    ⟨.inl ⟨h, spares_of_ne hf (by decide)⟩, fun _ _ => rfl⟩) ?_
  rintro created ⟨rfl, -⟩
  rcases h with hnone | hmagic
  · -- A new file: its magic is written, or as much of it as the failing call wrote.
    have hmem : path ∉ files := AList.lookup_eq_none.1 hnone
    have hother : ∀ bytes n, n ≠ path →
        ((files.insert path []).insert path bytes).lookup n = files.lookup n := fun bytes n hn => by
      rw [AList.lookup_insert_ne hn, AList.lookup_insert_ne hn]
    simp only [if_neg hmem, contents_insert, List.length_nil, if_true]
    refine Post.bind (Post.attempt fun n hn => ⟨.inr ⟨n, hn, ?_⟩, hother _⟩) ?_
    · rw [AList.lookup_insert, contents_insert, List.nil_append]
    · rintro written ⟨rfl, hspares⟩
      rw [contents_insert, List.nil_append]
      refine Post.bind (Post.attempt fun _ _ =>
        ⟨.inl ⟨.inr (AList.lookup_insert _), hspares⟩, hother _⟩) ?_
      rintro synced ⟨rfl, -⟩
      exact Post.pure ⟨rfl, AList.lookup_insert _, fun _ => hspares, hother _⟩
  · have hmem : path ∈ files := AList.lookup_isSome.1 (by rw [hmagic]; rfl)
    have hcontents : contents files path = logMagic := by rw [contents, hmagic, Option.getD_some]
    simp only [if_pos hmem, hcontents]
    rw [if_neg (by decide)]
    refine Post.bind (Post.attempt fun _ hf =>
      ⟨.inl ⟨.inr hmagic, spares_of_ne hf (by decide)⟩, fun _ _ => rfl⟩) ?_
    rintro read ⟨rfl, -⟩
    simp only [hcontents]
    rw [if_neg (by decide), if_neg (by decide)]
    exact Post.pure ⟨rfl, hmagic, fun hnone => (nomatch hmagic.symm.trans hnone), fun _ _ => rfl⟩

theorem openLog_existing {fault : Option Fault} {path : Name} {files left : Directory}
    {image : Bytes} {log : LogWriter} (himage : files.lookup path = some image)
    (hmagic : logMagic <+: image) (h : openLog fault path files = .ok (log, left)) :
    log.path = path ∧ left = files := by
  have hmem : path ∈ files := AList.lookup_isSome.1 (by rw [himage]; rfl)
  have hcontents : contents files path = image := by rw [contents, himage, Option.getD_some]
  have hlen := hmagic.length_le
  have hpost : Post (openLog fault path files)
      (fun out => out.1.path = path ∧ out.2 = files) (fun _ => True) := by
    refine Post.bind (Post.attempt fun _ _ => trivial) ?_
    rintro created ⟨rfl, -⟩
    simp only [if_pos hmem, hcontents]
    rw [if_neg (by have : logMagic.length = 8 := rfl; omega)]
    refine Post.bind (Post.attempt fun _ _ => trivial) ?_
    rintro read ⟨rfl, -⟩
    rw [if_neg (by omega), hcontents, if_neg (not_not.2 (List.prefix_iff_eq_take.1 hmagic).symm)]
    exact Post.pure ⟨rfl, rfl⟩
  rw [h] at hpost
  exact hpost

theorem install_post (fault : Option Fault) {next : Word 64} (snapshot : Bytes)
    {files : Directory} (h : LogUnused files (logPath next)) :
    Post (Store.install fault next snapshot files)
      (fun out => out.1 = ⟨logPath next, logMagic.length⟩ ∧
        (files.lookup (logPath next) = none → Spares fault .writeMagic) ∧
        Renamed files out.2 next snapshot ∧ out.2.lookup (logPath next) = some logMagic)
      (fun left => (Untouched files left ∧ FailsEarly fault) ∨
        (Renamed files left next snapshot ∧ LogLeft fault left (logPath next))) := by
  have htmp : ∀ n, generationOf n ≠ none → n ≠ tmpPath next := fun n hn =>
    ne_of_generationOf (by rwa [generationOf_tmpPath])
  have huntouched : ∀ bytes, Untouched files ((files.insert (tmpPath next) []).insert
      (tmpPath next) bytes) := fun bytes n hn => by
    rw [AList.lookup_insert_ne (htmp n hn), AList.lookup_insert_ne (htmp n hn)]
  refine Post.bind (Post.attempt fun _ hf =>
    .inl ⟨fun _ _ => rfl, failsEarly_of_eq hf rfl⟩) ?_
  rintro created ⟨rfl, -⟩
  refine Post.bind (Post.attempt fun _ hf =>
    .inl ⟨huntouched _, failsEarly_of_eq hf rfl⟩) ?_
  rintro written ⟨rfl, -⟩
  rw [contents_insert, List.nil_append]
  refine Post.bind (Post.attempt fun _ hf =>
    .inl ⟨huntouched _, failsEarly_of_eq hf rfl⟩) ?_
  rintro synced ⟨rfl, -⟩
  refine Post.bind (Post.attempt fun _ hf =>
    .inl ⟨huntouched _, failsEarly_of_eq hf rfl⟩) ?_
  rintro renamed ⟨hrenamed, -⟩
  rw [contents_insert] at hrenamed
  have hlookup : ∀ n, generationOf n ≠ none → n ≠ snapshotPath next →
      renamed.lookup n = files.lookup n := fun n hn hne => by
    rw [hrenamed, AList.lookup_insert_ne hne, AList.lookup_erase_ne (htmp n hn), huntouched _ n hn]
  have hnew : renamed.lookup (snapshotPath next) = some snapshot := by
    rw [hrenamed, AList.lookup_insert]
  have hsame := hlookup (logPath next) (by simp) (snapshotPath_ne_logPath next next).symm
  have hlog : LogUnused renamed (logPath next) := by rwa [LogUnused, hsame]
  refine Post.bind (Post.attempt fun _ hf => .inr ⟨⟨hnew, fun n hn hne _ => hlookup n hn hne⟩,
    .inl ⟨hlog, spares_of_ne hf (by decide)⟩⟩) ?_
  rintro synced ⟨rfl, -⟩
  have hmoved : ∀ left : Directory, (∀ n, n ≠ logPath next → left.lookup n = synced.lookup n) →
      Renamed files left next snapshot := fun left hleft =>
    ⟨(hleft _ (snapshotPath_ne_logPath next next)).trans hnew,
      fun n hn hne hne' => (hleft n hne').trans (hlookup n hn hne)⟩
  refine (openLog_post fault hlog).weaken ?_ fun left hleft => .inr ⟨hmoved _ hleft.2, hleft.1⟩
  rintro ⟨log, left⟩ ⟨hpath, hmagic, hspares, hother⟩
  exact ⟨hpath, fun hnone => hspares (hsame.trans hnone), hmoved _ hother, hmagic⟩

theorem retire_post (fault : Option Fault) (old : Word 64) (files : Directory) :
    let kept := fun left : Directory => (∀ n, n ≠ snapshotPath old → n ≠ logPath old →
      left.lookup n = files.lookup n) ∧ ∀ n ∈ left, n ∈ files
    Post (Store.retire fault old files) kept kept := by
  intro kept
  have hone : kept (files.erase (snapshotPath old)) :=
    ⟨fun n hn _ => AList.lookup_erase_ne hn, fun n hn => (AList.mem_erase.1 hn).2⟩
  refine Post.bind (Post.attempt fun _ _ => ⟨fun _ _ _ => rfl, fun _ hn => hn⟩) ?_
  rintro left ⟨rfl, -⟩
  refine (Post.attempt fun _ _ => hone).weaken ?_ fun _ h => h
  rintro left ⟨rfl, -⟩
  exact ⟨fun n hn hn' => (AList.lookup_erase_ne hn').trans (hone.1 n hn hn'),
    fun n hn => hone.2 n (AList.mem_erase.1 hn).2⟩

end Rotation

end TaskerRT.Wal
