/- module: TaskerRT/Daemon/Writer
   source: crates/taskerd/src/journal.rs (persist, run_writer)
   digest: The writer thread, and when an acknowledged batch is found again. -/

import TaskerRT.Daemon.Journal

set_option autoImplicit false

namespace TaskerRT.Daemon

open Library Domain Wal

/-- How hard each batch is pushed toward the disk. -/
inductive SyncPolicy where
  | full
  | data
  | none
  deriving DecidableEq, Repr

def append (fault : Option Fault) (op : Op) (bytes : Bytes) (store : Store) (files : Directory) :
    Fs (Store × Directory) := do
  let files ← writeAll fault op store.log.path bytes files
  return ({ store with log := { store.log with len := store.log.len + bytes.length } }, files)

/-- Syncs the current log. Without a policy there is nothing to fail. -/
def syncLog (fault : Option Fault) (op : Op) (policy : SyncPolicy) (files : Directory) :
    Fs Directory :=
  match policy with
  | .none => .ok files
  | _ => sync fault op files

def appendSynced (fault : Option Fault) (appendOp syncOp : Op) (policy : SyncPolicy)
    (bytes : Bytes) (store : Store) (files : Directory) : Fs (Store × Directory) := do
  let (store, files) ← append fault appendOp bytes store files
  let files ← syncLog fault syncOp policy files
  return (store, files)

/-- The frames that predate the snapshot go to the retiring log. -/
def persistBefore (fault : Option Fault) (policy : SyncPolicy) (commit : Commit) (store : Store)
    (files : Directory) : Fs (Store × Directory) :=
  if commit.before = [] then .ok (store, files)
  else appendSynced fault .appendBefore .syncBefore policy commit.before store files

/-- The store rotates onto the snapshot, if there is one. -/
def persistSnapshot (fault : Option Fault) (commit : Commit) (store : Store) (files : Directory) :
    Except WalError Unit × Store × Directory :=
  match commit.snapshot with
  | none => (.ok (), store, files)
  | some snapshot => store.rotate fault snapshot files

/-- Frames that predate the snapshot go to the retiring log, then the store rotates, then the rest
goes to the new log. -/
def persist (fault : Option Fault) (policy : SyncPolicy) (commit : Commit) (store : Store)
    (files : Directory) : Except WalError Unit × Store × Directory :=
  match persistBefore fault policy commit store files with
  | .error (e, files) => (.error e, store, files)
  | .ok (store, files) =>
    match persistSnapshot fault commit store files with
    | (.error e, store, files) => (.error e, store, files)
    | (.ok (), store, files) =>
      match appendSynced fault .appendFrames .syncFrames policy commit.frames store files with
      | .error (e, files) => (.error e, store, files)
      | .ok (store, files) => (.ok (), store, files)

/-- The writer thread: its store and directory, and what it has released. -/
structure Writer where
  store : Store
  files : Directory
  acked : List Reply
  pushed : List Dispatch

/-- One batch of `run_writer`: persisted, then what waited on it is released, or dropped. The flag
says which. -/
def Writer.take (policy : SyncPolicy) (w : Writer) (commit : Commit) (fault : Option Fault) :
    Writer × Bool :=
  match persist fault policy commit w.store w.files with
  | (.error _, store, files) => ({ w with store := store, files := files }, false)
  | (.ok (), store, files) =>
    ({ store := store, files := files, acked := w.acked ++ commit.acks,
       pushed := w.pushed ++ commit.dispatches }, true)

/-- A batch together with what its bytes stand for. -/
structure Batch [Crc32] where
  commit : Commit
  before : List Record
  frames : List Record
  snapshot : Option Snapshot
  before_eq : encodeAll before = some commit.before
  frames_eq : encodeAll frames = some commit.frames
  snapshot_eq : commit.snapshot.map decodeSnapshot = snapshot.map Except.ok

section Run

variable [Crc32]

/-- Every batch the writer took, with whether its acknowledgements were released. -/
abbrev History := List (Batch × Bool)

/-- `run_writer` over a sequence of batches, each with the call of it that fails. -/
def Writer.run (policy : SyncPolicy) (w : Writer) :
    List (Batch × Option Fault) → Writer × History :=
  List.foldl (fun (w, history) (b, fault) =>
    let (w, acked) := w.take policy b.commit fault
    (w, history ++ [(b, acked)])) (w, [])

def TakenBy (snapshot : Option Snapshot) (later : History) : Prop :=
  ∃ d ∈ later, d.1.snapshot.isSome = true ∧ snapshot = d.1.snapshot

/-- The records of a batch are in the log, or older than the snapshot. -/
structure Kept (b : Batch) (later : History) (snapshot : Option Snapshot)
    (records : List Record) : Prop where
  before : b.before <:+: records ∨ TakenBy snapshot ((b, true) :: later)
  frames : b.frames <:+: records ∨ TakenBy snapshot later

def Covered (history : History) (snapshot : Option Snapshot) (records : List Record) : Prop :=
  ∀ b later, (b, true) :: later <:+ history → Kept b later snapshot records

end Run

end TaskerRT.Daemon
