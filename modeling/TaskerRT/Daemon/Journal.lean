/- module: TaskerRT/Daemon/Journal
   source: crates/taskerd/src/journal.rs (Commit, Journal)
   digest: The engine's end of the write-ahead log: one batch per tick. -/

import TaskerRT.Daemon.Command
import TaskerRT.Wal.Crash

set_option autoImplicit false

namespace TaskerRT.Daemon

open Library Domain Wal

/-- One batch: framed records plus everything that must wait for them. -/
structure Commit where
  before : Bytes
  frames : Bytes
  acks : List Reply
  dispatches : List Dispatch
  snapshot : Option Bytes
  deriving DecidableEq

namespace Commit

def empty : Commit := ⟨[], [], [], [], none⟩

def isEmpty (c : Commit) : Bool :=
  c.before.isEmpty && c.frames.isEmpty && c.acks.isEmpty && c.dispatches.isEmpty &&
    c.snapshot.isNone

end Commit

/-- The engine's end of the journal. `sent` is what the writer's channel has been given, and
`logged` every record framed so far; the source keeps neither. -/
structure Journal where
  sent : List Commit
  pending : Commit
  rotateBytes : Nat
  bytesSinceRotate : Nat
  logged : List Record
  deriving DecidableEq

namespace Journal

def new (rotateBytes : Nat) : Journal := ⟨[], Commit.empty, rotateBytes, 0, []⟩

def grow (j : Journal) (r : Record) (bytes : Bytes) : Journal :=
  { j with
    pending := { j.pending with frames := j.pending.frames ++ bytes }
    bytesSinceRotate := j.bytesSinceRotate + bytes.length
    logged := j.logged ++ [r] }

def record [Crc32] (j : Journal) (r : Record) : Option Journal := do
  let bytes ← r.encode
  return j.grow r bytes

def recordSubmitted [Crc32] (j : Journal) (id : JobId) (job : Job) : Option Journal := do
  let bytes ← encodeSubmitted id job
  return j.grow (.submitted id job) bytes

def defer (j : Journal) (ack : Reply) : Journal :=
  { j with pending := { j.pending with acks := j.pending.acks ++ [ack] } }

def hold (j : Journal) (d : Dispatch) : Journal :=
  { j with pending := { j.pending with dispatches := j.pending.dispatches ++ [d] } }

/-- True once the log has outgrown the rotation threshold and no snapshot is queued. -/
def wantsSnapshot (j : Journal) : Bool :=
  j.pending.snapshot.isNone && decide (j.rotateBytes ≤ j.bytesSinceRotate)

/-- Queues an encoded snapshot. Everything recorded so far predates it. -/
def attachSnapshot (j : Journal) (bytes : Bytes) : Journal :=
  { j with
    pending := { j.pending with
      before := j.pending.frames
      frames := []
      snapshot := some bytes }
    bytesSinceRotate := 0 }

/-- Hands the batch to the writer, or keeps it when the channel has no room. -/
def commit (j : Journal) (room : Bool) : Journal :=
  if j.pending.isEmpty then j
  else if room then { j with sent := j.sent ++ [j.pending], pending := Commit.empty }
  else j

def flush (j : Journal) : Journal := j.commit true

end Journal

end TaskerRT.Daemon
