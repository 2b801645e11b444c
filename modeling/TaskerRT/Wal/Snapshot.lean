/- module: TaskerRT/Wal/Snapshot
   source: crates/tasker-wal/src/snapshot.rs
   digest: A full copy of the durable state, and decoding as the inverse of encoding. -/

import TaskerRT.Wal.Log
import TaskerRT.Policy.FairShare

set_option autoImplicit false

namespace TaskerRT.Wal

open Library Domain Policy Decoder

/-- First eight bytes of every snapshot file: `TKRSNP02`. -/
def snapshotMagic : Bytes := [0x54, 0x4B, 0x52, 0x53, 0x4E, 0x50, 0x30, 0x32]

structure Snapshot where
  takenAt : VirtualTime
  slots : List (Slot Job)
  freeHead : Option (Word 32)
  running : List JobId
  ledgers : List Ledger
  deriving DecidableEq, Repr

def putSlot : Slot Job → Option Bytes
  | .occupied generation value => do
    let job ← putJob value
    return putU8 1 ++ putU32 generation ++ job
  | .vacant generation nextFree => some (putU8 0 ++ putU32 generation ++ putOptU32 nextFree)

def putLedger (l : Ledger) : Bytes :=
  putU64 l.usage ++ putU64 l.runningCpu ++ putU32 l.shares ++ putU64 l.accruedTo ++
    putU64 l.decayedTo

def putBody (s : Snapshot) : Option Bytes := do
  let slotCount ← putLen s.slots.length
  let slots ← encodeEach putSlot s.slots
  let runningCount ← putLen s.running.length
  let ledgerCount ← putLen s.ledgers.length
  return putU64 s.takenAt ++ slotCount ++ slots ++ putOptU32 s.freeHead ++ runningCount ++
    s.running.flatMap putId ++ ledgerCount ++ s.ledgers.flatMap putLedger

def encodeSnapshot [Crc32] (s : Snapshot) : Option Bytes := do
  let body ← putBody s
  return snapshotMagic ++ body ++ putU32 (Crc32.hash body)

def getSlot : Decoder CodecError (Slot Job) := do
  if (← Cursor.tag 1) = 1 then
    let generation ← Cursor.u32
    let value ← getJob
    return .occupied generation value
  else
    let generation ← Cursor.u32
    let nextFree ← Cursor.optU32
    return .vacant generation nextFree

def getLedger : Decoder CodecError Ledger := do
  let usage ← Cursor.u64
  let runningCpu ← Cursor.u64
  let shares ← Cursor.u32
  let accruedTo ← Cursor.u64
  let decayedTo ← Cursor.u64
  return ⟨usage, runningCpu, shares, accruedTo, decayedTo⟩

def getBody : Decoder CodecError Snapshot := do
  let takenAt ← Cursor.u64
  let slotCount ← Cursor.u32
  let slots ← many getSlot slotCount.val
  let freeHead ← Cursor.optU32
  let runningCount ← Cursor.u32
  let running ← many getId runningCount.val
  let ledgerCount ← Cursor.u32
  let ledgers ← many getLedger ledgerCount.val
  return ⟨takenAt, slots, freeHead, running, ledgers⟩

def decodeSnapshot [Crc32] (bytes : Bytes) : Except WalError Snapshot :=
  -- Magic (8) plus trailing CRC (4) is the smallest possible file.
  if bytes.length < 12 ∨ bytes.take 8 ≠ snapshotMagic then .error (.badMagic .snapshot)
  else
    let body := (bytes.drop 8).take (bytes.length - 12)
    let crc := ofLe ((bytes.drop 8).drop (bytes.length - 12))
    if (Crc32.hash body).val ≠ crc then .error .snapshotChecksum
    else
      match getBody ⟨body, 0⟩ with
      | .error e => .error (.codec e)
      | .ok (s, _) => .ok s

theorem slots_of_decodeSnapshot [Crc32] {bytes : Bytes} {s : Snapshot}
    (h : decodeSnapshot bytes = .ok s) : s.slots.length < 2 ^ 32 := by
  unfold decodeSnapshot at h
  split at h
  · exact nomatch h
  dsimp only at h
  split at h
  · exact nomatch h
  split at h
  · exact nomatch h
  rename_i s' c hbody
  obtain rfl := Except.ok.inj h
  obtain ⟨takenAt, c₁, -, hbody⟩ := bind_eq_ok hbody
  obtain ⟨slotCount, c₂, -, hbody⟩ := bind_eq_ok hbody
  obtain ⟨slots, c₃, hslots, hbody⟩ := bind_eq_ok hbody
  obtain ⟨freeHead, c₄, -, hbody⟩ := bind_eq_ok hbody
  obtain ⟨runningCount, c₅, -, hbody⟩ := bind_eq_ok hbody
  obtain ⟨running, c₆, -, hbody⟩ := bind_eq_ok hbody
  obtain ⟨ledgerCount, c₇, -, hbody⟩ := bind_eq_ok hbody
  obtain ⟨ledgers, c₈, -, hbody⟩ := bind_eq_ok hbody
  obtain ⟨rfl, -⟩ := Prod.mk.inj (Except.ok.inj hbody)
  show slots.length < 2 ^ 32
  rw [length_of_many hslots]
  exact slotCount.isLt

private theorem reads_slot (slot : Slot Job) (bytes : Bytes) (h : putSlot slot = some bytes) :
    Reads getSlot bytes slot := by
  cases slot with
  | occupied generation value =>
    obtain ⟨job, hjob, hbytes⟩ := Option.bind_eq_some_iff.1 h
    obtain rfl := Option.some.inj hbytes
    rw [List.append_assoc]
    exact (Cursor.reads_tag (by decide)).bind
      ((Cursor.reads_u32 _).bind ((reads_getJob hjob).map _))
  | vacant generation nextFree =>
    obtain rfl := Option.some.inj h
    rw [List.append_assoc]
    exact (Cursor.reads_tag (by decide)).bind
      ((Cursor.reads_u32 _).bind ((Cursor.reads_optU32 _).map _))

private theorem reads_ledger (l : Ledger) (bytes : Bytes) (h : some (putLedger l) = some bytes) :
    Reads getLedger bytes l := by
  obtain rfl := Option.some.inj h
  simp only [putLedger, List.append_assoc]
  exact (Cursor.reads_u64 _).bind ((Cursor.reads_u64 _).bind ((Cursor.reads_u32 _).bind
    ((Cursor.reads_u64 _).bind ((Cursor.reads_u64 _).map _))))

private theorem reads_body {s : Snapshot} {bytes : Bytes} (h : putBody s = some bytes) :
    Reads getBody bytes s := by
  obtain ⟨slotCount, hslotCount, h⟩ := Option.bind_eq_some_iff.1 h
  obtain ⟨slots, hslots, h⟩ := Option.bind_eq_some_iff.1 h
  obtain ⟨runningCount, hrunningCount, h⟩ := Option.bind_eq_some_iff.1 h
  obtain ⟨ledgerCount, hledgerCount, h⟩ := Option.bind_eq_some_iff.1 h
  obtain rfl := Option.some.inj h
  have hlast : Reads (pure (⟨s.takenAt, s.slots, s.freeHead, s.running, s.ledgers⟩ : Snapshot) :
      Decoder CodecError Snapshot) [] s := Reads.pure s
  have hledgers := Cursor.reads_counted reads_ledger hledgerCount
    (encodeEach_some putLedger s.ledgers) (f := fun ledgers =>
      pure (⟨s.takenAt, s.slots, s.freeHead, s.running, ledgers⟩ : Snapshot)) hlast
  rw [List.append_nil] at hledgers
  simp only [List.append_assoc]
  exact (Cursor.reads_u64 _).bind (Cursor.reads_counted reads_slot hslotCount hslots
    ((Cursor.reads_optU32 _).bind (Cursor.reads_counted reads_id hrunningCount
      (encodeEach_some putId s.running) hledgers)))

theorem decodeSnapshot_encodeSnapshot [Crc32] {s : Snapshot} {bytes : Bytes}
    (h : encodeSnapshot s = some bytes) : decodeSnapshot bytes = .ok s := by
  obtain ⟨body, hbody, hbytes⟩ := Option.bind_eq_some_iff.1 h
  obtain rfl := Option.some.inj hbytes
  have hmagic : snapshotMagic.length = 8 := rfl
  have hlength : (snapshotMagic ++ body ++ putU32 (Crc32.hash body)).length - 12 =
      body.length := by
    simp only [List.length_append, length_putU32, hmagic]
    omega
  have hdrop : (snapshotMagic ++ body ++ putU32 (Crc32.hash body)).drop 8 =
      body ++ putU32 (Crc32.hash body) := by
    rw [List.append_assoc, List.drop_left' hmagic]
  have htake : (snapshotMagic ++ body ++ putU32 (Crc32.hash body)).take 8 = snapshotMagic := by
    rw [List.append_assoc, List.take_left' hmagic]
  have hcrc : ofLe (putU32 (Crc32.hash body)) = (Crc32.hash body).val :=
    ofLe_toLe_of_lt (Crc32.hash body).isLt
  unfold decodeSnapshot
  rw [if_neg (by simp [hmagic]; omega)]
  simp only [hlength, hdrop, List.take_left, List.drop_left, hcrc, ne_eq, not_true, if_false,
    (reads_body hbody).run]

end TaskerRT.Wal
