/- module: TaskerRT/Wal/Record
   source: crates/tasker-wal/src/record.rs
   digest: The record kinds, their frames, and decoding as the inverse of encoding. -/

import TaskerRT.Wal.Codec

set_option autoImplicit false

namespace TaskerRT.Wal

open Library Domain Decoder

/-- One state transition the engine made. -/
inductive Record where
  | submitted (id : JobId) (job : Job)
  | dispatched (id : JobId) (time : VirtualTime)
  | completed (id : JobId) (time : VirtualTime)
  | failed (id : JobId) (time : VirtualTime)
  | cancelled (id : JobId) (time : VirtualTime)
  | requeued (id : JobId) (time : VirtualTime)
  | forgotten (id : JobId)
  | preempted (id : JobId) (time : VirtualTime)
  deriving DecidableEq, Repr

/-- Frame header: payload length, then CRC-32 of the payload. -/
def frameHeader : Nat := 8

def frame [Crc32] (payload : Bytes) : Option Bytes := do
  let len ← putLen payload.length
  return len ++ putU32 (Crc32.hash payload) ++ payload

def stateTag (state : JobState) : Word 8 := Word.ofNat 8 (JobState.all.idxOf state)

def putId (id : JobId) : Bytes := putU64 id.bits

/-- Job layout: account, class, submit time, request, walltime, deps, payload, state, evictions. -/
def putJob (job : Job) : Option Bytes := do
  let deps ← putLen job.deps.length
  let payload ← putBytes job.payload
  return putU32 job.account ++ putU8 job.priorityClass.ordinal ++ putU64 job.submitTime ++
    putU32 job.request.cpuMillis ++ putU64 job.request.memBytes ++ putU8 job.request.gpus ++
    putU64 job.walltimeLimit ++ deps ++ job.deps.flatMap putId ++ payload ++
    putU8 (stateTag job.state) ++ putU8 job.preemptions

def putEvent (kind : Word 8) (id : JobId) (time : VirtualTime) : Bytes :=
  putU8 kind ++ putId id ++ putU64 time

/-- Frames a `submitted` record straight from a borrowed job. -/
def encodeSubmitted [Crc32] (id : JobId) (job : Job) : Option Bytes := do
  let body ← putJob job
  frame (putU8 1 ++ putId id ++ body)

def getId : Decoder CodecError JobId := do
  let bits ← Cursor.u64
  return ⟨bits⟩

def getJob : Decoder CodecError Job := do
  let account ← Cursor.u32
  let priorityClass ← Cursor.oneOf PriorityClass.all
  let submitTime ← Cursor.u64
  let cpu ← Cursor.u32
  let mem ← Cursor.u64
  let gpus ← Cursor.u8
  let walltime ← Cursor.u64
  let job := Job.new account priorityClass submitTime ⟨cpu, mem, gpus⟩ walltime
  let count ← Cursor.u32
  let deps ← many getId count.val
  let payload ← Cursor.bytes
  let state ← Cursor.oneOf JobState.all
  let preemptions ← Cursor.u8
  return { job with deps := deps, payload := payload, state := state, preemptions := preemptions }

namespace Record

def payload : Record → Option Bytes
  | submitted id job => do
    let body ← putJob job
    return putU8 1 ++ putId id ++ body
  | dispatched id time => some (putEvent 2 id time)
  | completed id time => some (putEvent 3 id time)
  | failed id time => some (putEvent 4 id time)
  | cancelled id time => some (putEvent 5 id time)
  | requeued id time => some (putEvent 6 id time)
  | forgotten id => some (putU8 7 ++ putId id)
  | preempted id time => some (putEvent 8 id time)

def encode [Crc32] (r : Record) : Option Bytes := do
  let payload ← r.payload
  frame payload

def get : Decoder CodecError Record := do
  let kind ← Cursor.tag 8
  let id ← getId
  match kind.val with
  | 1 =>
    let job ← getJob
    return submitted id job
  | 7 => return forgotten id
  | _ =>
    -- Every other kind is `id` then `time`.
    let time ← Cursor.u64
    match kind.val with
    | 2 => return dispatched id time
    | 3 => return completed id time
    | 4 => return failed id time
    | 5 => return cancelled id time
    | 6 => return requeued id time
    | 8 => return preempted id time
    | _ => fail (.badTag kind 0)

/-- Decodes one frame's payload (the bytes after the header). -/
def decode (payload : Bytes) : Except CodecError Record :=
  (get ⟨payload, 0⟩).map (·.1)

def id : Record → JobId
  | submitted id _ => id
  | dispatched id _ => id
  | completed id _ => id
  | failed id _ => id
  | cancelled id _ => id
  | requeued id _ => id
  | forgotten id => id
  | preempted id _ => id

end Record

theorem frame_eq_some [Crc32] {payload bytes : Bytes} (h : frame payload = some bytes) :
    payload.length < 2 ^ 32 ∧ bytes =
      putU32 (Word.ofNat 32 payload.length) ++ putU32 (Crc32.hash payload) ++ payload := by
  obtain ⟨n, hn, hbytes⟩ := Option.bind_eq_some_iff.1 h
  obtain ⟨hlt, rfl⟩ := putLen_eq_some hn
  exact ⟨hlt, (Option.some.inj hbytes).symm⟩

theorem encodeSubmitted_eq [Crc32] (id : JobId) (job : Job) :
    encodeSubmitted id job = (Record.submitted id job).encode := by
  simp only [encodeSubmitted, Record.encode, Record.payload, Option.bind_eq_bind,
    Option.bind_assoc, Option.pure_def, Option.bind_some]

private theorem stateTag_spec (state : JobState) :
    JobState.all[(stateTag state).val]? = some state := by
  cases state <;> decide

private theorem ordinal_spec (c : PriorityClass) :
    PriorityClass.all[c.ordinal.val]? = some c := by
  cases c <;> decide

private theorem reads_getId (id : JobId) : Reads getId (putId id) id :=
  (Cursor.reads_u64 id.bits).map JobId.mk

theorem reads_id (id : JobId) (bytes : Bytes) (h : some (putId id) = some bytes) :
    Reads getId bytes id := Option.some.inj h ▸ reads_getId id

theorem reads_getJob {job : Job} {bytes : Bytes} (h : putJob job = some bytes) :
    Reads getJob bytes job := by
  obtain ⟨n, hn, h⟩ := Option.bind_eq_some_iff.1 h
  obtain ⟨payload, hpayload, hbytes⟩ := Option.bind_eq_some_iff.1 h
  obtain rfl := Option.some.inj hbytes
  simp only [List.append_assoc]
  refine (Cursor.reads_u32 _).bind ((Cursor.reads_oneOf (ordinal_spec _)).bind
    ((Cursor.reads_u64 _).bind ((Cursor.reads_u32 _).bind ((Cursor.reads_u64 _).bind
      ((Cursor.reads_u8 _).bind ((Cursor.reads_u64 _).bind ?_))))))
  exact Cursor.reads_counted reads_id hn (encodeEach_some putId job.deps)
    ((Cursor.reads_bytes hpayload).bind ((Cursor.reads_oneOf (stateTag_spec _)).bind
      ((Cursor.reads_u8 _).map _)))

namespace Record

private theorem reads_get {r : Record} {bytes : Bytes} (h : r.payload = some bytes) :
    Reads get bytes r := by
  cases r with
  | submitted id job =>
    obtain ⟨body, hbody, hbytes⟩ := Option.bind_eq_some_iff.1 h
    obtain rfl := Option.some.inj hbytes
    rw [List.append_assoc]
    exact (Cursor.reads_tag (by decide)).bind ((reads_getId id).bind
      ((reads_getJob hbody).map (submitted id)))
  | forgotten id =>
    obtain rfl := Option.some.inj h
    exact (Cursor.reads_tag (by decide)).bind ((reads_getId id).map forgotten)
  | dispatched id time | completed id time | failed id time | cancelled id time
  | requeued id time | preempted id time =>
    obtain rfl := Option.some.inj h
    rw [putEvent, List.append_assoc]
    exact (Cursor.reads_tag (by decide)).bind ((reads_getId id).bind
      ((Cursor.reads_u64 time).map _))

theorem decode_payload {r : Record} {bytes : Bytes} (h : r.payload = some bytes) :
    decode bytes = .ok r := by
  rw [decode, (reads_get h).run]
  rfl

end Record

end TaskerRT.Wal
