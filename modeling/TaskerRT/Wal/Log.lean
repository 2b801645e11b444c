/- module: TaskerRT/Wal/Log
   source: crates/tasker-wal/src/log.rs
   digest: A log image is magic and frames, and parsing one stops at the first torn frame. -/

import TaskerRT.Wal.Record

set_option autoImplicit false

namespace TaskerRT.Wal

open Library Domain

inductive IoError where
  | notFound
  | other
  deriving DecidableEq, Repr

inductive FileKind where
  | log
  | snapshot
  deriving DecidableEq, Repr

/-- Anything that can go wrong reading or writing the log. -/
inductive WalError where
  | io (error : IoError)
  | badMagic (kind : FileKind)
  | snapshotChecksum
  | codec (error : CodecError)
  deriving DecidableEq, Repr

def logMagic : Bytes := [0x54, 0x4B, 0x52, 0x57, 0x41, 0x4C, 0x30, 0x32]

/-- Records recovered from a log, and where a torn tail began if there was one. -/
structure Replay where
  records : List Record
  tornAt : Option Nat
  deriving DecidableEq, Repr

/-- The bytes from `start` up to `stop`, when they are there. -/
def slice (bytes : Bytes) (start stop : Nat) : Option Bytes :=
  if start ≤ stop ∧ stop ≤ bytes.length then some ((bytes.drop start).take (stop - start))
  else none

/-- The intact frame at an offset: its payload and the offset after it. -/
def frameAt [Crc32] (bytes : Bytes) (pos : Nat) : Option (Bytes × Nat) := do
  let header ← slice bytes pos (pos + frameHeader)
  let len := ofLe (header.take 4)
  let crc := ofLe (header.drop 4)
  let payload ← slice bytes (pos + frameHeader) (pos + frameHeader + len)
  if (Crc32.hash payload).val ≠ crc then none
  else some (payload, pos + frameHeader + len)

/-- The frames from an offset on, and the offset at which they stop. At the end of the image there
is no header to read, which is how the loop of the source ends. -/
def parseLoop [Crc32] (bytes : Bytes) :
    Nat → Nat → List Record → Except WalError (List Record × Nat)
  | 0, pos, records => .ok (records, pos)
  | fuel + 1, pos, records =>
    match frameAt bytes pos with
    | none => .ok (records, pos)
    | some (payload, next) =>
      match Record.decode payload with
      | .error e => .error (.codec e)
      | .ok r => parseLoop bytes fuel next (records ++ [r])

def parseLog [Crc32] (bytes : Bytes) : Except WalError Replay :=
  if bytes.take logMagic.length = logMagic then do
    let (records, pos) ← parseLoop bytes bytes.length logMagic.length []
    return { records := records, tornAt := if pos < bytes.length then some pos else none }
  else .error (.badMagic .log)

/-- The frames of a list of records, one after the other. -/
def encodeAll [Crc32] (records : List Record) : Option Bytes := encodeEach Record.encode records

theorem slice_eq_some {bytes out : Bytes} {start stop : Nat} :
    slice bytes start stop = some out ↔
      start ≤ stop ∧ stop ≤ bytes.length ∧ out = (bytes.drop start).take (stop - start) := by
  unfold slice
  split
  next h => simp only [Option.some.injEq, h.1, h.2, true_and, eq_comm]
  next h =>
    constructor
    · intro hc
      exact nomatch hc
    · rintro ⟨h₁, h₂, _⟩
      exact absurd ⟨h₁, h₂⟩ h

private theorem slice_middle (before middle after : Bytes) :
    slice (before ++ middle ++ after) before.length (before.length + middle.length) =
      some middle := by
  rw [slice_eq_some]
  refine ⟨by omega, by simp only [List.length_append]; omega, ?_⟩
  rw [List.append_assoc, List.drop_left, Nat.add_sub_cancel_left, List.take_left]

private theorem slice_append {bytes out : Bytes} {start stop : Nat} (more : Bytes)
    (h : slice bytes start stop = some out) : slice (bytes ++ more) start stop = some out := by
  obtain ⟨h₁, h₂, rfl⟩ := slice_eq_some.1 h
  refine slice_eq_some.2 ⟨h₁, by simp only [List.length_append]; omega, ?_⟩
  rw [List.drop_append_of_le_length (by omega),
    List.take_append_of_le_length (by simp only [List.length_drop]; omega)]

private theorem slice_take {bytes out : Bytes} {start stop len : Nat} (hle : stop ≤ len)
    (h : slice bytes start stop = some out) : slice (bytes.take len) start stop = some out := by
  obtain ⟨h₁, h₂, rfl⟩ := slice_eq_some.1 h
  refine slice_eq_some.2 ⟨h₁, by simp only [List.length_take]; omega, ?_⟩
  rw [List.drop_take, List.take_take, Nat.min_eq_left (by omega)]

section Parses

variable [Crc32]

/-- From `pos` on, these records stand in frames and the next frame is missing or torn at `stop`. -/
inductive Parses (bytes : Bytes) : Nat → List Record → Nat → Prop where
  | stop {pos : Nat} (h : frameAt bytes pos = none) : Parses bytes pos [] pos
  | frame {pos next stop : Nat} {payload : Bytes} {r : Record} {rs : List Record}
      (h : frameAt bytes pos = some (payload, next)) (hr : Record.decode payload = .ok r)
      (rest : Parses bytes next rs stop) : Parses bytes pos (r :: rs) stop

theorem frameAt_eq_some {bytes payload : Bytes} {pos next : Nat} :
    frameAt bytes pos = some (payload, next) ↔
      ∃ header, slice bytes pos (pos + frameHeader) = some header ∧
        next = pos + frameHeader + ofLe (header.take 4) ∧
        slice bytes (pos + frameHeader) next = some payload ∧
        (Crc32.hash payload).val = ofLe (header.drop 4) := by
  constructor
  · intro h
    obtain ⟨header, hheader, h⟩ := Option.bind_eq_some_iff.1 h
    obtain ⟨found, hfound, h⟩ := Option.bind_eq_some_iff.1 h
    split at h
    · exact nomatch h
    next hcrc =>
      obtain ⟨rfl, rfl⟩ := Prod.mk.inj (Option.some.inj h)
      exact ⟨header, hheader, rfl, hfound, not_not.1 hcrc⟩
  · rintro ⟨header, hheader, rfl, hfound, hcrc⟩
    refine Option.bind_eq_some_iff.2 ⟨header, hheader, Option.bind_eq_some_iff.2 ⟨payload, hfound, ?_⟩⟩
    rw [if_neg (not_not.2 hcrc)]

private theorem frameAt_append {bytes payload : Bytes} {pos next : Nat} (more : Bytes)
    (h : frameAt bytes pos = some (payload, next)) :
    frameAt (bytes ++ more) pos = some (payload, next) := by
  obtain ⟨header, hheader, hnext, hpayload, hcrc⟩ := frameAt_eq_some.1 h
  exact frameAt_eq_some.2
    ⟨header, slice_append more hheader, hnext, slice_append more hpayload, hcrc⟩

private theorem frameAt_lt {bytes payload : Bytes} {pos next : Nat}
    (h : frameAt bytes pos = some (payload, next)) : pos < next ∧ next ≤ bytes.length := by
  obtain ⟨header, _, hnext, hpayload, _⟩ := frameAt_eq_some.1 h
  have := (slice_eq_some.1 hpayload).2.1
  have : frameHeader = 8 := rfl
  omega

namespace Parses

private theorem of_none {bytes : Bytes} {pos stop : Nat} {rs : List Record}
    (h : frameAt bytes pos = none) : Parses bytes pos rs stop ↔ rs = [] ∧ stop = pos := by
  constructor
  · intro hp
    cases hp with
    | stop => exact ⟨rfl, rfl⟩
    | frame h' => exact nomatch h.symm.trans h'
  · rintro ⟨rfl, rfl⟩
    exact .stop h

theorem of_some {bytes payload : Bytes} {pos next stop : Nat} {rs : List Record}
    (h : frameAt bytes pos = some (payload, next)) :
    Parses bytes pos rs stop ↔
      ∃ r rest, Record.decode payload = .ok r ∧ rs = r :: rest ∧ Parses bytes next rest stop := by
  constructor
  · intro hp
    cases hp with
    | stop h' => exact nomatch h.symm.trans h'
    | frame h' hr rest =>
      obtain ⟨rfl, rfl⟩ := Prod.mk.inj (Option.some.inj (h.symm.trans h'))
      exact ⟨_, _, hr, rfl, rest⟩
  · rintro ⟨r, rest, hr, rfl, hrest⟩
    exact .frame h hr hrest

end Parses

private theorem parsed_stop {bytes : Bytes} {pos stop : Nat} {acc out : List Record}
    (h : frameAt bytes pos = none) :
    Except.ok (acc, pos) = (.ok (out, stop) : Except WalError _) ↔
      ∃ rs, out = acc ++ rs ∧ Parses bytes pos rs stop := by
  simp [Parses.of_none h, eq_comm]

private theorem parseLoop_eq_ok {bytes : Bytes} {fuel pos stop : Nat} {acc out : List Record}
    (hfuel : bytes.length ≤ fuel + pos) :
    parseLoop bytes fuel pos acc = .ok (out, stop) ↔
      ∃ rs, out = acc ++ rs ∧ Parses bytes pos rs stop := by
  induction fuel generalizing pos acc with
  | zero =>
    refine parsed_stop (Option.eq_none_iff_forall_ne_some.2 fun found h => ?_)
    have := frameAt_lt h
    omega
  | succ fuel ih =>
    rw [parseLoop]
    cases hframe : frameAt bytes pos with
    | none => exact parsed_stop hframe
    | some found =>
      obtain ⟨payload, next⟩ := found
      have hlt := frameAt_lt hframe
      cases hdecode : Record.decode payload with
      | error e => simp [Parses.of_some hframe, hdecode]
      | ok r =>
        simp only [hdecode]
        rw [ih (by omega)]
        constructor
        · rintro ⟨rs, rfl, hrest⟩
          exact ⟨r :: rs, by simp, .frame hframe hdecode hrest⟩
        · rintro ⟨_, rfl, hp⟩
          obtain ⟨_, rest, hr, rfl, hrest⟩ := (Parses.of_some hframe).1 hp
          obtain rfl := Except.ok.inj (hdecode.symm.trans hr)
          exact ⟨rest, by simp, hrest⟩

theorem parseLog_eq_ok {bytes : Bytes} {replay : Replay} :
    parseLog bytes = .ok replay ↔
      logMagic <+: bytes ∧ ∃ stop, Parses bytes logMagic.length replay.records stop ∧
        replay.tornAt = if stop < bytes.length then some stop else none := by
  unfold parseLog
  rw [List.prefix_iff_eq_take, eq_comm (a := logMagic)]
  split
  next hmagic =>
    have hloop : ∀ stop, parseLoop bytes bytes.length logMagic.length [] =
        .ok (replay.records, stop) ↔
          ∃ rs, replay.records = [] ++ rs ∧ Parses bytes logMagic.length rs stop := fun stop =>
      parseLoop_eq_ok (by omega)
    constructor
    · intro h
      cases hres : parseLoop bytes bytes.length logMagic.length [] with
      | error e =>
        rw [hres] at h
        exact nomatch h
      | ok found =>
        obtain ⟨records, pos⟩ := found
        rw [hres] at h
        obtain rfl := Except.ok.inj h
        obtain ⟨rs, hrs, hparse⟩ := (hloop pos).1 hres
        obtain rfl : rs = records := hrs.symm
        exact ⟨hmagic, pos, hparse, rfl⟩
    · rintro ⟨_, stop, hparse, htorn⟩
      rw [(hloop stop).2 ⟨replay.records, rfl, hparse⟩]
      exact congrArg Except.ok (by cases replay; simp_all)
  next hmagic =>
    constructor
    · intro h
      exact nomatch h
    · rintro ⟨h, _⟩
      exact absurd h hmagic

theorem Parses.append {bytes more : Bytes} {pos finish stop : Nat} {rs rs' : List Record}
    (h : Parses bytes pos rs finish) (hmore : Parses (bytes ++ more) finish rs' stop) :
    Parses (bytes ++ more) pos (rs ++ rs') stop := by
  induction h with
  | stop => exact hmore
  | frame h hr _ ih => exact .frame (frameAt_append more h) hr (ih hmore)

theorem Parses.le {bytes : Bytes} {pos stop : Nat} {rs : List Record}
    (h : Parses bytes pos rs stop) : pos ≤ stop := by
  induction h with
  | stop => exact le_rfl
  | frame h _ _ ih => exact le_trans (frameAt_lt h).1.le ih

theorem Parses.stop_le {bytes : Bytes} {pos stop : Nat} {rs : List Record}
    (h : Parses bytes pos rs stop) (hpos : pos ≤ bytes.length) : stop ≤ bytes.length := by
  induction h with
  | stop => exact hpos
  | frame h _ _ ih => exact ih (frameAt_lt h).2

theorem Parses.unique {bytes : Bytes} {pos stop stop' : Nat} {rs rs' : List Record}
    (h : Parses bytes pos rs stop) (h' : Parses bytes pos rs' stop') : rs = rs' ∧ stop = stop' := by
  induction h generalizing rs' with
  | stop hnone =>
    obtain ⟨rfl, rfl⟩ := (Parses.of_none hnone).1 h'
    exact ⟨rfl, rfl⟩
  | frame hsome hr _ ih =>
    obtain ⟨r, rest, hr', rfl, hrest⟩ := (Parses.of_some hsome).1 h'
    obtain rfl := Except.ok.inj (hr.symm.trans hr')
    obtain ⟨rfl, rfl⟩ := ih hrest
    exact ⟨rfl, rfl⟩

theorem Parses.take {bytes : Bytes} {pos stop : Nat} {rs : List Record}
    (h : Parses bytes pos rs stop) : Parses (bytes.take stop) pos rs stop := by
  induction h with
  | @stop pos h =>
    refine .stop (Option.eq_none_iff_forall_ne_some.2 fun found hsome => ?_)
    have := frameAt_lt hsome
    simp only [List.length_take] at this
    omega
  | frame h hr rest ih =>
    obtain ⟨header, hheader, hnext, hpayload, hcrc⟩ := frameAt_eq_some.1 h
    have hle := rest.le
    refine .frame (frameAt_eq_some.2 ⟨header, slice_take (by omega) hheader, hnext,
      slice_take hle hpayload, hcrc⟩) hr ih

private theorem frameAt_framed {payload after : Bytes} (before : Bytes)
    (hlt : payload.length < 2 ^ 32) :
    frameAt (before ++ (putU32 (Word.ofNat 32 payload.length) ++ putU32 (Crc32.hash payload) ++
      payload) ++ after) before.length = some (payload, before.length + (8 + payload.length)) := by
  have hlen : ofLe (putU32 (Word.ofNat 32 payload.length)) = payload.length := by
    rw [putU32, Word.val_ofNat_of_lt hlt, ofLe_toLe_of_lt hlt]
  have hcrc : ofLe (putU32 (Crc32.hash payload)) = (Crc32.hash payload).val :=
    ofLe_toLe_of_lt (Crc32.hash payload).isLt
  have hheader := slice_middle before (putU32 (Word.ofNat 32 payload.length) ++
    putU32 (Crc32.hash payload)) (payload ++ after)
  have hpayload := slice_middle (before ++ (putU32 (Word.ofNat 32 payload.length) ++
    putU32 (Crc32.hash payload))) payload after
  simp only [List.length_append, length_putU32, List.append_assoc, Nat.reduceAdd]
    at hheader hpayload
  refine frameAt_eq_some.2 ⟨putU32 (Word.ofNat 32 payload.length) ++ putU32 (Crc32.hash payload),
    ?_, ?_, ?_, ?_⟩
  · simpa only [List.append_assoc, frameHeader] using hheader
  · rw [List.take_left' (length_putU32 _), hlen, frameHeader, Nat.add_assoc]
  · simpa only [List.append_assoc, frameHeader, Nat.add_assoc] using hpayload
  · rw [List.drop_left' (length_putU32 _), hcrc]

private theorem encode_eq_some {r : Record} {bytes : Bytes} (h : r.encode = some bytes) :
    ∃ payload, r.payload = some payload ∧ payload.length < 2 ^ 32 ∧ bytes =
      putU32 (Word.ofNat 32 payload.length) ++ putU32 (Crc32.hash payload) ++ payload := by
  obtain ⟨payload, hpayload, hframe⟩ := Option.bind_eq_some_iff.1 h
  exact ⟨payload, hpayload, frame_eq_some hframe⟩

theorem frameAt_encode {r : Record} {bytes : Bytes} (before after : Bytes)
    (h : r.encode = some bytes) :
    ∃ payload, Record.decode payload = .ok r ∧
      frameAt (before ++ bytes ++ after) before.length =
        some (payload, before.length + bytes.length) := by
  obtain ⟨payload, hpayload, hlt, rfl⟩ := encode_eq_some h
  refine ⟨payload, Record.decode_payload hpayload, ?_⟩
  rw [frameAt_framed before hlt]
  simp only [List.length_append, length_putU32, Nat.reduceAdd]

theorem frameAt_cut {r : Record} {bytes cut : Bytes} (before : Bytes)
    (h : r.encode = some bytes) (hcut : cut <+: bytes) (hlt : cut.length < bytes.length) :
    frameAt (before ++ cut) before.length = none := by
  refine Option.eq_none_iff_forall_ne_some.2 fun ⟨payload', next⟩ hsome => ?_
  obtain ⟨payload, hpayload, hframe⟩ := frameAt_encode before [] h
  obtain ⟨rest, rfl⟩ := hcut
  -- Bytes to the right do not change a frame, so the whole frame would end inside the cut.
  have hmore := frameAt_append rest hsome
  rw [List.append_nil, ← List.append_assoc, hmore] at hframe
  obtain ⟨-, rfl⟩ := Prod.mk.inj (Option.some.inj hframe)
  have := (frameAt_lt hsome).2
  simp only [List.length_append] at this hlt
  omega

theorem encodeAll_eq_nil {rs : List Record} (h : encodeAll rs = some []) : rs = [] := by
  cases rs with
  | nil => rfl
  | cons r rs =>
    obtain ⟨head, tail, hhead, htail, hnil⟩ := encodeEach_cons h
    obtain ⟨payload, _, _, rfl⟩ := encode_eq_some hhead
    have := congrArg List.length hnil
    simp at this
    omega

theorem parses_encodeAll {rs : List Record} {bytes : Bytes} (before : Bytes)
    (h : encodeAll rs = some bytes) :
    Parses (before ++ bytes) before.length rs (before ++ bytes).length := by
  induction rs generalizing before bytes with
  | nil =>
    obtain rfl := Option.some.inj h
    rw [List.append_nil]
    refine .stop (Option.eq_none_iff_forall_ne_some.2 fun found hsome => ?_)
    have := frameAt_lt hsome
    omega
  | cons r rs ih =>
    obtain ⟨head, tail, hhead, htail, rfl⟩ := encodeEach_cons h
    obtain ⟨payload, hdecode, hframe⟩ := frameAt_encode before tail hhead
    have hrest := ih (before ++ head) htail
    rw [List.append_assoc, @List.length_append _ before head] at hrest
    rw [List.append_assoc] at hframe
    exact .frame hframe hdecode hrest

theorem parses_magic : Parses logMagic logMagic.length [] logMagic.length := by
  have h := parses_encodeAll logMagic (show encodeAll [] = some [] from rfl)
  rwa [List.append_nil] at h

theorem parses_cut {rs : List Record} {bytes cut : Bytes} (before : Bytes)
    (h : encodeAll rs = some bytes) (hcut : cut <+: bytes) :
    ∃ kept stop, Parses (before ++ cut) before.length kept stop := by
  induction rs generalizing before bytes cut with
  | nil =>
    obtain rfl := Option.some.inj h
    obtain rfl := List.prefix_nil.1 hcut
    exact ⟨[], _, parses_encodeAll before rfl⟩
  | cons r rs ih =>
    obtain ⟨head, tail, hhead, htail, rfl⟩ := encodeEach_cons h
    rcases Nat.lt_or_ge cut.length head.length with hlt | hge
    · have hinit := List.prefix_of_prefix_length_le hcut (List.prefix_append head tail) hlt.le
      exact ⟨[], _, .stop (frameAt_cut before hhead hinit hlt)⟩
    · obtain ⟨rest, rfl⟩ := List.prefix_of_prefix_length_le (List.prefix_append head tail) hcut hge
      obtain ⟨kept, stop, hrest⟩ := ih (before ++ head) htail ((List.prefix_append_right_inj _).1 hcut)
      obtain ⟨payload, hdecode, hframe⟩ := frameAt_encode before rest hhead
      rw [List.append_assoc, List.length_append] at hrest
      rw [List.append_assoc] at hframe
      exact ⟨r :: kept, stop, .frame hframe hdecode hrest⟩

end Parses

end TaskerRT.Wal
