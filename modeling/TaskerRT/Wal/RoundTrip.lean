/- module: TaskerRT/Wal/RoundTrip
   source: crates/tasker-wal/src/log.rs, crates/tasker-wal/src/record.rs, crates/tasker-wal/src/snapshot.rs
   digest: What was written is read back, from a log cut anywhere and from a snapshot. -/

import TaskerRT.Wal.Snapshot

set_option autoImplicit false

namespace TaskerRT.Wal

open Library Domain Policy

/-- The bytes a job takes: its fixed fields, its dependencies and its payload. -/
def jobLength (job : Job) : Nat := 44 + 8 * job.deps.length + job.payload.length

/-- The bytes a record takes between its frame's header and its end. -/
def Record.payloadLength : Record → Nat
  | .submitted _ job => 9 + jobLength job
  | .forgotten _ => 9
  | .dispatched _ _ | .completed _ _ | .failed _ _ | .cancelled _ _ | .requeued _ _
  | .preempted _ _ => 17

private theorem length_flatMap_putId (ids : List JobId) :
    (ids.flatMap putId).length = 8 * ids.length := by
  induction ids with
  | nil => rfl
  | cons id ids ih =>
    rw [List.flatMap_cons, List.length_append, ih, List.length_cons, putId, length_putU64]
    omega

private theorem putLen_of_lt {n : Nat} (h : n < 2 ^ 32) : putLen n = some
    (putU32 (Word.ofNat 32 n)) := by
  rw [putLen, if_pos h]

/-- A job whose lists fit their length fields has an encoding, of the length its layout gives. -/
private theorem putJob_of_lt {job : Job} (hdeps : job.deps.length < 2 ^ 32)
    (hpayload : job.payload.length < 2 ^ 32) :
    ∃ bytes, putJob job = some bytes ∧ bytes.length = jobLength job := by
  refine ⟨_, by
    simp only [putJob, putBytes, putLen_of_lt hdeps, putLen_of_lt hpayload, Option.bind_eq_bind,
      Option.bind_some, Option.pure_def]
    rfl, ?_⟩
  simp only [List.length_append, length_putU32, length_putU8, length_putU64, length_flatMap_putId,
    jobLength]
  omega

/-- A record short enough for a frame has a payload of the length its layout gives. -/
private theorem Record.payload_of_lt {r : Record} (h : r.payloadLength < 2 ^ 32) :
    ∃ bytes, r.payload = some bytes ∧ bytes.length = r.payloadLength := by
  cases r with
  | submitted id job =>
    simp only [payloadLength, jobLength] at h
    have hdeps : job.deps.length < 2 ^ 32 := by omega
    have hpayload : job.payload.length < 2 ^ 32 := by omega
    obtain ⟨body, hbody, hlength⟩ := putJob_of_lt hdeps hpayload
    refine ⟨putU8 1 ++ putId id ++ body, ?_, ?_⟩
    · simp only [payload, hbody, Option.bind_eq_bind, Option.bind_some, Option.pure_def]
    · simp only [List.length_append, length_putU8, putId, length_putU64, hlength, payloadLength]
  | forgotten id =>
    refine ⟨_, rfl, ?_⟩
    simp only [List.length_append, length_putU8, putId, length_putU64, payloadLength]
  | dispatched id time | completed id time | failed id time | cancelled id time
  | requeued id time | preempted id time =>
    refine ⟨_, rfl, ?_⟩
    simp only [putEvent, List.length_append, length_putU8, putId, length_putU64, payloadLength]

section Logs

variable [Crc32]

def Frames (records : List Record) (frames : List Bytes) : Prop :=
  List.Forall₂ (fun r frame => r.encode = some frame) records frames

/-- The offset of frame number `k`, or of the end of the log. -/
def boundary (frames : List Bytes) (k : Nat) : Nat :=
  logMagic.length + (frames.take k).flatten.length

private theorem exists_frames {records : List Record}
    (h : ∀ r ∈ records, r.payloadLength < 2 ^ 32) :
    ∃ frames, Frames records frames := by
  induction records with
  | nil => exact ⟨[], .nil⟩
  | cons r records ih =>
    have hlt := h r List.mem_cons_self
    obtain ⟨payload, hpayload, hlength⟩ := Record.payload_of_lt hlt
    obtain ⟨frames, hframes⟩ := ih fun x hx => h x (List.mem_cons_of_mem _ hx)
    have hencode : r.encode = some (putU32 (Word.ofNat 32 payload.length) ++
        putU32 (Crc32.hash payload) ++ payload) := by
      rw [← hlength] at hlt
      simp only [Record.encode, hpayload, frame, putLen_of_lt hlt, Option.bind_eq_bind,
        Option.bind_some, Option.pure_def]
    exact ⟨_ :: frames, .cons hencode hframes⟩

private theorem Frames.encodeAll {records : List Record} {frames : List Bytes}
    (h : Frames records frames) :
    encodeAll records = some frames.flatten := by
  induction h with
  | nil => rfl
  | @cons r frame records frames hencode _ ih =>
    rw [Wal.encodeAll] at ih ⊢
    simp only [encodeEach, hencode, ih, Option.bind_eq_bind, Option.bind_some, Option.pure_def,
      List.flatten_cons]

/-- Frames cut after `n` bytes parse to the records whose frames end by then, and stop where the
next frame starts. -/
private theorem Frames.parses_take {records : List Record} {frames : List Bytes}
    (h : Frames records frames) : ∀ (before : Bytes) {n : Nat}, n ≤ frames.flatten.length →
      ∃ k ≤ records.length, (frames.take k).flatten.length ≤ n ∧
        (∀ j, (frames.take j).flatten.length ≤ n → j ≤ records.length → j ≤ k) ∧
        Parses (before ++ frames.flatten.take n) before.length (records.take k)
          (before.length + (frames.take k).flatten.length) := by
  induction h with
  | nil =>
    intro before n hn
    refine ⟨0, Nat.le_refl 0, Nat.zero_le n, fun j _ hj => hj, ?_⟩
    rw [List.flatten_nil, List.take_nil]
    have hnone := parses_encodeAll before (show Wal.encodeAll [] = some [] from rfl)
    rw [List.append_nil] at hnone ⊢
    exact hnone
  | @cons r frame records frames hencode _ ih =>
    intro before n hn
    rw [List.flatten_cons] at hn ⊢
    rcases Nat.lt_or_ge n frame.length with hlt | hge
    · -- The cut lies inside the first frame.
      refine ⟨0, Nat.zero_le _, Nat.zero_le n, ?_, ?_⟩
      · intro j hj _
        cases j with
        | zero => exact Nat.le_refl 0
        | succ j =>
          rw [List.take_succ_cons, List.flatten_cons, List.length_append] at hj
          omega
      · rw [List.take_append_of_le_length hlt.le]
        refine .stop (frameAt_cut before hencode ( List.take_prefix n frame) ?_)
        rw [List.length_take]
        omega
    · obtain ⟨k, hk, hle, hmost, hparses⟩ := ih (before ++ frame) (n := n - frame.length) (by
        rw [List.length_append] at hn
        omega)
      have htake : (frame ++ frames.flatten).take n =
          frame ++ frames.flatten.take (n - frame.length) := by
        rw [List.take_append, List.take_of_length_le hge]
      obtain ⟨payload, hdecode, hframe⟩ :=
        frameAt_encode before (frames.flatten.take (n - frame.length)) hencode
      rw [htake]
      refine ⟨k + 1, Nat.succ_le_succ hk, ?_, ?_, ?_⟩
      · rw [List.take_succ_cons, List.flatten_cons, List.length_append]
        omega
      · intro j hj hjlen
        cases j with
        | zero => exact Nat.zero_le _
        | succ j =>
          rw [List.take_succ_cons, List.flatten_cons, List.length_append] at hj
          exact Nat.succ_le_succ (hmost j (by omega) (Nat.le_of_succ_le_succ hjlen))
      · rw [List.append_assoc, List.length_append] at hparses
        rw [List.append_assoc] at hframe
        rw [List.take_succ_cons, List.take_succ_cons, List.flatten_cons, List.length_append,
          ← Nat.add_assoc]
        exact .frame hframe hdecode hparses

/-- A log cut anywhere after its magic parses to the records whose frames lie before the cut; the
tail is torn where the next frame starts, unless the cut is a boundary between frames. -/
theorem cut_log_parses (records : List Record)
    (hshort : ∀ r ∈ records, r.payloadLength < 2 ^ 32) :
    (∀ id job, encodeSubmitted id job = (Record.submitted id job).encode) ∧
    ∃ frames, Frames records frames ∧
      ∀ n, logMagic.length ≤ n → n ≤ (logMagic ++ frames.flatten).length →
        ∃ k ≤ records.length, boundary frames k ≤ n ∧
          (∀ j ≤ records.length, boundary frames j ≤ n → j ≤ k) ∧
          parseLog ((logMagic ++ frames.flatten).take n) = .ok ⟨records.take k,
            if ∃ j ≤ records.length, boundary frames j = n then none
            else some (boundary frames k)⟩ := by
  obtain ⟨frames, hframes⟩ := exists_frames hshort
  refine ⟨encodeSubmitted_eq, frames, hframes, fun n hmagic hn => ?_⟩
  rw [List.length_append] at hn
  obtain ⟨k, hk, hle, hmost, hparses⟩ := hframes.parses_take logMagic
    (n := n - logMagic.length) (by omega)
  have htake : (logMagic ++ frames.flatten).take n =
      logMagic ++ frames.flatten.take (n - logMagic.length) := by
    rw [List.take_append, List.take_of_length_le hmagic]
  have hlength : (logMagic ++ frames.flatten.take (n - logMagic.length)).length = n := by
    rw [List.length_append, List.length_take]
    omega
  have hfits : boundary frames k ≤ n := by
    rw [boundary]
    omega
  have hlast : ∀ j ≤ records.length, boundary frames j ≤ n → j ≤ k := by
    intro j hj hjn
    rw [boundary] at hjn
    exact hmost j (by omega) hj
  refine ⟨k, hk, hfits, hlast, ?_⟩
  rw [htake]
  refine parseLog_eq_ok.mpr ⟨List.prefix_append _ _, _, hparses, ?_⟩
  rw [hlength, ← boundary]
  by_cases hend : ∃ j ≤ records.length, boundary frames j = n
  · -- A boundary at the cut is not past the last frame before it.
    obtain ⟨j, hj, hjn⟩ := hend
    have hjk := hlast j hj hjn.le
    have hmono : boundary frames j ≤ boundary frames k := by
      have hsub : (frames.take j).Sublist (frames.take k) := List.take_sublist_take_left hjk
      exact Nat.add_le_add_left hsub.flatten.length_le _
    rw [if_pos ⟨j, hj, hjn⟩, if_neg (by omega)]
  · have hne : boundary frames k ≠ n := fun he => hend ⟨k, hk, he⟩
    rw [if_neg hend, if_pos (by omega)]

private theorem Frames.parses_append {records : List Record} {frames : List Bytes}
    (h : Frames records frames) : ∀ (before : Bytes) {tail : Bytes} {rs : List Record} {stop : Nat},
      Parses (before ++ frames.flatten ++ tail) before.length rs stop ↔
        ∃ rest, rs = records ++ rest ∧ Parses (before ++ frames.flatten ++ tail)
          (before ++ frames.flatten).length rest stop := by
  induction h with
  | nil =>
    intro before tail rs stop
    rw [List.flatten_nil, List.append_nil]
    constructor
    · intro hp
      exact ⟨rs, rfl, hp⟩
    · intro ⟨rest, hrs, hp⟩
      exact hrs ▸ hp
  | @cons r frame records frames hencode _ ih =>
    intro before tail rs stop
    obtain ⟨payload, hdecode, hframe⟩ := frameAt_encode before (frames.flatten ++ tail) hencode
    have hrest := @ih (before ++ frame) tail
    simp only [List.flatten_cons, List.append_assoc, List.length_append] at hframe hrest ⊢
    rw [Parses.of_some hframe]
    constructor
    · rintro ⟨r', rest, hr, rfl, hp⟩
      obtain rfl := Except.ok.inj (hdecode.symm.trans hr)
      obtain ⟨more, rfl, hmore⟩ := hrest.mp hp
      exact ⟨more, rfl, hmore⟩
    · rintro ⟨more, rfl, hmore⟩
      exact ⟨r, records ++ more, hdecode, rfl, hrest.mpr ⟨more, rfl, hmore⟩⟩

private theorem frameAt_short (before : Bytes) {tail : Bytes} (h : tail.length < frameHeader) :
    frameAt (before ++ tail) before.length = none := by
  refine Option.eq_none_iff_forall_ne_some.2 fun ⟨payload, next⟩ hsome => ?_
  obtain ⟨header, hheader, -⟩ := frameAt_eq_some.1 hsome
  have hle := (slice_eq_some.1 hheader).2.1
  rw [List.length_append] at hle
  omega

/-- Eight zeros are the header of an empty frame, intact when the empty string hashes to zero. -/
private theorem frameAt_zeros (hempty : Crc32.hash [] = 0) (before : Bytes) {k : Nat}
    (h : frameHeader ≤ k) : frameAt (before ++ List.replicate k 0) before.length =
      some ([], before.length + frameHeader) := by
  have hdrop : (before ++ List.replicate k (0 : Word 8)).drop before.length =
      List.replicate k 0 := List.drop_left
  have hheader : slice (before ++ List.replicate k 0) before.length
      (before.length + frameHeader) = some (List.replicate frameHeader 0) := by
    refine slice_eq_some.2 ⟨by omega, ?_, ?_⟩
    · rw [List.length_append, List.length_replicate]
      omega
    · rw [hdrop, Nat.add_sub_cancel_left, List.take_replicate, Nat.min_eq_left h]
  refine frameAt_eq_some.2 ⟨_, hheader, rfl, ?_, ?_⟩
  · refine slice_eq_some.2 ⟨Nat.le_refl _, ?_, ?_⟩
    · rw [List.length_append, List.length_replicate]
      exact Nat.add_le_add_left h _
    · rw [Nat.sub_self, List.take_zero]
  · rw [hempty]
    rfl

/-- A tail of zeros is torn off exactly when it is too short to be read as an empty frame. -/
theorem zero_tail_torn_iff (records : List Record)
    (hshort : ∀ r ∈ records, r.payloadLength < 2 ^ 32) (hempty : Crc32.hash [] = 0) (k : Nat) :
    ∃ frames, Frames records frames ∧
      (parseLog (logMagic ++ frames.flatten ++ List.replicate k 0) =
          .ok ⟨records, if 0 < k then some (boundary frames records.length) else none⟩ ↔
        k < frameHeader) := by
  obtain ⟨frames, hframes⟩ := exists_frames hshort
  have hend : (logMagic ++ frames.flatten).length = boundary frames records.length := by
    rw [boundary, List.length_append, hframes.length_eq, List.take_length]
  refine ⟨frames, hframes, ?_, ?_⟩
  · intro hparse
    obtain ⟨-, stop, hparses, -⟩ := parseLog_eq_ok.mp hparse
    obtain ⟨rest, -, hrest⟩ := (hframes.parses_append logMagic).mp hparses
    -- Otherwise the empty frame would have to decode.
    by_contra hlong
    obtain ⟨r, _, hdecode, -⟩ :=
      (Parses.of_some (frameAt_zeros hempty _ (not_lt.mp hlong))).mp hrest
    exact nomatch hdecode
  · intro hk
    have hshorter : (List.replicate k (0 : Word 8)).length < frameHeader := by
      rwa [List.length_replicate]
    have hnone := frameAt_short (logMagic ++ frames.flatten) hshorter
    have hparses := (hframes.parses_append logMagic).mpr ⟨[], rfl, Parses.stop hnone⟩
    rw [List.append_nil] at hparses
    refine parseLog_eq_ok.mpr ⟨?_, _, hparses, ?_⟩
    · rw [List.append_assoc]
      exact List.prefix_append _ _
    · rw [@List.length_append _ _ (List.replicate k 0), List.length_replicate, hend]
      simp only [Nat.lt_add_right_iff_pos]

end Logs

attribute [local instance] Crc32.ieee

/-- Two records, cut inside the second frame: at most the first is left. -/
theorem cut_log_parses_sample :
    ∃ frames, Frames [.forgotten ⟨0⟩, .completed ⟨0⟩ 5] frames ∧
      ∃ k ≤ 2, boundary frames k ≤ 30 ∧ (parseLog ((logMagic ++ frames.flatten).take
        30)).toOption.map (·.records) = some ([.forgotten ⟨0⟩, .completed ⟨0⟩ 5].take k) := by
  obtain ⟨-, frames, hframes, hcut⟩ := @cut_log_parses Crc32.ieee
    [.forgotten ⟨0⟩, .completed ⟨0⟩ 5] (by decide)
  have hlong : (encodeAll [.forgotten ⟨0⟩, .completed ⟨0⟩ 5]).any (fun bytes =>
      decide (30 ≤ (logMagic ++ bytes).length)) = true := by
    decide +kernel
  rw [Frames.encodeAll hframes, Option.any_some, decide_eq_true_eq] at hlong
  obtain ⟨k, hk, hfits, -, hparse⟩ := hcut 30 (by decide) hlong
  refine ⟨frames, hframes, k, hk, hfits, ?_⟩
  rw [hparse]
  rfl

/-- Seven zeros after one record. -/
theorem zero_tail_torn_sample :
    ∃ frames, Frames [.forgotten ⟨0⟩] frames ∧
      parseLog (logMagic ++ frames.flatten ++ List.replicate 7 0) =
        .ok ⟨[.forgotten ⟨0⟩], some (boundary frames 1)⟩ := by
  obtain ⟨frames, hframes, htorn⟩ := @zero_tail_torn_iff Crc32.ieee [.forgotten ⟨0⟩] (by decide)
    (by decide +kernel) 7
  exact ⟨frames, hframes, htorn.mpr (by decide)⟩

/-- Eight zeros after the magic are an error, not a torn tail. -/
theorem zero_tail_rejected :
    parseLog (logMagic ++ List.replicate 8 0) = .error (.codec (.truncated 0)) := by
  decide +kernel

private theorem encodeEach_of_some {α : Type} {enc : α → Option Bytes} {xs : List α}
    (h : ∀ x ∈ xs, ∃ bytes, enc x = some bytes) : ∃ bytes, encodeEach enc xs = some bytes := by
  induction xs with
  | nil => exact ⟨[], rfl⟩
  | cons x xs ih =>
    obtain ⟨head, hhead⟩ := h x List.mem_cons_self
    obtain ⟨tail, htail⟩ := ih fun y hy => h y (List.mem_cons_of_mem _ hy)
    refine ⟨head ++ tail, ?_⟩
    simp only [encodeEach, hhead, htail, Option.bind_eq_bind, Option.bind_some, Option.pure_def]

/-- Every snapshot whose counts fit their fields is read back as it was written. -/
theorem snapshot_round_trips [Crc32] (s : Snapshot) (hslots : s.slots.length < 2 ^ 32)
    (hrunning : s.running.length < 2 ^ 32) (hledgers : s.ledgers.length < 2 ^ 32)
    (hjobs : ∀ generation job, .occupied generation job ∈ s.slots →
      job.deps.length < 2 ^ 32 ∧ job.payload.length < 2 ^ 32) :
    ∃ bytes, encodeSnapshot s = some bytes ∧ decodeSnapshot bytes = .ok s := by
  obtain ⟨slots, hslotBytes⟩ : ∃ bytes, encodeEach putSlot s.slots = some bytes := by
    refine encodeEach_of_some fun slot hslot => ?_
    cases slot with
    | vacant generation nextFree => exact ⟨_, rfl⟩
    | occupied generation job =>
      obtain ⟨hdeps, hpayload⟩ := hjobs generation job hslot
      obtain ⟨body, hbody, -⟩ := putJob_of_lt hdeps hpayload
      refine ⟨putU8 1 ++ putU32 generation ++ body, ?_⟩
      simp only [putSlot, hbody, Option.bind_eq_bind, Option.bind_some, Option.pure_def]
  obtain ⟨bytes, hbytes⟩ : ∃ bytes, encodeSnapshot s = some bytes := by
    simp only [encodeSnapshot, putBody, putLen_of_lt hslots, putLen_of_lt hrunning,
      putLen_of_lt hledgers, hslotBytes, Option.bind_eq_bind, Option.bind_some, Option.pure_def]
    exact ⟨_, rfl⟩
  exact ⟨bytes, hbytes, decodeSnapshot_encodeSnapshot hbytes⟩

def smallSnapshot : Snapshot where
  takenAt := 7
  slots := [.occupied 0 ((Job.new 0 .high 1 ⟨1, 2, 3⟩ 4).withState .running), .vacant 1 none]
  freeHead := some 1
  running := [⟨0⟩]
  ledgers := [Ledger.default]

theorem snapshot_round_trips_sample : ∃ bytes, encodeSnapshot smallSnapshot = some bytes ∧
    decodeSnapshot bytes = .ok smallSnapshot := by
  refine @snapshot_round_trips Crc32.ieee smallSnapshot (by decide) (by decide) (by decide) ?_
  intro generation job hmem
  rcases List.mem_cons.mp hmem with heq | hmem
  · obtain ⟨-, rfl⟩ := Slot.occupied.inj heq
    decide
  · exact absurd (List.mem_singleton.mp hmem) nofun

end TaskerRT.Wal
