/- module: TaskerRT/Wal/Codec
   source: crates/tasker-wal/src/codec.rs
   digest: Little-endian fields, and readers that return what was written. -/

import TaskerRT.Domain.Job

set_option autoImplicit false

namespace TaskerRT.Wal

open Library Domain

/-- The checksum of a byte string. The source takes it from a library of its own. -/
class Crc32 where
  hash : Bytes → Word 32

def crcShift (c : Nat) : Nat :=
  if c % 2 = 1 then (c / 2) ^^^ 0xEDB88320 else c / 2

def crcByte (c : Nat) (b : Word 8) : Nat :=
  (List.range 8).foldl (fun c _ => crcShift c) (c ^^^ b.val)

@[reducible] def Crc32.ieee : Crc32 where
  hash bytes := Word.ofNat 32 (bytes.foldl crcByte 0xFFFFFFFF ^^^ 0xFFFFFFFF)

-- The check value of the IEEE polynomial: the digits one to nine.
example : Crc32.ieee.hash [0x31, 0x32, 0x33, 0x34, 0x35, 0x36, 0x37, 0x38, 0x39] = 0xCBF43926 := by
  decide +kernel

/-- The input ended early or carried a tag the decoder does not know. -/
inductive CodecError where
  | truncated (pos : Nat)
  | badTag (tag : Word 8) (pos : Nat)
  deriving DecidableEq, Repr

def putU8 (v : Word 8) : Bytes := [v]

def putU32 (v : Word 32) : Bytes := toLe 4 v.val

def putU64 (v : Word 64) : Bytes := toLe 8 v.val

/-- A length as a `u32`. A longer one panics, here and below shown as no result. -/
def putLen (n : Nat) : Option Bytes :=
  if n < 2 ^ 32 then some (putU32 (Word.ofNat 32 n)) else none

def putBytes (bytes : Bytes) : Option Bytes := do
  let n ← putLen bytes.length
  return n ++ bytes

def putOptU32 : Option (Word 32) → Bytes
  | some x => putU8 1 ++ putU32 x
  | none => putU8 0

@[simp] theorem length_putU8 (v : Word 8) : (putU8 v).length = 1 := rfl

@[simp] theorem length_putU32 (v : Word 32) : (putU32 v).length = 4 := length_toLe 4 v.val

@[simp] theorem length_putU64 (v : Word 64) : (putU64 v).length = 8 := length_toLe 8 v.val

theorem putLen_eq_some {n : Nat} {bytes : Bytes} (h : putLen n = some bytes) :
    n < 2 ^ 32 ∧ bytes = putU32 (Word.ofNat 32 n) := by
  unfold putLen at h
  split at h
  next hlt => exact ⟨hlt, (Option.some.inj h).symm⟩
  next => exact nomatch h

private theorem putBytes_eq_some {bytes out : Bytes} (h : putBytes bytes = some out) :
    bytes.length < 2 ^ 32 ∧ out = putU32 (Word.ofNat 32 bytes.length) ++ bytes := by
  obtain ⟨n, hn, hout⟩ := Option.bind_eq_some_iff.1 h
  obtain ⟨hlt, rfl⟩ := putLen_eq_some hn
  exact ⟨hlt, (Option.some.inj hout).symm⟩

namespace Cursor

open Decoder

def word (w count : Nat) : Decoder CodecError (Word w) := do
  let b ← take .truncated count
  return Word.ofNat w (ofLe b)

def u8 : Decoder CodecError (Word 8) := word 8 1

def u32 : Decoder CodecError (Word 32) := word 32 4

def u64 : Decoder CodecError (Word 64) := word 64 8

def bytes : Decoder CodecError Bytes := do
  let n ← u32
  take .truncated n.val

/-- A tag byte that must not exceed `max`, reported with its offset when it does. -/
def tag (max : Word 8) : Decoder CodecError (Word 8) := do
  let pos ← position
  let tag ← u8
  if max < tag then fail (.badTag tag pos) else return tag

def optU32 : Decoder CodecError (Option (Word 32)) := do
  match (← tag 1).val with
  | 0 => return none
  | _ => return some (← u32)

def oneOf {α : Type} (table : List α) : Decoder CodecError α := do
  let pos ← position
  let tag ← u8
  match table[tag.val]? with
  | some x => return x
  | none => fail (.badTag tag pos)

private theorem reads_word {w count : Nat} (v : Word w) (h : 2 ^ w ≤ 256 ^ count) :
    Reads (word w count) (toLe count v.val) v := by
  have hv : v.val < 256 ^ count := lt_of_lt_of_le v.isLt h
  have hread := Reads.take CodecError.truncated (toLe count v.val)
  rw [length_toLe] at hread
  have hmap := hread.map fun b => Word.ofNat w (ofLe b)
  rw [ofLe_toLe_of_lt hv, Word.ofNat_val] at hmap
  exact hmap

theorem reads_u8 (v : Word 8) : Reads u8 (putU8 v) v := by
  have h : Reads u8 (toLe 1 v.val) v := reads_word v (by decide)
  have hbytes : toLe 1 v.val = putU8 v := by simp only [toLe, Word.ofNat_val, putU8]
  rwa [hbytes] at h

theorem reads_u32 (v : Word 32) : Reads u32 (putU32 v) v := reads_word v (by decide)

theorem reads_u64 (v : Word 64) : Reads u64 (putU64 v) v := reads_word v (by decide)

theorem reads_bytes {payload out : Bytes} (h : putBytes payload = some out) :
    Reads bytes out payload := by
  obtain ⟨hlt, rfl⟩ := putBytes_eq_some h
  refine (reads_u32 _).bind ?_
  rw [Word.val_ofNat_of_lt hlt]
  exact Reads.take _ payload

theorem reads_tag {max v : Word 8} (h : v ≤ max) : Reads (tag max) (putU8 v) v := by
  refine Reads.bind_nil (fun c => ⟨c.pos, rfl⟩) fun pos => ?_
  rw [← List.append_nil (putU8 v)]
  refine (reads_u8 v).bind ?_
  rw [if_neg (not_lt.2 h)]
  exact Reads.pure v

theorem reads_optU32 (v : Option (Word 32)) : Reads optU32 (putOptU32 v) v := by
  cases v with
  | none =>
    have hnone : Reads (pure none : Decoder CodecError (Option (Word 32))) [] none := Reads.pure none
    exact (reads_tag (by decide)).bind hnone
  | some x => exact (reads_tag (by decide)).bind ((reads_u32 x).map some)

theorem reads_oneOf {α : Type} {table : List α} {x : α} {v : Word 8}
    (h : table[v.val]? = some x) : Reads (oneOf table) (putU8 v) x := by
  refine Reads.bind_nil (fun c => ⟨c.pos, rfl⟩) fun pos => ?_
  rw [← List.append_nil (putU8 v)]
  refine (reads_u8 v).bind ?_
  rw [h]
  exact Reads.pure x

theorem reads_counted {α β : Type} {d : Decoder CodecError α} {enc : α → Option Bytes}
    (hd : ∀ x bytes, enc x = some bytes → Reads d bytes x) {xs : List α} {n body rest : Bytes}
    {f : List α → Decoder CodecError β} {out : β} (hn : putLen xs.length = some n)
    (hbody : encodeEach enc xs = some body) (hf : Reads (f xs) rest out) :
    Reads (do let n ← u32; let xs ← many d n.val; f xs) (n ++ (body ++ rest)) out := by
  obtain ⟨hlt, rfl⟩ := putLen_eq_some hn
  refine (reads_u32 _).bind ?_
  rw [Word.val_ofNat_of_lt hlt]
  exact (Reads.many hd hbody).bind hf

end Cursor

end TaskerRT.Wal
