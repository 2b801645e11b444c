/- module: TaskerRT/Library/Decoder
   source: none
   digest: Little-endian numbers and decoders that undo their encoders, composed by sequencing. -/

import TaskerRT.Library.Table

set_option autoImplicit false

namespace TaskerRT.Library

universe u

abbrev Bytes := List (Word 8)

/-- The `count` low bytes of a number, least significant first. -/
def toLe : Nat → Nat → Bytes
  | 0, _ => []
  | count + 1, n => Word.ofNat 8 n :: toLe count (n / 256)

/-- The number a byte string spells, least significant byte first. -/
def ofLe : Bytes → Nat
  | [] => 0
  | b :: bytes => b.val + 256 * ofLe bytes

@[simp] theorem length_toLe (count n : Nat) : (toLe count n).length = count := by
  induction count generalizing n with
  | zero => rfl
  | succ count ih => simp [toLe, ih]

theorem ofLe_toLe (count n : Nat) : ofLe (toLe count n) = n % 256 ^ count := by
  induction count generalizing n with
  | zero => simp [toLe, ofLe, Nat.mod_one]
  | succ count ih =>
    have h : n % 256 ^ (count + 1) = n % 256 + 256 * (n / 256 % 256 ^ count) := by
      rw [Nat.pow_succ', Nat.mod_mul]
    rw [toLe, ofLe, ih, Word.val_ofNat, h, show (2 : Nat) ^ 8 = 256 from rfl]

theorem ofLe_toLe_of_lt {count n : Nat} (h : n < 256 ^ count) : ofLe (toLe count n) = n := by
  rw [ofLe_toLe, Nat.mod_eq_of_lt h]

/-- The encodings of a list, one after the other, when every one of them exists. -/
def encodeEach {α : Type u} (enc : α → Option Bytes) : List α → Option Bytes
  | [] => some []
  | x :: xs => do
    let head ← enc x
    let tail ← encodeEach enc xs
    return head ++ tail

theorem encodeEach_cons {α : Type u} {enc : α → Option Bytes} {x : α} {xs : List α} {bytes : Bytes}
    (h : encodeEach enc (x :: xs) = some bytes) :
    ∃ head tail, enc x = some head ∧ encodeEach enc xs = some tail ∧ bytes = head ++ tail := by
  obtain ⟨head, hhead, h⟩ := Option.bind_eq_some_iff.1 h
  obtain ⟨tail, htail, h⟩ := Option.bind_eq_some_iff.1 h
  exact ⟨head, tail, hhead, htail, (Option.some.inj h).symm⟩

structure Cursor where
  buf : Bytes
  pos : Nat
  deriving DecidableEq, Repr

abbrev Decoder (ε : Type) (α : Type) := StateT Cursor (Except ε) α

namespace Decoder

variable {ε α β : Type}

/-- The next `n` bytes, or the error for a read that starts at this position. -/
def take (short : Nat → ε) (n : Nat) : Decoder ε Bytes := fun c =>
  if c.pos + n ≤ c.buf.length then .ok ((c.buf.drop c.pos).take n, { c with pos := c.pos + n })
  else .error (short c.pos)

def position : Decoder ε Nat := fun c => .ok (c.pos, c)

def fail (e : ε) : Decoder ε α := fun _ => .error e

def many (d : Decoder ε α) : Nat → Decoder ε (List α)
  | 0 => pure []
  | n + 1 => do
    let x ← d
    let xs ← many d n
    return x :: xs

theorem bind_eq_ok {d : Decoder ε α} {f : α → Decoder ε β} {c c' : Cursor} {b : β}
    (h : (d >>= f) c = .ok (b, c')) : ∃ a c₁, d c = .ok (a, c₁) ∧ f a c₁ = .ok (b, c') := by
  change (d c >>= fun p => f p.1 p.2) = _ at h
  cases hd : d c with
  | error e =>
    rw [hd] at h
    exact nomatch h
  | ok p =>
    rw [hd] at h
    exact ⟨p.1, p.2, rfl, h⟩

theorem length_of_many {d : Decoder ε α} {n : Nat} : ∀ {c c' : Cursor} {xs : List α},
    many d n c = .ok (xs, c') → xs.length = n := by
  induction n with
  | zero =>
    intro c c' xs h
    obtain ⟨rfl, -⟩ := Prod.mk.inj (Except.ok.inj h)
    rfl
  | succ n ih =>
    intro c c' xs h
    obtain ⟨x, c₁, -, h⟩ := bind_eq_ok h
    obtain ⟨rest, c₂, hrest, h⟩ := bind_eq_ok h
    obtain ⟨rfl, -⟩ := Prod.mk.inj (Except.ok.inj h)
    rw [List.length_cons, ih hrest]

/-- Wherever these bytes stand, the reader consumes exactly them and returns the value. -/
def Reads (d : Decoder ε α) (bytes : Bytes) (v : α) : Prop :=
  ∀ before after : Bytes, d ⟨before ++ bytes ++ after, before.length⟩ =
    .ok (v, ⟨before ++ bytes ++ after, before.length + bytes.length⟩)

theorem Reads.pure (v : α) : Reads (pure v : Decoder ε α) [] v := by
  intro before after
  rfl

theorem Reads.bind {d : Decoder ε α} {f : α → Decoder ε β} {xs ys : Bytes} {a : α} {b : β}
    (hd : Reads d xs a) (hf : Reads (f a) ys b) : Reads (d >>= f) (xs ++ ys) b := by
  intro before after
  have h₁ := hd before (ys ++ after)
  have h₂ := hf (before ++ xs) after
  have e₁ : before ++ (xs ++ ys) ++ after = before ++ xs ++ (ys ++ after) := by
    simp only [List.append_assoc]
  have e₂ : before ++ xs ++ (ys ++ after) = before ++ xs ++ ys ++ after := by
    simp only [List.append_assoc]
  change (d ⟨before ++ (xs ++ ys) ++ after, before.length⟩ >>= fun p => f p.1 p.2) = _
  rw [e₁, h₁]
  change f a ⟨before ++ xs ++ (ys ++ after), before.length + xs.length⟩ = _
  rw [e₂, ← List.length_append, h₂]
  simp only [List.length_append, Nat.add_assoc]

theorem Reads.bind_nil {d : Decoder ε α} {f : α → Decoder ε β} {ys : Bytes} {b : β}
    (hd : ∀ c, ∃ a, d c = .ok (a, c)) (hf : ∀ a, Reads (f a) ys b) : Reads (d >>= f) ys b := by
  intro before after
  obtain ⟨a, ha⟩ := hd ⟨before ++ ys ++ after, before.length⟩
  change (d ⟨before ++ ys ++ after, before.length⟩ >>= fun p => f p.1 p.2) = _
  rw [ha]
  exact hf a before after

theorem Reads.map {d : Decoder ε α} {xs : Bytes} {a : α} (hd : Reads d xs a) (g : α → β) :
    Reads (do let x ← d; return g x) xs (g a) := by
  have h : Reads (d >>= fun x => (Pure.pure (g x) : Decoder ε β)) (xs ++ []) (g a) :=
    hd.bind (Reads.pure (g a))
  rwa [List.append_nil] at h

theorem Reads.take (short : Nat → ε) (bytes : Bytes) :
    Reads (Decoder.take short bytes.length) bytes bytes := by
  intro before after
  unfold Decoder.take
  rw [if_pos (by simp only [List.length_append]; omega)]
  have hdrop : (before ++ bytes ++ after).drop before.length = bytes ++ after := by
    rw [List.append_assoc, List.drop_left]
  simp only [hdrop, List.take_left]

theorem Reads.many {d : Decoder ε α} {enc : α → Option Bytes}
    (hd : ∀ x bytes, enc x = some bytes → Reads d bytes x) {xs : List α} {bytes : Bytes}
    (h : encodeEach enc xs = some bytes) : Reads (Decoder.many d xs.length) bytes xs := by
  induction xs generalizing bytes with
  | nil =>
    obtain rfl := Option.some.inj h
    exact Reads.pure []
  | cons x xs ih =>
    obtain ⟨head, tail, hhead, htail, rfl⟩ := encodeEach_cons h
    exact (hd x head hhead).bind ((ih htail).map (x :: ·))

theorem encodeEach_some (enc : α → Bytes) (xs : List α) :
    encodeEach (fun x => some (enc x)) xs = some (xs.flatMap enc) := by
  induction xs with
  | nil => rfl
  | cons x xs ih => simp [encodeEach, ih]

theorem Reads.run {d : Decoder ε α} {bytes : Bytes} {v : α} (h : Reads d bytes v) :
    d ⟨bytes, 0⟩ = .ok (v, ⟨bytes, bytes.length⟩) := by
  have := h [] []
  simpa using this

end Decoder

end TaskerRT.Library
