/- module: TaskerRT/Wal/Directory
   source: crates/tasker-wal/src/store.rs (file names), std::fs
   digest: File names, the generation a name carries, and the newest generation of a directory. -/

import TaskerRT.Wal.Snapshot

set_option autoImplicit false

namespace TaskerRT.Wal

open Library

abbrev Name := List Char

/-- The files of the data directory, by name. -/
abbrev Directory := AList fun _ : Name => Bytes

def digitChar (n : Nat) : Char := Char.ofNat (48 + n % 10)

/-- The decimal digits of a number below `10 ^ fuel`, least significant first. -/
def digitsOf : Nat → Nat → List Char
  | 0, _ => []
  | fuel + 1, n => digitChar n :: if n / 10 = 0 then [] else digitsOf fuel (n / 10)

/-- A number padded with zeros to six digits. A `u64` has twenty at most. -/
def padded (n : Word 64) : List Char :=
  let digits := (digitsOf 20 n.val).reverse
  List.replicate (6 - digits.length) '0' ++ digits

/-- One digit of a number being read, unless the number leaves `u64`. -/
def readDigit (acc : Nat) (c : Char) : Option Nat :=
  if 48 ≤ c.toNat ∧ c.toNat ≤ 57 ∧ acc * 10 + (c.toNat - 48) < 2 ^ 64 then
    some (acc * 10 + (c.toNat - 48))
  else none

/-- A `u64` from its digits, with an optional sign before them. -/
def parseU64 (text : List Char) : Option (Word 64) :=
  let digits := match text with
    | '+' :: rest => rest
    | _ => text
  if digits = [] then none else (digits.foldlM readDigit 0).map (Word.ofNat 64)

def snapshotStem : List Char := ['s', 'n', 'a', 'p', 's', 'h', 'o', 't', '-']

def logStem : List Char := ['w', 'a', 'l', '-']

def snapshotExtension : List Char := ['.', 'b', 'i', 'n']

def logExtension : List Char := ['.', 'l', 'o', 'g']

def tmpExtension : List Char := ['.', 't', 'm', 'p']

def snapshotPath (generation : Word 64) : Name :=
  snapshotStem ++ padded generation ++ snapshotExtension

def logPath (generation : Word 64) : Name := logStem ++ padded generation ++ logExtension

/-- The name a snapshot is written under before it is renamed. -/
def tmpPath (generation : Word 64) : Name := snapshotPath generation ++ tmpExtension

/-- The generation a name carries: `snapshot-000012.bin` or `wal-000012.log` give 12. -/
def generationOf (name : Name) : Option (Word 64) :=
  match snapshotStem.isPrefixOf? name with
  | some rest => (snapshotExtension.isSuffixOf? rest).bind parseU64
  | none =>
    match logStem.isPrefixOf? name with
    | some rest => (logExtension.isSuffixOf? rest).bind parseU64
    | none => none

-- Names of one, six and twenty digits; a sign is read, a second extension is not.
example : snapshotPath 12 = "snapshot-000012.bin".toList ∧ logPath 1234567 =
    "wal-1234567.log".toList ∧ generationOf "wal-+7.log".toList = some 7 ∧
    generationOf "snapshot-000012.bin.tmp".toList = none := by
  decide +kernel

private theorem toNat_digitChar (n : Nat) : (digitChar n).toNat = 48 + n % 10 := by
  have hlt : n % 10 < 10 := Nat.mod_lt _ (by decide)
  unfold digitChar
  interval_cases n % 10 <;> rfl

private theorem readDigit_digitChar {acc n : Nat} (h : acc * 10 + n % 10 < 2 ^ 64) :
    readDigit acc (digitChar n) = some (acc * 10 + n % 10) := by
  have hlt : n % 10 < 10 := Nat.mod_lt _ (by decide)
  unfold readDigit
  rw [toNat_digitChar, Nat.add_sub_cancel_left, if_pos ⟨by omega, by omega, h⟩]

private theorem foldlM_digitsOf {fuel n : Nat} (hfuel : n < 10 ^ fuel) (hn : n < 2 ^ 64) :
    (digitsOf fuel n).reverse.foldlM readDigit 0 = some n := by
  induction fuel generalizing n with
  | zero =>
    obtain rfl : n = 0 := by simpa using hfuel
    rfl
  | succ fuel ih =>
    have hrest : (if n / 10 = 0 then [] else digitsOf fuel (n / 10)).reverse.foldlM readDigit 0 =
        some (n / 10) := by
      split
      next hzero => simp [hzero]
      next => exact ih (by rw [Nat.pow_succ] at hfuel; omega) (by omega)
    have hsplit : n / 10 * 10 + n % 10 = n := by omega
    rw [digitsOf, List.reverse_cons, List.foldlM_append, hrest]
    simp only [Option.bind_eq_bind, Option.bind_some, List.foldlM_cons, List.foldlM_nil]
    rw [readDigit_digitChar (by omega), hsplit]
    rfl

private theorem foldlM_replicate (count : Nat) :
    (List.replicate count '0').foldlM readDigit 0 = some 0 := by
  induction count with
  | zero => rfl
  | succ count ih => exact ih

private theorem padded_ne_plus (n : Word 64) : ∃ c rest, padded n = c :: rest ∧ c ≠ '+' := by
  have hdigit : ∀ fuel m, ∀ c ∈ digitsOf fuel m, c ≠ '+' := by
    intro fuel
    induction fuel with
    | zero => simp [digitsOf]
    | succ fuel ih =>
      intro m c hc
      rw [digitsOf, List.mem_cons] at hc
      rcases hc with rfl | hc
      · intro heq
        have := congrArg Char.toNat heq
        rw [toNat_digitChar] at this
        have hplus : '+'.toNat = 43 := rfl
        omega
      · split at hc
        · exact nomatch hc
        · exact ih _ c hc
  have hall : ∀ c ∈ padded n, c ≠ '+' := by
    intro c hc
    rcases List.mem_append.1 hc with hc | hc
    · rw [List.eq_of_mem_replicate hc]
      decide
    · exact hdigit _ _ c (List.mem_reverse.1 hc)
  have hne : padded n ≠ [] := by
    simp [padded, digitsOf]
  obtain ⟨c, rest, h⟩ := List.exists_cons_of_ne_nil hne
  exact ⟨c, rest, h, hall c (h ▸ List.mem_cons_self)⟩

private theorem parseU64_padded (n : Word 64) : parseU64 (padded n) = some n := by
  obtain ⟨c, rest, hpadded, hplus⟩ := padded_ne_plus n
  have hfold : (padded n).foldlM readDigit 0 = some n.val := by
    rw [padded, List.foldlM_append, foldlM_replicate]
    exact foldlM_digitsOf (lt_of_lt_of_le n.isLt (by decide)) n.isLt
  have hdigits : (match padded n with
      | '+' :: rest => rest
      | _ => padded n) = padded n := by
    rw [hpadded]
    split
    next heq => exact absurd (List.cons.inj heq).1 hplus
    next => rfl
  unfold parseU64
  simp only [hdigits, hfold, Option.map_some, Word.ofNat_val]
  rw [if_neg (by simp [hpadded])]

@[simp] theorem generationOf_snapshotPath (g : Word 64) :
    generationOf (snapshotPath g) = some g := by
  have hstem : snapshotStem.isPrefixOf? (snapshotPath g) = some (padded g ++ snapshotExtension) :=
    List.isPrefixOf?_eq_some_iff_append_eq.2 (by rw [snapshotPath, List.append_assoc])
  have hext : snapshotExtension.isSuffixOf? (padded g ++ snapshotExtension) = some (padded g) :=
    List.isSuffixOf?_eq_some_iff_append_eq.2 rfl
  simp only [generationOf, hstem, hext, Option.bind_some, parseU64_padded]

@[simp] theorem generationOf_logPath (g : Word 64) : generationOf (logPath g) = some g := by
  have hnot : snapshotStem.isPrefixOf? (logPath g) = none := by
    rw [logPath, List.append_assoc]
    rfl
  have hstem : logStem.isPrefixOf? (logPath g) = some (padded g ++ logExtension) :=
    List.isPrefixOf?_eq_some_iff_append_eq.2 (by rw [logPath, List.append_assoc])
  have hext : logExtension.isSuffixOf? (padded g ++ logExtension) = some (padded g) :=
    List.isSuffixOf?_eq_some_iff_append_eq.2 rfl
  simp only [generationOf, hnot, hstem, hext, Option.bind_some, parseU64_padded]

@[simp] theorem generationOf_tmpPath (g : Word 64) : generationOf (tmpPath g) = none := by
  have hstem : snapshotStem.isPrefixOf? (tmpPath g) =
      some (padded g ++ snapshotExtension ++ tmpExtension) :=
    List.isPrefixOf?_eq_some_iff_append_eq.2 (by
      simp only [tmpPath, snapshotPath, List.append_assoc])
  have hext : snapshotExtension.isSuffixOf? (padded g ++ snapshotExtension ++ tmpExtension) =
      none := by
    rw [List.isSuffixOf?, List.reverse_append]
    rfl
  simp only [generationOf, hstem, hext, Option.bind_none]

theorem ne_of_generationOf {a b : Name} (h : generationOf a ≠ generationOf b) : a ≠ b :=
  fun heq => h (congrArg generationOf heq)

theorem snapshotPath_ne_logPath (g g' : Word 64) : snapshotPath g ≠ logPath g' := by
  simp [snapshotPath, logPath, snapshotStem, logStem]

def newest (files : Directory) : Word 64 :=
  files.keys.foldl (fun generation name =>
    match generationOf name with
    | some g => max generation g
    | none => generation) 0

private theorem newest_fold (names : List Name) (start : Word 64) :
    let out := names.foldl (fun generation name =>
      match generationOf name with
      | some g => max generation g
      | none => generation) start
    start ≤ out ∧ (∀ n ∈ names, ∀ g, generationOf n = some g → g ≤ out) ∧
      (out = start ∨ ∃ n ∈ names, generationOf n = some out) := by
  induction names generalizing start with
  | nil => simp
  | cons name names ih =>
    simp only [List.foldl_cons]
    cases hname : generationOf name with
    | none =>
      obtain ⟨hle, hall, hout⟩ := ih start
      refine ⟨hle, ?_, ?_⟩
      · intro n hn g hg
        rcases List.mem_cons.1 hn with rfl | hn
        · exact nomatch hname.symm.trans hg
        · exact hall n hn g hg
      · exact hout.imp_right fun ⟨n, hn, hg⟩ => ⟨n, List.mem_cons_of_mem _ hn, hg⟩
    | some found =>
      obtain ⟨hle, hall, hout⟩ := ih (max start found)
      refine ⟨le_trans (le_max_left _ _) hle, ?_, ?_⟩
      · intro n hn g hg
        rcases List.mem_cons.1 hn with rfl | hn
        · obtain rfl := Option.some.inj (hname.symm.trans hg)
          exact le_trans (le_max_right _ _) hle
        · exact hall n hn g hg
      · rcases hout with hout | ⟨n, hn, hg⟩
        · rcases max_choice start found with hmax | hmax
          · exact .inl (hout.trans hmax)
          · exact .inr ⟨name, List.mem_cons_self, hname.trans (by rw [hout, hmax])⟩
        · exact .inr ⟨n, List.mem_cons_of_mem _ hn, hg⟩

theorem le_newest {files : Directory} {n : Name} {g : Word 64} (hn : n ∈ files)
    (hg : generationOf n = some g) : g ≤ newest files :=
  (newest_fold files.keys 0).2.1 n hn g hg

private theorem newest_cases (files : Directory) :
    newest files = 0 ∨ ∃ n ∈ files, generationOf n = some (newest files) :=
  (newest_fold files.keys 0).2.2

theorem newest_eq {files : Directory} {n : Name} {g : Word 64} (hn : n ∈ files)
    (hg : generationOf n = some g)
    (hle : ∀ n ∈ files, ∀ g', generationOf n = some g' → g' ≤ g) : newest files = g := by
  refine le_antisymm ?_ (le_newest hn hg)
  rcases newest_cases files with h | ⟨n', hn', h⟩
  · rw [h]
    exact Fin.zero_le _
  · exact hle n' hn' _ h

/-- Directories with the same generation-carrying names have the same newest generation. -/
theorem newest_congr {files files' : Directory}
    (h : ∀ n, generationOf n ≠ none → (n ∈ files ↔ n ∈ files')) : newest files = newest files' := by
  have hle : ∀ a b : Directory, (∀ n, generationOf n ≠ none → n ∈ a → n ∈ b) →
      newest a ≤ newest b := by
    intro a b hab
    rcases newest_cases a with h | ⟨n, hn, h⟩
    · rw [h]
      exact Fin.zero_le _
    · exact le_newest (hab n (by simp [h]) hn) h
  exact le_antisymm (hle _ _ fun n hn => (h n hn).1) (hle _ _ fun n hn => (h n hn).2)

end TaskerRT.Wal
