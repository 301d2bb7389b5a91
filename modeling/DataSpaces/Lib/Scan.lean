import Mathlib.Data.List.DropRight
import Mathlib.Data.Nat.Digits.Defs

/-!
# Scan — words and numbers of a text

The directives of `scanf` and `printf` for words and decimal numbers.  A call of `scanf` goes on until a directive
finds nothing; what it has stored until then stays, and the next call starts where it stopped.
-/

namespace Scan

/-! ## Directives -/

def isSpace (b : UInt8) : Bool :=
  b = 32 ∨ 9 ≤ b ∧ b ≤ 13

def isDigit (b : UInt8) : Bool :=
  48 ≤ b ∧ b ≤ 57

inductive Directive
  /-- white space -/
  | space
  /-- `%s` -/
  | word
  /-- `%*s` -/
  | skipWord
  /-- `%d` -/
  | number
  /-- `%n` -/
  | count

/-- What a directive stores. -/
inductive Value
  | text (word : List UInt8)
  | number (n : ℤ)
  | count (n : ℕ)

def skipSpaces (s : List UInt8) : List UInt8 :=
  s.dropWhile isSpace

/-- The next word, and the text after it. -/
def scanWord (s : List UInt8) : Option (List UInt8 × List UInt8) :=
  let s := skipSpaces s
  let word := s.takeWhile fun b => !isSpace b
  if word = [] then none else some (word, s.drop word.length)

/-- The value of digits. -/
def digitsValue (digits : List UInt8) : ℕ :=
  digits.foldl (fun n b => 10 * n + (b.toNat - 48)) 0

/-- Digits, and the text after them. -/
def scanDigits (s : List UInt8) : Option (ℕ × List UInt8) :=
  let digits := s.takeWhile isDigit
  if digits = [] then none else some (digitsValue digits, s.drop digits.length)

def scanNumber (s : List UInt8) : Option (ℤ × List UInt8) :=
  match skipSpaces s with
  | [] => none
  | b :: t =>
      if b = 45 then (scanDigits t).map fun r => (-(r.1 : ℤ), r.2)
      else if b = 43 then (scanDigits t).map fun r => ((r.1 : ℤ), r.2)
      else (scanDigits (b :: t)).map fun r => ((r.1 : ℤ), r.2)

/-- The directives of a call on what is left of a text of `len` bytes. -/
def scanfFrom (len : ℕ) : List Directive → List UInt8 → List Value × List UInt8
  | [], s => ([], s)
  | .space :: format, s => scanfFrom len format (skipSpaces s)
  | .word :: format, s =>
      match scanWord s with
      -- a directive that does not match ends the call
      | none => ([], skipSpaces s)
      | some (word, rest) =>
          let r := scanfFrom len format rest
          (.text word :: r.1, r.2)
  | .skipWord :: format, s =>
      match scanWord s with
      | none => ([], skipSpaces s)
      | some (_, rest) => scanfFrom len format rest
  | .number :: format, s =>
      match scanNumber s with
      | none => ([], skipSpaces s)
      | some (n, rest) =>
          let r := scanfFrom len format rest
          (.number n :: r.1, r.2)
  | .count :: format, s =>
      let r := scanfFrom len format s
      (.count (len - s.length) :: r.1, r.2)

/-- `scanf`: what is stored, and the text that is left. -/
def scanf (format : List Directive) (s : List UInt8) : List Value × List UInt8 :=
  scanfFrom s.length format s

/-- What `%d` prints of a number that is not negative. -/
def decimal (n : ℕ) : List UInt8 :=
  if n = 0 then [48] else (Nat.digits 10 n).reverse.map fun d => UInt8.ofNat (48 + d)

/-! ## Words -/

/-- A word that `%s` can read. -/
structure IsWord (word : List UInt8) : Prop where
  ne_nil : word ≠ []
  solid : ∀ b ∈ word, isSpace b = false

/-- No word goes on into the text. -/
def Stops (rest : List UInt8) : Prop :=
  ∀ b t, rest = b :: t → isSpace b = true

theorem stops_cons {b : UInt8} (hb : isSpace b = true) (t : List UInt8) : Stops (b :: t) := by
  intro b' t' h
  cases h
  exact hb

variable {word rest s : List UInt8}

theorem skipSpaces_cons {b : UInt8} (hb : isSpace b = true) (t : List UInt8) :
    skipSpaces (b :: t) = skipSpaces t :=
  List.dropWhile_cons_of_pos hb

theorem IsWord.skipSpaces_append (hword : IsWord word) (rest : List UInt8) :
    skipSpaces (word ++ rest) = word ++ rest := by
  cases word with
  | nil => exact absurd rfl hword.ne_nil
  | cons b t =>
      have hb : isSpace b = false := hword.solid b List.mem_cons_self
      exact List.dropWhile_cons_of_neg (by simp [hb])

theorem takeWhile_stops (hrest : Stops rest) : rest.takeWhile (fun b => !isSpace b) = [] := by
  cases rest with
  | nil => rfl
  | cons b t => exact List.takeWhile_cons_of_neg (by simp [hrest b t rfl])

theorem IsWord.scanWord_append (hword : IsWord word) (hrest : Stops rest) :
    scanWord (word ++ rest) = some (word, rest) := by
  have htake : (word ++ rest).takeWhile (fun b => !isSpace b) = word := by
    rw [List.takeWhile_append_of_pos fun b hb => by simp [hword.solid b hb], takeWhile_stops hrest,
      List.append_nil]
  rw [scanWord, hword.skipSpaces_append]
  simp only [htake, if_neg hword.ne_nil, List.drop_left]

/-- Spaces in front of a word are passed over. -/
theorem scanWord_cons {b : UInt8} (hb : isSpace b = true) (t : List UInt8) : scanWord (b :: t) = scanWord t := by
  rw [scanWord, scanWord, skipSpaces_cons hb]

theorem skipSpaces_skipSpaces (s : List UInt8) : skipSpaces (skipSpaces s) = skipSpaces s :=
  List.dropWhile_idempotent _ _

theorem scanWord_skipSpaces (s : List UInt8) : scanWord (skipSpaces s) = scanWord s := by
  rw [scanWord, scanWord, skipSpaces_skipSpaces]

/-- A word and what is left after it are no longer than the text. -/
theorem length_of_scanWord (h : scanWord s = some (word, rest)) : word.length + rest.length ≤ s.length := by
  simp only [scanWord] at h
  split at h
  · cases h
  · cases h
    have hskip : (skipSpaces s).length ≤ s.length := (List.dropWhile_sublist isSpace).length_le
    have htake := ((skipSpaces s).takeWhile_sublist fun b => !isSpace b).length_le
    rw [List.length_drop]
    omega

theorem length_skipSpaces (s : List UInt8) : (skipSpaces s).length ≤ s.length :=
  (List.dropWhile_sublist isSpace).length_le

theorem length_of_scanDigits {n : ℕ} (h : scanDigits s = some (n, rest)) : rest.length ≤ s.length := by
  simp only [scanDigits] at h
  split at h
  · cases h
  · cases h
    exact (List.drop_sublist _ _).length_le

theorem length_of_scanNumber {n : ℤ} (h : scanNumber s = some (n, rest)) : rest.length ≤ s.length := by
  have hskip := length_skipSpaces s
  rw [scanNumber] at h
  split at h
  · cases h
  · next b t hcons =>
      rw [hcons, List.length_cons] at hskip
      split at h
      · obtain ⟨r, hr, heq⟩ := Option.map_eq_some_iff.1 h
        cases heq
        have := length_of_scanDigits hr
        omega
      · split at h
        · obtain ⟨r, hr, heq⟩ := Option.map_eq_some_iff.1 h
          cases heq
          have := length_of_scanDigits hr
          omega
        · obtain ⟨r, hr, heq⟩ := Option.map_eq_some_iff.1 h
          cases heq
          have := length_of_scanDigits hr
          rw [List.length_cons] at this
          omega

/-- A call leaves no more than there was. -/
theorem length_scanfFrom (len : ℕ) (format : List Directive) : ∀ s,
    (scanfFrom len format s).2.length ≤ s.length := by
  induction format with
  | nil => exact fun s => le_rfl
  | cons directive format ih =>
      intro s
      cases directive with
      | space => exact (ih _).trans (length_skipSpaces s)
      | word =>
          rw [scanfFrom]
          split
          · exact length_skipSpaces s
          · next h => exact (ih _).trans (by have := length_of_scanWord h; omega)
      | skipWord =>
          rw [scanfFrom]
          split
          · exact length_skipSpaces s
          · next h => exact (ih _).trans (by have := length_of_scanWord h; omega)
      | number =>
          rw [scanfFrom]
          split
          · exact length_skipSpaces s
          · next h => exact (ih _).trans (length_of_scanNumber h)
      | count => exact ih s

theorem length_scanf (format : List Directive) (s : List UInt8) : (scanf format s).2.length ≤ s.length :=
  length_scanfFrom _ format s

/-! ## Numbers -/

theorem digitsValue_append (digits : List UInt8) (b : UInt8) :
    digitsValue (digits ++ [b]) = 10 * digitsValue digits + (b.toNat - 48) := by
  rw [digitsValue, List.foldl_append]
  rfl

theorem digitByte {d : ℕ} (hd : d < 10) : isDigit (UInt8.ofNat (48 + d)) = true ∧
    (UInt8.ofNat (48 + d)).toNat - 48 = d := by
  have hnat : (UInt8.ofNat (48 + d)).toNat = 48 + d := by
    rw [UInt8.toNat_ofNat', Nat.mod_eq_of_lt (by omega)]
  constructor
  · have hle : 48 ≤ UInt8.ofNat (48 + d) ∧ UInt8.ofNat (48 + d) ≤ 57 := by
      rw [UInt8.le_iff_toNat_le, UInt8.le_iff_toNat_le, hnat]
      exact ⟨Nat.le_add_right 48 d, by change 48 + d ≤ 57; omega⟩
    exact decide_eq_true hle
  · omega

theorem digitsValue_reverse (digits : List ℕ) (h : ∀ d ∈ digits, d < 10) :
    digitsValue (digits.reverse.map fun d => UInt8.ofNat (48 + d)) = Nat.ofDigits 10 digits := by
  induction digits with
  | nil => rfl
  | cons d digits ih =>
      rw [List.reverse_cons, List.map_append, List.map_singleton, digitsValue_append,
        ih fun d hd => h d (List.mem_cons_of_mem _ hd), (digitByte (h d List.mem_cons_self)).2, Nat.ofDigits_cons,
        Nat.add_comm]

theorem digitsValue_decimal (n : ℕ) : digitsValue (decimal n) = n := by
  rw [decimal]
  split
  · next hn => rw [hn]; rfl
  · rw [digitsValue_reverse _ fun d hd => Nat.digits_lt_base (by decide) hd, Nat.ofDigits_digits]

theorem isDigit_of_mem_decimal {n : ℕ} {b : UInt8} (hb : b ∈ decimal n) : isDigit b = true := by
  rw [decimal] at hb
  split at hb
  · rw [List.mem_singleton.1 hb]
    rfl
  · rcases List.mem_map.1 hb with ⟨d, hd, rfl⟩
    exact (digitByte (Nat.digits_lt_base (by decide) (List.mem_reverse.1 hd))).1

theorem decimal_ne_nil (n : ℕ) : decimal n ≠ [] := by
  rw [decimal]
  split
  · exact List.cons_ne_nil _ _
  · next hn => simpa [Nat.digits_eq_nil_iff_eq_zero] using hn

theorem not_sign_of_isDigit {b : UInt8} (hb : isDigit b = true) : isSpace b = false ∧ b ≠ 45 ∧ b ≠ 43 := by
  have hle : 48 ≤ b.toNat := UInt8.le_iff_toNat_le.1 (of_decide_eq_true hb).1
  have hne : ∀ c : UInt8, c.toNat < 48 → b ≠ c := by
    rintro c hc rfl
    omega
  refine ⟨decide_eq_false ?_, hne 45 (by decide), hne 43 (by decide)⟩
  rintro (h | ⟨-, h⟩)
  · exact hne 32 (by decide) h
  · have hle' : b.toNat ≤ 13 := UInt8.le_iff_toNat_le.1 h
    omega

theorem isWord_decimal (n : ℕ) : IsWord (decimal n) :=
  ⟨decimal_ne_nil n, fun _ hb => (not_sign_of_isDigit (isDigit_of_mem_decimal hb)).1⟩

theorem scanNumber_decimal (n : ℕ) {b : UInt8} (hb : isDigit b = false) (t : List UInt8) :
    scanNumber (decimal n ++ b :: t) = some ((n : ℤ), b :: t) := by
  have hdigits : scanDigits (decimal n ++ b :: t) = some (n, b :: t) := by
    have htake : (decimal n ++ b :: t).takeWhile isDigit = decimal n := by
      rw [List.takeWhile_append_of_pos fun b hb => isDigit_of_mem_decimal hb,
        List.takeWhile_cons_of_neg (by simp [hb]), List.append_nil]
    rw [scanDigits]
    simp only [htake, if_neg (decimal_ne_nil n), List.drop_left, digitsValue_decimal]
  rw [scanNumber, (isWord_decimal n).skipSpaces_append]
  rcases hn : decimal n with _ | ⟨d, ds⟩
  · exact absurd hn (decimal_ne_nil n)
  · have hd : d ∈ decimal n := hn ▸ List.mem_cons_self
    have hsign := not_sign_of_isDigit (isDigit_of_mem_decimal hd)
    rw [hn] at hdigits
    rw [List.cons_append] at hdigits ⊢
    simp only [if_neg hsign.2.1, if_neg hsign.2.2, hdigits, Option.map_some]

end Scan
