import Mathlib.Computability.RegularExpressions
import Mathlib.Data.List.TakeWhile
import Playbook.Tag

/-!
Which plain scalars are numbers. Whole numbers and numbers with a point are written by a pattern
each, and the tests for them accept just the words of these patterns. No scalar passes two of the
tests that decide on its tag, so it does not matter in which order they are made.
-/

namespace Playbook

open RegularExpression

/-! ### Patterns -/

namespace Pattern

def oneOf (chars : List Char) : RegularExpression Char := (chars.map char).sum

def word (chars : List Char) : RegularExpression Char := (chars.map char).prod

def maybe (P : RegularExpression Char) : RegularExpression Char := 1 + P

def oneOrMore (P : RegularExpression Char) : RegularExpression Char := P * P.star

def signed (P : RegularExpression Char) : RegularExpression Char := maybe (oneOf ['-', '+']) * P

def binaryDigits : List Char := ['0', '1']

def octalDigits : List Char := ['0', '1', '2', '3', '4', '5', '6', '7']

def decimalDigits : List Char := octalDigits ++ ['8', '9']

def hexDigits : List Char :=
  decimalDigits ++ ['a', 'b', 'c', 'd', 'e', 'f', 'A', 'B', 'C', 'D', 'E', 'F']

/-- Underscores may stand between digits. -/
def withGaps (digits : List Char) : List Char := digits ++ ['_']

def binary : RegularExpression Char :=
  word ['0', 'b'] * oneOrMore (oneOf (withGaps binaryDigits))

def octal : RegularExpression Char := char '0' * oneOrMore (oneOf (withGaps octalDigits))

def decimal : RegularExpression Char :=
  char '0' +
    oneOf ['1', '2', '3', '4', '5', '6', '7', '8', '9'] * (oneOf (withGaps decimalDigits)).star

def hexadecimal : RegularExpression Char :=
  word ['0', 'x'] * oneOrMore (oneOf (withGaps hexDigits))

/-- Whole numbers. -/
def integer : RegularExpression Char :=
  signed binary + signed octal + signed decimal + signed hexadecimal

def exponent : RegularExpression Char :=
  maybe (oneOf ['e', 'E'] * oneOf ['-', '+'] * oneOrMore (oneOf decimalDigits))

/-- Digits with a point among them or behind them. -/
def pointed : RegularExpression Char :=
  oneOf decimalDigits * (oneOf (withGaps decimalDigits)).star * char '.' *
    (oneOf (withGaps decimalDigits)).star

/-- Digits with a point in front of them. -/
def fraction : RegularExpression Char :=
  char '.' * oneOf decimalDigits * (oneOf (withGaps decimalDigits)).star

def infinity : RegularExpression Char :=
  char '.' * (word ['i', 'n', 'f'] + word ['I', 'n', 'f'] + word ['I', 'N', 'F'])

/-- The number that is none. -/
def notNumber : RegularExpression Char :=
  char '.' * (word ['n', 'a', 'n'] + word ['N', 'a', 'N'] + word ['N', 'A', 'N'])

/-- Numbers with a point. -/
def float : RegularExpression Char :=
  signed (pointed * exponent) + fraction * exponent + signed infinity + notNumber

variable {chars text : List Char} {P Q R : RegularExpression Char}

theorem mem_char {c : Char} : text ∈ (char c).matches' ↔ text = [c] := Iff.rfl

theorem mem_or : text ∈ (P + Q).matches' ↔ text ∈ P.matches' ∨ text ∈ Q.matches' := Iff.rfl

theorem mem_maybe : text ∈ (maybe P).matches' ↔ text = [] ∨ text ∈ P.matches' := Iff.rfl

theorem mem_seq : text ∈ (P * Q).matches' ↔
    ∃ first ∈ P.matches', ∃ rest ∈ Q.matches', first ++ rest = text := Language.mem_mul

theorem mem_seq_assoc : text ∈ (P * Q * R).matches' ↔ text ∈ (P * (Q * R)).matches' := by
  simp only [matches'_mul, mul_assoc]

theorem mem_oneOf : text ∈ (oneOf chars).matches' ↔ ∃ c ∈ chars, text = [c] := by
  induction chars with
  | nil => simp [oneOf, matches'_zero]
  | cons c chars ih =>
      have hsum : oneOf (c :: chars) = char c + oneOf chars := List.sum_cons
      rw [hsum, mem_or, mem_char, ih]
      simp

theorem mem_char_seq {c : Char} :
    text ∈ (char c * P).matches' ↔ ∃ rest ∈ P.matches', text = c :: rest := by
  simp only [mem_seq, mem_char, exists_eq_left, List.singleton_append, eq_comm]

theorem mem_oneOf_seq : text ∈ (oneOf chars * P).matches' ↔
    ∃ c ∈ chars, ∃ rest ∈ P.matches', text = c :: rest := by
  simp only [mem_seq, mem_oneOf]
  constructor
  · rintro ⟨_, ⟨c, hc, rfl⟩, rest, hrest, rfl⟩
    exact ⟨c, hc, rest, hrest, rfl⟩
  · rintro ⟨c, hc, rest, hrest, rfl⟩
    exact ⟨[c], ⟨c, hc, rfl⟩, rest, hrest, rfl⟩

theorem mem_word : text ∈ (word chars).matches' ↔ text = chars := by
  induction chars generalizing text with
  | nil => simp [word, matches'_epsilon]
  | cons c chars ih =>
      have hprod : word (c :: chars) = char c * word chars := List.prod_cons
      simp only [hprod, mem_char_seq, ih, exists_eq_left]

theorem mem_word_seq : text ∈ (word chars * P).matches' ↔
    ∃ rest ∈ P.matches', text = chars ++ rest := by
  simp only [mem_seq, mem_word, exists_eq_left]
  simp only [eq_comm]

theorem mem_star_oneOf :
    text ∈ (oneOf chars).star.matches' ↔ ∀ c ∈ text, c ∈ chars := by
  rw [matches'_star, Language.mem_kstar]
  constructor
  · rintro ⟨words, rfl, hwords⟩ c hc
    obtain ⟨w, hw, hcw⟩ := List.mem_flatten.mp hc
    obtain ⟨d, hd, rfl⟩ := mem_oneOf.mp (hwords w hw)
    rwa [List.mem_singleton.mp hcw]
  · intro h
    refine ⟨text.map ([·]), by simp [← List.flatMap_def], ?_⟩
    simpa [mem_oneOf] using h

theorem mem_oneOrMore_oneOf : text ∈ (oneOrMore (oneOf chars)).matches' ↔
    text ≠ [] ∧ ∀ c ∈ text, c ∈ chars := by
  simp only [oneOrMore, mem_oneOf_seq, mem_star_oneOf]
  constructor
  · rintro ⟨c, hc, rest, hrest, rfl⟩
    exact ⟨by simp, List.forall_mem_cons.mpr ⟨hc, hrest⟩⟩
  · rintro ⟨hne, h⟩
    obtain ⟨c, rest, rfl⟩ := List.exists_cons_of_ne_nil hne
    obtain ⟨hc, hrest⟩ := List.forall_mem_cons.mp h
    exact ⟨c, hc, rest, hrest, rfl⟩

/-- The characters that occur in a pattern. -/
def letters : RegularExpression Char → List Char
  | .zero => []
  | .epsilon => []
  | .char c => [c]
  | .plus P Q => letters P ++ letters Q
  | .comp P Q => letters P ++ letters Q
  | .star P => letters P

/-- The words of a pattern are made of its characters. -/
theorem mem_letters (h : text ∈ P.matches') : ∀ c ∈ text, c ∈ letters P := by
  induction P generalizing text with
  | zero => cases h
  | epsilon =>
      cases h
      simp
  | char c =>
      cases h
      simp [letters]
  | plus P Q ihP ihQ =>
      intro c hc
      rcases mem_or.mp h with h | h
      · exact List.mem_append_left _ (ihP h c hc)
      · exact List.mem_append_right _ (ihQ h c hc)
  | comp P Q ihP ihQ =>
      intro c hc
      obtain ⟨first, hfirst, rest, hrest, rfl⟩ := mem_seq.mp h
      rcases List.mem_append.mp hc with hc | hc
      · exact List.mem_append_left _ (ihP hfirst c hc)
      · exact List.mem_append_right _ (ihQ hrest c hc)
  | star P ih =>
      intro c hc
      obtain ⟨words, rfl, hwords⟩ := Language.mem_kstar.mp h
      obtain ⟨w, hw, hcw⟩ := List.mem_flatten.mp hc
      exact ih (hwords w hw) c hcw

/-- Every word of the pattern has a first character, which is no sign. -/
def Unsigned (P : RegularExpression Char) : Prop :=
  ∀ text ∈ P.matches', ∃ c ∉ ['-', '+'], ∃ rest, text = c :: rest

theorem Unsigned.or (hP : Unsigned P) (hQ : Unsigned Q) : Unsigned (P + Q) := by
  rintro text (h | h)
  · exact hP text h
  · exact hQ text h

theorem Unsigned.seq (hP : Unsigned P) : Unsigned (P * Q) := by
  intro text h
  obtain ⟨first, hfirst, rest, -, rfl⟩ := mem_seq.mp h
  obtain ⟨c, hc, first, rfl⟩ := hP first hfirst
  exact ⟨c, hc, first ++ rest, rfl⟩

theorem unsigned_oneOf (h : ∀ c ∈ chars, c ∉ ['-', '+']) : Unsigned (oneOf chars) := by
  intro text htext
  obtain ⟨c, hc, rfl⟩ := mem_oneOf.mp htext
  exact ⟨c, h c hc, [], rfl⟩

theorem unsigned_char {c : Char} (hc : c ∉ ['-', '+']) : Unsigned (char c) := by
  rintro _ rfl
  exact ⟨c, hc, [], rfl⟩

theorem unsigned_word {c : Char} (hc : c ∉ ['-', '+']) : Unsigned (word (c :: chars)) := by
  intro text htext
  exact ⟨c, hc, chars, mem_word.mp htext⟩

theorem Unsigned.stripSign_eq (hP : Unsigned P) (htext : text ∈ P.matches') :
    Tag.stripSign text = text := by
  obtain ⟨c, hc, rest, rfl⟩ := hP text htext
  unfold Tag.stripSign
  split
  · rename_i heq
    cases heq
    exact absurd hc (by decide)
  · rename_i heq
    cases heq
    exact absurd hc (by decide)
  · rfl

/-- A sign in front is taken off. -/
theorem mem_signed (hP : Unsigned P) :
    text ∈ (signed P).matches' ↔ Tag.stripSign text ∈ P.matches' := by
  have hsigned : text ∈ (signed P).matches' ↔
      text ∈ P.matches' ∨ ∃ c ∈ ['-', '+'], ∃ rest ∈ P.matches', text = c :: rest := by
    rw [← mem_oneOf_seq, ← mem_or]
    simp only [signed, maybe, matches'_mul, matches'_add, matches'_epsilon, add_mul, one_mul]
  have hbare : ∀ c ∈ ['-', '+'], ∀ rest, c :: rest ∉ P.matches' := by
    intro c hc rest hrest
    obtain ⟨d, hd, _, hcons⟩ := hP _ hrest
    cases hcons
    exact hd hc
  rw [hsigned]
  unfold Tag.stripSign
  split
  · simp [hbare '-' (by decide)]
  · simp [hbare '+' (by decide)]
  · rename_i hminus hplus
    rw [or_iff_left]
    rintro ⟨c, hc, rest, -, rfl⟩
    rcases List.mem_pair.mp hc with rfl | rfl
    · exact hminus rest rfl
    · exact hplus rest rfl

theorem mem_binary : text ∈ binary.matches' ↔ ∃ digits, digits ≠ [] ∧
    (∀ c ∈ digits, c ∈ withGaps binaryDigits) ∧ text = '0' :: 'b' :: digits := by
  simp only [binary, mem_word_seq, mem_oneOrMore_oneOf, and_assoc, List.cons_append,
    List.nil_append]

theorem mem_octal : text ∈ octal.matches' ↔ ∃ digits, digits ≠ [] ∧
    (∀ c ∈ digits, c ∈ withGaps octalDigits) ∧ text = '0' :: digits := by
  simp only [octal, mem_char_seq, mem_oneOrMore_oneOf, and_assoc]

theorem mem_decimal : text ∈ decimal.matches' ↔ text = ['0'] ∨
    ∃ c ∈ ['1', '2', '3', '4', '5', '6', '7', '8', '9'], ∃ digits : List Char,
      (∀ c ∈ digits, c ∈ withGaps decimalDigits) ∧ text = c :: digits := by
  simp only [decimal, mem_or, mem_char, mem_oneOf_seq, mem_star_oneOf]

theorem mem_hexadecimal : text ∈ hexadecimal.matches' ↔ ∃ digits, digits ≠ [] ∧
    (∀ c ∈ digits, c ∈ withGaps hexDigits) ∧ text = '0' :: 'x' :: digits := by
  simp only [hexadecimal, mem_word_seq, mem_oneOrMore_oneOf, and_assoc, List.cons_append,
    List.nil_append]

end Pattern

open Pattern

/-! ### Classes of characters -/

theorem between_iff_mem (first last : Char) {c : Char} {chars : List Char}
    (hchars : chars.map Char.toNat = List.range' first.toNat (last.toNat + 1 - first.toNat)) :
    (first ≤ c ∧ c ≤ last) ↔ c ∈ chars := by
  have hle : ∀ a b : Char, a ≤ b ↔ a.toNat ≤ b.toNat := fun _ _ => Iff.rfl
  have hcode : c.toNat ∈ chars.map Char.toNat ↔ c ∈ chars :=
    List.mem_map_of_injective fun _ _ => Char.toNat_inj.mp
  rw [← hcode, hchars, List.mem_range'_1, hle, hle]
  omega

theorem isDigit_iff_mem {c : Char} : c.isDigit = true ↔ c ∈ decimalDigits := by
  rw [← between_iff_mem '0' '9' (by decide)]
  simp [Char.isDigit, Char.le_def]

theorem isBinaryOrGap_iff_mem {c : Char} :
    Tag.isBinaryOrGap c = true ↔ c ∈ withGaps binaryDigits := by
  simp [Tag.isBinaryOrGap, withGaps, binaryDigits, or_assoc]

theorem isOctalOrGap_iff_mem {c : Char} :
    Tag.isOctalOrGap c = true ↔ c ∈ withGaps octalDigits := by
  rw [withGaps, List.mem_append, ← between_iff_mem '0' '7' (by decide)]
  simp [Tag.isOctalOrGap]

theorem isDigitOrGap_iff_mem {c : Char} :
    Tag.isDigitOrGap c = true ↔ c ∈ withGaps decimalDigits := by
  simp [Tag.isDigitOrGap, withGaps, isDigit_iff_mem]

theorem isHexOrGap_iff_mem {c : Char} : Tag.isHexOrGap c = true ↔ c ∈ withGaps hexDigits := by
  have hsmall : ('a' ≤ c ∧ c ≤ 'f') ↔ c ∈ ['a', 'b', 'c', 'd', 'e', 'f'] :=
    between_iff_mem 'a' 'f' (by decide)
  have hlarge : ('A' ≤ c ∧ c ≤ 'F') ↔ c ∈ ['A', 'B', 'C', 'D', 'E', 'F'] :=
    between_iff_mem 'A' 'F' (by decide)
  have hsplit : hexDigits =
      decimalDigits ++ ['a', 'b', 'c', 'd', 'e', 'f'] ++ ['A', 'B', 'C', 'D', 'E', 'F'] := rfl
  rw [withGaps, hsplit]
  simp only [List.mem_append, ← hsmall, ← hlarge, ← isDigit_iff_mem, Tag.isHexOrGap]
  simp [or_assoc]

theorem someOf_iff {p : Char → Bool} {chars text : List Char}
    (hp : ∀ {c : Char}, p c = true ↔ c ∈ chars) :
    Tag.someOf p text = true ↔ text ≠ [] ∧ ∀ c ∈ text, c ∈ chars := by
  simp [Tag.someOf, hp]

/-! ### Whole numbers -/

theorem isInt_iff_unsigned {text : List Char} :
    Tag.isInt text = true ↔ Tag.stripSign text ∈ binary.matches' ∨
      Tag.stripSign text ∈ octal.matches' ∨ Tag.stripSign text ∈ decimal.matches' ∨
        Tag.stripSign text ∈ hexadecimal.matches' := by
  have hb : 'b' ∉ withGaps octalDigits := by decide
  have hx : 'x' ∉ withGaps octalDigits := by decide
  have hnine : ∀ c : Char, ('1' ≤ c ∧ c ≤ '9') ↔
      c ∈ ['1', '2', '3', '4', '5', '6', '7', '8', '9'] := fun c =>
    between_iff_mem '1' '9' (by decide)
  unfold Tag.isInt
  rw [mem_binary, mem_octal, mem_decimal, mem_hexadecimal]
  generalize Tag.stripSign text = u
  split
  · simp [someOf_iff isBinaryOrGap_iff_mem, hb]
  · simp [someOf_iff isHexOrGap_iff_mem, hx]
  · simp
  · rename_i digits hbinary hhex hzero
    have hb : ∀ rest, digits ≠ 'b' :: rest := hbinary
    have hx : ∀ rest, digits ≠ 'x' :: rest := hhex
    have hne : digits ≠ [] := hzero
    simp [someOf_iff isOctalOrGap_iff_mem, hb, hx, hne]
  · rename_i c digits _ _ _ hoctal
    have hc : c ≠ '0' := hoctal
    simp [hc, isDigitOrGap_iff_mem, ← hnine, and_assoc]
  · simp

theorem isInt_iff_mem (text : List Char) :
    Tag.isInt text = true ↔ text ∈ integer.matches' := by
  have hbinary : Unsigned binary := (unsigned_word (by decide)).seq
  have hoctal : Unsigned octal := (unsigned_char (by decide)).seq
  have hdecimal : Unsigned decimal :=
    (unsigned_char (by decide)).or (unsigned_oneOf (by simp)).seq
  have hhexadecimal : Unsigned hexadecimal := (unsigned_word (by decide)).seq
  simp only [integer, mem_or]
  rw [isInt_iff_unsigned, mem_signed hbinary, mem_signed hoctal, mem_signed hdecimal,
    mem_signed hhexadecimal, or_assoc, or_assoc]

/-! ### Numbers with a point -/

theorem span_eq_iff {p : Char → Bool} {text first rest : List Char} :
    text.span p = (first, rest) ↔
      text = first ++ rest ∧ (∀ c ∈ first, p c = true) ∧ ∀ c ∈ rest.head?, p c = false := by
  rw [List.span_eq_takeWhile_dropWhile, Prod.mk.injEq]
  constructor
  · rintro ⟨rfl, rfl⟩
    refine ⟨List.takeWhile_append_dropWhile.symm, fun c hc => List.mem_takeWhile_imp hc, ?_⟩
    intro c hc
    have hhead := List.head?_dropWhile_not p text
    rwa [hc] at hhead
  · rintro ⟨rfl, hfirst, hrest⟩
    rw [List.takeWhile_append_of_pos hfirst, List.dropWhile_append_of_pos hfirst]
    cases rest with
    | nil => simp
    | cons c rest =>
        have hc : p c = false := hrest c rfl
        simp [hc]

theorem mem_exponent {text : List Char} : text ∈ exponent.matches' ↔ text = [] ∨
    ∃ c ∈ ['e', 'E'], ∃ d ∈ ['-', '+'], ∃ digits, digits ≠ [] ∧
      (∀ c ∈ digits, c ∈ decimalDigits) ∧ text = c :: d :: digits := by
  simp only [exponent, mem_maybe, mem_seq_assoc, mem_oneOf_seq, mem_oneOrMore_oneOf]
  refine or_congr_right ⟨?_, ?_⟩
  · rintro ⟨c, hc, _, ⟨d, hd, digits, ⟨hne, hdigits⟩, rfl⟩, rfl⟩
    exact ⟨c, hc, d, hd, digits, hne, hdigits, rfl⟩
  · rintro ⟨c, hc, d, hd, digits, hne, hdigits, rfl⟩
    exact ⟨c, hc, _, ⟨d, hd, digits, ⟨hne, hdigits⟩, rfl⟩, rfl⟩

theorem mem_pointed {text : List Char} : text ∈ pointed.matches' ↔ ∃ c ∈ decimalDigits,
    ∃ whole : List Char, (∀ c ∈ whole, c ∈ withGaps decimalDigits) ∧ ∃ fraction : List Char,
      (∀ c ∈ fraction, c ∈ withGaps decimalDigits) ∧ text = c :: (whole ++ '.' :: fraction) := by
  simp only [pointed, mem_seq_assoc, mem_oneOf_seq]
  simp only [mem_seq, mem_char, mem_star_oneOf]
  constructor
  · rintro ⟨c, hc, _, ⟨whole, hwhole, _, ⟨_, rfl, fraction, hfraction, rfl⟩, rfl⟩, rfl⟩
    exact ⟨c, hc, whole, hwhole, fraction, hfraction, rfl⟩
  · rintro ⟨c, hc, whole, hwhole, fraction, hfraction, rfl⟩
    exact ⟨c, hc, _, ⟨whole, hwhole, _, ⟨_, rfl, fraction, hfraction, rfl⟩, rfl⟩, rfl⟩

theorem mem_fraction {text : List Char} : text ∈ fraction.matches' ↔ ∃ c ∈ decimalDigits,
    ∃ digits : List Char, (∀ c ∈ digits, c ∈ withGaps decimalDigits) ∧
      text = '.' :: c :: digits := by
  simp only [fraction, mem_seq_assoc, mem_char_seq, mem_oneOf_seq, mem_star_oneOf]
  constructor
  · rintro ⟨_, ⟨c, hc, digits, hdigits, rfl⟩, rfl⟩
    exact ⟨c, hc, digits, hdigits, rfl⟩
  · rintro ⟨c, hc, digits, hdigits, rfl⟩
    exact ⟨_, ⟨c, hc, digits, hdigits, rfl⟩, rfl⟩

theorem isExponentSign_iff_mem {c : Char} : Tag.isExponentSign c = true ↔ c ∈ ['e', 'E'] := by
  simp [Tag.isExponentSign]

theorem isExponent_iff_mem {text : List Char}
    (h : ∀ c ∈ text.head?, Tag.isExponentSign c = true) :
    Tag.isExponent text = true ↔ text ∈ exponent.matches' := by
  rw [mem_exponent]
  constructor
  · intro hexponent
    unfold Tag.isExponent at hexponent
    split at hexponent
    · exact Or.inl rfl
    · obtain ⟨hne, hdigits⟩ := (someOf_iff isDigit_iff_mem).mp hexponent
      exact Or.inr ⟨_, isExponentSign_iff_mem.mp (h _ rfl), '-', by decide, _, hne, hdigits, rfl⟩
    · obtain ⟨hne, hdigits⟩ := (someOf_iff isDigit_iff_mem).mp hexponent
      exact Or.inr ⟨_, isExponentSign_iff_mem.mp (h _ rfl), '+', by decide, _, hne, hdigits, rfl⟩
    · cases hexponent
  · rintro (rfl | ⟨c, -, d, hd, digits, hne, hdigits, rfl⟩)
    · rfl
    · rcases List.mem_pair.mp hd with rfl | rfl
      · exact (someOf_iff isDigit_iff_mem).mpr ⟨hne, hdigits⟩
      · exact (someOf_iff isDigit_iff_mem).mpr ⟨hne, hdigits⟩

theorem isMantissa_iff_mem {text : List Char} {signed : Bool} :
    Tag.isMantissa signed text = true ↔
      text ∈ pointed.matches' ∨ signed = false ∧ text ∈ fraction.matches' := by
  rw [mem_pointed, mem_fraction]
  have hdigit : ∀ c ∈ decimalDigits, c ∈ withGaps decimalDigits := fun _ =>
    List.mem_append_left _
  have hpoint : ∀ c ∈ withGaps decimalDigits, (c != '.') = true :=
    List.all_eq_true.mp (by decide)
  constructor
  · intro h
    unfold Tag.isMantissa at h
    split at h
    · cases h
    · rename_i d fraction hspan
      obtain ⟨rfl, -, hd⟩ := span_eq_iff.mp hspan
      obtain rfl : d = '.' := by simpa using hd d rfl
      -- With nothing before the point, there must be a digit behind it and no sign in front.
      cases fraction with
      | nil => simp at h
      | cons c digits =>
          simp only [List.head?_cons, Option.any_some, List.all_cons, Bool.and_eq_true,
            Bool.not_eq_true', List.all_eq_true, isDigit_iff_mem, isDigitOrGap_iff_mem] at h
          obtain ⟨⟨hsigned, hc⟩, -, hdigits⟩ := h
          exact Or.inr ⟨hsigned, c, hc, digits, hdigits, rfl⟩
    · rename_i c whole d fraction hspan
      obtain ⟨rfl, -, hd⟩ := span_eq_iff.mp hspan
      obtain rfl : d = '.' := by simpa using hd d rfl
      simp only [Bool.and_eq_true, List.all_eq_true, isDigit_iff_mem, isDigitOrGap_iff_mem] at h
      exact Or.inl ⟨c, h.1.1, whole, h.1.2, fraction, h.2, rfl⟩
  · rintro (⟨c, hc, whole, hwhole, fraction, hfraction, rfl⟩ | ⟨rfl, c, hc, digits, hdigits, rfl⟩)
    · have hspan : (c :: (whole ++ '.' :: fraction)).span (· != '.') =
          (c :: whole, '.' :: fraction) := by
        refine span_eq_iff.mpr ⟨rfl, List.forall_mem_cons.mpr ⟨hpoint c (hdigit c hc), ?_⟩, ?_⟩
        · exact fun c hc => hpoint c (hwhole c hc)
        · rintro c ⟨⟩
          rfl
      simp only [Tag.isMantissa, hspan, Bool.and_eq_true, List.all_eq_true, isDigit_iff_mem,
        isDigitOrGap_iff_mem]
      exact ⟨⟨hc, hwhole⟩, hfraction⟩
    · simp only [Tag.isMantissa, List.span, List.span.loop, bne_self_eq_false, List.reverse_nil,
        List.head?_cons, Option.any_some, List.all_cons, Bool.not_false, Bool.true_and,
        Bool.and_eq_true, List.all_eq_true, isDigit_iff_mem, isDigitOrGap_iff_mem]
      exact ⟨hc, hdigit c hc, hdigits⟩

theorem mem_seq_exponent {P : RegularExpression Char} {text : List Char}
    (hP : (letters P).any Tag.isExponentSign = false) :
    text ∈ (P * exponent).matches' ↔
      (text.span fun c => !Tag.isExponentSign c).1 ∈ P.matches' ∧
        Tag.isExponent (text.span fun c => !Tag.isExponentSign c).2 = true := by
  rcases hspan : text.span fun c => !Tag.isExponentSign c with ⟨first, rest⟩
  rw [mem_seq]
  constructor
  · rintro ⟨first', hfirst', rest', hrest', rfl⟩
    have hsign : ∀ c ∈ rest'.head?, Tag.isExponentSign c = true := by
      intro c hc
      rcases mem_exponent.mp hrest' with rfl | ⟨e, he, d, -, digits, -, -, rfl⟩
      · cases hc
      · cases hc
        exact isExponentSign_iff_mem.mpr he
    have hspan' : (first' ++ rest').span (fun c => !Tag.isExponentSign c) = (first', rest') := by
      refine span_eq_iff.mpr ⟨rfl, ?_, ?_⟩
      · intro c hc
        simpa using List.any_eq_false.mp hP c (mem_letters hfirst' c hc)
      · intro c hc
        simp [hsign c hc]
    obtain ⟨rfl, rfl⟩ := Prod.mk.inj (hspan'.symm.trans hspan)
    exact ⟨hfirst', (isExponent_iff_mem hsign).mpr hrest'⟩
  · rintro ⟨hfirst, hrest⟩
    obtain ⟨rfl, -, hsign⟩ := span_eq_iff.mp hspan
    have hsign : ∀ c ∈ rest.head?, Tag.isExponentSign c = true := by simpa using hsign
    exact ⟨first, hfirst, rest, (isExponent_iff_mem hsign).mp hrest, rfl⟩

theorem contains_ofList {words : List String} {text : List Char} :
    words.contains (String.ofList text) = true ↔ text ∈ words.map String.toList := by
  rw [List.contains_iff_mem, List.mem_map]
  constructor
  · exact fun h => ⟨_, h, String.toList_ofList⟩
  · rintro ⟨w, hw, rfl⟩
    rwa [String.ofList_toList]

theorem mem_infinity {text : List Char} :
    text ∈ infinity.matches' ↔ [".inf", ".Inf", ".INF"].contains (String.ofList text) = true := by
  have hwords : [".inf", ".Inf", ".INF"].map String.toList =
      [['.', 'i', 'n', 'f'], ['.', 'I', 'n', 'f'], ['.', 'I', 'N', 'F']] := rfl
  rw [contains_ofList, hwords]
  simp [infinity, mem_char_seq, mem_or, mem_word, -matches', or_and_right, exists_or, or_assoc]

theorem mem_notNumber {text : List Char} :
    text ∈ notNumber.matches' ↔ [".nan", ".NaN", ".NAN"].contains (String.ofList text) = true := by
  have hwords : [".nan", ".NaN", ".NAN"].map String.toList =
      [['.', 'n', 'a', 'n'], ['.', 'N', 'a', 'N'], ['.', 'N', 'A', 'N']] := rfl
  rw [contains_ofList, hwords]
  simp [notNumber, mem_char_seq, mem_or, mem_word, -matches', or_and_right, exists_or, or_assoc]

/-- A number that starts with a point has no sign. -/
theorem mem_fraction_exponent {text : List Char} :
    text ∈ (fraction * exponent).matches' ↔
      Tag.stripSign text = text ∧ Tag.stripSign text ∈ (fraction * exponent).matches' := by
  have hfraction : Unsigned (fraction * exponent) := (unsigned_char (by decide)).seq.seq.seq
  constructor
  · intro h
    have heq := hfraction.stripSign_eq h
    exact ⟨heq, heq.symm ▸ h⟩
  · rintro ⟨heq, h⟩
    exact heq ▸ h

theorem isFloat_iff_mem (text : List Char) :
    Tag.isFloat text = true ↔ text ∈ float.matches' := by
  have hdigits : Unsigned (oneOf decimalDigits) :=
    unsigned_oneOf (by simp [decimalDigits, octalDigits])
  have hpointed : Unsigned (pointed * exponent) := hdigits.seq.seq.seq.seq
  have hinfinity : Unsigned infinity := (unsigned_char (by decide)).seq
  simp only [float, mem_or]
  rw [mem_signed hpointed, mem_signed hinfinity, mem_fraction_exponent,
    mem_seq_exponent (by decide), mem_seq_exponent (by decide), mem_infinity, mem_notNumber]
  simp only [Tag.isFloat, Bool.or_eq_true, Bool.and_eq_true, isMantissa_iff_mem,
    bne_eq_false_iff_eq]
  tauto

/-! ### The order of the tests -/

theorem point_not_mem_integer {text : List Char} (h : text ∈ integer.matches') : '.' ∉ text :=
  fun hpoint => absurd (mem_letters h '.' hpoint) (by decide)

theorem point_mem_float {text : List Char} (h : text ∈ float.matches') : '.' ∈ text := by
  simp only [float, mem_or] at h
  rcases h with ((h | h) | h) | h
  · obtain ⟨_, -, number, hnumber, rfl⟩ := mem_seq.mp h
    obtain ⟨_, hdigits, _, -, rfl⟩ := mem_seq.mp hnumber
    obtain ⟨c, -, whole, -, fraction, -, rfl⟩ := mem_pointed.mp hdigits
    simp
  · obtain ⟨_, hdigits, _, -, rfl⟩ := mem_seq.mp h
    obtain ⟨c, -, digits, -, rfl⟩ := mem_fraction.mp hdigits
    simp
  · obtain ⟨_, -, name, hname, rfl⟩ := mem_seq.mp h
    obtain ⟨rest, -, rfl⟩ := mem_char_seq.mp hname
    simp
  · obtain ⟨rest, -, rfl⟩ := mem_char_seq.mp h
    simp

namespace Tag

/-- The tests that decide on the tag of a plain scalar. -/
def tests : List (Tag × (String → Bool)) :=
  [(null, nullWords.contains), (bool, boolWords.contains), (merge, (· == "<<")),
    (float, fun text => isFloat text.toList), (int, fun text => isInt text.toList)]

/-- The tag of the first test that a text passes. A text that passes none is a string. -/
def byTests (tests : List (Tag × (String → Bool))) (text : String) : Tag :=
  ((tests.find? fun test => test.2 text).map Prod.fst).getD str

theorem byTests_cons (tag : Tag) (test : String → Bool) (tests : List (Tag × (String → Bool)))
    (text : String) :
    byTests ((tag, test) :: tests) text = if test text then tag else byTests tests text := by
  unfold byTests
  rw [List.find?_cons]
  dsimp only
  cases test text <;> rfl

theorem byTests_tests (text : String) : byTests tests text = ofScalar text true := by
  simp only [tests, byTests_cons]
  rfl

theorem words_disjoint {words : List String} {test : String → Bool}
    (h : words.all (fun word => !test word) = true) (text : String) :
    ¬(words.contains text = true ∧ test text = true) := by
  rintro ⟨hword, htest⟩
  have hnot := List.all_eq_true.mp h text (List.contains_iff_mem.mp hword)
  simp [htest] at hnot

theorem merge_disjoint {test : String → Bool} (h : test "<<" = false) (text : String) :
    ¬((text == "<<") = true ∧ test text = true) := by
  rintro ⟨hmerge, htest⟩
  rw [beq_iff_eq.mp hmerge, h] at htest
  cases htest

theorem isFloat_disjoint_isInt (text : List Char) :
    ¬(isFloat text = true ∧ isInt text = true) := by
  rintro ⟨hfloat, hint⟩
  exact point_not_mem_integer ((isInt_iff_mem text).mp hint)
    (point_mem_float ((isFloat_iff_mem text).mp hfloat))

theorem tests_disjoint :
    tests.Pairwise fun a b => ∀ text, ¬(a.2 text = true ∧ b.2 text = true) := by
  simp only [tests, List.pairwise_cons, List.forall_mem_cons]
  refine ⟨⟨?_, ?_, ?_, ?_, List.forall_mem_nil _⟩, ⟨?_, ?_, ?_, List.forall_mem_nil _⟩,
    ⟨?_, ?_, List.forall_mem_nil _⟩, ⟨?_, List.forall_mem_nil _⟩, List.forall_mem_nil _, .nil⟩
  · exact words_disjoint (by decide +kernel)
  · exact words_disjoint (by decide +kernel)
  · exact words_disjoint (by decide +kernel)
  · exact words_disjoint (by decide +kernel)
  · exact words_disjoint (by decide +kernel)
  · exact words_disjoint (by decide +kernel)
  · exact words_disjoint (by decide +kernel)
  · exact merge_disjoint (by decide +kernel)
  · exact merge_disjoint (by decide +kernel)
  · exact fun text => isFloat_disjoint_isInt text.toList

/-- If no two items pass, then the one that does is found in every order. -/
theorem find?_perm {α : Type} {p : α → Bool} {items items' : List α} (hperm : items'.Perm items)
    (hdisjoint : items.Pairwise fun a b => ¬(p a = true ∧ p b = true)) :
    items'.find? p = items.find? p := by
  rw [← List.head?_filter, ← List.head?_filter]
  have hfilter := hperm.filter p
  have hpair := hdisjoint.sublist (List.filter_sublist (p := p))
  rcases hpass : items.filter p with _ | ⟨a, _ | ⟨b, rest⟩⟩
  · rw [hpass, List.perm_nil] at hfilter
    rw [hfilter]
  · rw [hpass, List.perm_singleton] at hfilter
    rw [hfilter]
  · have ha : p a = true := List.of_mem_filter (l := items) (by rw [hpass]; simp)
    have hb : p b = true := List.of_mem_filter (l := items) (by rw [hpass]; simp)
    rw [hpass] at hpair
    exact absurd ⟨ha, hb⟩ (List.rel_of_pairwise_cons hpair List.mem_cons_self)

/-- The tests for numbers accept the words of two patterns. No text passes two of the tests, so the
order in which they are made does not matter. -/
theorem ofScalar_languages :
    (∀ text, isInt text = true ↔ text ∈ integer.matches') ∧
    (∀ text, isFloat text = true ↔ text ∈ Pattern.float.matches') ∧
    (tests.Pairwise fun a b => ∀ text, ¬(a.2 text = true ∧ b.2 text = true)) ∧
    ∀ order, order.Perm tests → ∀ text, ofScalar text true = byTests order text := by
  refine ⟨isInt_iff_mem, isFloat_iff_mem, tests_disjoint, fun order hperm text => ?_⟩
  have hdisjoint := tests_disjoint.imp fun h => h text
  rw [← byTests_tests, byTests, byTests, find?_perm hperm hdisjoint]

/-- A whole number and a number with a point, tested in the reverse order. -/
theorem ofScalar_languages_reversed :
    tests.reverse.Perm tests ∧ byTests tests.reverse "-0x_F" = int ∧
      byTests tests.reverse "1_.e-0" = float := by
  have hperm : tests.reverse.Perm tests := tests.reverse_perm
  have horder := ofScalar_languages.2.2.2 _ hperm
  refine ⟨hperm, ?_, ?_⟩
  · rw [← horder]
    decide +kernel
  · rw [← horder]
    decide +kernel

end Tag

end Playbook
