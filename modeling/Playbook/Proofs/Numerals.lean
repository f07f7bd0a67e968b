import Mathlib.Data.Nat.Digits.Lemmas
import Playbook.Proofs.NumberPatterns
import Playbook.Document

/-!
The values of whole numbers. Without its underscores a whole number is a numeral: a sign, the mark
of a base and digits of that base. It has the value that the numeral denotes if there are digits at
all and they denote a number within 64 bits. Else it stays the text that it is.
-/

namespace Playbook

/-! ### Numerals -/

inductive Base
  | binary
  | octal
  | decimal
  | hexadecimal
  deriving DecidableEq

namespace Base

def radix : Base → Nat
  | binary => 2
  | octal => 8
  | decimal => 10
  | hexadecimal => 16

def digits : Base → List Char
  | binary => Pattern.binaryDigits
  | octal => Pattern.octalDigits
  | decimal => Pattern.decimalDigits
  | hexadecimal => Pattern.hexDigits

/-- What stands before the digits. The leading zero of an octal number is one of its digits. -/
def mark : Base → List Char
  | binary => ['0', 'b']
  | hexadecimal => ['0', 'x']
  | _ => []

end Base

/-- The value of a digit, be it a small or a capital letter. -/
def digitValue (d : Char) : Nat :=
  ['0', '1', '2', '3', '4', '5', '6', '7', '8', '9', 'a', 'b', 'c', 'd', 'e', 'f'].idxOf d.toLower

/-- The number that digits denote. -/
def Base.number (base : Base) (digits : List Char) : Nat :=
  Nat.ofDigits base.radix (digits.reverse.map digitValue)

/-- A whole number as it is written without underscores. -/
structure Numeral where
  sign : List Char
  base : Base
  digits : List Char
  sign_mem : sign ∈ [[], ['-'], ['+']]
  digits_mem : ∀ d ∈ digits, d ∈ base.digits
  /-- A leading zero makes a number without a mark octal. -/
  leading_zero : base.mark = [] → (base = .octal ↔ digits.head? = some '0')

namespace Numeral

def text (numeral : Numeral) : List Char := numeral.sign ++ (numeral.base.mark ++ numeral.digits)

def magnitude (numeral : Numeral) : Nat := numeral.base.number numeral.digits

def value (numeral : Numeral) : Int :=
  if numeral.sign = ['-'] then -(numeral.magnitude : Int) else numeral.magnitude

/-- There are digits, and they denote a number of 64 bits. -/
def Fits (numeral : Numeral) : Prop :=
  numeral.digits ≠ [] ∧ numeral.magnitude ≤ 2 ^ 63 - 1

instance (numeral : Numeral) : Decidable numeral.Fits := inferInstanceAs (Decidable (_ ∧ _))

end Numeral

/-! ### Reading digits -/

section Reading

variable {base : Base} {digits : List Char}

theorem Base.number_cons (base : Base) (d : Char) (digits : List Char) :
    base.number (d :: digits) =
      digitValue d * base.radix ^ digits.length + base.number digits := by
  simp [number, Nat.ofDigits_append, Nat.add_comm, Nat.mul_comm]

theorem digitIn?_radix {d : Char} (hd : d ∈ base.digits) :
    digitIn? base.radix d = some (digitValue d) := by
  have hall : base.digits.all (fun d => digitIn? base.radix d == some (digitValue d)) = true := by
    cases base <;> decide
  simpa using List.all_eq_true.mp hall d hd

theorem readDigitsFrom?_radix (h : ∀ d ∈ digits, d ∈ base.digits) (n : Nat) :
    readDigitsFrom? base.radix n digits =
      some (n * base.radix ^ digits.length + base.number digits) := by
  induction digits generalizing n with
  | nil => simp [readDigitsFrom?, Base.number]
  | cons d digits ih =>
      obtain ⟨hd, hdigits⟩ := List.forall_mem_cons.mp h
      rw [readDigitsFrom?, digitIn?_radix hd, Option.bind_some, ih hdigits, Base.number_cons,
        List.length_cons, pow_succ]
      congr 1
      ring

theorem sign_not_mem (base : Base) :
    '-' ∉ base.mark ++ base.digits ∧ '+' ∉ base.mark ++ base.digits := by
  cases base <;> decide

theorem readInt?_radix (h : ∀ d ∈ digits, d ∈ base.digits) :
    readInt? base.radix digits =
      if digits = [] then none else some (base.number digits : Int) := by
  obtain ⟨hminus, hplus⟩ := sign_not_mem base
  have hread : readInt? base.radix digits =
      (readDigits? base.radix digits).map fun n => (n : Int) := by
    unfold readInt?
    split
    · exact absurd (List.mem_append_right _ (h '-' List.mem_cons_self)) hminus
    · unfold readNat?
      split
      · exact absurd (List.mem_append_right _ (h '+' List.mem_cons_self)) hplus
      · rfl
  rw [hread, readDigits?, readDigitsFrom?_radix h]
  cases digits with
  | nil => rfl
  | cons d digits => simp

end Reading

/-! ### Reading numerals -/

namespace Number

theorem negate_natCast {n : Nat} (hn : (n : Int) ≤ largest) : negate n = .ok (-(n : Int)) := by
  have hsmallest : smallest = -9223372036854775808 := by decide
  have hlargest : largest = 9223372036854775807 := by decide
  rw [negate, if_pos]
  simp only [Bool.and_eq_true, decide_eq_true_eq]
  omega

theorem bounded?_radix {base : Base} {digits : List Char} (h : ∀ d ∈ digits, d ∈ base.digits) :
    bounded? base.radix digits = if digits ≠ [] ∧ base.number digits ≤ 2 ^ 63 - 1 then
      some (base.number digits : Int) else none := by
  have hsmallest : smallest = -9223372036854775808 := by decide
  have hlargest : largest = 9223372036854775807 := by decide
  rw [bounded?, readInt?_radix h]
  by_cases hne : digits = []
  · simp [hne]
  · simp only [hne, if_false, ne_eq, not_false_eq_true, true_and, Option.filter_some,
      Bool.and_eq_true, decide_eq_true_eq]
    congr 1
    rw [eq_iff_iff]
    omega

theorem splitSign_of_head {text : List Char} (h : ∀ c ∈ text.head?, c ≠ '-' ∧ c ≠ '+') :
    splitSign text = (false, text) := by
  unfold splitSign
  split
  · exact absurd rfl (h '-' rfl).1
  · exact absurd rfl (h '+' rfl).2
  · rfl

theorem splitSign_text (numeral : Numeral) : splitSign numeral.text =
    (decide (numeral.sign = ['-']), numeral.base.mark ++ numeral.digits) := by
  have hhead : ∀ c ∈ (numeral.base.mark ++ numeral.digits).head?, c ≠ '-' ∧ c ≠ '+' := by
    intro c hc
    have hmem : c ∈ numeral.base.mark ++ numeral.base.digits := by
      rcases List.mem_append.mp (List.mem_of_mem_head? hc) with hmark | hdigits
      · exact List.mem_append_left _ hmark
      · exact List.mem_append_right _ (numeral.digits_mem c hdigits)
    obtain ⟨hminus, hplus⟩ := sign_not_mem numeral.base
    exact ⟨ne_of_mem_of_not_mem hmem hminus, ne_of_mem_of_not_mem hmem hplus⟩
  have hsign := numeral.sign_mem
  simp only [List.mem_cons, List.not_mem_nil, or_false] at hsign
  unfold Numeral.text
  rcases hsign with hsign | hsign | hsign
  · rw [hsign]
    exact splitSign_of_head hhead
  · rw [hsign]
    rfl
  · rw [hsign]
    rfl

theorem splitBase_decimal {text : List Char} (h : text.head? ≠ some '0') :
    splitBase text = (10, text) := by
  unfold splitBase
  split
  · exact absurd rfl h
  · exact absurd rfl h
  · exact absurd rfl h
  · exact absurd rfl h
  · rfl

theorem splitBase_octal {d : Char} (hd : d ∈ Base.octal.digits) (rest : List Char) :
    splitBase ('0' :: d :: rest) = (8, d :: rest) := by
  have hb : d ≠ 'b' := ne_of_mem_of_not_mem hd (by decide)
  have hx : d ≠ 'x' := ne_of_mem_of_not_mem hd (by decide)
  unfold splitBase
  split
  · rename_i htext
    cases htext
  · rename_i htext
    cases htext
    exact absurd rfl hb
  · rename_i htext
    cases htext
    exact absurd rfl hx
  · rename_i htext
    cases htext
    rfl
  · rename_i hother
    exact (hother _ rfl).elim

/-- The base that is read need not be that of the numeral, as a zero is one in every base. -/
theorem splitBase_text (numeral : Numeral) : ∃ (base : Base) (digits : List Char),
    splitBase (numeral.base.mark ++ numeral.digits) = (base.radix, digits) ∧
      (∀ d ∈ digits, d ∈ base.digits) ∧ base.number digits = numeral.magnitude ∧
        (digits = [] ↔ numeral.digits = []) := by
  obtain ⟨sign, base, digits, -, hdigits, hzero⟩ := numeral
  cases base with
  | binary => exact ⟨.binary, digits, rfl, hdigits, rfl, Iff.rfl⟩
  | hexadecimal => exact ⟨.hexadecimal, digits, rfl, hdigits, rfl, Iff.rfl⟩
  | decimal =>
      have hne : digits.head? ≠ some '0' := fun h => by cases (hzero rfl).mpr h
      exact ⟨.decimal, digits, splitBase_decimal hne, hdigits, rfl, Iff.rfl⟩
  | octal =>
      obtain ⟨rest, rfl⟩ := List.head?_eq_some_iff.mp ((hzero rfl).mp rfl)
      obtain ⟨-, hrest⟩ := List.forall_mem_cons.mp hdigits
      cases rest with
      | nil => exact ⟨.decimal, ['0'], rfl, List.forall_mem_singleton.mpr (by decide), rfl, by simp⟩
      | cons d rest =>
          have hd := hrest d List.mem_cons_self
          refine ⟨.octal, d :: rest, splitBase_octal hd rest, hrest, ?_, by simp⟩
          have hleading : digitValue '0' = 0 := by decide
          rw [Numeral.magnitude, Base.number_cons .octal '0', hleading, Nat.zero_mul, Nat.zero_add]

theorem magnitude?_of_numeral {text : List Char} {numeral : Numeral}
    (h : numeral.text = dropGaps text) :
    magnitude? text = if numeral.Fits then some (numeral.magnitude : Int) else none := by
  obtain ⟨base, digits, hsplit, hdigits, hnumber, hempty⟩ := splitBase_text numeral
  unfold magnitude?
  rw [← h, splitSign_text, hsplit]
  dsimp only
  rw [bounded?_radix hdigits, hnumber]
  exact if_congr (and_congr_left' (not_congr hempty)) rfl rfl

/-- Reading a whole number comes to what its numeral denotes. -/
theorem toInt?_of_numeral {text : List Char} {numeral : Numeral}
    (h : numeral.text = dropGaps text) :
    toInt? text = .ok (if numeral.Fits then some numeral.value else none) := by
  unfold toInt?
  rw [magnitude?_of_numeral h, ← h, splitSign_text]
  by_cases hfits : numeral.Fits
  · have hlargest : largest = 9223372036854775807 := by decide
    have hnegate : negate numeral.magnitude = .ok (-(numeral.magnitude : Int)) := by
      refine negate_natCast ?_
      have hle := hfits.2
      omega
    simp only [if_pos hfits, Option.mapM_some, decide_eq_true_eq, hnegate, Numeral.value]
    split_ifs <;> rfl
  · simp only [if_neg hfits]
    rfl

end Number

/-! ### The numeral of a whole number -/

section Exists

open Pattern

theorem exists_sign (text : List Char) :
    ∃ sign ∈ [[], ['-'], ['+']], text = sign ++ Tag.stripSign text := by
  unfold Tag.stripSign
  split
  · exact ⟨['-'], by decide, rfl⟩
  · exact ⟨['+'], by decide, rfl⟩
  · exact ⟨[], by decide, rfl⟩

theorem mem_of_mem_dropGaps {digits text : List Char} (h : ∀ c ∈ text, c ∈ withGaps digits) :
    ∀ c ∈ Number.dropGaps text, c ∈ digits := by
  intro c hc
  obtain ⟨hmem, hgap⟩ := List.mem_filter.mp hc
  have hne : c ≠ '_' := by simpa using hgap
  simpa [withGaps, hne] using h c hmem

/-- Behind its sign a whole number is a numeral. -/
theorem exists_unsigned {text : List Char} (h : Tag.isInt text = true) :
    ∃ (base : Base) (digits : List Char), (∀ d ∈ digits, d ∈ base.digits) ∧
      (base.mark = [] → (base = .octal ↔ digits.head? = some '0')) ∧
        Number.dropGaps (Tag.stripSign text) = base.mark ++ digits := by
  rcases isInt_iff_unsigned.mp h with h | h | h | h
  · obtain ⟨digits, -, hdigits, htext⟩ := mem_binary.mp h
    refine ⟨.binary, Number.dropGaps digits, mem_of_mem_dropGaps hdigits, by rintro ⟨⟩, ?_⟩
    rw [htext]
    rfl
  · obtain ⟨digits, -, hdigits, htext⟩ := mem_octal.mp h
    refine ⟨.octal, '0' :: Number.dropGaps digits,
      List.forall_mem_cons.mpr ⟨by decide, mem_of_mem_dropGaps hdigits⟩, by simp, ?_⟩
    rw [htext]
    rfl
  · rcases mem_decimal.mp h with htext | ⟨c, hc, digits, hdigits, htext⟩
    · refine ⟨.octal, ['0'], List.forall_mem_singleton.mpr (by decide), by simp, ?_⟩
      rw [htext]
      rfl
    · have hdigit : ∀ c ∈ ['1', '2', '3', '4', '5', '6', '7', '8', '9'],
          c ∈ decimalDigits ∧ c ≠ '0' ∧ c ≠ '_' := by simp [decimalDigits, octalDigits]
      obtain ⟨hmem, hzero, hgap⟩ := hdigit c hc
      refine ⟨.decimal, c :: Number.dropGaps digits,
        List.forall_mem_cons.mpr ⟨hmem, mem_of_mem_dropGaps hdigits⟩, by simp [hzero], ?_⟩
      rw [htext]
      simp [Number.dropGaps, hgap, Base.mark]
  · obtain ⟨digits, -, hdigits, htext⟩ := mem_hexadecimal.mp h
    refine ⟨.hexadecimal, Number.dropGaps digits, mem_of_mem_dropGaps hdigits, by rintro ⟨⟩, ?_⟩
    rw [htext]
    rfl

theorem exists_numeral {text : List Char} (h : Tag.isInt text = true) :
    ∃ numeral : Numeral, numeral.text = Number.dropGaps text := by
  obtain ⟨sign, hsign, htext⟩ := exists_sign text
  obtain ⟨base, digits, hdigits, hzero, hunsigned⟩ := exists_unsigned h
  refine ⟨⟨sign, base, digits, hsign, hdigits, hzero⟩, ?_⟩
  have hbare : Number.dropGaps sign = sign :=
    (by decide : ∀ sign ∈ [[], ['-'], ['+']], Number.dropGaps sign = sign) sign hsign
  calc sign ++ (base.mark ++ digits)
      = Number.dropGaps sign ++ Number.dropGaps (Tag.stripSign text) := by rw [hbare, hunsigned]
    _ = Number.dropGaps (sign ++ Tag.stripSign text) := (List.filter_append _ _).symm
    _ = Number.dropGaps text := by rw [← htext]

end Exists

/-! ### Values -/

section

variable {text : String} {head : NodeHead} {cursor : Cursor} {visit : Node → WalkM Value}
  {style : Style} {w : Walk}

theorem Document.walkFresh_of_number (hhead : head.tag = .int) {n? : Option Int}
    (hread : Number.toInt? text.toList = .ok n?) :
    walkFresh cursor visit (.scalar head text style) w =
      .ok ((n?.map Value.int).getD (.str text),
        w.leave cursor (.scalar head text style) (.str text)) := by
  have hvalue : scalarValue .int text = .ok ((n?.map Value.int).getD (.str text)) := by
    rw [scalarValue, hread]
    rfl
  rw [walkFresh, Node.tag, Node.head, hhead]
  change Except.mapError _ (scalarValue .int text) >>= _ = _
  rw [hvalue]
  rfl

theorem Document.walkFresh_of_overflow (hhead : head.tag = .int) {overflow : Number.Overflow}
    (hread : Number.toInt? text.toList = .error overflow) :
    walkFresh cursor visit (.scalar head text style) w =
      .error ((Node.scalar head text style).problem .overflow) := by
  have hvalue : scalarValue .int text = .error overflow := by
    rw [scalarValue, hread]
    rfl
  rw [walkFresh, Node.tag, Node.head, hhead]
  change Except.mapError _ (scalarValue .int text) >>= _ = _
  rw [hvalue]
  rfl

end

/-- Without its underscores a whole number is a numeral. A scalar that is tagged as a whole number
has the value of the numeral, if there are digits and they denote a number within 64 bits, and is
the text that it is otherwise. -/
theorem Document.walkFresh_int {text : String} (htext : Tag.isInt text.toList = true)
    (cursor : Cursor) (visit : Node → WalkM Value) {head : NodeHead} (hhead : head.tag = .int)
    (style : Style) (w : Walk) :
    (∃ numeral : Numeral, numeral.text = text.toList.filter (· != '_')) ∧
    ∀ numeral : Numeral, numeral.text = text.toList.filter (· != '_') →
      walkFresh cursor visit (.scalar head text style) w =
        .ok (if numeral.Fits then .int numeral.value else .str text,
          w.leave cursor (.scalar head text style) (.str text)) := by
  refine ⟨exists_numeral htext, fun numeral hnumeral => ?_⟩
  rw [walkFresh_of_number hhead (Number.toInt?_of_numeral hnumeral)]
  split_ifs <;> rfl

/-- The largest number with a sign in base sixteen, and a number without digits. -/
theorem Document.walkFresh_int_bounds :
    (walkFresh .origin (walkNode .origin 0)
      (.scalar ⟨0, .int, default⟩ "-0x7FFF_ffff_FFFF_ffff" .plain) .start).map Prod.fst =
        .ok (.int (-9223372036854775807)) ∧
    (walkFresh .origin (walkNode .origin 0) (.scalar ⟨0, .int, default⟩ "+0b_" .plain)
      .start).map Prod.fst = .ok (.str "+0b_") := by
  have hlargest := walkFresh_int
    (by decide +kernel : Tag.isInt "-0x7FFF_ffff_FFFF_ffff".toList = true) .origin
    (walkNode .origin 0) (rfl : (⟨0, .int, default⟩ : NodeHead).tag = .int) .plain .start
  have hempty := walkFresh_int (by decide +kernel : Tag.isInt "+0b_".toList = true) .origin
    (walkNode .origin 0) (rfl : (⟨0, .int, default⟩ : NodeHead).tag = .int) .plain .start
  constructor
  · rw [hlargest.2 ⟨['-'], .hexadecimal, ['7', 'F', 'F', 'F', 'f', 'f', 'f', 'f', 'F', 'F', 'F',
      'F', 'f', 'f', 'f', 'f'], by decide,
      by simp [Base.digits, Pattern.hexDigits, Pattern.decimalDigits, Pattern.octalDigits],
      by decide⟩ (by decide +kernel)]
    rfl
  · rw [hempty.2 ⟨['+'], .binary, [], by decide, by simp, by decide⟩ (by decide +kernel)]
    rfl

end Playbook
