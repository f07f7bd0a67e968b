import Playbook.Proofs.Numerals

/-!
Reading a whole number within 64 bits. Digit by digit, every product and every sum is checked, and
the number is refused as soon as one of them takes more bits; that comes to the same as checking the
number once it is read. The minus sign in front is applied last. Its digits may have a sign of their
own, so it can come to negate the smallest number, which stops the program.
-/

namespace Playbook

namespace Number

/-! ### Numbers of 64 bits -/

def InRange (n : Int) : Prop := smallest ≤ n ∧ n ≤ largest

instance (n : Int) : Decidable (InRange n) := inferInstanceAs (Decidable (_ ∧ _))

/-- The number, if it has 64 bits. -/
def within? (n : Int) : Option Int := if InRange n then some n else none

/-- The number with a sign. -/
def signed (negative : Bool) (n : Nat) : Int := if negative then -n else n

theorem inRange_iff {n : Int} :
    InRange n ↔ -9223372036854775808 ≤ n ∧ n ≤ 9223372036854775807 := by
  have hsmallest : smallest = -9223372036854775808 := by decide
  have hlargest : largest = 9223372036854775807 := by decide
  rw [InRange, hsmallest, hlargest]

theorem inRange_neg_iff {n : Int} (h : InRange n) : InRange (-n) ↔ n ≠ smallest := by
  have hsmallest : smallest = -9223372036854775808 := by decide
  rw [inRange_iff] at h ⊢
  omega

/-- A number that lies closer to zero takes no more bits. -/
theorem InRange.of_le {negative : Bool} {n m : Nat} (h : InRange (signed negative m))
    (hle : n ≤ m) : InRange (signed negative n) := by
  rw [inRange_iff] at h ⊢
  cases negative <;> simp only [signed, if_true, Bool.false_eq_true, if_false] at h ⊢ <;> omega

theorem negate_eq (n : Int) : negate n = if InRange (-n) then .ok (-n) else .error .negation := by
  rw [negate]
  exact if_congr (by rw [InRange, Bool.and_eq_true, decide_eq_true_eq, decide_eq_true_eq]) rfl rfl

/-! ### Digit by digit -/

/-- One more digit behind a number. The product with the base and the sum with the digit must have
64 bits; a negative number grows downwards. -/
def addDigit? (base : Nat) (negative : Bool) (n : Int) (c : Char) : Option Int :=
  (digitIn? base c).bind fun d =>
    (within? (n * base)).bind fun product =>
      within? (if negative then product - d else product + d)

/-- Digits with an optional sign, read one by one within 64 bits. -/
def readWithin? (base : Nat) (text : List Char) : Option Int :=
  let (negative, digits) := splitSign text
  if digits.isEmpty then none else digits.foldlM (addDigit? base negative) 0

theorem addDigit?_signed (base : Nat) (negative : Bool) (n : Nat) (c : Char) :
    addDigit? base negative (signed negative n) c =
      (digitIn? base c).bind fun d => within? (signed negative (n * base + d)) := by
  unfold addDigit?
  cases hdigit : digitIn? base c with
  | none => rfl
  | some d =>
      have hproduct : signed negative n * base = signed negative (n * base) := by
        cases negative <;> simp [signed]
      have hsum : (if negative then signed negative (n * base) - d
          else signed negative (n * base) + d) = signed negative (n * base + d) := by
        cases negative
        · rfl
        · simp only [signed, if_true, Nat.cast_add]
          ring
      simp only [Option.bind_some, hproduct]
      -- A product that is too large would give a sum that is too large.
      by_cases hrange : InRange (signed negative (n * base))
      · rw [within?, if_pos hrange, Option.bind_some, hsum]
      · have hlarger : ¬InRange (signed negative (n * base + d)) :=
          fun hsum => hrange (hsum.of_le (Nat.le_add_right _ _))
        rw [within?, if_neg hrange, within?, if_neg hlarger, Option.bind_none]

theorem readDigitsFrom?_le {base : Nat} (hbase : 0 < base) {digits : List Char} {n m : Nat}
    (h : readDigitsFrom? base n digits = some m) : n ≤ m := by
  induction digits generalizing n with
  | nil =>
      cases h
      exact Nat.le_refl _
  | cons c digits ih =>
      obtain ⟨d, -, hrest⟩ := Option.bind_eq_some_iff.mp h
      calc n ≤ n * base := Nat.le_mul_of_pos_right n hbase
        _ ≤ n * base + d := Nat.le_add_right _ _
        _ ≤ m := ih hrest

/-- Checking every step refuses what checking the result refuses. -/
theorem foldlM_addDigit? {base : Nat} (hbase : 0 < base) (negative : Bool) (digits : List Char)
    {n : Nat} (hn : InRange (signed negative n)) :
    digits.foldlM (addDigit? base negative) (signed negative n) =
      (readDigitsFrom? base n digits).bind fun m => within? (signed negative m) := by
  induction digits generalizing n with
  | nil => simp [readDigitsFrom?, within?, hn]
  | cons c digits ih =>
      rw [List.foldlM_cons, addDigit?_signed, readDigitsFrom?]
      cases hdigit : digitIn? base c with
      | none => rfl
      | some d =>
          simp only [Option.bind_some]
          by_cases hsum : InRange (signed negative (n * base + d))
          · rw [within?, if_pos hsum]
            exact ih hsum
          · rw [within?, if_neg hsum]
            refine (Option.bind_eq_none_iff.mpr fun m hm => ?_).symm
            exact if_neg fun hrange => hsum (hrange.of_le (readDigitsFrom?_le hbase hm))

theorem readInt?_eq (base : Nat) (text : List Char) :
    readInt? base text =
      (readDigits? base (splitSign text).2).map (signed (splitSign text).1) := by
  unfold splitSign
  split
  · rename_i digits
    rw [readInt?]
    cases readDigits? base digits <;> rfl
  · rename_i digits
    rw [readInt?, readNat?]
    · cases readDigits? base digits <;> rfl
    · simp
  · rename_i hminus hplus
    unfold readInt?
    split
    · exact (hminus _ rfl).elim
    · unfold readNat?
      split
      · exact (hplus _ rfl).elim
      · cases readDigits? base text <;> rfl

theorem bounded?_eq_readWithin? {base : Nat} (hbase : 0 < base) (text : List Char) :
    bounded? base text = readWithin? base text := by
  unfold bounded? readWithin?
  rw [readInt?_eq, readDigits?]
  generalize splitSign text = split
  obtain ⟨negative, digits⟩ := split
  dsimp only
  split_ifs with hempty
  · rfl
  · have hzero : InRange (signed negative 0) := by cases negative <;> decide
    have hfold := foldlM_addDigit? hbase negative digits hzero
    have hsigned : signed negative 0 = 0 := by cases negative <;> rfl
    rw [hsigned] at hfold
    rw [hfold]
    cases readDigitsFrom? base 0 digits with
    | none => rfl
    | some m =>
        rw [Option.map_some, Option.filter_some, Option.bind_some, within?]
        exact if_congr (by rw [InRange, Bool.and_eq_true, decide_eq_true_eq, decide_eq_true_eq])
          rfl rfl

/-! ### Negating the smallest number -/

end Number

/-- What stands before the digits where they may have a sign of their own. -/
def Base.lead : Base → List Char
  | octal => ['0']
  | base => base.mark

namespace Number

/-- Behind the minus sign and the mark of the base stands another minus sign, and the digits denote
the magnitude of the smallest number. -/
def NegatesSmallest (text : List Char) : Prop :=
  ∃ (base : Base) (digits : List Char), (∀ d ∈ digits, d ∈ base.digits) ∧
    base.number digits = 2 ^ 63 ∧ dropGaps text = '-' :: (base.lead ++ '-' :: digits)

theorem radix_pos (base : Base) : 0 < base.radix := by
  cases base <;> decide

theorem exists_base (body : List Char) :
    ∃ base : Base, (splitBase body).1 = base.radix ∧ body = base.lead ++ (splitBase body).2 := by
  unfold splitBase
  split
  · exact ⟨.decimal, rfl, rfl⟩
  · exact ⟨.binary, rfl, rfl⟩
  · exact ⟨.hexadecimal, rfl, rfl⟩
  · exact ⟨.octal, rfl, rfl⟩
  · exact ⟨.decimal, rfl, rfl⟩

theorem splitBase_lead (base : Base) (digits : List Char) :
    splitBase (base.lead ++ '-' :: digits) = (base.radix, '-' :: digits) := by
  cases base <;> rfl

theorem mem_digits {base : Base} {c : Char} {d : Nat} (h : digitIn? base.radix c = some d) :
    c ∈ base.digits := by
  have hcode : c.toNat < 128 := by
    obtain ⟨hvalue, -⟩ := Option.filter_eq_some_iff.mp h
    have hle : ∀ c d : Char, c ≤ d ↔ c.toNat ≤ d.toNat := fun _ _ => Iff.rfl
    have hcodes : '9'.toNat = 57 ∧ 'z'.toNat = 122 ∧ 'Z'.toNat = 90 := by decide
    simp only [digitValue?, hle, Bool.and_eq_true, decide_eq_true_eq] at hvalue
    split_ifs at hvalue <;> omega
  have hall : ∀ base ∈ [Base.binary, .octal, .decimal, .hexadecimal], ∀ n < 128,
      (digitIn? base.radix (Char.ofNat n)).isSome = true → Char.ofNat n ∈ base.digits := by
    decide +kernel
  have hbase : base ∈ [Base.binary, .octal, .decimal, .hexadecimal] := by cases base <;> decide
  have hmem := hall base hbase c.toNat hcode
  rw [Char.ofNat_toNat, h] at hmem
  exact hmem rfl

theorem readDigitsFrom?_mem {base : Base} {digits : List Char} {n m : Nat}
    (h : readDigitsFrom? base.radix n digits = some m) : ∀ d ∈ digits, d ∈ base.digits := by
  induction digits generalizing n with
  | nil => exact fun _ hd => absurd hd List.not_mem_nil
  | cons c digits ih =>
      obtain ⟨d, hdigit, hrest⟩ := Option.bind_eq_some_iff.mp h
      exact List.forall_mem_cons.mpr ⟨mem_digits hdigit, ih hrest⟩

theorem readDigits?_radix_iff {base : Base} {digits : List Char} {m : Nat} :
    readDigits? base.radix digits = some m ↔
      digits ≠ [] ∧ (∀ d ∈ digits, d ∈ base.digits) ∧ base.number digits = m := by
  unfold readDigits?
  constructor
  · intro h
    split_ifs at h with hempty
    have hdigits := readDigitsFrom?_mem h
    rw [readDigitsFrom?_radix hdigits, Nat.zero_mul, Nat.zero_add, Option.some.injEq] at h
    exact ⟨by simpa using hempty, hdigits, h⟩
  · rintro ⟨hne, hdigits, rfl⟩
    rw [if_neg (by simpa using hne), readDigitsFrom?_radix hdigits, Nat.zero_mul, Nat.zero_add]

/-- Only digits with a minus sign come to the smallest number. -/
theorem bounded?_eq_smallest_iff {base : Base} {text : List Char} :
    bounded? base.radix text = some smallest ↔
      ∃ digits, text = '-' :: digits ∧ (∀ d ∈ digits, d ∈ base.digits) ∧
        base.number digits = 2 ^ 63 := by
  have hsmallest : smallest = -9223372036854775808 := by decide
  have hrange : InRange smallest := by decide
  rw [bounded?, Option.filter_eq_some_iff, readInt?_eq, Option.map_eq_some_iff]
  constructor
  · rintro ⟨⟨m, hread, hm⟩, -⟩
    unfold splitSign at hread hm
    split at hread
    · rename_i digits
      obtain ⟨-, hdigits, hnumber⟩ := readDigits?_radix_iff.mp hread
      refine ⟨digits, rfl, hdigits, ?_⟩
      rw [hnumber]
      simp only [signed, if_true] at hm
      omega
    · simp only [signed, Bool.false_eq_true, if_false] at hm
      omega
    · simp only [signed, Bool.false_eq_true, if_false] at hm
      omega
  · rintro ⟨digits, rfl, hdigits, hnumber⟩
    have hne : digits ≠ [] := by
      rintro rfl
      simp [Base.number] at hnumber
    have hread := readDigits?_radix_iff.mpr ⟨hne, hdigits, hnumber⟩
    exact ⟨⟨2 ^ 63, hread, (by decide : signed true (2 ^ 63) = smallest)⟩, by decide⟩

theorem negatesSmallest_iff {text : List Char} : NegatesSmallest text ↔
    (splitSign (dropGaps text)).1 = true ∧ magnitude? text = some smallest := by
  unfold magnitude?
  constructor
  · rintro ⟨base, digits, hdigits, hnumber, htext⟩
    rw [htext, splitSign, splitBase_lead]
    exact ⟨rfl, bounded?_eq_smallest_iff.mpr ⟨digits, rfl, hdigits, hnumber⟩⟩
  · rintro ⟨hminus, hread⟩
    obtain ⟨body, htext⟩ : ∃ body, dropGaps text = '-' :: body := by
      generalize dropGaps text = cleaned at hminus
      unfold splitSign at hminus
      split at hminus
      · exact ⟨_, rfl⟩
      · cases hminus
      · cases hminus
    rw [htext, splitSign] at hread
    obtain ⟨base, hbase, hbody⟩ := exists_base body
    dsimp only at hread
    rw [hbase] at hread
    obtain ⟨digits, hsplit, hdigits, hnumber⟩ := bounded?_eq_smallest_iff.mp hread
    rw [hsplit] at hbody
    exact ⟨base, digits, hdigits, hnumber, by rw [htext, ← hbody]⟩

/-! ### Every step -/

theorem magnitude?_inRange {text : List Char} {n : Int} (h : magnitude? text = some n) :
    InRange n := by
  obtain ⟨-, hrange⟩ := Option.filter_eq_some_iff.mp h
  simpa only [InRange, Bool.and_eq_true, decide_eq_true_eq] using hrange

theorem negatesSmallest_iff_not_inRange {text : List Char} : NegatesSmallest text ↔
    ∃ n, magnitude? text = some n ∧ (splitSign (dropGaps text)).1 = true ∧ ¬InRange (-n) := by
  rw [negatesSmallest_iff]
  constructor
  · exact fun ⟨hminus, hread⟩ => ⟨smallest, hread, hminus, by decide⟩
  · rintro ⟨n, hread, hminus, hout⟩
    rw [inRange_neg_iff (magnitude?_inRange hread), not_not] at hout
    exact ⟨hminus, hout ▸ hread⟩

theorem toInt?_of_negatesSmallest {text : List Char} (h : NegatesSmallest text) :
    toInt? text = .error .negation := by
  obtain ⟨n, hread, hminus, hout⟩ := negatesSmallest_iff_not_inRange.mp h
  rw [toInt?, hread, hminus, Option.mapM_some, if_pos rfl, negate_eq, if_neg hout]
  rfl

/-- The number behind the sign, with the sign. -/
theorem toInt?_of_not_negatesSmallest {text : List Char} (h : ¬NegatesSmallest text) :
    toInt? text =
      .ok ((magnitude? text).map fun n => if (splitSign (dropGaps text)).1 then -n else n) := by
  rw [toInt?]
  cases hread : magnitude? text with
  | none => rfl
  | some n =>
      rw [Option.mapM_some, Option.map_some]
      split_ifs with hminus
      · have hrange : InRange (-n) := by
          by_contra hout
          exact h (negatesSmallest_iff_not_inRange.mpr ⟨n, hread, hminus, hout⟩)
        rw [negate_eq, if_pos hrange]
        rfl
      · rfl

theorem toInt?_inRange {text : List Char} {n : Int} (h : toInt? text = .ok (some n)) :
    InRange n := by
  have hexact : ¬NegatesSmallest text := by
    intro hnegates
    cases (toInt?_of_negatesSmallest hnegates).symm.trans h
  obtain ⟨m, hread, hn⟩ : ∃ m, magnitude? text = some m ∧
      (if (splitSign (dropGaps text)).1 then -m else m) = n := by
    rw [toInt?_of_not_negatesSmallest hexact, Except.ok.injEq] at h
    exact Option.map_eq_some_iff.mp h
  split_ifs at hn with hminus
  · by_contra hout
    exact hexact (negatesSmallest_iff_not_inRange.mpr ⟨m, hread, hminus, hn ▸ hout⟩)
  · exact hn ▸ magnitude?_inRange hread

end Number

namespace Document

open Number

/-- Whatever text is tagged as a whole number, all steps behind the leading sign are checked and
stay within 64 bits. The last step, the negation, leaves them exactly if there is another minus sign
before the magnitude of the smallest number, and then reading stops at the scalar. Otherwise the
number is exact and has 64 bits, or the scalar is the text that it is. -/
theorem walkFresh_int_range (text : String) (cursor : Cursor) (visit : Node → WalkM Value)
    (head : NodeHead) (hhead : head.tag = .int) (style : Style) (w : Walk) :
    magnitude? text.toList = readWithin? (splitBase (splitSign (dropGaps text.toList)).2).1
      (splitBase (splitSign (dropGaps text.toList)).2).2 ∧
    (∀ n, magnitude? text.toList = some n → InRange n) ∧
    (NegatesSmallest text.toList ↔ ∃ n, magnitude? text.toList = some n ∧
      (splitSign (dropGaps text.toList)).1 = true ∧ ¬InRange (-n)) ∧
    (NegatesSmallest text.toList → walkFresh cursor visit (.scalar head text style) w =
      .error ((Node.scalar head text style).problem .overflow)) ∧
    (¬NegatesSmallest text.toList → walkFresh cursor visit (.scalar head text style) w =
      .ok (((magnitude? text.toList).map fun n =>
          .int (if (splitSign (dropGaps text.toList)).1 then -n else n)).getD (.str text),
        w.leave cursor (.scalar head text style) (.str text))) ∧
    (∀ n w', walkFresh cursor visit (.scalar head text style) w = .ok (.int n, w') →
      InRange n) := by
  refine ⟨?_, fun _ => magnitude?_inRange, negatesSmallest_iff_not_inRange, fun h => ?_,
    fun h => ?_, fun n w' h => ?_⟩
  · obtain ⟨base, hbase, -⟩ := exists_base (splitSign (dropGaps text.toList)).2
    have hpos : 0 < (splitBase (splitSign (dropGaps text.toList)).2).1 := by
      rw [hbase]
      exact radix_pos base
    exact bounded?_eq_readWithin? hpos _
  · exact walkFresh_of_overflow hhead (toInt?_of_negatesSmallest h)
  · rw [walkFresh_of_number hhead (toInt?_of_not_negatesSmallest h), Option.map_map]
    rfl
  · cases hread : toInt? text.toList with
    | error overflow => cases (walkFresh_of_overflow hhead hread).symm.trans h
    | ok n? =>
        cases n? with
        | none => cases (walkFresh_of_number hhead hread).symm.trans h
        | some m =>
            cases (walkFresh_of_number hhead hread).symm.trans h
            exact toInt?_inRange hread

/-- Two signs around the mark of a base: the magnitude is negative, and the number is exact. -/
theorem walkFresh_int_range_two_signs :
    (walkFresh .origin (walkNode .origin 0)
      (.scalar ⟨0, .int, default⟩ "-0x-7f_ff" .plain) .start).map Prod.fst =
        .ok (.int 32767) := by
  have hexact := (walkFresh_int_range "-0x-7f_ff" .origin (walkNode .origin 0)
    ⟨0, .int, default⟩ rfl .plain .start).2.2.2.2.1
  have hread : magnitude? "-0x-7f_ff".toList = some (-32767) := by decide +kernel
  have hminus : (splitSign (dropGaps "-0x-7f_ff".toList)).1 = true := by decide +kernel
  rw [hexact, hread, hminus]
  · rfl
  · rw [negatesSmallest_iff, hread]
    decide

/-- A minus sign before the smallest number: its negation takes more than 64 bits, and the document
is not read to its end. -/
theorem walkFresh_int_negates_smallest :
    magnitude? "--9223372036854775808".toList = some smallest ∧
      (splitSign (dropGaps "--9223372036854775808".toList)).1 = true ∧ ¬InRange (-smallest) ∧
      (ofText "!!int --9223372036854775808".toList .origin).map root =
        .error (.plain .values .overflow ⟨0, 0, 0⟩) :=
  ⟨by decide +kernel, by decide +kernel, by decide +kernel, rfl⟩

end Document

end Playbook
