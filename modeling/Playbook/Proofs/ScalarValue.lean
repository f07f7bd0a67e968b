import Playbook.Proofs.ScalarText
import Playbook.Proofs.NodeValue

/-!
The value of a scalar that is read back. Words and numbers get their tags from their text, and
decimal numbers of 64 bits are read as what was written.
-/

namespace Playbook

/-! ### Decimal numbers -/

theorem readDigitsFrom?_toDigits (n : Nat) :
    readDigitsFrom? 10 0 (Nat.toDigits 10 n) = some n := by
  have hdigit : ∀ d < 10, digitIn? 10 (Nat.digitChar d) = some d := by decide
  induction n using Nat.strong_induction_on with
  | _ n ih =>
      rw [Nat.toDigits_eq_if (by decide)]
      split_ifs with hn
      · simp [readDigitsFrom?, hdigit n hn]
      · have hlast := hdigit (n % 10) (Nat.mod_lt n (by decide))
        rw [readDigitsFrom?_append, ih (n / 10) (by omega), Option.bind_some]
        simp only [readDigitsFrom?, hlast, Option.bind_some]
        congr 1
        omega

/-- A positive number does not start with a zero. -/
theorem toDigits_head {n : Nat} (hn : 0 < n) :
    ∃ d tail, 0 < d ∧ d < 10 ∧ Nat.toDigits 10 n = Nat.digitChar d :: tail := by
  induction n using Nat.strong_induction_on with
  | _ n ih =>
      rw [Nat.toDigits_eq_if (by decide)]
      split_ifs with hlt
      · exact ⟨n, [], hn, hlt, rfl⟩
      · obtain ⟨d, tail, hd, hd', htail⟩ := ih (n / 10) (by omega) (by omega)
        exact ⟨d, tail ++ [Nat.digitChar (n % 10)], hd, hd', by rw [htail, List.cons_append]⟩

theorem toDigits_isDigit {n : Nat} {c : Char} (hc : c ∈ Nat.toDigits 10 n) : c.isDigit = true :=
  Nat.isDigit_of_mem_toDigits (by decide) (by decide) hc

theorem isDigit_ne {c d : Char} (hc : c.isDigit = true) (hd : d.isDigit = false) : c ≠ d := by
  rintro rfl
  rw [hc] at hd
  cases hd

theorem readDigits?_toDigits (n : Nat) : readDigits? 10 (Nat.toDigits 10 n) = some n := by
  rw [readDigits?, List.isEmpty_eq_false_iff.mpr Nat.toDigits_ne_nil, readDigitsFrom?_toDigits]
  simp

theorem readInt?_toDigits (n : Nat) : readInt? 10 (Nat.toDigits 10 n) = some (n : Int) := by
  have hminus : ∀ tail, Nat.toDigits 10 n ≠ '-' :: tail := by
    intro tail h
    have hmem : '-' ∈ Nat.toDigits 10 n := by simp [h]
    exact absurd (toDigits_isDigit hmem) (by decide)
  have hplus : '+' ∉ Nat.toDigits 10 n := by
    intro hmem
    exact absurd (toDigits_isDigit hmem) (by decide)
  unfold readInt?
  split
  · rename_i tail h
    exact absurd h (hminus tail)
  · rw [readNat?_eq_readDigits? hplus, readDigits?_toDigits]
    rfl

theorem splitBase_toDigits (n : Nat) :
    Number.splitBase (Nat.toDigits 10 n) = (10, Nat.toDigits 10 n) := by
  rcases Nat.eq_zero_or_pos n with rfl | hn
  · rfl
  · obtain ⟨d, tail, hd, hd', h⟩ := toDigits_head hn
    have hzero : ∀ d < 10, 0 < d → Nat.digitChar d ≠ '0' := by decide
    rw [h]
    unfold Number.splitBase
    split <;> simp_all

theorem dropGaps_eq {text : List Char} (h : '_' ∉ text) : Number.dropGaps text = text := by
  rw [Number.dropGaps, List.filter_eq_self]
  intro c hc
  simp only [bne_iff_ne]
  rintro rfl
  exact h hc

theorem underscore_not_mem_intText (n : Int) : '_' ∉ intText n := by
  have hdigits : '_' ∉ Nat.toDigits 10 n.natAbs := Nat.underscore_not_in_toDigits
  unfold intText
  split_ifs
  · simp [hdigits]
  · exact hdigits

theorem toDigits_not_sign (n : Nat) : ∀ c ∈ Nat.toDigits 10 n, c ≠ '-' ∧ c ≠ '+' := by
  intro c hc
  have hdigit := toDigits_isDigit hc
  exact ⟨isDigit_ne hdigit (by decide), isDigit_ne hdigit (by decide)⟩

theorem splitSign_toDigits (n : Nat) :
    Number.splitSign (Nat.toDigits 10 n) = (false, Nat.toDigits 10 n) := by
  have hnone := toDigits_not_sign n
  unfold Number.splitSign
  split
  · rename_i h
    rw [h] at hnone
    simp at hnone
  · rename_i h
    rw [h] at hnone
    simp at hnone
  · rfl

theorem toInt?_intText {n : Int} (hn : Number.smallest < n ∧ n ≤ Number.largest) :
    Number.toInt? (intText n) = .ok (some n) := by
  have hsmallest : Number.smallest = -9223372036854775808 := by decide
  have hlargest : Number.largest = 9223372036854775807 := by decide
  have hbounded : Number.bounded? 10 (Nat.toDigits 10 n.natAbs) = some (n.natAbs : Int) := by
    rw [Number.bounded?, readInt?_toDigits, Option.filter_some, if_pos]
    simp only [Bool.and_eq_true, decide_eq_true_eq]
    omega
  unfold Number.toInt? Number.magnitude?
  rw [dropGaps_eq (underscore_not_mem_intText n)]
  by_cases hneg : n < 0
  · have htext : intText n = '-' :: Nat.toDigits 10 n.natAbs := if_pos hneg
    have hsign : Number.splitSign ('-' :: Nat.toDigits 10 n.natAbs) =
        (true, Nat.toDigits 10 n.natAbs) := rfl
    have hnegate : Number.negate n.natAbs = .ok n := by
      have habs : -(n.natAbs : Int) = n := by omega
      rw [Number.negate, habs, if_pos]
      simp only [Bool.and_eq_true, decide_eq_true_eq]
      omega
    simp only [htext, hsign, splitBase_toDigits, hbounded, Option.mapM_some, if_true, hnegate]
    rfl
  · have htext : intText n = Nat.toDigits 10 n.natAbs := if_neg hneg
    have habs : (n.natAbs : Int) = n := by omega
    simp only [htext, splitSign_toDigits, splitBase_toDigits, hbounded, Option.mapM_some,
      Bool.false_eq_true, if_false, habs]
    rfl

/-! ### Tags -/

/-- The text has a digit or a dash in front, as numbers do. -/
def NumberLike (text : List Char) : Prop :=
  ∃ c tail, text = c :: tail ∧ (c.isDigit = true ∨ c = '-')

theorem numberLike_toDigits (n : Nat) : NumberLike (Nat.toDigits 10 n) := by
  obtain ⟨c, tail, h⟩ := List.exists_cons_of_ne_nil (Nat.toDigits_ne_nil (n := n) (b := 10))
  exact ⟨c, tail, h, Or.inl (toDigits_isDigit (n := n) (by simp [h]))⟩

theorem numberLike_intText (n : Int) : NumberLike (intText n) := by
  unfold intText
  split_ifs
  · exact ⟨'-', _, rfl, Or.inr rfl⟩
  · exact numberLike_toDigits _

/-- No word among the given ones looks like a number. -/
def unlikeNumbers (words : List String) : Bool :=
  words.all fun word => word.toList.head?.all fun c => !c.isDigit && c != '-'

theorem NumberLike.not_word {text : List Char} (htext : NumberLike text) {words : List String}
    (hwords : unlikeNumbers words = true) : words.contains (String.ofList text) = false := by
  obtain ⟨c, tail, rfl, hc⟩ := htext
  simp only [List.contains_eq_mem, decide_eq_false_iff_not]
  intro hmem
  have hword := List.all_eq_true.mp hwords _ hmem
  rw [String.toList_ofList] at hword
  rcases hc with hc | rfl
  · simp [hc] at hword
  · simp at hword

theorem stripSign_intText (n : Int) : Tag.stripSign (intText n) = Nat.toDigits 10 n.natAbs := by
  have hnone := toDigits_not_sign n.natAbs
  unfold intText
  split_ifs
  · rfl
  · unfold Tag.stripSign
    split
    · rename_i h
      rw [h] at hnone
      simp at hnone
    · rename_i h
      rw [h] at hnone
      simp at hnone
    · rfl

theorem span_eq_self {p : Char → Bool} {text : List Char} (h : ∀ c ∈ text, p c = true) :
    text.span p = (text, []) := by
  rw [List.span_eq_takeWhile_dropWhile, List.takeWhile_eq_self_iff.mpr h,
    List.dropWhile_eq_nil_iff.mpr h]

theorem isFloat_intText (n : Int) : Tag.isFloat (intText n) = false := by
  have hexponent : ∀ c ∈ Nat.toDigits 10 n.natAbs, (!Tag.isExponentSign c) = true := by
    intro c hc
    have hdigit := toDigits_isDigit hc
    simp [Tag.isExponentSign, isDigit_ne hdigit (d := 'e') (by decide),
      isDigit_ne hdigit (d := 'E') (by decide)]
  have hpoint : ∀ c ∈ Nat.toDigits 10 n.natAbs, (c != '.') = true := by
    intro c hc
    simp [isDigit_ne (toDigits_isDigit hc) (d := '.') (by decide)]
  have hinfinite : [".inf", ".Inf", ".INF"].contains
      (String.ofList (Nat.toDigits 10 n.natAbs)) = false :=
    (numberLike_toDigits _).not_word (by decide +kernel)
  have hnan : [".nan", ".NaN", ".NAN"].contains (String.ofList (intText n)) = false :=
    (numberLike_intText n).not_word (by decide +kernel)
  have hmantissa : ∀ signed, Tag.isMantissa signed (Nat.toDigits 10 n.natAbs) = false := by
    intro signed
    simp only [Tag.isMantissa, span_eq_self hpoint]
  simp only [Tag.isFloat, stripSign_intText, span_eq_self hexponent, hinfinite, hnan, hmantissa,
    Bool.and_false, Bool.or_false]

theorem isInt_intText (n : Int) : Tag.isInt (intText n) = true := by
  unfold Tag.isInt
  rw [stripSign_intText]
  rcases Nat.eq_zero_or_pos n.natAbs with hzero | hpos
  · rw [hzero]
    rfl
  · obtain ⟨d, tail, hd, hd', h⟩ := toDigits_head hpos
    have hfirst : ∀ d < 10, 0 < d →
        Nat.digitChar d ≠ '0' ∧ '1' ≤ Nat.digitChar d ∧ Nat.digitChar d ≤ '9' := by decide
    obtain ⟨hne, hlow, hhigh⟩ := hfirst d hd' hd
    have htail : tail.all Tag.isDigitOrGap = true := by
      rw [List.all_eq_true]
      intro c hc
      have hdigit : c.isDigit = true := toDigits_isDigit (n := n.natAbs) (by simp [h, hc])
      simp [Tag.isDigitOrGap, hdigit]
    rw [h]
    generalize Nat.digitChar d = c at hne hlow hhigh
    split
    · rename_i heq
      cases heq
      exact absurd rfl hne
    · rename_i heq
      cases heq
      exact absurd rfl hne
    · rfl
    · rename_i heq
      cases heq
      exact absurd rfl hne
    · rename_i heq
      cases heq
      simp [hlow, hhigh, htail]
    · rename_i heq
      cases heq

theorem ofPlain_intText (n : Int) : Tag.ofPlain (String.ofList (intText n)) = .int := by
  have hlike := numberLike_intText n
  have hnull : Tag.nullWords.contains (String.ofList (intText n)) = false :=
    hlike.not_word (by decide +kernel)
  have hbool : Tag.boolWords.contains (String.ofList (intText n)) = false :=
    hlike.not_word (by decide +kernel)
  have hmerge : ["<<"].contains (String.ofList (intText n)) = false :=
    hlike.not_word (by decide +kernel)
  have hmerge : (String.ofList (intText n) == "<<") = false := by simpa using hmerge
  simp only [Tag.ofPlain, hnull, hbool, hmerge, String.toList_ofList, isFloat_intText,
    isInt_intText, Bool.false_eq_true, if_false, if_true]

/-- A scalar that is read back has its value. -/
theorem Key.scalarValue?_content {key : Key} (hkey : key.Writable) :
    Node.scalarValue? (Tag.ofScalar key.content (key.style == .plain)) key.content =
      some key.toValue := by
  cases key with
  | null => rfl
  | bool b => cases b <;> rfl
  | int n =>
      have htag : Tag.ofScalar (Key.int n).content ((Key.int n).style == .plain) = .int :=
        ofPlain_intText n
      have hvalue : Number.toInt? (Key.int n).content.toList = .ok (some n) :=
        (congrArg Number.toInt? String.toList_ofList).trans (toInt?_intText hkey)
      rw [htag]
      change (Document.scalarValue .int (Key.int n).content).toOption = _
      rw [Document.scalarValue, hvalue]
      rfl
  | float x => exact hkey.elim
  | str s => rfl

/-! ### The characters of a scalar -/

theorem isPlainChar_of_isDigit {c : Char} (hc : c.isDigit = true) : IsPlainChar c :=
  Or.inl (by simp [Char.isAlphanum, hc])

theorem intText_plain (n : Int) : ∀ c ∈ intText n, IsPlainChar c := by
  have hdigits : ∀ c ∈ Nat.toDigits 10 n.natAbs, IsPlainChar c :=
    fun c hc => isPlainChar_of_isDigit (toDigits_isDigit hc)
  unfold intText
  split_ifs
  · exact List.forall_mem_cons.mpr ⟨Or.inr rfl, hdigits⟩
  · exact hdigits

theorem Key.text_plain {key : Key} (hkey : key.Writable) (hstyle : key.style = .plain) :
    (∀ c ∈ key.text, IsPlainChar c) ∧ key.text ≠ [] := by
  cases key with
  | null =>
      exact ⟨by simp [Key.text, IsPlainChar, Char.isAlphanum, Char.isAlpha], by simp [Key.text]⟩
  | bool b =>
      cases b <;>
        exact ⟨by simp [Key.text, IsPlainChar, Char.isAlphanum, Char.isAlpha], by simp [Key.text]⟩
  | int n =>
      obtain ⟨c, tail, h, -⟩ := numberLike_intText n
      exact ⟨intText_plain n, by simp [Key.text, h]⟩
  | float x => exact hkey.elim
  | str s => cases hstyle

/-- A negative number does not begin as a document separator does. -/
theorem intText_starts (n : Int) (rest : List Char) : Starts (intText n ++ rest) := by
  obtain ⟨d, tail, hdigits⟩ :=
    List.exists_cons_of_ne_nil (Nat.toDigits_ne_nil (n := n.natAbs) (b := 10))
  have hd : d.isDigit = true := toDigits_isDigit (n := n.natAbs) (by simp [hdigits])
  have hplain := isPlainChar_of_isDigit hd
  have hdash : ('-' == d) = false := by simpa using (isDigit_ne hd (d := '-') (by decide)).symm
  have hdot : ('.' == d) = false := by simpa using (isDigit_ne hd (d := '.') (by decide)).symm
  unfold intText
  rw [hdigits]
  split_ifs
  · refine ⟨?_, by simp [List.isPrefixOf, hdash], by simp [List.isPrefixOf]⟩
    rintro c ⟨⟩
    decide
  · refine ⟨?_, by simp [List.isPrefixOf, hdash], by simp [List.isPrefixOf, hdot]⟩
    rintro c ⟨⟩
    exact ⟨hplain.printable, hplain.ne (by decide), hplain.ne (by decide)⟩

theorem Key.text_starts {key : Key} (hkey : key.Writable) (rest : List Char) :
    Starts (key.text ++ rest) := by
  cases key with
  | null => exact starts_cons (by decide) (by decide) (by decide)
  | bool b => cases b <;> exact starts_cons (by decide) (by decide) (by decide)
  | int n => exact intText_starts n rest
  | float x => exact hkey.elim
  | str s => exact starts_cons (by decide) (by decide) (by decide)

/-- A plain scalar has a dash in front at most if it is a number, and is no item then. -/
theorem Key.text_head {key : Key} (hkey : key.Writable) (hstyle : key.style = .plain)
    (rest : List Char) :
    ∃ c tail, key.text = c :: tail ∧ IsPlainChar c ∧
      (c = '-' → isBlankOrEnd ((tail ++ rest).headD nul) = false) := by
  cases key with
  | null => exact ⟨'n', _, rfl, by decide, fun h => absurd h (by decide)⟩
  | bool b =>
      cases b with
      | false => exact ⟨'f', _, rfl, by decide, fun h => absurd h (by decide)⟩
      | true => exact ⟨'t', _, rfl, by decide, fun h => absurd h (by decide)⟩
  | int n =>
      obtain ⟨d, tail, hdigits⟩ :=
        List.exists_cons_of_ne_nil (Nat.toDigits_ne_nil (n := n.natAbs) (b := 10))
      have hd : d.isDigit = true := toDigits_isDigit (n := n.natAbs) (by simp [hdigits])
      have hplain := isPlainChar_of_isDigit hd
      rw [Key.text, intText, hdigits]
      split_ifs
      · exact ⟨'-', d :: tail, rfl, Or.inr rfl, fun _ => hplain.not_blankOrEnd⟩
      · exact ⟨d, tail, rfl, hplain, fun h => absurd h (isDigit_ne hd (by decide))⟩
  | float x => exact hkey.elim
  | str s => cases hstyle

end Playbook
