import Playbook.Proofs.Rendering
import Playbook.Proofs.Reading

/-!
Reading scalars back from their text: the token they are read as, the tag they get and the value
they have.
-/

namespace Playbook

/-- The mark after `n` characters on the same line. -/
def Mark.ahead (m : Mark) (n : Nat) : Mark := ⟨m.index + n, m.line, m.column + n⟩

theorem Mark.ahead_ahead (m : Mark) (a b : Nat) : (m.ahead a).ahead b = m.ahead (a + b) := by
  simp [ahead, Nat.add_assoc]

/-- The mark behind a line break. -/
def Mark.nextLine (m : Mark) : Mark := ⟨m.index + 1, m.line + 1, 0⟩

/-- Printable characters of ASCII. -/
def IsPrintable (c : Char) : Prop := 0x20 ≤ c.toNat ∧ c.toNat < 0x7f

instance (c : Char) : Decidable (IsPrintable c) := inferInstanceAs (Decidable (_ ∧ _))

theorem IsPrintable.ne {c d : Char} (hc : IsPrintable c) (hd : ¬ IsPrintable d) : c ≠ d := by
  rintro rfl
  exact hd hc

theorem IsPrintable.not_breakOrEnd {c : Char} (hc : IsPrintable c) : isBreakOrEnd c = false := by
  simp [isBreakOrEnd, isBreak, hc.ne (d := nul) (by decide), hc.ne (d := '\r') (by decide),
    hc.ne (d := '\n') (by decide), hc.ne (d := '\u0085') (by decide),
    hc.ne (d := '\u2028') (by decide), hc.ne (d := '\u2029') (by decide)]

theorem IsPrintable.not_break {c : Char} (hc : IsPrintable c) : isBreak c = false :=
  (Bool.or_eq_false_iff.mp hc.not_breakOrEnd).2

theorem endsLine_of_not_break {c : Char} (hc : isBreakOrEnd c = false) (rest : List Char) :
    endsLine c rest = false := by
  simp only [isBreakOrEnd, isBreak, Bool.or_eq_false_iff] at hc
  simp [endsLine, hc]

theorem IsPrintable.past {c : Char} (hc : IsPrintable c) (m : Mark) (rest : List Char) :
    m.past c rest = m.ahead 1 := by
  simp [Mark.past, endsLine_of_not_break hc.not_breakOrEnd, hc.ne (d := '\ufeff') (by decide),
    Mark.ahead]

namespace Reader

theorem advance_printable {text : List Char} (htext : ∀ c ∈ text, IsPrintable c)
    (rest : List Char) (m : Mark) :
    (⟨text ++ rest, m⟩ : Reader).advance text.length = ⟨rest, m.ahead text.length⟩ := by
  induction text generalizing m with
  | nil => rfl
  | cons c text ih =>
      obtain ⟨hc, htext⟩ := List.forall_mem_cons.mp htext
      have hnext : (⟨c :: text ++ rest, m⟩ : Reader).next = ⟨text ++ rest, m.ahead 1⟩ := by
        simp [next, hc.past]
      rw [List.length_cons, advance, hnext, ih htext, Mark.ahead_ahead, Nat.add_comm 1]

theorem lineBreak?_eq_none {r : Reader} (h : isBreak r.peek = false) : r.lineBreak? = none := by
  simp only [isBreak, Bool.or_eq_false_iff] at h
  obtain ⟨⟨⟨⟨hreturn, hfeed⟩, hnext⟩, hline⟩, hparagraph⟩ := h
  have hpair : r.startsWith ['\r', '\n'] = false := by
    unfold startsWith
    unfold peek at hreturn
    cases hrest : r.rest with
    | nil => rfl
    | cons c rest =>
        rw [hrest] at hreturn
        change (c == '\r') = false at hreturn
        rw [List.isPrefixOf_cons_cons, Bool.beq_comm, hreturn, Bool.false_and]
  simp [lineBreak?, hpair, hreturn, hfeed, hnext, hline, hparagraph]

theorem advance_spaces (n : Nat) (rest : List Char) (m : Mark) :
    (⟨Value.spaces n ++ rest, m⟩ : Reader).advance n = ⟨rest, m.ahead n⟩ := by
  have hspaces : ∀ c ∈ Value.spaces n, IsPrintable c := by
    intro c hc
    rw [List.eq_of_mem_replicate hc]
    decide
  have hadvance := advance_printable hspaces rest m
  rwa [Value.spaces, List.length_replicate] at hadvance

theorem takeWhile_space_eq_nil {r : Reader} (h : r.peek ≠ ' ') :
    r.rest.takeWhile (· == ' ') = [] := by
  cases hrest : r.rest with
  | nil => rfl
  | cons c rest =>
      have hc : c ≠ ' ' := by simpa [peek, hrest] using h
      simp [hc]

theorem takeWhile_spaces (n : Nat) {rest : List Char} (hrest : rest.head? ≠ some ' ') :
    (Value.spaces n ++ rest).takeWhile (· == ' ') = Value.spaces n := by
  rw [List.takeWhile_append_of_pos (by simp [Value.spaces])]
  cases rest with
  | nil => simp
  | cons c rest =>
      have hc : (c == ' ') = false := by simpa using hrest
      simp [hc]

theorem skipWhile_spaces (n : Nat) {rest : List Char} (hrest : rest.head? ≠ some ' ') (m : Mark) :
    (⟨Value.spaces n ++ rest, m⟩ : Reader).skipWhile (· == ' ') = ⟨rest, m.ahead n⟩ := by
  have hlength : (Value.spaces n).length = n := List.length_replicate
  rw [skipWhile, takeWhile_spaces n hrest, hlength, advance_spaces]

theorem lineBreak?_feed (rest : List Char) (m : Mark) :
    (⟨'\n' :: rest, m⟩ : Reader).lineBreak? = some ('\n', ⟨rest, m.nextLine⟩) := by
  simp [lineBreak?, startsWith, peek, next, Mark.past, endsLine, Mark.nextLine]

end Reader

/-- The text is at its end or begins with a token, which does not separate documents. -/
structure Starts (text : List Char) : Prop where
  head : ∀ c ∈ text.head?, IsPrintable c ∧ c ≠ ' ' ∧ c ≠ '#'
  noDashes : ['-', '-', '-'].isPrefixOf text = false
  noDots : ['.', '.', '.'].isPrefixOf text = false

theorem starts_cons {c : Char} {text : List Char} (hc : IsPrintable c ∧ c ≠ ' ' ∧ c ≠ '#')
    (hdash : c ≠ '-') (hdot : c ≠ '.') : Starts (c :: text) := by
  refine ⟨?_, ?_, ?_⟩
  · rintro d ⟨⟩
    exact hc
  · simp [List.isPrefixOf, hdash.symm]
  · simp [List.isPrefixOf, hdot.symm]

theorem Starts.head_ne_space {text : List Char} (h : Starts text) : text.head? ≠ some ' ' :=
  fun hspace => (h.head ' ' hspace).2.1 rfl

theorem Starts.not_break {text : List Char} (h : Starts text) :
    isBreak (text.headD nul) = false := by
  cases text with
  | nil => rfl
  | cons c text => exact (h.head c rfl).1.not_break

theorem Starts.ne_hash {text : List Char} (h : Starts text) : text.headD nul ≠ '#' := by
  cases text with
  | nil => decide
  | cons c text => exact (h.head c rfl).2.2

theorem Starts.not_separator {text : List Char} (h : Starts text) (n : Nat) (m : Mark) :
    (⟨Value.spaces n ++ text, m⟩ : Reader).atSeparator = false := by
  cases n with
  | zero =>
      have hdashes := h.noDashes
      have hdots := h.noDots
      simp [Reader.atSeparator, Reader.startsWith, Value.spaces, hdashes, hdots]
  | succ n =>
      simp [Reader.atSeparator, Reader.startsWith, Value.spaces, List.replicate_succ]

theorem Starts.ne_byteOrderMark {text : List Char} (h : Starts text) (n : Nat) :
    (Value.spaces n ++ text).headD nul ≠ '\ufeff' := by
  cases n with
  | succ n => exact (by decide : ' ' ≠ '\ufeff')
  | zero =>
      cases text with
      | nil => decide
      | cons c text => exact (h.head c rfl).1.ne (by decide)

namespace Reader

theorem skipComment_eq {text : List Char} (htext : Starts text) (m : Mark) :
    (⟨text, m⟩ : Reader).skipComment = ⟨text, m⟩ := by
  have hhash : ((⟨text, m⟩ : Reader).peek == '#') = false := beq_false_of_ne htext.ne_hash
  rw [skipComment, hhash]
  rfl

theorem skipTrivia_spaces (n : Nat) {text : List Char} (htext : Starts text) (m : Mark) :
    (⟨Value.spaces n ++ text, m⟩ : Reader).skipTrivia = (⟨text, m.ahead n⟩, false) := by
  have hnone := skipComment_eq htext (m.ahead n)
  have hline := lineBreak?_eq_none (r := ⟨text, m.ahead n⟩) htext.not_break
  simp only [skipTrivia, skipTriviaFor, skipWhile_spaces n htext.head_ne_space,
    hnone, hline]

theorem skipTrivia_line (n : Nat) {text : List Char} (htext : Starts text) (m : Mark) :
    (⟨'\n' :: (Value.spaces n ++ text), m⟩ : Reader).skipTrivia =
      (⟨text, m.nextLine.ahead n⟩, true) := by
  have hnone := skipComment_eq htext (m.nextLine.ahead n)
  have hline := lineBreak?_eq_none (r := ⟨text, m.nextLine.ahead n⟩) htext.not_break
  have hskip : (⟨'\n' :: (Value.spaces n ++ text), m⟩ : Reader).skipWhile (· == ' ') =
      ⟨'\n' :: (Value.spaces n ++ text), m⟩ := rfl
  have hcomment : (⟨'\n' :: (Value.spaces n ++ text), m⟩ : Reader).skipComment =
      ⟨'\n' :: (Value.spaces n ++ text), m⟩ := rfl
  simp only [skipTrivia, List.length_cons, skipTriviaFor, hskip, hcomment,
    lineBreak?_feed, skipWhile_spaces n htext.head_ne_space, hnone, hline]

end Reader

/-! ### Quoted scalars -/

theorem digitIn?_digitChar {d : Nat} (hd : d < 16) : digitIn? 16 d.digitChar = some d := by
  interval_cases d <;> decide

theorem readDigitsFrom?_append {base : Nat} (text text' : List Char) (n : Nat) :
    readDigitsFrom? base n (text ++ text') =
      (readDigitsFrom? base n text).bind fun m => readDigitsFrom? base m text' := by
  induction text generalizing n with
  | nil => rfl
  | cons c text ih =>
      rw [List.cons_append, readDigitsFrom?, readDigitsFrom?]
      cases digitIn? base c with
      | none => rfl
      | some d => exact ih _

theorem readDigitsFrom?_hexChars (width acc n : Nat) (hn : n < 16 ^ width) :
    readDigitsFrom? 16 acc (hexChars width n) = some (acc * 16 ^ width + n) := by
  induction width generalizing n with
  | zero => simp_all [hexChars, readDigitsFrom?]
  | succ width ih =>
      have hdigit : n % 16 < 16 := Nat.mod_lt n (by decide)
      have hdiv : n / 16 < 16 ^ width := by
        rw [Nat.div_lt_iff_lt_mul (by decide)]
        rwa [pow_succ] at hn
      rw [hexChars, readDigitsFrom?_append, ih _ hdiv, Option.bind_some, readDigitsFrom?,
        digitIn?_digitChar hdigit, Option.bind_some, readDigitsFrom?]
      have hsplit := Nat.div_add_mod n 16
      rw [pow_succ]
      congr 1
      rw [Nat.add_mul, Nat.mul_assoc]
      omega

theorem length_hexChars (width n : Nat) : (hexChars width n).length = width := by
  induction width generalizing n with
  | zero => rfl
  | succ width ih => simp [hexChars, ih]

theorem hexChars_printable (width n : Nat) : ∀ c ∈ hexChars width n, IsPrintable c := by
  induction width generalizing n with
  | zero => simp [hexChars]
  | succ width ih =>
      have hdigit : ∀ d < 16, IsPrintable (Nat.digitChar d) := by decide
      intro c hc
      rcases List.mem_append.mp hc with hc | hc
      · exact ih _ c hc
      · rw [List.mem_singleton.mp hc]
        exact hdigit _ (Nat.mod_lt n (by decide))

theorem escapeChar_printable (c : Char) : ∀ d ∈ escapeChar c, IsPrintable d := by
  have hhex : ∀ (letter : Char) (width : Nat), IsPrintable letter →
      ∀ d ∈ '\\' :: letter :: hexChars width c.toNat, IsPrintable d := by
    intro letter width hletter
    exact List.forall_mem_cons.mpr ⟨by decide,
      List.forall_mem_cons.mpr ⟨hletter, hexChars_printable width c.toNat⟩⟩
  unfold escapeChar
  split_ifs with hquote hslash hprintable
  · exact List.forall_mem_cons.mpr ⟨by decide, List.forall_mem_singleton.mpr (by decide)⟩
  · exact List.forall_mem_cons.mpr ⟨by decide, List.forall_mem_singleton.mpr (by decide)⟩
  · exact List.forall_mem_singleton.mpr hprintable
  · exact hhex 'x' 2 (by decide)
  · exact hhex 'u' 4 (by decide)
  · exact hhex 'U' 8 (by decide)

theorem readNat?_eq_readDigits? {base : Nat} {text : List Char} (h : '+' ∉ text) :
    readNat? base text = readDigits? base text := by
  unfold readNat?
  split
  · simp at h
  · rfl

theorem readNat?_hexChars {width n : Nat} (hn : n < 16 ^ width) (hwidth : width ≠ 0) :
    readNat? 16 (hexChars width n) = some n := by
  have hplus : '+' ∉ hexChars width n := by
    clear hn hwidth
    induction width generalizing n with
    | zero => simp [hexChars]
    | succ width ih =>
        have hdigit : ∀ d < 16, '+' ≠ Nat.digitChar d := by decide
        have hlast := hdigit (n % 16) (Nat.mod_lt n (by decide))
        simp [hexChars, ih, hlast]
  have hne : (hexChars width n).isEmpty = false := by
    rw [List.isEmpty_eq_false_iff_exists_mem, ← List.length_pos_iff_exists_mem, length_hexChars]
    omega
  rw [readNat?_eq_readDigits? hplus, readDigits?, hne, readDigitsFrom?_hexChars width 0 n hn]
  simp

theorem charOfCode?_hexChars {c : Char} {width : Nat} (hc : c.toNat < 16 ^ width)
    (hwidth : width ≠ 0) (rest : List Char) :
    charOfCode? width (hexChars width c.toNat ++ rest) = some c := by
  have htake : (hexChars width c.toNat ++ rest).take width = hexChars width c.toNat :=
    List.take_left' (length_hexChars width c.toNat)
  have hvalid : c.toNat.isValidChar := c.valid
  simp [charOfCode?, htake, length_hexChars, readNat?_hexChars hc hwidth, scalarValue?, hvalid]

theorem quotedEscape_code {start m : Mark} {letter c : Char} {width : Nat} {rest : List Char}
    (hplain : escapedChar? letter = none) (hdigits : escapeDigits? letter = some width)
    (hletter : IsPrintable letter) (hc : c.toNat < 16 ^ width) (hwidth : width ≠ 0) :
    quotedEscape start ⟨letter :: (hexChars width c.toNat ++ rest), m⟩ =
      .ok ([c], ⟨rest, m.ahead (width + 1)⟩) := by
  have hnext : (⟨letter :: (hexChars width c.toNat ++ rest), m⟩ : Reader).next =
      ⟨hexChars width c.toNat ++ rest, m.ahead 1⟩ := by
    simp [Reader.next, hletter.past]
  have hadvance := Reader.advance_printable (hexChars_printable width c.toNat) rest (m.ahead 1)
  rw [length_hexChars, Mark.ahead_ahead, Nat.add_comm 1] at hadvance
  simp only [quotedEscape, Reader.peek, List.headD_cons, hplain, hdigits, hnext,
    charOfCode?_hexChars hc hwidth, hadvance]

theorem quotedPiece_slash {start m : Mark} {text piece : List Char} {r : Reader}
    (h : quotedEscape start ⟨text, m.ahead 1⟩ = .ok (piece, r)) :
    quotedPiece true start ⟨'\\' :: text, m⟩ = .ok (some (piece, r)) := by
  have hnext : (⟨'\\' :: text, m⟩ : Reader).next = ⟨text, m.ahead 1⟩ := by
    simp [Reader.next, IsPrintable.past (c := '\\') (by decide)]
  simp [quotedPiece, Reader.peek, hnext, h]

theorem quotedPiece_code {start m : Mark} {letter c : Char} {width : Nat} {rest : List Char}
    (hplain : escapedChar? letter = none) (hdigits : escapeDigits? letter = some width)
    (hletter : IsPrintable letter) (hc : c.toNat < 16 ^ width) (hwidth : width ≠ 0) :
    quotedPiece true start ⟨'\\' :: letter :: (hexChars width c.toNat ++ rest), m⟩ =
      .ok (some ([c], ⟨rest, m.ahead (width + 2)⟩)) := by
  refine quotedPiece_slash ?_
  rw [quotedEscape_code hplain hdigits hletter hc hwidth, Mark.ahead_ahead, Nat.add_comm 1]

/-- A character other than a space is read back as one piece. -/
theorem quotedPiece_escapeChar {start : Mark} {c : Char} (hc : c ≠ ' ') (rest : List Char)
    (m : Mark) :
    quotedPiece true start ⟨escapeChar c ++ rest, m⟩ =
      .ok (some ([c], ⟨rest, m.ahead (escapeChar c).length⟩)) := by
  unfold escapeChar
  split_ifs with hquote hslash hprintable hbyte hshort
  · subst hquote
    refine quotedPiece_slash ?_
    simp [quotedEscape, Reader.peek, escapedChar?, Reader.next,
      IsPrintable.past (c := '"') (by decide), Mark.ahead_ahead]
  · subst hslash
    refine quotedPiece_slash ?_
    simp [quotedEscape, Reader.peek, escapedChar?, Reader.next,
      IsPrintable.past (c := '\\') (by decide), Mark.ahead_ahead]
  · have hblank : isBlankOrEnd c = false := by
      have htab := IsPrintable.ne hprintable (d := '\t') (by decide)
      simp [isBlankOrEnd, isSpaceOrEnd, htab, hc, IsPrintable.not_breakOrEnd hprintable]
    simp [quotedPiece, Reader.peek, hquote, hslash, hblank, Reader.next,
      IsPrintable.past hprintable]
  · rw [List.cons_append, List.cons_append, quotedPiece_code rfl rfl (by decide) hbyte (by decide)]
    simp [length_hexChars]
  · rw [List.cons_append, List.cons_append, quotedPiece_code rfl rfl (by decide) hshort (by decide)]
    simp [length_hexChars]
  · have hlong : c.toNat < 16 ^ 8 := c.val.toNat_lt
    rw [List.cons_append, List.cons_append, quotedPiece_code rfl rfl (by decide) hlong (by decide)]
    simp [length_hexChars]

/-- Spaces are read back together. -/
theorem quotedPiece_spaces {start : Mark} (n : Nat) {c : Char} (hc : IsPrintable c)
    (hspace : c ≠ ' ') (rest : List Char) (m : Mark) :
    quotedPiece true start ⟨List.replicate (n + 1) ' ' ++ c :: rest, m⟩ =
      .ok (some (List.replicate (n + 1) ' ', ⟨c :: rest, m.ahead (n + 1)⟩)) := by
  have hblank : isBlank c = false := by
    simp [isBlank, hspace, hc.ne (d := '\t') (by decide)]
  have htake : (List.replicate (n + 1) ' ' ++ c :: rest).takeWhile isBlank =
      List.replicate (n + 1) ' ' := by
    rw [List.takeWhile_append_of_pos (by simp [isBlank]), List.takeWhile_cons, hblank]
    simp
  have hspaces : ∀ d ∈ List.replicate (n + 1) ' ', IsPrintable d := by simp [IsPrintable]
  have hadvance := Reader.advance_printable hspaces (c :: rest) m
  rw [List.length_replicate] at hadvance
  have hbreak := Reader.lineBreak?_eq_none (r := ⟨c :: rest, m.ahead (n + 1)⟩) hc.not_break
  have hgap : quotedGap start ⟨List.replicate (n + 1) ' ' ++ c :: rest, m⟩ =
      .ok (List.replicate (n + 1) ' ', ⟨c :: rest, m.ahead (n + 1)⟩) := by
    simp only [quotedGap, htake, List.length_replicate, hadvance, hbreak]
    rfl
  have hpeek : (⟨List.replicate (n + 1) ' ' ++ c :: rest, m⟩ : Reader).peek = ' ' := rfl
  simp only [quotedPiece, hpeek, hgap]
  rfl

/-- What the text of a string and the quote behind it begin with, unless with a space. -/
theorem exists_head_escaped {text : List Char} (rest : List Char) (htext : text.head? ≠ some ' ') :
    ∃ c tail, text.flatMap escapeChar ++ '"' :: rest = c :: tail ∧ IsPrintable c ∧ c ≠ ' ' := by
  cases text with
  | nil => exact ⟨'"', rest, rfl, by decide, by decide⟩
  | cons c text =>
      have hprintable := escapeChar_printable c
      have hspace : ∀ d tail, escapeChar c = d :: tail → d ≠ ' ' := by
        intro d tail h
        unfold escapeChar at h
        split_ifs at h <;> cases h <;> simp_all
      have hne : escapeChar c ≠ [] := by
        unfold escapeChar
        split_ifs <;> simp
      obtain ⟨d, tail, hd⟩ := List.exists_cons_of_ne_nil hne
      refine ⟨d, tail ++ (text.flatMap escapeChar ++ '"' :: rest), ?_, ?_, hspace d tail hd⟩
      · simp [hd]
      · exact hprintable d (by simp [hd])

theorem exists_spaces (text : List Char) :
    ∃ n more, text = List.replicate n ' ' ++ more ∧ more.head? ≠ some ' ' := by
  induction text with
  | nil => exact ⟨0, [], rfl, by simp⟩
  | cons c text ih =>
      by_cases hc : c = ' '
      · obtain ⟨n, more, htext, hmore⟩ := ih
        exact ⟨n + 1, more, by simp [hc, htext, List.replicate_succ], hmore⟩
      · exact ⟨0, c :: text, rfl, by simpa using hc⟩

theorem escaped_spaces (n : Nat) :
    (List.replicate n ' ').flatMap escapeChar = List.replicate n ' ' := by
  induction n with
  | zero => rfl
  | succ n ih =>
      rw [List.replicate_succ, List.flatMap_cons, ih, show escapeChar ' ' = [' '] from rfl,
        List.singleton_append]

/-- Reading a string back from behind its opening quote. -/
theorem quotedText_escaped {start : Mark} (text rest : List Char) (m : Mark) (read : List Char)
    {n : Nat} (hn : (text.flatMap escapeChar).length < n) :
    quotedText true start n ⟨text.flatMap escapeChar ++ '"' :: rest, m⟩ read =
      .ok (read.reverse ++ text, ⟨rest, m.ahead ((text.flatMap escapeChar).length + 1)⟩) := by
  -- One piece is one character or a run of spaces, so the induction is on the length.
  induction hlength : text.length using Nat.strong_induction_on generalizing text m read n with
  | _ length ih =>
      subst hlength
      obtain ⟨n, rfl⟩ : ∃ k, n = k + 1 := ⟨n - 1, by omega⟩
      rw [quotedText]
      obtain ⟨k, more, rfl, hmore⟩ := exists_spaces text
      rw [List.flatMap_append, List.length_append, escaped_spaces, List.length_replicate] at hn
      cases k with
      | zero =>
          cases more with
          | nil =>
              simp [quotedPiece, Reader.peek, Reader.next, IsPrintable.past (c := '"') (by decide)]
          | cons c text =>
              have hc : c ≠ ' ' := by simpa using hmore
              have hpos : 0 < (escapeChar c).length := by
                unfold escapeChar
                split_ifs <;> simp
              rw [List.flatMap_cons, List.length_append] at hn
              rw [List.replicate_zero, List.nil_append, List.flatMap_cons, List.append_assoc,
                quotedPiece_escapeChar hc]
              simp only
              rw [ih text.length (by simp) text (m.ahead (escapeChar c).length) _ (by omega) rfl]
              simp [Mark.ahead_ahead, Nat.add_assoc]
      | succ k =>
          obtain ⟨c, tail, hhead, hc, hspace⟩ := exists_head_escaped rest hmore
          rw [List.flatMap_append, escaped_spaces, List.append_assoc, hhead,
            quotedPiece_spaces k hc hspace, ← hhead]
          simp only
          rw [ih more.length (by simp) more (m.ahead (k + 1)) _ (by omega) rfl]
          simp [Mark.ahead_ahead, Nat.add_assoc]

theorem readQuoted_text (text rest : List Char) (m : Mark) :
    readQuoted true ⟨'"' :: (text.flatMap escapeChar ++ ['"']) ++ rest, m⟩ =
      .ok (⟨.scalar (String.ofList text) .double, m,
          m.ahead ((text.flatMap escapeChar).length + 2)⟩,
        ⟨rest, m.ahead ((text.flatMap escapeChar).length + 2)⟩) := by
  have hnext : (⟨'"' :: (text.flatMap escapeChar ++ ['"']) ++ rest, m⟩ : Reader).next =
      ⟨text.flatMap escapeChar ++ '"' :: rest, m.ahead 1⟩ := by
    simp [Reader.next, IsPrintable.past (c := '"') (by decide)]
  rw [readQuoted, hnext, quotedText_escaped text rest (m.ahead 1) [] (by simp; omega)]
  simp [Mark.ahead_ahead, Nat.add_comm 1, Nat.add_assoc]

/-! ### Plain scalars -/

/-- The characters of words and numbers. -/
def IsPlainChar (c : Char) : Prop := c.isAlphanum = true ∨ c = '-'

instance (c : Char) : Decidable (IsPlainChar c) := inferInstanceAs (Decidable (_ ∨ _))

theorem IsPlainChar.ne {c d : Char} (hc : IsPlainChar c) (hd : ¬ IsPlainChar d) : c ≠ d := by
  rintro rfl
  exact hd hc

theorem IsPlainChar.printable {c : Char} (hc : IsPlainChar c) : IsPrintable c := by
  rcases hc with hc | rfl
  · simp only [Char.isAlphanum, Char.isAlpha, Char.isUpper, Char.isLower, Char.isDigit,
      Bool.or_eq_true, Bool.and_eq_true, decide_eq_true_eq, ge_iff_le, UInt32.le_iff_toNat_le] at hc
    simp only [IsPrintable]
    simp at hc
    omega
  · decide

theorem IsPlainChar.not_blankOrEnd {c : Char} (hc : IsPlainChar c) : isBlankOrEnd c = false := by
  simp [isBlankOrEnd, isSpaceOrEnd, hc.printable.not_breakOrEnd, hc.ne (d := '\t') (by decide),
    hc.ne (d := ' ') (by decide)]

theorem IsPlainChar.not_flowIndicator {c : Char} (hc : IsPlainChar c) :
    isFlowIndicator c = false := by
  simp [isFlowIndicator, hc.ne (d := ',') (by decide), hc.ne (d := '[') (by decide),
    hc.ne (d := ']') (by decide), hc.ne (d := '\x7b') (by decide),
    hc.ne (d := '\x7d') (by decide)]

theorem IsPlainChar.not_indicator {c : Char} (hc : IsPlainChar c) (hdash : c ≠ '-') :
    isIndicator c = false := by
  rw [isIndicator, List.contains_eq_mem, decide_eq_false_iff_not]
  intro hmem
  simp only [List.mem_cons, List.not_mem_nil, or_false] at hmem
  rcases hmem with rfl | rfl | rfl | rfl | rfl | rfl | rfl | rfl | rfl | rfl | rfl | rfl | rfl |
    rfl | rfl | rfl | rfl | rfl | rfl
  · exact hdash rfl
  all_goals exact absurd hc (by decide)

theorem IsPlainChar.not_stops {c : Char} (hc : IsPlainChar c) (inFlow : Bool) (next : Char) :
    plainStops inFlow c next = false := by
  simp [plainStops, hc.not_blankOrEnd, hc.not_flowIndicator, hc.ne (d := ':') (by decide),
    hc.ne (d := '?') (by decide)]

theorem plainPiece_append {inFlow : Bool} {text rest : List Char}
    (htext : ∀ c ∈ text, IsPlainChar c) (hrest : plainPiece inFlow rest = []) :
    plainPiece inFlow (text ++ rest) = text := by
  induction text with
  | nil => exact hrest
  | cons c text ih =>
      obtain ⟨hc, htext⟩ := List.forall_mem_cons.mp htext
      rw [List.cons_append, plainPiece, hc.not_stops, ih htext]
      simp

/-- A plain scalar is one piece if no white space follows that. -/
theorem readPlain_piece {inFlow : Bool} {indent : Int} {r stop : Reader} {piece : List Char}
    (hpiece : plainPiece inFlow r.rest = piece) (hne : piece ≠ []) (hhash : r.peek ≠ '#')
    (hadvance : r.advance piece.length = stop) (hspace : stop.peek ≠ ' ')
    (hbreak : isBreak stop.peek = false) :
    readPlain inFlow indent r =
      (⟨.scalar (String.ofList piece) .plain, r.mark, stop.mark⟩, stop, false) := by
  have hgap : plainGap stop = ⟨some [], stop, false⟩ := by
    simp [plainGap, Reader.takeWhile_space_eq_nil hspace, Reader.advance,
      Reader.lineBreak?_eq_none hbreak]
  simp [readPlain, plainRun, hpiece, hne, hadvance, hgap, hhash]

/-- A plain scalar that ends where the text does or a sign stands. -/
theorem readPlain_text {inFlow : Bool} {indent : Int} {text rest : List Char} (m : Mark)
    (htext : ∀ c ∈ text, IsPlainChar c) (hne : text ≠ []) (hrest : plainPiece inFlow rest = [])
    (hspace : rest.head? ≠ some ' ') (hbreak : isBreak (rest.headD nul) = false) :
    readPlain inFlow indent ⟨text ++ rest, m⟩ =
      (⟨.scalar (String.ofList text) .plain, m, m.ahead text.length⟩,
        ⟨rest, m.ahead text.length⟩, false) := by
  have hadvance := Reader.advance_printable (fun c hc => (htext c hc).printable) rest m
  have hpeek : (⟨rest, m.ahead text.length⟩ : Reader).peek ≠ ' ' := by
    cases rest with
    | nil => exact (by decide : nul ≠ ' ')
    | cons c rest => simpa [Reader.peek] using hspace
  have hhash : (⟨text ++ rest, m⟩ : Reader).peek ≠ '#' := by
    obtain ⟨c, tail, rfl⟩ := List.exists_cons_of_ne_nil hne
    exact (htext c List.mem_cons_self).ne (by decide)
  exact readPlain_piece (plainPiece_append htext hrest) hne hhash hadvance hpeek hbreak

/-- A plain scalar at the end of its line, before a line that is indented too little to go on with
it. -/
theorem readPlain_line {indent : Int} {text rest : List Char} (m : Mark) {n : Nat}
    (htext : ∀ c ∈ text, IsPlainChar c) (hne : text ≠ []) (hrest : Starts rest)
    (hindent : (n : Int) < indent + 1) :
    readPlain false indent ⟨text ++ '\n' :: (Value.spaces n ++ rest), m⟩ =
      (⟨.scalar (String.ofList text) .plain, m, m.ahead text.length⟩,
        ⟨rest, (m.ahead text.length).nextLine.ahead n⟩, true) := by
  have hpiece : plainPiece false (text ++ '\n' :: (Value.spaces n ++ rest)) = text :=
    plainPiece_append htext rfl
  have hadvance := Reader.advance_printable (fun c hc => (htext c hc).printable)
    ('\n' :: (Value.spaces n ++ rest)) m
  have hfeed := Reader.lineBreak?_feed (Value.spaces n ++ rest) (m.ahead text.length)
  have hline := Reader.lineBreak?_eq_none
    (r := ⟨rest, (m.ahead text.length).nextLine.ahead n⟩) hrest.not_break
  have hbreaks : ∀ k, plainBreaks (k + 1) ⟨Value.spaces n ++ rest, (m.ahead text.length).nextLine⟩
      [] = (some [], ⟨rest, (m.ahead text.length).nextLine.ahead n⟩) := by
    intro k
    simp only [plainBreaks, Reader.skipWhile_spaces n hrest.head_ne_space, hline]
  have hgap : plainGap ⟨'\n' :: (Value.spaces n ++ rest), m.ahead text.length⟩ =
      ⟨some [' '], ⟨rest, (m.ahead text.length).nextLine.ahead n⟩, true⟩ := by
    simp [plainGap, Reader.advance, hfeed, hrest.not_separator, hbreaks, foldBreaks]
  have hhash : (⟨text ++ '\n' :: (Value.spaces n ++ rest), m⟩ : Reader).peek ≠ '#' := by
    obtain ⟨c, tail, rfl⟩ := List.exists_cons_of_ne_nil hne
    exact (htext c List.mem_cons_self).ne (by decide)
  have hcolumn : ((m.ahead text.length).nextLine.ahead n).column = n := by
    simp [Mark.ahead, Mark.nextLine]
  simp [readPlain, plainRun, hpiece, hne, hadvance, hgap, hhash, hcolumn, hindent]

end Playbook
