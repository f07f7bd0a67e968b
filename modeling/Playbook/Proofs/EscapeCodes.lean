import Mathlib.Data.Nat.Digits.Lemmas
import Playbook.Proofs.ScanLoops
import Playbook.Proofs.OpenQuote
import Playbook.Proofs.TokenFault
import Playbook.Proofs.TokenScan

/-!
Characters that are written by their codes. Inside double quotes an escape by number takes so many
digits of base sixteen, of which a plus sign may replace the first, and stands for the character
with that code. Where no such code follows, reading the text stops there.
-/

namespace Playbook

/-! ### Codes in base sixteen -/

def IsHexDigit (c : Char) : Prop :=
  '0' ≤ c ∧ c ≤ '9' ∨ 'a' ≤ c ∧ c ≤ 'f' ∨ 'A' ≤ c ∧ c ≤ 'F'

instance (c : Char) : Decidable (IsHexDigit c) := inferInstanceAs (Decidable (_ ∨ _))

/-- The value of a digit of base sixteen. -/
def hexDigit (c : Char) : Nat :=
  if c ≤ '9' then c.toNat - '0'.toNat
  else if c ≤ 'F' then c.toNat - 'A'.toNat + 10
  else c.toNat - 'a'.toNat + 10

/-- The number that digits of base sixteen write. -/
def hexValue (digits : List Char) : Nat := Nat.ofDigits 16 (digits.reverse.map hexDigit)

/-- The digits write the code of the character. -/
structure WritesCode (digits : List Char) (c : Char) : Prop where
  hex : ∀ d ∈ digits, IsHexDigit d
  value : hexValue digits = c.toNat

/-- The first `n` characters of a text are taken for the code of `c`, and `rest` is left. -/
def TakesCode (n : Nat) (text : List Char) (c : Char) (rest : List Char) : Prop :=
  ∃ code, text = code ++ rest ∧ code.length = n ∧
    (WritesCode code c ∨ ∃ digits, code = '+' :: digits ∧ WritesCode digits c)

theorem hexValue_cons (c : Char) (digits : List Char) :
    hexValue (c :: digits) = hexDigit c * 16 ^ digits.length + hexValue digits := by
  simp [hexValue, Nat.ofDigits_append, Nat.add_comm, Nat.mul_comm]

theorem digitIn?_eq_some_iff {c : Char} {d : Nat} :
    digitIn? 16 c = some d ↔ IsHexDigit c ∧ hexDigit c = d := by
  have hle : ∀ c d : Char, c ≤ d ↔ c.toNat ≤ d.toNat := fun _ _ => Iff.rfl
  have hcodes : '0'.toNat = 48 ∧ '9'.toNat = 57 ∧ 'a'.toNat = 97 ∧ 'f'.toNat = 102 ∧
      'z'.toNat = 122 ∧ 'A'.toNat = 65 ∧ 'F'.toNat = 70 ∧ 'Z'.toNat = 90 := by decide
  simp only [digitIn?, digitValue?, IsHexDigit, hexDigit, hle, hcodes, Bool.and_eq_true,
    decide_eq_true_eq]
  split_ifs <;> simp [Option.filter_eq_some_iff] <;> omega

theorem readDigitsFrom?_eq_some_iff {digits : List Char} {n m : Nat} :
    readDigitsFrom? 16 n digits = some m ↔
      (∀ d ∈ digits, IsHexDigit d) ∧ n * 16 ^ digits.length + hexValue digits = m := by
  induction digits generalizing n with
  | nil => simp [readDigitsFrom?, hexValue]
  | cons c digits ih =>
      simp only [readDigitsFrom?, Option.bind_eq_some_iff, digitIn?_eq_some_iff, ih,
        List.forall_mem_cons, hexValue_cons, List.length_cons, pow_succ]
      constructor
      · rintro ⟨d, ⟨hc, rfl⟩, hdigits, rfl⟩
        exact ⟨⟨hc, hdigits⟩, by ring⟩
      · rintro ⟨⟨hc, hdigits⟩, rfl⟩
        exact ⟨_, ⟨hc, rfl⟩, hdigits, by ring⟩

theorem scalarValue?_eq_some_iff {n : Nat} {c : Char} : scalarValue? n = some c ↔ n = c.toNat := by
  unfold scalarValue?
  constructor
  · intro h
    split_ifs at h with hvalid
    cases h
    rw [Char.toNat_ofNat, if_pos hvalid]
  · rintro rfl
    have hvalid : c.toNat.isValidChar := c.valid
    rw [if_pos hvalid, Char.ofNat_toNat]

theorem readDigits?_bind_eq_some_iff {digits : List Char} {c : Char} (hne : digits ≠ []) :
    (readDigits? 16 digits).bind scalarValue? = some c ↔ WritesCode digits c := by
  have hempty : digits.isEmpty = false := by simpa using hne
  simp only [readDigits?, hempty, Bool.false_eq_true, if_false, Option.bind_eq_some_iff,
    readDigitsFrom?_eq_some_iff, scalarValue?_eq_some_iff, Nat.zero_mul, Nat.zero_add]
  constructor
  · rintro ⟨n, ⟨hhex, rfl⟩, hvalue⟩
    exact ⟨hhex, hvalue⟩
  · rintro ⟨hhex, hvalue⟩
    exact ⟨_, ⟨hhex, rfl⟩, hvalue⟩

/-- What is read may start with a plus sign, if at least one digit follows. -/
theorem readNat?_bind_eq_some_iff {code : List Char} {c : Char} (hlength : 2 ≤ code.length) :
    (readNat? 16 code).bind scalarValue? = some c ↔
      WritesCode code c ∨ ∃ digits, code = '+' :: digits ∧ WritesCode digits c := by
  unfold readNat?
  split
  · rename_i digits
    have hne : digits ≠ [] := by
      rintro rfl
      exact absurd hlength (by decide)
    rw [readDigits?_bind_eq_some_iff hne]
    constructor
    · exact fun h => Or.inr ⟨digits, rfl, h⟩
    · rintro (h | ⟨_, ⟨⟩, h⟩)
      · exact absurd (h.hex '+' List.mem_cons_self) (by decide)
      · exact h
  · rename_i hplus
    have hne : code ≠ [] := by
      rintro rfl
      exact absurd hlength (by decide)
    rw [readDigits?_bind_eq_some_iff hne, or_iff_left]
    rintro ⟨digits, rfl, -⟩
    exact hplus digits rfl

theorem takesCode_iff {n : Nat} {text rest : List Char} {c : Char} (hn : 2 ≤ n) :
    TakesCode n text c rest ↔ charOfCode? n text = some c ∧ rest = text.drop n := by
  unfold charOfCode?
  constructor
  · rintro ⟨code, rfl, rfl, hcode⟩
    simpa [readNat?_bind_eq_some_iff hn] using hcode
  · rintro ⟨hchar, rfl⟩
    dsimp only at hchar
    split_ifs at hchar with hlength
    rw [beq_iff_eq] at hlength
    rw [readNat?_bind_eq_some_iff (by omega)] at hchar
    exact ⟨text.take n, (List.take_append_drop n text).symm, hlength, hchar⟩

theorem escapeDigits?_eq_some {letter : Char} {n : Nat} (h : escapeDigits? letter = some n) :
    2 ≤ n ∧ escapedChar? letter = none := by
  unfold escapeDigits? at h
  split at h <;> cases h <;> decide

/-! ### Inside quotes -/

section Pieces

variable {double : Bool} {start : Mark} {r r' : Reader} {text : List Char}

/-- Reading on inside quotes contributes `text` and comes to `r'`. -/
inductive Pieces (double : Bool) (start : Mark) : Reader → List Char → Reader → Prop
  | nil (r : Reader) : Pieces double start r [] r
  | cons {r r₁ r' : Reader} {piece text : List Char}
      (hpiece : quotedPiece double start r = .ok (some (piece, r₁)))
      (hrest : Pieces double start r₁ text r') : Pieces double start r (piece ++ text) r'

theorem Pieces.trans {text' : List Char} {r'' : Reader} (h : Pieces double start r text r')
    (h' : Pieces double start r' text' r'') : Pieces double start r (text ++ text') r'' := by
  induction h with
  | nil => exact h'
  | cons hpiece _ ih =>
      rw [List.append_assoc]
      exact .cons hpiece (ih h')

theorem Pieces.single {piece : List Char}
    (hpiece : quotedPiece double start r = .ok (some (piece, r'))) :
    Pieces double start r piece r' := by
  have h := Pieces.cons hpiece (.nil r')
  rwa [List.append_nil] at h

theorem Pieces.eq_of_stuck (h : Pieces double start r text r')
    (hstuck : quotedPiece double start r = .ok (some ([], r))) : r' = r := by
  induction h with
  | nil => rfl
  | cons hpiece _ ih =>
      cases hpiece.symm.trans hstuck
      exact ih hstuck

/-- Pieces are read as long as reading is not held up. -/
theorem Pieces.quotedText_eq (h : Pieces double start r text r')
    (hmoves : quotedPiece double start r' ≠ .ok (some ([], r'))) {n : Nat} (read : List Char)
    (hn : r.rest.length < n) : ∃ k, quotedText double start n r read =
      quotedText double start (k + 1) r' (text.reverse ++ read) := by
  induction h generalizing n read with
  | nil => exact ⟨n - 1, by rw [Nat.sub_add_cancel (by omega)]; rfl⟩
  | @cons r r₁ r' piece text hpiece hrest ih =>
      obtain ⟨n, rfl⟩ : ∃ k, n = k + 1 := ⟨n - 1, by omega⟩
      rcases quotedPiece_length hpiece with hlt | ⟨-, rfl, rfl⟩
      · obtain ⟨k, hk⟩ := ih (n := n) hmoves (piece.reverse ++ read) (by omega)
        refine ⟨k, ?_⟩
        rw [quotedText, hpiece, List.reverse_append, List.append_assoc]
        exact hk
      -- A piece that takes up no text comes again for ever, so that there is no way to `r'`.
      · obtain rfl := hrest.eq_of_stuck hpiece
        exact absurd hpiece hmoves

theorem quotedText_initial {n : Nat} {read : List Char}
    (h : quotedText double start n r read = .ok (text, r')) : read.reverse <+: text := by
  induction n generalizing r read with
  | zero => cases h
  | succ n ih =>
      unfold quotedText at h
      split at h
      · cases h
      · cases h
        exact List.prefix_rfl
      · have hprefix := ih h
        rw [List.reverse_append, List.reverse_reverse] at hprefix
        exact (List.prefix_append _ _).trans hprefix

end Pieces

section Quoted

variable {double : Bool} {quote r : Reader} {text : List Char}

/-- The style of the scalars in such quotes. -/
def quotedStyle (double : Bool) : Style := if double then .double else .single

theorem readQuoted_eq (double : Bool) (quote : Reader) : readQuoted double quote =
    (quotedText double quote.mark (quote.rest.length + 1) quote.next []).map fun found =>
      (⟨.scalar (String.ofList found.1) (quotedStyle double), quote.mark, found.2.mark⟩,
        found.2) := by
  unfold readQuoted
  cases quotedText double quote.mark (quote.rest.length + 1) quote.next [] <;> rfl

theorem Pieces.readQuoted_eq (h : Pieces double quote.mark quote.next text r)
    (hmoves : quotedPiece double quote.mark r ≠ .ok (some ([], r))) : ∃ k, readQuoted double quote =
      (quotedText double quote.mark (k + 1) r text.reverse).map fun found =>
        (⟨.scalar (String.ofList found.1) (quotedStyle double), quote.mark, found.2.mark⟩,
          found.2) := by
  have hlength : quote.next.rest.length < quote.rest.length + 1 :=
    Nat.lt_succ_of_le (Reader.Leads.next quote).length_le
  obtain ⟨k, hk⟩ := h.quotedText_eq hmoves [] hlength
  exact ⟨k, by rw [Playbook.readQuoted_eq, hk, List.append_nil]⟩

/-- The scalar ends at the closing quote. -/
theorem Pieces.closed (h : Pieces double quote.mark quote.next text r)
    (hclose : quotedPiece double quote.mark r = .ok none) :
    readQuoted double quote =
      .ok (⟨.scalar (String.ofList text) (quotedStyle double), quote.mark, r.next.mark⟩,
        r.next) := by
  obtain ⟨k, hread⟩ := h.readQuoted_eq (by simp [hclose])
  rw [hread, quotedText, hclose]
  simp [Except.map]

theorem Pieces.fails {d : Diagnostic} (h : Pieces double quote.mark quote.next text r)
    (herror : quotedPiece double quote.mark r = .error d) : readQuoted double quote = .error d := by
  obtain ⟨k, hread⟩ := h.readQuoted_eq (by simp [herror])
  rw [hread, quotedText, herror]
  rfl

/-- What a piece contributes is part of the scalar. -/
theorem Pieces.contributes {piece : List Char} {r' stop : Reader} {token : Token}
    (h : Pieces double quote.mark quote.next text r)
    (hpiece : quotedPiece double quote.mark r = .ok (some (piece, r'))) (hne : piece ≠ [])
    (hread : readQuoted double quote = .ok (token, stop)) :
    ∃ more, token.kind = .scalar (String.ofList (text ++ piece ++ more)) (quotedStyle double) := by
  obtain ⟨k, hk⟩ := h.readQuoted_eq (by simp [hpiece, hne])
  rw [hk, quotedText, hpiece] at hread
  dsimp only at hread
  cases htext : quotedText double quote.mark k r' (piece.reverse ++ text.reverse) with
  | error d =>
      rw [htext] at hread
      cases hread
  | ok found =>
      rw [htext] at hread
      cases hread
      have hinitial := quotedText_initial htext
      rw [List.reverse_append, List.reverse_reverse, List.reverse_reverse] at hinitial
      obtain ⟨more, hmore⟩ := hinitial
      exact ⟨more, by rw [hmore]⟩

end Quoted

/-- An escape by number contributes the character with the code that it takes. -/
theorem quotedPiece_escapeCode (start : Mark) {r : Reader} {letter : Char} {ahead : List Char}
    {n : Nat} (hrest : r.rest = '\\' :: letter :: ahead) (hletter : escapeDigits? letter = some n) :
    quotedPiece true start r =
      (charOfCode? n ahead).elim
        (.error (.within .tokens .doubleQuoted start (.badEscapeCode n (ahead.headD nul))
          (r.advance 2).mark))
        fun c => .ok (some ([c], r.advance (n + 2))) := by
  obtain ⟨-, hplain⟩ := escapeDigits?_eq_some hletter
  have hpeek : r.peek = '\\' := by simp [Reader.peek, hrest]
  have hpeek' : r.next.peek = letter := by simp [Reader.peek, Reader.next_rest, hrest]
  have hahead : r.next.next.rest = ahead := by simp [Reader.next_rest, hrest]
  have hfound : r.next.next.peek = ahead.headD nul := by rw [Reader.peek, hahead]
  have hescape : quotedPiece true start r = some <$> quotedEscape start r.next := by
    simp [quotedPiece, hpeek]
  rw [hescape, quotedEscape, hpeek', hplain, hletter]
  dsimp only
  rw [hahead, hfound]
  cases charOfCode? n ahead <;> rfl

/-! ### Inside a text -/

namespace TokenStream

variable {s : TokenStream} {double : Bool} {quote : Reader}

theorem fetchSign_quoted (h : s.reader.peek = quoteOf double) :
    s.fetchSign = s.fetchKeyed (readQuoted double) := by
  have hquote : quoteOf double ≠ nul ∧ IsPrintable (quoteOf double) ∧ quoteOf double ≠ ' ' ∧
      quoteOf double ≠ '#' ∧ quoteOf double ≠ '-' ∧ quoteOf double ≠ '.' := by
    cases double <;> decide
  obtain ⟨hnul, hprintable, hspace, hhash, hdash, hdot⟩ := hquote
  obtain ⟨tail, hrest⟩ := Reader.rest_of_peek h hnul
  obtain ⟨hpeek, -, hend, hdashes, hdots⟩ :=
    faces hrest (starts_cons ⟨hprintable, hspace, hhash⟩ hdash hdot)
  cases double <;> simp [fetchSign, hpeek, hend, hdashes, hdots, quoteOf]

/-- The next token of the text is in quotes that open at `quote`. -/
structure AtQuote (s : TokenStream) (double : Bool) (quote : Reader) : Prop where
  not_done : s.done = false
  reader : s.settled.reader = quote
  opens : quote.peek = quoteOf double
  /-- No pending key is in the way. -/
  keys : ∃ s₁ s₂, s.settled.dropStaleKeys = .ok s₁ ∧ s₁.saveKey = .ok s₂

theorem AtQuote.fetch_eq_error {d : Diagnostic} (h : s.AtQuote double quote)
    (hread : readQuoted double quote = .error d) : s.fetch = .error d := by
  obtain ⟨s₁, s₂, hdrop, hsave⟩ := h.keys
  have hreader₁ : s₁.reader = quote := by
    rw [(dropStaleKeys_dropped hdrop).same]
    exact h.reader
  have hreader₂ : s₂.reader = quote := by
    rw [(saveKey_saved hsave).same]
    exact hreader₁
  have hpeek : s₁.reader.peek = quoteOf double := by rw [hreader₁, h.opens]
  rw [fetch_eq, hdrop, ok_bind, fetchSign_quoted hpeek, fetchKeyed, hsave, ok_bind, hreader₂, hread]
  rfl

theorem AtQuote.exists_dropStaleKeys (hs : s.Keyed) (h : s.AtQuote double quote) :
    ∃ s₁, s.dropStaleKeys = .ok s₁ := by
  obtain ⟨s₁, -, hdrop, -⟩ := h.keys
  rw [settled, dropStaleKeys_unwind] at hdrop
  obtain ⟨s₂, hdrop, -⟩ := map_eq_ok_iff.mp hdrop
  exact TokenStream.exists_dropStaleKeys hs hdrop

/-- A scalar in quotes that cannot be read stops the reading of the text. -/
theorem AtQuote.stops {d : Diagnostic} (hs : s.Keyed) (h : s.AtQuote double quote)
    (hread : readQuoted double quote = .error d) : s.Stops d :=
  ⟨s, .refl, h.not_done, h.exists_dropStaleKeys hs, h.fetch_eq_error hread⟩

end TokenStream

/-- Reading `text` comes to a scalar in double quotes that opens at `quote`, and inside of it to
`r`. Up to there the scalar holds `read`. -/
def ReadsInside (text : List Char) (quote : Reader) (read : List Char) (r : Reader) : Prop :=
  ∃ s, (TokenStream.start text).Fetches s ∧ s.AtQuote true quote ∧
    Pieces true quote.mark quote.next read r

namespace ReadsInside

variable {text read ahead : List Char} {quote r : Reader} {letter : Char} {n : Nat}

theorem fault {d : Diagnostic} (h : ReadsInside text quote read r)
    (hpiece : quotedPiece true quote.mark r = .error d) : (Token.ofText text).fault = some d := by
  obtain ⟨s, hfetches, hquote, hpieces⟩ := h
  have hkeyed : s.Keyed := hfetches.keyed (TokenStream.keyed_start text)
  apply Token.ofText_fault_of_stops
  exact (hquote.stops hkeyed (hpieces.fails hpiece)).of_fetches hfetches

theorem step {piece : List Char} {r' : Reader} (h : ReadsInside text quote read r)
    (hpiece : quotedPiece true quote.mark r = .ok (some (piece, r'))) :
    ReadsInside text quote (read ++ piece) r' := by
  obtain ⟨s, hfetches, hquote, hpieces⟩ := h
  exact ⟨s, hfetches, hquote, hpieces.trans (.single hpiece)⟩

/-- Wherever an escape by number stands in double quotes, it takes exactly so many characters for
the code of a character and contributes that, or else reading the text stops behind its letter. The
code consists of digits, except that its first character may be a plus sign. -/
theorem escapeCode_exact (h : ReadsInside text quote read r)
    (hrest : r.rest = '\\' :: letter :: ahead) (hletter : escapeDigits? letter = some n) :
    (∀ c r', quotedPiece true quote.mark r = .ok (some ([c], r')) ↔
      r' = r.advance (n + 2) ∧ TakesCode n ahead c r'.rest) ∧
    (∀ c rest, TakesCode n ahead c rest →
      ReadsInside text quote (read ++ [c]) (r.advance (n + 2)) ∧
      (r.advance (n + 2)).rest = rest ∧
      ∀ token stop, readQuoted true quote = .ok (token, stop) →
        ∃ more, token.kind = .scalar (String.ofList (read ++ [c] ++ more)) .double) ∧
    ((¬ ∃ c rest, TakesCode n ahead c rest) →
      (Token.ofText text).fault = some (.within .tokens .doubleQuoted quote.mark
        (.badEscapeCode n (ahead.headD nul)) (r.advance 2).mark)) ∧
    (ahead.head? ≠ some '+' → ∀ c rest, TakesCode n ahead c rest ↔
      ∃ digits, ahead = digits ++ rest ∧ digits.length = n ∧ WritesCode digits c) := by
  obtain ⟨hn, -⟩ := escapeDigits?_eq_some hletter
  have hpiece := quotedPiece_escapeCode quote.mark hrest hletter
  have hdrop : (r.advance (n + 2)).rest = ahead.drop n := by
    rw [Reader.advance_rest, hrest]
    rfl
  refine ⟨?_, ?_, ?_, ?_⟩
  · intro c r'
    constructor
    · intro hread
      rw [hpiece] at hread
      cases hchar : charOfCode? n ahead with
      | none =>
          rw [hchar] at hread
          cases hread
      | some c' =>
          rw [hchar] at hread
          cases hread
          exact ⟨rfl, (takesCode_iff hn).mpr ⟨hchar, hdrop⟩⟩
    · rintro ⟨rfl, htakes⟩
      rw [hpiece, ((takesCode_iff hn).mp htakes).1]
      rfl
  · intro c rest htakes
    obtain ⟨hchar, rfl⟩ := (takesCode_iff hn).mp htakes
    rw [hchar, Option.elim_some] at hpiece
    refine ⟨h.step hpiece, hdrop, fun token stop hread => ?_⟩
    obtain ⟨s, -, -, hpieces⟩ := h
    exact hpieces.contributes hpiece (List.cons_ne_nil _ _) hread
  · intro hnone
    have hchar : charOfCode? n ahead = none := by
      by_contra hsome
      obtain ⟨c, hc⟩ := Option.ne_none_iff_exists'.mp hsome
      exact hnone ⟨c, _, (takesCode_iff hn).mpr ⟨hc, rfl⟩⟩
    rw [hchar, Option.elim_none] at hpiece
    exact h.fault hpiece
  · intro hplus c rest
    constructor
    · rintro ⟨code, rfl, hlength, hwrites | ⟨digits, rfl, -⟩⟩
      · exact ⟨code, rfl, hlength, hwrites⟩
      · exact absurd rfl hplus
    · rintro ⟨digits, rfl, hlength, hwrites⟩
      exact ⟨digits, rfl, hlength, Or.inl hwrites⟩

/-- The second escape holds the code of half a pair, which is that of no character. -/
theorem escapeCode_exact_surrogate :
    (Token.ofText "- \"\\u00E9\\ud800\"".toList).fault =
      some (.within .tokens .doubleQuoted ⟨2, 0, 2⟩ (.badEscapeCode 4 'd') ⟨11, 0, 11⟩) := by
  -- The stream behind the dash comes to the quote, and reads the first escape there.
  have hinside : ReadsInside "- \"\\u00E9\\ud800\"".toList
      ⟨"\"\\u00E9\\ud800\"".toList, ⟨2, 0, 2⟩⟩ ['\u00e9'] ⟨"\\ud800\"".toList, ⟨9, 0, 9⟩⟩ :=
    ⟨⟨⟨" \"\\u00E9\\ud800\"".toList, ⟨1, 0, 1⟩⟩, false, 0, [⟨.streamStart, .origin, .origin⟩,
      ⟨.blockSequenceStart, .origin, .origin⟩, ⟨.blockEntry, .origin, ⟨1, 0, 1⟩⟩], 0, 0, [-1],
      true, []⟩, .single ⟨rfl, rfl⟩, ⟨rfl, rfl, rfl, _, _, rfl, rfl⟩, .single rfl⟩
  obtain ⟨-, -, hstops, -⟩ := escapeCode_exact hinside rfl rfl
  apply hstops
  rintro ⟨c, rest, htakes⟩
  cases ((takesCode_iff (by decide)).mp htakes).1

/-- A plus sign is no digit, and yet an escape takes it for the first one. -/
theorem escapeCode_takes_plus :
    ¬ IsHexDigit '+' ∧
      (Document.ofText "\"\\x+1\"".toList .origin).map Document.root = .ok (.str "\x01") :=
  ⟨by decide, rfl⟩

end ReadsInside

end Playbook
