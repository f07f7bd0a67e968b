import Playbook.Proofs.EscapeCodes
import Playbook.Proofs.RoundTrip

/-!
Strings in quotes. A text in double quotes in which every character stands for itself or is written
by its code is read back as the string that it spells, and so is a text in single quotes in which
every quote stands twice. Blanks are read in runs and all else one by one, but this makes no
difference.
-/

namespace Playbook

/-- The text between quotes spells a string. A character may stand for itself unless it is a NUL, a
line break, the quote or, in double quotes, a backslash. -/
inductive Spells (double : Bool) : List Char → List Char → Prop
  | nil : Spells double [] []
  | itself {c : Char} {written text : List Char} (hend : isBreakOrEnd c = false)
      (hquote : c ≠ quoteOf double) (hslash : double = true → c ≠ '\\')
      (h : Spells double written text) : Spells double (c :: written) (c :: text)
  | code {digits : List Char} {c : Char} {written text : List Char} (hdouble : double = true)
      (hlength : digits.length = 8) (hwrites : WritesCode digits c)
      (h : Spells double written text) :
      Spells double ('\\' :: 'U' :: (digits ++ written)) (c :: text)
  | twice {written text : List Char} (hdouble : double = false) (h : Spells double written text) :
      Spells double ('\'' :: '\'' :: written) ('\'' :: text)

/-- A text in single quotes has every quote twice. -/
def doubleQuotes (text : List Char) : List Char :=
  text.flatMap fun c => if c = '\'' then ['\'', '\''] else [c]

theorem spells_doubleQuotes {text : List Char} (h : ∀ c ∈ text, isBreakOrEnd c = false) :
    Spells false (doubleQuotes text) text := by
  induction text with
  | nil => exact .nil
  | cons c text ih =>
      obtain ⟨hc, htext⟩ := List.forall_mem_cons.mp h
      rw [doubleQuotes, List.flatMap_cons]
      split_ifs with hquote
      · subst hquote
        exact .twice rfl (ih htext)
      · exact .itself hc hquote (fun hdouble => absurd hdouble (by decide)) (ih htext)

theorem writesCode_hexChars (c : Char) : WritesCode (hexChars 8 c.toNat) c := by
  have hsmall : c.toNat < 16 ^ 8 := c.val.toNat_lt
  have hread := readDigitsFrom?_hexChars 8 0 c.toNat hsmall
  obtain ⟨hhex, hvalue⟩ := readDigitsFrom?_eq_some_iff.mp hread
  exact ⟨hhex, by simpa using hvalue⟩

/-- Every string can be spelled in double quotes: by the codes of its characters. -/
theorem spells_codes (text : List Char) :
    Spells true (text.flatMap fun c => '\\' :: 'U' :: hexChars 8 c.toNat) text := by
  induction text with
  | nil => exact .nil
  | cons c text ih => exact .code rfl (length_hexChars 8 _) (writesCode_hexChars c) ih

/-! ### Pieces -/

section Pieces

variable {double : Bool} {start : Mark} {r : Reader} {ahead : List Char}

theorem quotedPiece_itself {c : Char} (hrest : r.rest = c :: ahead) (hend : isBreakOrEnd c = false)
    (hblank : isBlank c = false) (hquote : c ≠ quoteOf double)
    (hslash : double = true → c ≠ '\\') :
    quotedPiece double start r = .ok (some ([c], r.next)) := by
  have hpeek : r.peek = c := by simp [Reader.peek, hrest]
  have hgap : isBlankOrEnd c = false := by
    simp only [isBlank, Bool.or_eq_false_iff] at hblank
    simp [isBlankOrEnd, isSpaceOrEnd, hend, hblank]
  cases double with
  | true =>
      have hquote : c ≠ '"' := hquote
      simp [quotedPiece, hpeek, hgap, hquote, hslash rfl]
  | false =>
      have hquote : c ≠ '\'' := hquote
      simp [quotedPiece, hpeek, hgap, hquote]

theorem quotedPiece_twice (hrest : r.rest = '\'' :: '\'' :: ahead) :
    quotedPiece false start r = .ok (some (['\''], r.advance 2)) := by
  simp [quotedPiece, Reader.peek, Reader.peekAt, hrest]

theorem quotedPiece_close (hrest : r.rest = [quoteOf double]) :
    quotedPiece double start r = .ok none := by
  cases double <;> simp [quotedPiece, Reader.peek, Reader.peekAt, hrest, quoteOf, nul]

/-- The text goes on with a character that ends a run of blanks. -/
def EndsBlanks (ahead : List Char) : Prop :=
  ∃ c rest, ahead = c :: rest ∧ isBlank c = false ∧ isBreak c = false

theorem quotedPiece_blanks {b : Char} {blanks : List Char} (hrest : r.rest = b :: blanks ++ ahead)
    (hblanks : ∀ c ∈ b :: blanks, isBlank c = true) (hahead : EndsBlanks ahead) :
    quotedPiece double start r = .ok (some (b :: blanks, r.advance (b :: blanks).length)) := by
  obtain ⟨c, rest, rfl, hc, hbreak⟩ := hahead
  have htake : r.rest.takeWhile isBlank = b :: blanks := by
    rw [hrest, List.takeWhile_append_of_pos hblanks, List.takeWhile_cons, hc]
    simp
  have hskip : r.skipWhile isBlank = r.advance (b :: blanks).length := by
    rw [Reader.skipWhile, htake]
  have hleft : (r.skipWhile isBlank).rest = c :: rest := by
    rw [hskip, Reader.advance_rest, hrest, List.drop_left]
  have hgap : quotedGap start r = .ok (b :: blanks, r.skipWhile isBlank) := by
    rw [quotedGap_of_none (by simp [Reader.atEnd, hleft])
      (Reader.lineBreak?_eq_none (by simpa [Reader.peek, hleft] using hbreak)), htake]
  have hpeek : r.peek = b := by simp [Reader.peek, hrest]
  have hb : b = ' ' ∨ b = '\t' := by simpa [isBlank] using hblanks b List.mem_cons_self
  have hpiece : quotedPiece double start r = some <$> quotedGap start r := by
    rcases hb with rfl | rfl <;> simp [quotedPiece, hpeek, isBlankOrEnd, isSpaceOrEnd]
  rw [hpiece, hgap, hskip]
  rfl

theorem pieces_blanks {blanks : List Char} (hrest : r.rest = blanks ++ ahead)
    (hblanks : ∀ c ∈ blanks, isBlank c = true) (hahead : EndsBlanks ahead) :
    ∃ r', Pieces double start r blanks r' ∧ r'.rest = ahead := by
  cases blanks with
  | nil => exact ⟨r, .nil r, hrest⟩
  | cons b blanks =>
      refine ⟨_, .single (quotedPiece_blanks hrest hblanks hahead), ?_⟩
      rw [Reader.advance_rest, hrest, List.drop_left]

/-- Reading on from `r` contributes `text` and comes to the closing quote. -/
def ReadsToQuote (double : Bool) (start : Mark) (r : Reader) (text : List Char) : Prop :=
  ∃ r', Pieces double start r text r' ∧ r'.rest = [quoteOf double]

/-- Blanks, one more piece and all that follows. -/
theorem readsToQuote_blanks {blanks text : List Char} (piece : List Char) (n : Nat)
    (hrest : r.rest = blanks ++ ahead) (hblanks : ∀ c ∈ blanks, isBlank c = true)
    (hahead : EndsBlanks ahead)
    (hpiece : ∀ r₁ : Reader, r₁.rest = ahead →
      quotedPiece double start r₁ = .ok (some (piece, r₁.advance n)))
    (hfollows : ∀ r₁ : Reader, r₁.rest = ahead.drop n → ReadsToQuote double start r₁ text) :
    ReadsToQuote double start r (blanks ++ (piece ++ text)) := by
  obtain ⟨r₁, hpieces, hr₁⟩ := pieces_blanks hrest hblanks hahead
  obtain ⟨r', hpieces', hr'⟩ := hfollows (r₁.advance n) (by rw [Reader.advance_rest, hr₁])
  exact ⟨r', hpieces.trans (.cons (hpiece r₁ hr₁) hpieces'), hr'⟩

/-- The blanks before what is spelled are read together with those that it begins with. -/
theorem Spells.readsToQuote {written text : List Char} (h : Spells double written text)
    (blanks : List Char) (hblanks : ∀ c ∈ blanks, isBlank c = true)
    (hrest : r.rest = blanks ++ (written ++ [quoteOf double])) :
    ReadsToQuote double start r (blanks ++ text) := by
  -- A blank that stands for itself joins those before it, and any other piece is read behind them.
  induction h generalizing r blanks with
  | nil =>
      rw [List.append_nil]
      exact pieces_blanks hrest hblanks (by cases double <;> exact ⟨_, [], rfl, rfl, rfl⟩)
  | @itself c written text hend hquote hslash _ ih =>
      cases hc : isBlank c with
      | true =>
          have hmore : ∀ d ∈ blanks ++ [c], isBlank d = true := by
            simpa [or_imp, forall_and, hc] using hblanks
          have hreads := ih (blanks ++ [c]) hmore (by rw [hrest, List.append_assoc]; rfl)
          rwa [List.append_assoc] at hreads
      | false =>
          have hbreak : isBreak c = false := (Bool.or_eq_false_iff.mp hend).2
          exact readsToQuote_blanks [c] 1 hrest hblanks ⟨c, _, rfl, hc, hbreak⟩
            (fun r₁ hr₁ => quotedPiece_itself hr₁ hend hc hquote hslash)
            fun r₁ hr₁ => ih [] (List.forall_mem_nil _) hr₁
  | @code digits c written text hdouble hlength hwrites _ ih =>
      subst hdouble
      have hchar : charOfCode? 8 (digits ++ (written ++ [quoteOf true])) = some c :=
        ((takesCode_iff (by decide)).mp ⟨digits, rfl, hlength, Or.inl hwrites⟩).1
      rw [List.cons_append, List.cons_append, List.append_assoc] at hrest
      refine readsToQuote_blanks [c] 10 hrest hblanks ⟨'\\', _, rfl, rfl, rfl⟩
        (fun r₁ hr₁ => ?_) fun r₁ hr₁ => ih [] (List.forall_mem_nil _) ?_
      · rw [quotedPiece_escapeCode start hr₁ rfl, hchar]
        rfl
      · rw [hr₁, List.nil_append, List.drop_succ_cons, List.drop_succ_cons,
          List.drop_left' hlength]
  | @twice written text hdouble _ ih =>
      subst hdouble
      exact readsToQuote_blanks ['\''] 2 hrest hblanks ⟨'\'', _, rfl, rfl, rfl⟩
        (fun r₁ hr₁ => quotedPiece_twice hr₁) fun r₁ hr₁ => ih [] (List.forall_mem_nil _) hr₁

end Pieces

/-! ### Lone scalars -/

section Scalars

open TokenStream

variable {text : List Char} {value : String} {style : Style}

/-- The first token of the text is a scalar, and it ends with the text. -/
theorem tokens_of_scalar {s : TokenStream} {first last : Mark} {stop : Reader} {keyAllowed : Bool}
    (hs : s.Shows ⟨text, 0, 0, [], true, [.streamStart]⟩) (hstop : stop.rest = [])
    (hfetch : (start text).fetch =
      .ok { s.pushRead ⟨.scalar value style, first, last⟩ stop with keyAllowed }) :
    ∃ tokens, Token.ofText text = ⟨tokens, none⟩ ∧
      tokens.map Token.kind = [.streamStart, .scalar value style, .streamEnd] := by
  have hs₁ : Shows { s.pushRead ⟨.scalar value style, first, last⟩ stop with keyAllowed }
      ⟨[], stop.mark.column, 0, [], keyAllowed, [.streamStart, .scalar value style]⟩ := by
    refine ⟨hstop, rfl, hs.done, hs.level, hs.blocks, id, ?_, hs.keys⟩
    simp [pushRead, push, hs.kinds]
  obtain ⟨s₂, hlast, hdone, hkinds⟩ := hs₁.fetch_end (by simp)
  have hrun : (start text).Fetches s₂ := .tail (.single ⟨rfl, hfetch⟩) hlast
  have hlength : s₂.queue.length = 3 := by
    rw [← List.length_map, hkinds]
    rfl
  exact ⟨s₂.queue, Token.ofText_of_fetches hrun hdone (by omega), hkinds⟩

/-- A scalar that is not plain is a string, whatever it looks like. -/
theorem composes_quoted (text : String) (style : Style) :
    Node.Composes [.scalar .none false text style] (.str text) := by
  intro c feed events more hevents
  obtain ⟨event, rest, rfl, hkind, hrest⟩ := Node.exists_event hevents
  refine ⟨_, _, rest, ?_, hrest, Node.compose_of_step (Composition.step_scalar hkind)⟩
  rw [Node.value?_scalar]
  rfl

theorem document_of_scalar {tokens : List Token} (htokens : Token.ofText text = ⟨tokens, none⟩)
    (hkinds : tokens.map Token.kind = [.streamStart, .scalar value style, .streamEnd])
    (hstyle : (style == .plain) = false) (cursor : Cursor) :
    ∃ document, Document.ofText text cursor = .ok document ∧ document.root = .str value := by
  have hfeed : (Token.ofText text).items.map Token.kind =
      .streamStart :: ([.scalar value style] ++ [.streamEnd]) := by
    rw [htokens]
    exact hkinds
  obtain ⟨events, hevents, hkinds'⟩ := Event.ofText_of_runs (EventStream.start_runs hfeed
    ⟨_, _, rfl, rfl⟩ (EventStream.node_scalar _ _ true false))
  rw [hstyle] at hkinds'
  exact Document.ofText_of_composes hevents hkinds' (composes_quoted _ _) cursor

end Scalars

/-! ### Whole texts -/

section Texts

open TokenStream

variable {double : Bool} {written text : List Char}

/-- The text with quotes around it. -/
def quotedBy (double : Bool) (written : List Char) : List Char :=
  quoteOf double :: (written ++ [quoteOf double])

theorem Spells.readQuoted (h : Spells double written text) {quote : Reader}
    (hrest : quote.rest = quotedBy double written) :
    ∃ stop, readQuoted double quote =
      .ok (⟨.scalar (String.ofList text) (quotedStyle double), quote.mark, stop.mark⟩, stop) ∧
        stop.rest = [] := by
  have hnext : quote.next.rest = [] ++ (written ++ [quoteOf double]) := by
    rw [Reader.next_rest, hrest]
    rfl
  obtain ⟨r, hpieces, hr⟩ := h.readsToQuote [] (List.forall_mem_nil _) hnext
  refine ⟨r.next, hpieces.closed (quotedPiece_close hr), ?_⟩
  rw [Reader.next_rest, hr]
  rfl

theorem quotedBy_starts (double : Bool) (written : List Char) :
    Starts (quotedBy double written) := by
  cases double <;> exact starts_cons (by decide) (by decide) (by decide)

theorem Spells.tokens (h : Spells double written text) :
    ∃ tokens, Token.ofText (quotedBy double written) = ⟨tokens, none⟩ ∧ tokens.map Token.kind =
      [.streamStart, .scalar (String.ofList text) (quotedStyle double), .streamEnd] := by
  obtain ⟨keys, hfetch, hs₁⟩ := (start_shows (quotedBy double written)).fetch_eq
    (quotedBy_starts double written) (by simp [View.Within])
  obtain ⟨s₂, hsave, hs₂⟩ := hs₁.saveKey_inside (by simp [View.Inside])
  obtain ⟨stop, hread, hstop⟩ := h.readQuoted hs₂.text
  have hpeek : ({ start (quotedBy double written) with keys } : TokenStream).reader.peek =
      quoteOf double := by
    rw [Reader.peek, hs₁.text]
    rfl
  rw [fetchSign_quoted hpeek, fetchKeyed, hsave, ok_bind, hread, ok_bind] at hfetch
  exact tokens_of_scalar hs₂ hstop hfetch

theorem Spells.document (h : Spells double written text) (cursor : Cursor) :
    ∃ document, Document.ofText (quotedBy double written) cursor = .ok document ∧
      document.root = .str (String.ofList text) := by
  obtain ⟨tokens, htokens, hkinds⟩ := h.tokens
  exact document_of_scalar htokens hkinds (by cases double <;> rfl) cursor

end Texts

/-- Every string can be spelled in double quotes and is read back from each text that spells it. A
string without NUL and line breaks is read back from its text in single quotes. -/
theorem Document.quoted_roundTrip (s : String) (cursor : Cursor) :
    (∃ written, Spells true written s.toList) ∧
    (∀ written, Spells true written s.toList →
      ∃ document, ofText (quotedBy true written) cursor = .ok document ∧
        document.root = .str s) ∧
    ((∀ c ∈ s.toList, c ≠ nul ∧ isBreak c = false) →
      ∃ document, ofText (quotedBy false (doubleQuotes s.toList)) cursor = .ok document ∧
        document.root = .str s) := by
  refine ⟨⟨_, spells_codes s.toList⟩, ?_, ?_⟩
  · intro written h
    simpa using h.document cursor
  · intro h
    have hspells := spells_doubleQuotes fun c hc => by simpa [isBreakOrEnd] using h c hc
    simpa using hspells.document cursor

/-- Blanks at both ends, a quote of the other kind, a byte order mark and a backslash. -/
theorem Document.quoted_roundTrip_marks :
    (∃ document, ofText ['"', ' ', '\t', '\'', '\ufeff', '\\', 'U', '0', '0', '0', '0', '0', '0',
      '5', 'C', ' ', '"'] .origin = .ok document ∧ document.root = .str " \t'\ufeff\\ ") ∧
    (∃ document, ofText ['\'', ' ', '\t', '\'', '\'', '\ufeff', '\\', ' ', '\''] .origin =
      .ok document ∧ document.root = .str " \t'\ufeff\\ ") := by
  obtain ⟨-, hdouble, hsingle⟩ := quoted_roundTrip " \t'\ufeff\\ " .origin
  have htext : " \t'\ufeff\\ ".toList = [' ', '\t', '\'', '\ufeff', '\\', ' '] := rfl
  have hmarks : doubleQuotes [' ', '\t', '\'', '\ufeff', '\\', ' '] =
      [' ', '\t', '\'', '\'', '\ufeff', '\\', ' '] := by decide
  rw [htext] at hdouble hsingle
  rw [hmarks] at hsingle
  have hcode : WritesCode ['0', '0', '0', '0', '0', '0', '5', 'C'] '\\' := by
    obtain ⟨hhex, hvalue⟩ := readDigitsFrom?_eq_some_iff.mp
      (rfl : readDigitsFrom? 16 0 ['0', '0', '0', '0', '0', '0', '5', 'C'] = some '\\'.toNat)
    exact ⟨hhex, by simpa using hvalue⟩
  have hspells : Spells true [' ', '\t', '\'', '\ufeff', '\\', 'U', '0', '0', '0', '0', '0', '0',
      '5', 'C', ' '] [' ', '\t', '\'', '\ufeff', '\\', ' '] :=
    .itself rfl (by decide) (by decide) <| .itself rfl (by decide) (by decide) <|
      .itself rfl (by decide) (by decide) <| .itself rfl (by decide) (by decide) <|
        .code rfl rfl hcode <| .itself rfl (by decide) (by decide) .nil
  have hread := hdouble _ hspells
  exact ⟨hread, hsingle (by simp [nul, isBreak])⟩

end Playbook
