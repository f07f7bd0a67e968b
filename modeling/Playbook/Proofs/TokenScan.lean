import Playbook.Proofs.TokenView

/-!
Reading one sign or one scalar, as a relation between views.
-/

namespace Playbook

/-- The two kinds of brackets. -/
inductive Bracket
  | square
  | curly
  deriving DecidableEq

namespace Bracket

def opening : Bracket → Char
  | square => '['
  | curly => '\x7b'

def closing : Bracket → Char
  | square => ']'
  | curly => '\x7d'

def start : Bracket → TokenKind
  | square => .flowSequenceStart
  | curly => .flowMappingStart

def stop : Bracket → TokenKind
  | square => .flowSequenceEnd
  | curly => .flowMappingEnd

theorem opening_starts (bracket : Bracket) (rest : List Char) :
    Starts (bracket.opening :: rest) := by
  cases bracket <;> exact starts_cons (by decide) (by decide) (by decide)

theorem closing_starts (bracket : Bracket) (rest : List Char) :
    Starts (bracket.closing :: rest) := by
  cases bracket <;> exact starts_cons (by decide) (by decide) (by decide)

theorem printable (bracket : Bracket) :
    IsPrintable bracket.opening ∧ IsPrintable bracket.closing := by
  cases bracket <;> decide

end Bracket

namespace TokenStream

/-! ### Which token starts here -/

section Signs

variable {s : TokenStream} {c : Char} {rest : List Char}

/-- What the choice of the next token looks at first. -/
theorem faces (hrest : s.reader.rest = c :: rest) (hstarts : Starts (c :: rest)) :
    s.reader.peek = c ∧ s.reader.peekAt 1 = rest.headD nul ∧ s.reader.atEnd = false ∧
      s.atDocumentSign ['-', '-', '-'] = false ∧ s.atDocumentSign ['.', '.', '.'] = false := by
  refine ⟨by simp [Reader.peek, hrest], ?_, by simp [Reader.atEnd, hrest], ?_, ?_⟩
  · cases rest <;> simp [Reader.peekAt, hrest]
  · simp [atDocumentSign, Reader.startsWith, hrest, hstarts.noDashes]
  · simp [atDocumentSign, Reader.startsWith, hrest, hstarts.noDots]

theorem fetchSign_opening {bracket : Bracket} (hrest : s.reader.rest = bracket.opening :: rest) :
    s.fetchSign = s.fetchFlowStart bracket.start := by
  obtain ⟨hpeek, -, hend, hdashes, hdots⟩ := faces hrest (bracket.opening_starts rest)
  cases bracket <;>
    simp [fetchSign, hpeek, hend, hdashes, hdots, Bracket.opening, Bracket.start]

theorem fetchSign_closing {bracket : Bracket} (hrest : s.reader.rest = bracket.closing :: rest) :
    s.fetchSign = s.fetchFlowEnd bracket.stop := by
  obtain ⟨hpeek, -, hend, hdashes, hdots⟩ := faces hrest (bracket.closing_starts rest)
  cases bracket <;>
    simp [fetchSign, hpeek, hend, hdashes, hdots, Bracket.closing, Bracket.stop]

theorem fetchSign_comma (hrest : s.reader.rest = ',' :: rest) :
    s.fetchSign = s.fetchFlowEntry := by
  have hstarts : Starts (',' :: rest) := starts_cons (by decide) (by decide) (by decide)
  obtain ⟨hpeek, -, hend, hdashes, hdots⟩ := faces hrest hstarts
  simp [fetchSign, hpeek, hend, hdashes, hdots]

theorem fetchSign_colon (hrest : s.reader.rest = ':' :: rest)
    (hblank : isBlankOrEnd (rest.headD nul) = true) : s.fetchSign = s.fetchValue := by
  have hstarts : Starts (':' :: rest) := starts_cons (by decide) (by decide) (by decide)
  obtain ⟨hpeek, hnext, hend, hdashes, hdots⟩ := faces hrest hstarts
  rw [← hnext] at hblank
  simp [fetchSign, hpeek, hblank, hend, hdashes, hdots]

theorem starts_dash (hblank : isBlankOrEnd (rest.headD nul) = true) : Starts ('-' :: rest) := by
  refine ⟨?_, ?_, by simp [List.isPrefixOf]⟩
  · rintro d ⟨⟩
    decide
  · cases rest with
    | nil => rfl
    | cons d rest =>
        have hd : d ≠ '-' := by
          rintro rfl
          exact absurd hblank (by decide : ¬ isBlankOrEnd '-' = true)
        simp [List.isPrefixOf, hd.symm]

theorem fetchSign_dash (hrest : s.reader.rest = '-' :: rest)
    (hblank : isBlankOrEnd (rest.headD nul) = true) : s.fetchSign = s.fetchBlockEntry := by
  obtain ⟨hpeek, hnext, hend, hdashes, hdots⟩ := faces hrest (starts_dash hblank)
  rw [← hnext] at hblank
  simp [fetchSign, hpeek, hblank, hend, hdashes, hdots]

theorem fetchSign_quote (hrest : s.reader.rest = '"' :: rest) :
    s.fetchSign = s.fetchKeyed (readQuoted true) := by
  have hstarts : Starts ('"' :: rest) := starts_cons (by decide) (by decide) (by decide)
  obtain ⟨hpeek, -, hend, hdashes, hdots⟩ := faces hrest hstarts
  simp [fetchSign, hpeek, hend, hdashes, hdots]

theorem fetchSign_plain (hrest : s.reader.rest = c :: rest) (hstarts : Starts (c :: rest))
    (hc : IsPlainChar c) (hdash : c = '-' → isBlankOrEnd (rest.headD nul) = false) :
    s.fetchSign = s.fetchPlain := by
  obtain ⟨hpeek, hnext, hend, hdashes, hdots⟩ := faces hrest hstarts
  have hne : ∀ d : Char, ¬ IsPlainChar d → (c == d) = false := by
    intro d hd
    exact beq_false_of_ne (hc.ne hd)
  have hentry : (c == '-' && isBlankOrEnd (rest.headD nul)) = false := by
    by_cases h : c = '-'
    · rw [hdash h, Bool.and_false]
    · rw [beq_false_of_ne h, Bool.false_and]
  have hplain : s.atPlain = true := by
    unfold atPlain
    rw [hpeek, hnext]
    by_cases h : c = '-'
    · rw [hdash h]
      simp [h]
    · simp [hc.not_blankOrEnd, hc.not_indicator h]
  simp only [fetchSign, hpeek, hnext, hend, hdashes, hdots, hentry, hplain,
    hne '%' (by decide), hne '[' (by decide), hne '\x7b' (by decide), hne ']' (by decide),
    hne '\x7d' (by decide), hne ',' (by decide), hne '?' (by decide), hne ':' (by decide),
    hne '*' (by decide), hne '&' (by decide), hne '!' (by decide), hne '|' (by decide),
    hne '>' (by decide), hne '\'' (by decide), hne '"' (by decide), Bool.false_and,
    Bool.false_eq_true, if_false, if_true]

end Signs

/-! ### Signs -/

section Scans

variable {column level : Nat} {blocks : List Nat} {allowed : Bool} {kinds : List TokenKind}
  {rest : List Char}

theorem Shows.pushSign {s : TokenStream} {c : Char}
    (hs : s.Shows ⟨c :: rest, column, level, blocks, allowed, kinds⟩) (hc : IsPrintable c)
    (kind : TokenKind) :
    (s.pushSign kind 1).Shows ⟨rest, column + 1, level, blocks, allowed, kinds ++ [kind]⟩ := by
  have hreader : s.reader.advance 1 = ⟨rest, s.mark.ahead 1⟩ := by
    have hrest : s.reader.rest = c :: rest := hs.text
    simp only [Reader.advance, Reader.next, hrest, hc.past]
    rfl
  refine ⟨congrArg Reader.rest hreader, ?_, hs.done, hs.level, hs.blocks, hs.keyAllowed, ?_,
    hs.keys⟩
  · change (s.reader.advance 1).mark.column = column + 1
    rw [hreader, Mark.ahead, hs.column]
  · simp [TokenStream.pushSign, TokenStream.push, hs.kinds]

theorem scans_opening (bracket : Bracket) (hinside : level = 0 → ∀ n ∈ blocks.head?, n < column) :
    Scans ⟨bracket.opening :: rest, column, level, blocks, allowed, kinds⟩
      ⟨rest, column + 1, level + 1, blocks, true, kinds ++ [bracket.start]⟩ := by
  have hwithin := View.Inside.within
    (v := ⟨bracket.opening :: rest, column, level, blocks, allowed, kinds⟩) hinside
  refine Scans.of_fetchSign (bracket.opening_starts rest) hwithin fun s hs => ?_
  obtain ⟨s₁, hsave, hs₁⟩ := hs.saveKey_inside hinside
  have hpush := hs₁.pushSign bracket.printable.1 bracket.start
  have hfetch : s.fetchSign = .ok { s₁.pushSign bracket.start 1 with
      flowLevel := s₁.flowLevel + 1, keyAllowed := true } := by
    rw [fetchSign_opening hs.text, fetchFlowStart, hsave]
    rfl
  exact ⟨_, hfetch, hpush.text, hpush.column, hpush.done, congrArg (· + 1) hs₁.level, hpush.blocks,
    fun _ => rfl, hpush.kinds, hpush.keys⟩

theorem scans_closing (bracket : Bracket) :
    Scans ⟨bracket.closing :: rest, column, level + 1, blocks, allowed, kinds⟩
      ⟨rest, column + 1, level, blocks, false, kinds ++ [bracket.stop]⟩ := by
  refine Scans.of_fetchSign (bracket.closing_starts rest) (by rintro ⟨⟩) fun s hs => ?_
  obtain ⟨s₁, hremove, hdropped⟩ := exists_removeKey hs.keys
  have hs₁ := hs.keysDropped hdropped
  have hpush := hs₁.pushSign bracket.printable.2 bracket.stop
  have hfetch : s.fetchSign = .ok { s₁.pushSign bracket.stop 1 with
      flowLevel := s₁.flowLevel - 1, keyAllowed := false } := by
    rw [fetchSign_closing hs.text, fetchFlowEnd, hremove]
    rfl
  exact ⟨_, hfetch, hpush.text, hpush.column, hpush.done, congrArg (· - 1) hs₁.level, hpush.blocks,
    id, hpush.kinds, hpush.keys⟩

theorem scans_empty (bracket : Bracket) (hinside : level = 0 → ∀ n ∈ blocks.head?, n < column) :
    Scans ⟨bracket.opening :: bracket.closing :: rest, column, level, blocks, allowed, kinds⟩
      ⟨rest, column + 2, level, blocks, false, kinds ++ [bracket.start, bracket.stop]⟩ := by
  rw [List.append_cons]
  exact (scans_opening bracket hinside).trans (scans_closing bracket)

theorem scans_comma :
    Scans ⟨',' :: rest, column, level + 1, blocks, allowed, kinds⟩
      ⟨rest, column + 1, level + 1, blocks, true, kinds ++ [.flowEntry]⟩ := by
  have hstarts : Starts (',' :: rest) := starts_cons (by decide) (by decide) (by decide)
  refine Scans.of_fetchSign hstarts (by rintro ⟨⟩) fun s hs => ?_
  obtain ⟨s₁, hremove, hdropped⟩ := exists_removeKey hs.keys
  have hpush := (hs.keysDropped hdropped).pushSign (by decide) .flowEntry
  have hfetch : s.fetchSign = .ok { s₁.pushSign .flowEntry 1 with keyAllowed := true } := by
    rw [fetchSign_comma hs.text, fetchFlowEntry, hremove]
    rfl
  exact ⟨_, hfetch, hpush.text, hpush.column, hpush.done, hpush.level, hpush.blocks, fun _ => rfl,
    hpush.kinds, hpush.keys⟩

/-- The dash of an item, once the block that it belongs to is open. -/
theorem Shows.blockEntry {s s₁ : TokenStream}
    (hrest : s.reader.rest = '-' :: rest) (hblank : isBlankOrEnd (rest.headD nul) = true)
    (hopen : s.openBlock .blockSequenceStart .entryNotAllowed = .ok s₁)
    (hs₁ : s₁.Shows ⟨'-' :: rest, column, level, blocks, allowed, kinds⟩) :
    ∃ s', s.fetchSign = .ok s' ∧
      s'.Shows ⟨rest, column + 1, level, blocks, true, kinds ++ [.blockEntry]⟩ := by
  obtain ⟨s₂, hremove, hdropped⟩ := exists_removeKey hs₁.keys
  have hpush := (hs₁.keysDropped hdropped).pushSign (by decide) .blockEntry
  have hfetch : s.fetchSign = .ok { s₂.pushSign .blockEntry 1 with keyAllowed := true } := by
    rw [fetchSign_dash hrest hblank, fetchBlockEntry, hopen, ok_bind, hremove]
    rfl
  exact ⟨_, hfetch, hpush.text, hpush.column, hpush.done, hpush.level, hpush.blocks, fun _ => rfl,
    hpush.kinds, hpush.keys⟩

theorem openBlock_eq {s : TokenStream} (hflow : s.inFlow = false) (hallowed : s.keyAllowed = true)
    (kind : TokenKind) (refusal : Problem) :
    s.openBlock kind refusal = .ok (if s.indent < (s.mark.column : Int) then
      ({ s with indent := s.mark.column, indents := s.indent :: s.indents }).pushHere kind
        else s) := by
  have hrefused : (!s.keyAllowed) = false := by simp [hallowed]
  rw [openBlock, hflow, if_neg (by decide), hrefused, if_neg (by decide), indentTo]
  by_cases hlt : s.indent < (s.mark.column : Int)
  · rw [if_pos hlt, if_pos hlt]
  · rw [if_neg hlt, if_neg hlt]

/-- The dash of a further item. -/
theorem scans_dash {n : Nat} (hblank : isBlankOrEnd (rest.headD nul) = true) :
    Scans ⟨'-' :: rest, n, 0, n :: blocks, true, kinds⟩
      ⟨rest, n + 1, 0, n :: blocks, true, kinds ++ [.blockEntry]⟩ := by
  have hwithin : View.Within ⟨'-' :: rest, n, 0, n :: blocks, true, kinds⟩ := by
    rintro - m ⟨⟩
    exact Nat.le_refl n
  refine Scans.of_fetchSign (starts_dash hblank) hwithin fun s hs => ?_
  have hflow : s.inFlow = false := by simp [inFlow, hs.level]
  have hindent : ¬ s.indent < (s.mark.column : Int) := by
    rw [hs.indent_eq, hs.column]
    exact Int.lt_irrefl _
  have hopen := openBlock_eq hflow (hs.keyAllowed rfl) .blockSequenceStart .entryNotAllowed
  rw [if_neg hindent] at hopen
  exact Shows.blockEntry hs.text hblank hopen hs

/-- The dash of the first item opens a block. -/
theorem scans_dash_first (hinside : ∀ n ∈ blocks.head?, n < column)
    (hblank : isBlankOrEnd (rest.headD nul) = true) :
    Scans ⟨'-' :: rest, column, 0, blocks, true, kinds⟩
      ⟨rest, column + 1, 0, column :: blocks, true,
        kinds ++ [.blockSequenceStart, .blockEntry]⟩ := by
  have hinside' : View.Inside ⟨'-' :: rest, column, 0, blocks, true, kinds⟩ := fun _ => hinside
  refine Scans.of_fetchSign (starts_dash hblank) hinside'.within fun s hs => ?_
  have hflow : s.inFlow = false := by simp [inFlow, hs.level]
  have hopen := openBlock_eq hflow (hs.keyAllowed rfl) .blockSequenceStart .entryNotAllowed
  rw [if_pos (hs.indent_lt hinside' hflow)] at hopen
  have hs₁ : Shows (({ s with
      indent := s.mark.column, indents := s.indent :: s.indents }).pushHere .blockSequenceStart)
      ⟨'-' :: rest, column, 0, column :: blocks, true, kinds ++ [.blockSequenceStart]⟩ := by
    refine ⟨hs.text, hs.column, hs.done, hs.level, ?_, hs.keyAllowed, ?_, hs.keys⟩
    · change (s.mark.column : Int) :: (s.indent :: s.indents) = _
      rw [hs.blocks, hs.column]
      rfl
    · simp [pushHere, push, hs.kinds]
  rw [List.append_cons]
  exact Shows.blockEntry hs.text hblank hopen hs₁

/-! ### Scalars -/

/-- Reading a scalar at `r` ends at `r'`, possibly on another line. -/
def Reads (key : Key) (inFlow : Bool) (indent : Int) (r r' : Reader) (crossed : Bool) : Prop :=
  ∃ stop, if key.style = .plain then
      readPlain inFlow indent r = (⟨key.token, r.mark, stop⟩, r', crossed)
    else readQuoted true r = .ok (⟨key.token, r.mark, stop⟩, r') ∧ crossed = false

theorem reads_quoted (text : String) (inFlow : Bool) (indent : Int) (rest : List Char) (m : Mark) :
    Reads (.str text) inFlow indent ⟨(Key.str text).text ++ rest, m⟩
      ⟨rest, m.ahead (Key.str text).text.length⟩ false := by
  have hread := readQuoted_text text.toList rest m
  rw [String.ofList_toList] at hread
  have hlength : (Key.str text).text.length = (text.toList.flatMap escapeChar).length + 2 := by
    simp [Key.text]
  rw [hlength]
  have hstyle : (Key.str text).style ≠ .plain := by
    rintro ⟨⟩
  refine ⟨m.ahead ((text.toList.flatMap escapeChar).length + 2), ?_⟩
  rw [if_neg hstyle]
  exact ⟨hread, rfl⟩

theorem reads_plain {key : Key} {inFlow : Bool} {indent : Int} {r r' : Reader} {stop : Mark}
    {crossed : Bool} (hstyle : key.style = .plain)
    (h : readPlain inFlow indent r =
      (⟨.scalar (String.ofList key.text) .plain, r.mark, stop⟩, r', crossed)) :
    Reads key inFlow indent r r' crossed := by
  have htoken : key.token = .scalar (String.ofList key.text) .plain := by
    cases key with
    | str s => cases hstyle
    | null | bool | int | float => rfl
  refine ⟨stop, ?_⟩
  rw [if_pos hstyle, htoken]
  exact h

theorem reads_text {key : Key} {inFlow : Bool} (hkey : key.Writable) (hrest : Starts rest)
    (hpiece : plainPiece inFlow rest = []) (indent : Int) (m : Mark) :
    Reads key inFlow indent ⟨key.text ++ rest, m⟩ ⟨rest, m.ahead key.text.length⟩ false := by
  by_cases hstyle : key.style = .plain
  · obtain ⟨hplain, hne⟩ := Key.text_plain hkey hstyle
    exact reads_plain hstyle
      (readPlain_text m hplain hne hpiece hrest.head_ne_space hrest.not_break)
  · cases key with
    | str text => exact reads_quoted text inFlow indent rest m
    | null | bool | int | float => exact absurd rfl hstyle

theorem fetchSign_scalar {s s₁ : TokenStream} {key : Key} {r' : Reader} {crossed : Bool}
    (hkey : key.Writable) (hrest : s.reader.rest = key.text ++ rest)
    (hread : Reads key s.inFlow s.indent s.reader r' crossed) (hsave : s.saveKey = .ok s₁) :
    ∃ token, token.kind = key.token ∧
      s.fetchSign = .ok { s₁.pushRead token r' with keyAllowed := crossed } := by
  obtain ⟨stop, hread⟩ := hread
  have hsame := (saveKey_saved hsave).same
  have hreader : s₁.reader = s.reader := by rw [hsame]
  have hstarts := Key.text_starts hkey rest
  refine ⟨⟨key.token, s.reader.mark, stop⟩, rfl, ?_⟩
  by_cases hstyle : key.style = .plain
  · rw [if_pos hstyle] at hread
    obtain ⟨c, tail, htext, hc, hdash⟩ := Key.text_head hkey hstyle rest
    rw [htext, List.cons_append] at hrest hstarts
    have hflow : s₁.inFlow = s.inFlow := by
      rw [hsame]
      rfl
    have hindent : s₁.indent = s.indent := by rw [hsame]
    rw [fetchSign_plain hrest hstarts hc hdash, fetchPlain, hsave, ok_bind, hflow, hindent, hreader,
      hread]
    rfl
  · rw [if_neg hstyle] at hread
    obtain ⟨hread, rfl⟩ := hread
    cases key with
    | str text =>
        rw [fetchSign_quote hrest, fetchKeyed, hsave, ok_bind, hreader, hread]
        rfl
    | null | bool | int | float => exact absurd rfl hstyle

/-- A move that reads a scalar. -/
theorem Scans.of_reads {key : Key} {rest' : List Char} {column' : Nat} {crossed : Bool}
    (hkey : key.Writable) (hinside : level = 0 → ∀ n ∈ blocks.head?, n < column)
    (hread : ∀ (s : TokenStream),
      s.Shows ⟨key.text ++ rest, column, level, blocks, allowed, kinds⟩ →
      ∃ m : Mark, m.column = column' ∧ Reads key s.inFlow s.indent s.reader ⟨rest', m⟩ crossed) :
    Scans ⟨key.text ++ rest, column, level, blocks, allowed, kinds⟩
      ⟨rest', column', level, blocks, crossed, kinds ++ [key.token]⟩ := by
  have hwithin := View.Inside.within
    (v := ⟨key.text ++ rest, column, level, blocks, allowed, kinds⟩) hinside
  refine Scans.of_fetchSign (Key.text_starts hkey rest) hwithin fun s hs => ?_
  obtain ⟨s₁, hsave, hs₁⟩ := hs.saveKey_inside hinside
  obtain ⟨m, hm, hread⟩ := hread s hs
  obtain ⟨token, htoken, hfetch⟩ := fetchSign_scalar hkey hs.text hread hsave
  refine ⟨_, hfetch, rfl, hm, hs₁.done, hs₁.level, hs₁.blocks, id, ?_, hs₁.keys⟩
  simp [pushRead, push, hs₁.kinds, htoken]

/-- A scalar that ends where a sign or the end of the text is. -/
theorem scans_scalar {key : Key} (hkey : key.Writable) (hrest : Starts rest)
    (hpiece : plainPiece (level != 0) rest = [])
    (hinside : level = 0 → ∀ n ∈ blocks.head?, n < column) :
    Scans ⟨key.text ++ rest, column, level, blocks, allowed, kinds⟩
      ⟨rest, column + key.text.length, level, blocks, false, kinds ++ [key.token]⟩ := by
  refine Scans.of_reads hkey hinside fun s hs => ?_
  have hflow : s.inFlow = (level != 0) := by simp [inFlow, hs.level]
  rw [hs.reader_eq, hflow]
  exact ⟨_, congrArg (· + key.text.length) hs.column, reads_text hkey hrest hpiece s.indent s.mark⟩

/-- A scalar at the end of its line. A plain one is read on to the token of the next line. -/
theorem scans_scalar_line {key : Key} {n k : Nat} (hkey : key.Writable) (hrest : Starts rest)
    (hk : k ≤ n) (hcolumn : n < column) :
    Scans ⟨key.text ++ '\n' :: (Value.spaces k ++ rest), column, 0, n :: blocks, allowed, kinds⟩
      ⟨rest, k, 0, n :: blocks, true, kinds ++ [key.token]⟩ := by
  have hinside : 0 = 0 → ∀ m ∈ (n :: blocks).head?, m < column := by
    rintro - m ⟨⟩
    exact hcolumn
  by_cases hstyle : key.style = .plain
  · obtain ⟨hplain, hne⟩ := Key.text_plain hkey hstyle
    refine Scans.of_reads hkey hinside fun s hs => ?_
    have hflow : s.inFlow = false := by simp [inFlow, hs.level]
    have hindent : (k : Int) < s.indent + 1 := by
      rw [hs.indent_eq]
      exact Int.lt_add_one_of_le (Int.ofNat_le.mpr hk)
    rw [hs.reader_eq, hflow]
    exact ⟨_, Nat.zero_add k, reads_plain hstyle (readPlain_line s.mark hplain hne hrest hindent)⟩
  · have hquoted : Scans
        ⟨key.text ++ '\n' :: (Value.spaces k ++ rest), column, 0, n :: blocks, allowed, kinds⟩
        ⟨'\n' :: (Value.spaces k ++ rest), column + key.text.length, 0, n :: blocks, false,
          kinds ++ [key.token]⟩ := by
      refine Scans.of_reads hkey hinside fun s hs => ?_
      rw [hs.reader_eq]
      cases key with
      | str text =>
          exact ⟨_, congrArg (· + (Key.str text).text.length) hs.column, reads_quoted ..⟩
      | null | bool | int | float => exact absurd rfl hstyle
    exact hquoted.trans (scans_line k hrest)

/-! ### Keys -/

/-- A scalar that may be a key is read, and its place is noted. -/
theorem Shows.fetch_key {s : TokenStream} {key : Key} (hkey : key.Writable)
    (hblank : isBlankOrEnd (rest.headD nul) = true)
    (hwithin : level = 0 → ∀ n ∈ blocks.head?, n ≤ column)
    (hs : s.Shows ⟨key.text ++ ':' :: rest, column, level, blocks, true, kinds⟩) :
    ∃ token keys, token.kind = key.token ∧ (∀ key ∈ keys, key.required = false) ∧
      s.Fetch { s with
        reader := ⟨':' :: rest, s.mark.ahead key.text.length⟩, queue := s.queue ++ [token]
        keyAllowed := false, keys := s.keyHere :: keys } := by
  have hcolon : Starts (':' :: rest) := starts_cons (by decide) (by decide) (by decide)
  have hpiece : plainPiece s.inFlow (':' :: rest) = [] := by
    have hstops : plainStops s.inFlow ':' (rest.headD nul) = true := by
      rw [plainStops, hblank]
      simp
    rw [plainPiece, hstops, if_pos rfl]
  have hread := reads_text hkey hcolon hpiece s.indent s.mark
  rw [← hs.reader_eq] at hread
  obtain ⟨keys₁, hfetch, hs₁⟩ := hs.fetch_eq (Key.text_starts hkey _) hwithin
  obtain ⟨keys, hkeys, hsave⟩ := hs₁.saveKey
  rw [if_pos (hs₁.keyAllowed rfl)] at hsave
  obtain ⟨token, htoken, hsign⟩ := fetchSign_scalar hkey hs₁.text hread hsave
  exact ⟨token, keys, htoken, hkeys, hs.done, hfetch.trans hsign⟩

/-- The colon finds the key that was noted last, required or not. -/
theorem Shows.fetch_colon {s : TokenStream} {key : SimpleKey}
    (hblank : isBlankOrEnd (rest.headD nul) = true)
    (hwithin : level = 0 → ∀ n ∈ blocks.head?, n ≤ column)
    (hs : s.Shows ⟨':' :: rest, column, level, blocks, allowed, kinds⟩)
    (hlevel : key.level = level) (hstale : key.isStale s.mark = false) :
    ∃ keys, (∀ key ∈ keys, key.required = false) ∧
      Fetch { s with keys := key :: s.keys }
        { (insertKey { s with keys } key).pushSign .value 1 with keyAllowed := false } := by
  have hcolon : Starts (':' :: rest) := starts_cons (by decide) (by decide) (by decide)
  have hsettled : settled { s with keys := key :: s.keys } = { s with keys := key :: s.keys } := by
    refine settled_eq ?_ (hs.indent_le hwithin)
    change Starts s.reader.rest
    rw [hs.text]
    exact hcolon
  -- The key is not stale, so it is still pending when the colon is read.
  have hdrop : dropStaleKeys { s with keys := key :: s.keys } = .ok { s with
      keys := key :: s.keys.filter fun key => !key.isStale s.mark } := by
    refine dropStaleKeys_eq_ok_iff.mpr ⟨?_, ?_⟩
    · intro key' hkey' hnow
      rcases List.mem_cons.mp hkey' with rfl | hkey'
      · exact absurd (hstale.symm.trans hnow) (by decide)
      · exact hs.keys key' hkey'
    · have hfilter : ((key :: s.keys).filter fun key => !key.isStale s.mark) =
          key :: s.keys.filter fun key => !key.isStale s.mark := by
        rw [List.filter_cons, hstale]
        rfl
      exact congrArg (fun keys => { s with keys := keys }) hfilter.symm
  have hfound : key? { s with keys := key :: s.keys.filter fun key => !key.isStale s.mark } =
      some key := by
    have hfirst : (key.level == s.flowLevel) = true := by simp [hlevel, hs.level]
    rw [key?, List.find?_cons, hfirst]
  refine ⟨(key :: s.keys.filter fun key => !key.isStale s.mark).filter (·.level != s.flowLevel),
    ?_, hs.done, ?_⟩
  · intro key' hkey'
    obtain ⟨hmem, hother⟩ := List.mem_filter.mp hkey'
    rcases List.mem_cons.mp hmem with rfl | hmem
    · simp [hlevel, hs.level] at hother
    · exact hs.keys key' (List.mem_filter.mp hmem).1
  · have hsign : ∀ keys, fetchSign { s with keys } = fetchValue { s with keys } :=
      fun _ => fetchSign_colon hs.text hblank
    rw [TokenStream.fetch_eq, hsettled, hdrop, ok_bind, hsign, fetchValue, hfound]
    rfl

/-- The tokens of a key go in front of its scalar. -/
theorem Shows.insertKey {s : TokenStream} {key : SimpleKey} {text : List Char} {kind : TokenKind}
    (hs : s.Shows ⟨text, column, level, blocks, allowed, kinds ++ [kind]⟩)
    (hnumber : key.number = s.taken + kinds.length)
    (hopen : level = 0 → ¬ s.indent < (key.mark.column : Int)) :
    (s.insertKey key).Shows ⟨text, column, level, blocks, allowed, kinds ++ [.key, kind]⟩ := by
  have hposition : key.number - s.taken = kinds.length := by omega
  have hnone : (if s.inFlow then none else s.indentTo key.mark.column) = none := by
    cases hflow : s.inFlow with
    | true => rfl
    | false => exact if_neg (hopen (hs.level_eq_zero hflow))
  have hinsert : s.insertKey key = { s with
      queue := s.queue.insertIdx kinds.length ⟨.key, key.mark, key.mark⟩ } := by
    unfold TokenStream.insertKey
    rw [hnone, hposition]
  rw [hinsert]
  refine ⟨hs.text, hs.column, hs.done, hs.level, hs.blocks, hs.keyAllowed, ?_, hs.keys⟩
  rw [List.map_insertIdx, hs.kinds]
  exact insertIdx_length kinds [kind] .key

/-- A key that is indented further than all blocks opens one. -/
theorem Shows.insertKey_first {s : TokenStream} {key : SimpleKey} {text : List Char}
    {kind : TokenKind} (hs : s.Shows ⟨text, column, 0, blocks, allowed, kinds ++ [kind]⟩)
    (hnumber : key.number = s.taken + kinds.length)
    (hopen : s.indent < (key.mark.column : Int)) :
    (s.insertKey key).Shows ⟨text, column, 0, key.mark.column :: blocks, allowed,
      kinds ++ [.blockMappingStart, .key, kind]⟩ := by
  have hposition : key.number - s.taken = kinds.length := by omega
  have hflow : s.inFlow = false := by simp [inFlow, hs.level]
  have hinsert : s.insertKey key = { s with
      indent := key.mark.column, indents := s.indent :: s.indents
      queue := (s.queue.insertIdx kinds.length ⟨.key, key.mark, key.mark⟩).insertIdx kinds.length
        ⟨.blockMappingStart, key.mark, key.mark⟩ } := by
    unfold TokenStream.insertKey
    rw [hflow, if_neg (by decide), indentTo, if_pos hopen, hposition]
  rw [hinsert]
  refine ⟨hs.text, hs.column, hs.done, hs.level, ?_, hs.keyAllowed, ?_, hs.keys⟩
  · rw [hs.blocks]
    rfl
  · rw [List.map_insertIdx, List.map_insertIdx, hs.kinds, insertIdx_length, insertIdx_length]

/-- A key and the colon behind it. The key lies on one line and is short, so that it is still
pending at the colon. -/
theorem Shows.key {s : TokenStream} {key : Key} (hkey : key.Simple)
    (hblank : isBlankOrEnd (rest.headD nul) = true)
    (hwithin : level = 0 → ∀ n ∈ blocks.head?, n ≤ column)
    (hs : s.Shows ⟨key.text ++ ':' :: rest, column, level, blocks, true, kinds⟩) :
    ∃ s₁ : TokenStream,
      s₁.Shows ⟨':' :: rest, column + key.text.length, level, blocks, false,
        kinds ++ [key.token]⟩ ∧
      s₁.taken = s.taken ∧ s₁.indent = s.indent ∧
      s.Goes { (s₁.insertKey s.keyHere).pushSign .value 1 with keyAllowed := false } := by
  obtain ⟨token, keys, htoken, hkeys, hfetch⟩ := hs.fetch_key hkey.1 hblank hwithin
  have hs₁ : ∀ keys : List SimpleKey, (∀ key ∈ keys, key.required = false) →
      Shows { s with
        reader := ⟨':' :: rest, s.mark.ahead key.text.length⟩, queue := s.queue ++ [token]
        keyAllowed := false, keys }
      ⟨':' :: rest, column + key.text.length, level, blocks, false, kinds ++ [key.token]⟩ := by
    intro keys hkeys
    refine ⟨rfl, congrArg (· + key.text.length) hs.column, hs.done, hs.level, hs.blocks, id, ?_,
      hkeys⟩
    simp [hs.kinds, htoken]
  have hstale : s.keyHere.isStale (s.mark.ahead key.text.length) = false := by
    simpa [SimpleKey.isStale, keyHere, Mark.ahead] using hkey.2
  have hwithin' : level = 0 → ∀ n ∈ blocks.head?, n ≤ column + key.text.length := by
    intro hlevel n hn
    exact Nat.le_add_right_of_le (hwithin hlevel n hn)
  obtain ⟨keys', hkeys', hcolon⟩ := (hs₁ keys hkeys).fetch_colon hblank hwithin' hs.level hstale
  exact ⟨_, hs₁ keys' hkeys', rfl, rfl, (Goes.of_fetch hfetch).trans (.of_fetch hcolon)⟩

theorem Shows.keyHere_number {s : TokenStream} {v : View} (hs : s.Shows v) :
    s.keyHere.number = s.taken + v.kinds.length := by
  rw [keyHere, ← hs.kinds, List.length_map]

/-- A key inside brackets or in a block that is open. -/
theorem scans_key {key : Key} (hkey : key.Simple) (hblank : isBlankOrEnd (rest.headD nul) = true)
    (hopen : level = 0 → blocks.head? = some column) :
    Scans ⟨key.text ++ ':' :: rest, column, level, blocks, true, kinds⟩
      ⟨rest, column + key.text.length + 1, level, blocks, false,
        kinds ++ [.key, key.token, .value]⟩ := by
  intro s hs
  have hwithin : level = 0 → ∀ n ∈ blocks.head?, n ≤ column := by
    intro hlevel n hn
    rw [hopen hlevel] at hn
    cases hn
    exact Nat.le_refl column
  obtain ⟨s₁, hs₁, htaken, hindent, hgoes⟩ := hs.key hkey hblank hwithin
  have hnumber : s.keyHere.number = s₁.taken + kinds.length := by
    rw [htaken]
    exact hs.keyHere_number
  have hinsert := hs₁.insertKey hnumber fun hlevel => by
    have hhead : blocks.head? = some column := hopen hlevel
    rw [hindent, hs.indent_eq, keyHere, hs.column]
    simp [hhead]
  have hpush := hinsert.pushSign (by decide) .value
  refine ⟨_, hgoes, hpush.text, hpush.column, hpush.done, hpush.level, hpush.blocks, id, ?_,
    hpush.keys⟩
  simpa using hpush.kinds

/-- The first key of a mapping opens a block. -/
theorem scans_key_first {key : Key} (hkey : key.Simple)
    (hblank : isBlankOrEnd (rest.headD nul) = true) (hinside : ∀ n ∈ blocks.head?, n < column) :
    Scans ⟨key.text ++ ':' :: rest, column, 0, blocks, true, kinds⟩
      ⟨rest, column + key.text.length + 1, 0, column :: blocks, false,
        kinds ++ [.blockMappingStart, .key, key.token, .value]⟩ := by
  intro s hs
  have hinside' : View.Inside ⟨key.text ++ ':' :: rest, column, 0, blocks, true, kinds⟩ :=
    fun _ => hinside
  obtain ⟨s₁, hs₁, htaken, hindent, hgoes⟩ := hs.key hkey hblank hinside'.within
  have hnumber : s.keyHere.number = s₁.taken + kinds.length := by
    rw [htaken]
    exact hs.keyHere_number
  have hflow : s.inFlow = false := by simp [inFlow, hs.level]
  have hlt : s₁.indent < (s.keyHere.mark.column : Int) := by
    rw [hindent]
    exact hs.indent_lt hinside' hflow
  have hinsert := hs₁.insertKey_first hnumber hlt
  have hpush := hinsert.pushSign (by decide) .value
  have hcolumn : s.keyHere.mark.column = column := hs.column
  rw [hcolumn] at hpush
  refine ⟨_, hgoes, hpush.text, hpush.column, hpush.done, hpush.level, hpush.blocks, id, ?_,
    hpush.keys⟩
  simpa using hpush.kinds

/-! ### The end of the text -/

/-- At the end of the text all blocks are closed. -/
theorem closeBlocks_kinds (mark : Mark) {blocks : List Nat} {indent : Int} {indents : List Int}
    (h : indent :: indents = blocks.map Int.ofNat ++ [-1]) (queue : List Token) :
    (closeBlocks (-1) mark indent indents queue).2.2.map Token.kind =
      queue.map Token.kind ++ List.replicate blocks.length .blockEnd := by
  induction blocks generalizing indent indents queue with
  | nil =>
      cases h
      simp [closeBlocks]
  | cons n blocks ih =>
      obtain ⟨hindent, hindents⟩ := List.cons.inj h
      cases indents with
      | nil => simp at hindents
      | cons outer indents =>
          have hlt : (-1 : Int) < indent := by
            rw [hindent]
            simp only [Int.ofNat_eq_natCast]
            omega
          rw [closeBlocks, if_pos hlt, ih hindents]
          simp [List.replicate_succ]

theorem Shows.fetch_end {s : TokenStream} (hwithin : ∀ n ∈ blocks.head?, n ≤ column)
    (hs : s.Shows ⟨[], column, 0, blocks, allowed, kinds⟩) :
    ∃ s', s.Fetch s' ∧ s'.done = true ∧ s'.queue.map Token.kind =
      kinds ++ List.replicate blocks.length .blockEnd ++ [.streamEnd] := by
  obtain ⟨keys, hfetch, hs₁⟩ := hs.fetch_eq ⟨by simp, rfl, rfl⟩ fun _ => hwithin
  generalize ({ s with keys } : TokenStream) = s₁ at hfetch hs₁
  have hflow : s₁.inFlow = false := by simp [inFlow, hs₁.level]
  have hunwind := s₁.unwind_moved (-1)
  have hkeys : ∀ key ∈ (s₁.unwind (-1)).keys, key.required = false := by
    rw [hunwind.same]
    exact hs₁.keys
  obtain ⟨s₂, hremove, hdropped⟩ := exists_removeKey hkeys
  have hsign : s₁.fetchSign = s₁.fetchEnd := by
    have hend : s₁.reader.atEnd = true := by simp [Reader.atEnd, hs₁.text]
    rw [fetchSign, if_pos hend]
  have hfetched : s.fetch = .ok { s₂.pushHere .streamEnd with
      done := true, keyAllowed := false, keys := [] } := by
    rw [hfetch, hsign, fetchEnd, hremove]
    rfl
  refine ⟨_, ⟨hs.done, hfetched⟩, rfl, ?_⟩
  have hqueue : s₂.queue = (s₁.unwind (-1)).queue := by rw [hdropped.same]
  have hclosed := closeBlocks_kinds s₁.mark hs₁.blocks s₁.queue
  simp only [pushHere, push, List.map_append, hqueue, unwind_eq hflow, hclosed, hs₁.kinds]
  rfl

end Scans

end TokenStream

end Playbook
