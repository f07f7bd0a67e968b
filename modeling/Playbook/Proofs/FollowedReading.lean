import Playbook.Proofs.OpenQuote
import Playbook.Proofs.ScanLoops

/-!
Reading a word with more text behind it. A word holds no white space, so what is read of it is the
same, whatever follows: a quoted scalar ends with its quote, a name before the colon that is put in
behind it, and inside of brackets a plain scalar before one of their signs.
-/

namespace Playbook

/-! ### Stretches without white space -/

theorem eq_nul_of_not_whiteSpace {c : Char} (h : isWhiteSpace c = false)
    (hblank : isBlankOrEnd c = true) : c = nul := by
  simp only [isBlankOrEnd, isSpaceOrEnd, isBreakOrEnd, isBreak, Bool.or_eq_true,
    beq_iff_eq] at hblank
  rcases hblank with rfl | rfl | rfl | (((rfl | rfl) | rfl) | rfl) | rfl
  · cases h
  · cases h
  · rfl
  all_goals cases h

theorem not_break_of_not_whiteSpace {c : Char} (h : isWhiteSpace c = false) :
    isBreak c = false := by
  by_contra hbreak
  rw [Bool.not_eq_false] at hbreak
  have hblank : isBlankOrEnd c = true := by
    simp [isBlankOrEnd, isSpaceOrEnd, isBreakOrEnd, hbreak]
  rw [eq_nul_of_not_whiteSpace h hblank] at hbreak
  cases hbreak

theorem ne_space_of_not_whiteSpace {c : Char} (h : isWhiteSpace c = false) : c ≠ ' ' := by
  rintro rfl
  cases h

theorem endsLine_eq_false {c : Char} (h : isBreak c = false) (rest : List Char) :
    endsLine c rest = false := by
  simp only [isBreak, Bool.or_eq_false_iff] at h
  simp [endsLine, h]

namespace Reader

variable {r r' : Reader} {tail : List Char}

/-- No white space is left to be read. -/
def Solid (r : Reader) : Prop := ∀ c ∈ r.rest, isWhiteSpace c = false

theorem Solid.leads (h : r.Solid) (hleads : r.Leads r') : r'.Solid := by
  obtain ⟨n, rfl⟩ := hleads
  intro c hc
  rw [advance_rest] at hc
  exact h c (List.mem_of_mem_drop hc)

theorem Solid.peek (h : r.Solid) (hne : r.rest ≠ []) : isWhiteSpace r.peek = false := by
  obtain ⟨c, rest, hrest⟩ := List.exists_cons_of_ne_nil hne
  rw [Reader.peek, hrest]
  exact h c (by simp [hrest])

theorem Solid.next_mark {c : Char} {rest : List Char} (h : r.Solid) (hrest : r.rest = c :: rest) :
    r.next.mark = ⟨r.mark.index + 1, r.mark.line,
      if c = '\ufeff' then r.mark.column else r.mark.column + 1⟩ := by
  have hc := not_break_of_not_whiteSpace (h c (by simp [hrest]))
  simp only [next, hrest, Mark.past, endsLine_eq_false hc, Bool.false_eq_true, if_false,
    beq_iff_eq]
  split_ifs <;> rfl

/-- Without white space reading stays on the line. -/
theorem Solid.line_eq (h : r.Solid) (hleads : r.Leads r') : r'.mark.line = r.mark.line := by
  obtain ⟨n, rfl⟩ := hleads
  induction n generalizing r with
  | zero => rfl
  | succ n ih =>
      refine (ih (h.leads (.next r))).trans ?_
      cases hrest : r.rest with
      | nil => simp [next, hrest]
      | cons c rest => rw [h.next_mark hrest]

theorem Leads.index_add_length (h : r.Leads r') :
    r'.mark.index + r'.rest.length = r.mark.index + r.rest.length := by
  obtain ⟨n, rfl⟩ := h
  induction n generalizing r with
  | zero => rfl
  | succ n ih =>
      refine ih.trans ?_
      cases hrest : r.rest with
      | nil =>
          have hnext : r.next = r := by simp [Reader.next, hrest]
          rw [hnext, hrest]
      | cons c rest =>
          rw [next_index hrest, next_rest, hrest, List.tail_cons, List.length_cons]
          omega

theorem advance_index_le (n : Nat) (r : Reader) :
    (r.advance n).mark.index ≤ r.mark.index + n := by
  induction n generalizing r with
  | zero => exact Nat.le_refl _
  | succ n ih =>
      have hnext : r.next.mark.index ≤ r.mark.index + 1 := by
        unfold next Mark.past
        split
        · exact Nat.le_succ _
        · split_ifs <;> exact Nat.le_refl _
      have hrest := ih r.next
      rw [advance]
      omega

theorem Solid.column_le (h : r.Solid) (hleads : r.Leads r') : r.mark.column ≤ r'.mark.column := by
  obtain ⟨n, rfl⟩ := hleads
  induction n generalizing r with
  | zero => exact Nat.le_refl _
  | succ n ih =>
      refine Nat.le_trans ?_ (ih (h.leads (.next r)))
      cases hrest : r.rest with
      | nil => simp [next, hrest]
      | cons c rest =>
          rw [h.next_mark hrest]
          dsimp only
          split_ifs <;> omega

/-! ### More text behind a word -/

/-- The reader with more text behind what it has before it. -/
def followed (tail : List Char) (r : Reader) : Reader := ⟨r.rest ++ tail, r.mark⟩

@[simp] theorem followed_rest (tail : List Char) (r : Reader) :
    (r.followed tail).rest = r.rest ++ tail := rfl

@[simp] theorem followed_mark (tail : List Char) (r : Reader) :
    (r.followed tail).mark = r.mark := rfl

theorem peek_followed (h : r.rest ≠ []) : (r.followed tail).peek = r.peek := by
  obtain ⟨c, rest, hrest⟩ := List.exists_cons_of_ne_nil h
  simp [peek, hrest]

theorem next_followed (hsolid : r.Solid) (h : r.rest ≠ []) :
    (r.followed tail).next = r.next.followed tail := by
  obtain ⟨c, rest, hrest⟩ := List.exists_cons_of_ne_nil h
  have hc := not_break_of_not_whiteSpace (hsolid c (by simp [hrest]))
  simp only [next, followed, hrest, List.cons_append, Mark.past, endsLine_eq_false hc]

theorem advance_followed {n : Nat} (hsolid : r.Solid) (h : n ≤ r.rest.length) :
    (r.followed tail).advance n = (r.advance n).followed tail := by
  induction n generalizing r with
  | zero => rfl
  | succ n ih =>
      have hne : r.rest ≠ [] := by
        rintro hnil
        simp [hnil] at h
      rw [advance, advance, next_followed hsolid hne]
      refine ih (hsolid.leads (.next r)) ?_
      rw [next_rest, List.length_tail]
      omega

end Reader

open Reader

variable {r r' : Reader} {token : Token} {rest : List Char}

theorem takeWhile_append_colon {p : Char → Bool} (hp : p ':' = false) (word : List Char) :
    (word ++ ':' :: rest).takeWhile p = word.takeWhile p := by
  induction word with
  | nil => simp [hp]
  | cons c word ih =>
      rw [List.cons_append, List.takeWhile_cons, List.takeWhile_cons, ih]

theorem readName_followed {context : Activity} {kind : String → TokenKind} (hsolid : r.Solid)
    (hne : r.rest ≠ []) (h : readName context kind r = .ok (token, r')) :
    readName context kind (r.followed (':' :: rest)) = .ok (token, r'.followed (':' :: rest)) := by
  have hsolid₁ := hsolid.leads (.next r)
  have hlength : (r.next.rest.takeWhile isWord).length ≤ r.next.rest.length :=
    (List.takeWhile_prefix _).length_le
  unfold readName at h ⊢
  dsimp only at h ⊢
  rw [next_followed hsolid hne, followed_rest, takeWhile_append_colon (by decide),
    advance_followed hsolid₁ hlength]
  split_ifs at h with hname
  cases h
  generalize r.next.advance (r.next.rest.takeWhile isWord).length = stop at hname ⊢
  rw [Bool.or_eq_true, not_or] at hname
  have hends : endsName (stop.followed (':' :: rest)).peek = true := by
    by_cases hnil : stop.rest = []
    · rw [peek, followed_rest, hnil]
      rfl
    · rw [peek_followed hnil]
      simpa using hname.2
  rw [hends, Bool.not_true, Bool.or_false, if_neg hname.1]
  rfl

theorem charOfCode?_followed {digits : Nat} {text : List Char} {c : Char}
    (h : charOfCode? digits text = some c) (tail : List Char) :
    digits ≤ text.length ∧ charOfCode? digits (text ++ tail) = some c := by
  unfold charOfCode? at h ⊢
  dsimp only at h ⊢
  split_ifs at h with hlength
  have hle : digits ≤ text.length := by
    rw [beq_iff_eq, List.length_take] at hlength
    omega
  rw [List.take_append_of_le_length hle, if_pos hlength]
  exact ⟨hle, h⟩

/-- Where no white space stands, there is no gap between two words. -/
theorem quotedGap_of_peek {start : Mark} (hne : r.rest ≠ []) (h : isWhiteSpace r.peek = false) :
    quotedGap start r = .ok ([], r) := by
  obtain ⟨c, rest, hrest⟩ := List.exists_cons_of_ne_nil hne
  have hpeek : r.peek = c := by simp [peek, hrest]
  rw [hpeek] at h
  have hblank : isBlank c = false := by
    by_contra hblank
    rw [Bool.not_eq_false, isBlank, Bool.or_eq_true, beq_iff_eq, beq_iff_eq] at hblank
    rcases hblank with rfl | rfl <;> cases h
  have hbreak : isBreak r.peek = false := hpeek ▸ not_break_of_not_whiteSpace h
  simp [quotedGap, hrest, hblank, advance, atEnd, lineBreak?_eq_none hbreak]

theorem quotedEscape_followed {start : Mark} {piece : List Char} (hsolid : r.Solid)
    (h : quotedEscape start r = .ok (piece, r')) :
    quotedEscape start (r.followed (':' :: rest)) = .ok (piece, r'.followed (':' :: rest)) := by
  have hne : r.rest ≠ [] := by
    intro hnil
    have hpeek : r.peek = nul := by rw [peek, hnil]; rfl
    have hbreak : isBreak r.peek = false := by rw [hpeek]; rfl
    rw [quotedEscape, hpeek, lineBreak?_eq_none hbreak] at h
    cases h
  have hbreak : isBreak r.peek = false := by
    obtain ⟨c, tail, hrest⟩ := List.exists_cons_of_ne_nil hne
    rw [peek, hrest]
    exact not_break_of_not_whiteSpace (hsolid c (by simp [hrest]))
  unfold quotedEscape at h ⊢
  rw [peek_followed hne, next_followed hsolid hne]
  split at h
  · cases h
    rfl
  · split at h
    · rename_i hcode
      obtain ⟨hle, hcode'⟩ := charOfCode?_followed hcode (':' :: rest)
      cases h
      rw [followed_rest, hcode', advance_followed (hsolid.leads (.next r)) hle]
    · cases h
  · rw [lineBreak?_eq_none hbreak] at h
    cases h

/-- A piece between quotes that the word holds is read the same if more text follows. -/
theorem quotedPiece_followed (rest : List Char) {double : Bool} {start : Mark}
    {found : Option (List Char × Reader)} (hsolid : r.Solid)
    (h : quotedPiece double start r = .ok found) :
    r.rest ≠ [] ∧ quotedPiece double start (r.followed (':' :: rest)) =
      .ok (found.map (Prod.map id (followed (':' :: rest)))) := by
  have hne : r.rest ≠ [] := by
    intro hnil
    have hpeek : r.peek = nul := by rw [peek, hnil]; rfl
    have hgap : quotedGap start r =
        .error (.within .tokens .quoted start .unexpectedEnd r.mark) := by
      simp [quotedGap, hnil, advance, atEnd]
    rw [quotedPiece, hpeek] at h
    change some <$> quotedGap start r = _ at h
    rw [hgap] at h
    cases h
  refine ⟨hne, ?_⟩
  obtain ⟨c, tail, hrest⟩ := List.exists_cons_of_ne_nil hne
  have hc := hsolid c (by simp [hrest])
  have hpeek : r.peek = c := by rw [peek, hrest]; rfl
  have hquote : ((r.followed (':' :: rest)).peekAt 1 == '\'') = (r.peekAt 1 == '\'') := by
    cases tail <;> simp [peekAt, hrest, nul]
  unfold quotedPiece at h ⊢
  dsimp only at h ⊢
  rw [peek_followed hne, next_followed hsolid hne, hquote]
  rw [hpeek] at h ⊢
  split_ifs at h ⊢ with hsingle htwo hdouble hescape hblank
  · cases h
    have hlength : 2 ≤ r.rest.length := by
      cases tail with
      | nil => simp [peekAt, hrest, nul] at htwo
      | cons => simp [hrest]
    rw [advance_followed hsolid hlength]
    rfl
  · cases h
    rfl
  · cases h
    rfl
  · obtain ⟨⟨piece, r₁⟩, hfound, h⟩ := map_eq_ok_iff.mp h
    cases h
    rw [quotedEscape_followed (hsolid.leads (.next r)) hfound]
    rfl
  · have hpeek' : isWhiteSpace (r.followed (':' :: rest)).peek = false := by
      rw [peek_followed hne, hpeek, hc]
    rw [quotedGap_of_peek hne (by rw [hpeek, hc])] at h
    cases h
    rw [quotedGap_of_peek (by simp) hpeek']
    rfl
  · cases h
    rfl

theorem quotedText_followed {double : Bool} {start : Mark} {n k : Nat} {text out : List Char}
    (hsolid : r.Solid) (hle : n ≤ k) (h : quotedText double start n r text = .ok (out, r')) :
    quotedText double start k (r.followed (':' :: rest)) text =
      .ok (out, r'.followed (':' :: rest)) := by
  induction n generalizing r text k with
  | zero => cases h
  | succ n ih =>
      obtain ⟨k, rfl⟩ := Nat.exists_eq_add_of_lt (Nat.lt_of_succ_le hle)
      rw [quotedText] at h ⊢
      cases hpiece : quotedPiece double start r with
      | error d =>
          rw [hpiece] at h
          cases h
      | ok found =>
          obtain ⟨hne, hpiece'⟩ := quotedPiece_followed rest hsolid hpiece
          rw [hpiece] at h
          rw [hpiece']
          cases found with
          | none =>
              cases h
              rw [next_followed hsolid hne]
              rfl
          | some found =>
              exact ih (hsolid.leads (quotedPiece_leads hpiece)) (by omega) h

theorem readQuoted_followed {double : Bool} (hsolid : r.Solid) (hne : r.rest ≠ [])
    (h : readQuoted double r = .ok (token, r')) :
    readQuoted double (r.followed (':' :: rest)) = .ok (token, r'.followed (':' :: rest)) := by
  obtain ⟨⟨text, stop⟩, htext, h⟩ := bind_eq_ok_iff.mp h
  cases h
  have hlength : r.rest.length + 1 ≤ (r.followed (':' :: rest)).rest.length + 1 := by simp
  rw [readQuoted, next_followed hsolid hne]
  rw [followed_mark, quotedText_followed (hsolid.leads (.next r)) hlength htext]
  rfl

/-- How a token is read that is neither a sign nor a plain scalar nor a tag. -/
def keyedReader? : Char → Option (Reader → Except Diagnostic (Token × Reader))
  | '\'' => some (readQuoted false)
  | '"' => some (readQuoted true)
  | '*' => some readAlias
  | '&' => some readAnchor
  | _ => none

/-- What the sign of such a token can be. -/
theorem keyedReader?_cases {c : Char} {read : Reader → Except Diagnostic (Token × Reader)}
    (h : keyedReader? c = some read) :
    (∃ double, c = quoteOf double ∧ read = readQuoted double) ∨
      c = '*' ∧ read = readAlias ∨ c = '&' ∧ read = readAnchor := by
  unfold keyedReader? at h
  split at h
  · cases h
    exact .inl ⟨false, rfl, rfl⟩
  · cases h
    exact .inl ⟨true, rfl, rfl⟩
  · cases h
    exact .inr (.inl ⟨rfl, rfl⟩)
  · cases h
    exact .inr (.inr ⟨rfl, rfl⟩)
  · cases h

theorem keyed_followed {read : Reader → Except Diagnostic (Token × Reader)}
    (hsign : keyedReader? r.peek = some read) (hsolid : r.Solid) (hne : r.rest ≠ [])
    (h : read r = .ok (token, r')) :
    read (r.followed (':' :: rest)) = .ok (token, r'.followed (':' :: rest)) := by
  rcases keyedReader?_cases hsign with ⟨double, -, rfl⟩ | ⟨-, rfl⟩ | ⟨-, rfl⟩
  · exact readQuoted_followed hsolid hne h
  · exact readName_followed hsolid hne h
  · exact readName_followed hsolid hne h

theorem keyed_leads {read : Reader → Except Diagnostic (Token × Reader)}
    (hsign : keyedReader? r.peek = some read) (h : read r = .ok (token, r')) : r.next.Leads r' := by
  rcases keyedReader?_cases hsign with ⟨double, -, rfl⟩ | ⟨-, rfl⟩ | ⟨-, rfl⟩
  · exact readQuoted_leads h
  · exact readName_leads h
  · exact readName_leads h

theorem tagUri_followed {start : Mark} {uri : String} {tail : List Char} (hsolid : r.Solid)
    (h : tagUri start r = .ok (uri, r')) (hne : r'.rest ≠ []) :
    tagUri start (r.followed tail) = .ok (uri, r'.followed tail) := by
  unfold tagUri at h ⊢
  dsimp only at h ⊢
  split_ifs at h with hempty
  cases h
  have htake : (r.rest ++ tail).takeWhile isUri = r.rest.takeWhile isUri := by
    rw [List.takeWhile_append, if_neg]
    intro hlength
    rw [advance_rest, hlength, List.drop_length] at hne
    exact hne rfl
  rw [followed_rest, htake, if_neg hempty,
    advance_followed hsolid (List.takeWhile_prefix _).length_le]

/-- A tag in angle brackets does not take up a colon behind it, and none may stand there. -/
theorem readTag_followed {more : List Char} (hsolid : r.Solid)
    (hrest : r.rest = '!' :: '<' :: more) (h : readTag r = .ok (token, r')) (hstop : r'.rest = []) :
    readTag (r.followed (':' :: rest)) =
      .error (.within .tokens .tag r.mark (.expectedSpace ':') r'.mark) := by
  have hangle : (r.peekAt 1 == '<') = true := by simp [peekAt, hrest]
  have hangle' : ((r.followed (':' :: rest)).peekAt 1 == '<') = true := by simp [peekAt, hrest]
  have hadvance : (r.followed (':' :: rest)).advance 2 = (r.advance 2).followed (':' :: rest) :=
    advance_followed hsolid (by simp [hrest])
  obtain ⟨⟨handle, suffix, stop⟩, hparts, h⟩ := bind_eq_ok_iff.mp h
  rw [tagParts, if_pos hangle] at hparts
  obtain ⟨⟨uri, r₁⟩, huri, hparts⟩ := bind_eq_ok_iff.mp hparts
  dsimp only at hparts h
  split_ifs at hparts h with hclose hspace
  cases hparts
  cases h
  obtain ⟨tail, hrest₁⟩ := rest_of_peek (beq_iff_eq.mp hclose) (by decide)
  have hne : r₁.rest ≠ [] := by simp [hrest₁]
  have hsolid₂ := hsolid.leads (.advance r 2)
  have hparts' : tagParts (r.followed (':' :: rest)) =
      .ok (none, suffix, r₁.next.followed (':' :: rest)) := by
    rw [tagParts, if_pos hangle', hadvance, followed_mark, tagUri_followed hsolid₂ huri hne,
      ok_bind]
    dsimp only
    rw [peek_followed hne, if_pos hclose, next_followed (hsolid₂.leads (tagUri_leads huri)) hne]
    rfl
  have hpeek : (r₁.next.followed (':' :: rest)).peek = ':' := by
    rw [peek, followed_rest, hstop]
    rfl
  rw [readTag, hparts', ok_bind]
  dsimp only
  rw [hpeek]
  rfl

/-- Inside of brackets a plain scalar that ends within the word is read the same if a colon
follows the word. -/
theorem plainPiece_followed {word more : List Char} {c : Char}
    (h : word.drop (plainPiece true word).length = c :: more)
    (hc : isFlowIndicator c = true ∨ more ≠ []) :
    plainPiece true (word ++ ':' :: rest) = plainPiece true word := by
  induction word with
  | nil => cases h
  | cons d word ih =>
      rw [List.cons_append]
      unfold plainPiece at h ⊢
      by_cases hword : word = []
      · subst hword
        split_ifs at h with hstops
        · cases h
          have hc := hc.resolve_right (by simp)
          simp [plainStops, hc]
        · cases h
      · have hhead : (word ++ ':' :: rest).headD nul = word.headD nul := by
          obtain ⟨d', tail, rfl⟩ := List.exists_cons_of_ne_nil hword
          rfl
        rw [hhead]
        split_ifs at h ⊢ with hstops
        · rfl
        · exact congrArg _ (ih h)

end Playbook
