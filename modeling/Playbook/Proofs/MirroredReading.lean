import Playbook.Proofs.Bare

/-!
Reading at corresponding places. Whatever is read, be it a comment, a name, a tag or a scalar of
any style, both readers come to the same result and again to corresponding places, or both refuse
for the same reason.
-/

namespace Playbook

/-- The tokens are of the same kind and take up corresponding stretches. -/
structure Token.Mirrors (K : Pairing) (token token' : Token) : Prop where
  kind : token.kind = token'.kind
  start : Mark.Mirrors K token.start token'.start
  stop : Mark.Mirrors K token.stop token'.stop

/-- The results are related, and the readers have come to corresponding places. -/
def Along (K : Pairing) {α β : Type} (R : α → β → Prop) (found : α × Reader)
    (found' : β × Reader) : Prop :=
  R found.1 found'.1 ∧ Reader.Mirrors K found.2 found'.2

/-- The states of a loop that reads: related places, with the same collected so far. -/
structure Held {σ α : Type} (R : σ → σ → Prop) (s s' : σ × α) : Prop where
  place : R s.1 s'.1
  found : s.2 = s'.2

theorem Held.same {σ α : Type} {R : σ → σ → Prop} {s s' : σ} (h : R s s') (found : α) :
    Held R (s, found) (s', found) :=
  ⟨h, rfl⟩

variable {K : Pairing} {r r' : Reader} {start start' : Mark}

theorem Held.unique {α : Type} {s₁ s₂ s' : Reader × α} (h₁ : Held (Reader.Mirrors K) s₁ s')
    (h₂ : Held (Reader.Mirrors K) s₂ s') : s₁ = s₂ :=
  Prod.ext (h₁.place.unique h₂.place) (h₁.found.trans h₂.found.symm)

theorem ne_return {p : Char → Bool} {c : Char} (hreturn : p '\r' = false) (hc : p c = true) :
    c ≠ '\r' := by
  rintro rfl
  rw [hreturn] at hc
  cases hc

theorem Reader.peekAt_one (r : Reader) : r.peekAt 1 = r.next.peek := by
  rw [peek, next_rest, peekAt]
  rcases r with ⟨_ | ⟨c, _ | ⟨d, rest⟩⟩, m⟩ <;> rfl

namespace Reader.Mirrors

/-- Both are held up by what they find next. -/
theorem refuses (h : Mirrors K r r') (problem : Char → Problem) {α β : Type}
    {R : α → β → Prop} {context : Activity} (hstart : Mark.Mirrors K start start')
    (hproblem : (problem '\r').bare = (problem '\n').bare) :
    Matches K R (.error (.within .tokens context start (problem r.peek) r.mark))
      (.error (.within .tokens context start' (problem r'.peek) r'.mark)) :=
  .within hstart h.mark (h.peek_class (p := fun c => (problem c).bare) hproblem)

theorem skipTrivia (h : Mirrors K r r') : Held (Mirrors K) r.skipTrivia r'.skipTrivia := by
  refine skipTriviaFor_loops.related_of_lt (R := Held (Mirrors K)) skipTriviaFor_loops
    triviaRound_length triviaRound_length ?_ (.same h false) (Nat.lt_succ_self _)
    (Nat.lt_succ_self _)
  rintro ⟨r, crossed⟩ ⟨r', crossed'⟩ ⟨h, hcrossed⟩
  have hskip := (h.skipWhile (p := (· == ' ')) rfl rfl).skipComment
  rcases hskip.lineBreak with ⟨hnone, hnone'⟩ | ⟨c, r₁, r₁', hsome, hsome', hr₁⟩
  · simp only [triviaRound, hnone, hnone']
    exact .inr ⟨hskip, hcrossed⟩
  · simp only [triviaRound, hsome, hsome']
    exact .inl ⟨hr₁, rfl⟩

end Reader.Mirrors

open Reader

/-! ### Properties of nodes and directives -/

theorem readName_mirrors {context : Activity} {kind : String → TokenKind} (h : Mirrors K r r')
    (hpeek : r'.peek ≠ '\r') :
    Matches K (Along K (Token.Mirrors K)) (readName context kind r)
      (readName context kind r') := by
  have hnext := h.next hpeek
  have hname := hnext.takeWhile (p := isWord) rfl rfl
  have hstop := hnext.advance_takeWhile (p := isWord) rfl
  unfold readName
  dsimp only
  rw [hname, hstop.peek_class (p := endsName) rfl]
  split_ifs
  · exact hstop.refuses .expectedWord h.mark rfl
  · exact .ok ⟨⟨rfl, h.mark, hstop.mark⟩, hstop⟩

theorem tagUri_mirrors (hstart : Mark.Mirrors K start start') (h : Mirrors K r r') :
    Matches K (Along K Eq) (tagUri start r) (tagUri start' r') := by
  have huri := h.takeWhile (p := isUri) rfl rfl
  unfold tagUri
  dsimp only
  rw [huri]
  split_ifs
  · exact h.refuses .expectedUri hstart rfl
  · exact .ok ⟨rfl, h.advance_takeWhile rfl⟩

theorem tagHandle_mirrors (hstart : Mark.Mirrors K start start') (h : Mirrors K r r')
    (hpeek : r'.peek ≠ '\r') :
    Matches K (Along K Eq) (tagHandle start r) (tagHandle start' r') := by
  have hnext := h.next hpeek
  have hname := hnext.takeWhile (p := isWord) rfl rfl
  have hstop := hnext.advance_takeWhile (p := isWord) rfl
  unfold tagHandle
  dsimp only
  rw [hname, hstop.peek_class (p := (· == '!')) rfl]
  split_ifs with hbang
  · exact .ok ⟨rfl, hstop.next (ne_return (p := (· == '!')) rfl hbang)⟩
  · exact hstop.refuses .expectedBang hstart rfl

theorem tagParts_mirrors (h : Mirrors K r r') (hpeek : r'.peek ≠ '\r') :
    Matches K (fun found found' => found.1 = found'.1 ∧ Along K Eq found.2 found'.2)
      (tagParts r) (tagParts r') := by
  have hnext := h.next hpeek
  have hhandle := hnext.takeWhile (p := fun c => !isSpaceOrEnd c) rfl rfl
  unfold tagParts
  dsimp only
  rw [peekAt_one, peekAt_one, hnext.peek_class (p := (· == '<')) rfl,
    hnext.peek_class (p := isBlankOrEnd) rfl, hhandle]
  split_ifs with hangle hblank hbang
  · have hreturn : r'.next.peek ≠ '\r' := ne_return (p := (· == '<')) rfl hangle
    refine (tagUri_mirrors h.mark (hnext.next hreturn)).bind ?_
    rintro ⟨uri, r₁⟩ ⟨uri', r₁'⟩ ⟨rfl, hr₁⟩
    dsimp only
    rw [hr₁.peek_class (p := (· == '>')) rfl]
    split_ifs with hclose
    · exact .ok ⟨rfl, rfl, hr₁.next (ne_return (p := (· == '>')) rfl hclose)⟩
    · exact hr₁.refuses .expectedAngle h.mark rfl
  · exact .ok ⟨rfl, rfl, hnext⟩
  · refine (tagHandle_mirrors h.mark h hpeek).bind ?_
    rintro ⟨handle, r₁⟩ ⟨handle', r₁'⟩ ⟨rfl, hr₁⟩
    refine (tagUri_mirrors h.mark hr₁).bind ?_
    rintro ⟨uri, r₂⟩ ⟨uri', r₂'⟩ ⟨rfl, hr₂⟩
    exact .ok ⟨rfl, rfl, hr₂⟩
  · refine (tagUri_mirrors h.mark hnext).bind ?_
    rintro ⟨uri, r₁⟩ ⟨uri', r₁'⟩ ⟨rfl, hr₁⟩
    exact .ok ⟨rfl, rfl, hr₁⟩

theorem readTag_mirrors (h : Mirrors K r r') (hpeek : r'.peek ≠ '\r') :
    Matches K (Along K (Token.Mirrors K)) (readTag r) (readTag r') := by
  refine (tagParts_mirrors h hpeek).bind ?_
  rintro ⟨handle, suffix, stop⟩ ⟨handle', suffix', stop'⟩ ⟨rfl, rfl, hstop⟩
  dsimp only
  rw [hstop.peek_class (p := isSpaceOrEnd) rfl]
  split_ifs
  · exact .ok ⟨⟨rfl, h.mark, hstop.mark⟩, hstop⟩
  · exact hstop.refuses .expectedSpace h.mark rfl

theorem directiveParams_mirrors (h : Mirrors K r r') :
    Along K Eq (directiveParams (r.rest.length + 1) r [])
      (directiveParams (r'.rest.length + 1) r' []) := by
  refine directiveParams_loops.related_of_lt (R := Held (Mirrors K)) directiveParams_loops
    directiveRound_length directiveRound_length ?_ (.same h []) (Nat.lt_succ_self _)
    (Nat.lt_succ_self _)
  rintro ⟨r, params⟩ ⟨r', params'⟩ ⟨h, rfl⟩
  have hskip := h.skipWhile (p := isBlank) rfl rfl
  have hword := hskip.takeWhile (p := fun c => !isBlankOrEnd c) rfl rfl
  unfold directiveRound
  dsimp only
  rw [hword, hskip.peek_class (p := fun c => c == '#' || isBreakOrEnd c) rfl]
  split_ifs
  · exact .inr ⟨rfl, hskip⟩
  · exact .inl ⟨hskip.advance_takeWhile rfl, rfl⟩

theorem readDirective_mirrors (h : Mirrors K r r') (hpeek : r'.peek ≠ '\r') :
    Matches K (Along K (Token.Mirrors K)) (readDirective r) (readDirective r') := by
  have hnext := h.next hpeek
  have hname := hnext.takeWhile (p := isWord) rfl rfl
  have hstop := hnext.advance_takeWhile (p := isWord) rfl
  obtain ⟨hparams, hend⟩ := directiveParams_mirrors hstop
  unfold readDirective
  dsimp only
  rw [hname, hstop.peek_class (p := isBlankOrEnd) rfl]
  split_ifs
  · exact hstop.refuses .expectedWord h.mark rfl
  · rcases hend.skipComment.lineBreak with ⟨hnone, hnone'⟩ | ⟨c, r₁, r₁', hsome, hsome', hr₁⟩
    · rw [hnone, hnone', hparams]
      exact .ok ⟨⟨rfl, h.mark, hend.mark⟩, hend.skipComment⟩
    · rw [hsome, hsome', hparams]
      exact .ok ⟨⟨rfl, h.mark, hend.mark⟩, hr₁⟩

/-! ### Quoted scalars -/

theorem readDigitsFrom?_of_mem {base : Nat} {c : Char} (hdigit : digitIn? base c = none) (n : Nat)
    {code : List Char} (h : c ∈ code) : readDigitsFrom? base n code = none := by
  induction code generalizing n with
  | nil => cases h
  | cons d code ih =>
      rw [readDigitsFrom?]
      cases h with
      | head => rw [hdigit, Option.bind_none]
      | tail _ h =>
          cases digitIn? base d with
          | none => rfl
          | some value => exact ih _ h

/-- No number has a line break in it. -/
theorem readNat?_of_break {base : Nat} {c : Char} (hbreak : c = '\r' ∨ c = '\n')
    {code : List Char} (h : c ∈ code) : readNat? base code = none := by
  have hdigit : digitIn? base c = none := by rcases hbreak with rfl | rfl <;> rfl
  have hsign : c ≠ '+' := by rcases hbreak with rfl | rfl <;> decide
  have hdigits : ∀ {code : List Char}, c ∈ code → readDigits? base code = none := by
    intro code h
    rw [readDigits?, readDigitsFrom?_of_mem hdigit 0 h, ite_self]
  unfold readNat?
  split
  · exact hdigits (by simpa [hsign] using h)
  · exact hdigits h

theorem charOfCode?_of_break {digits : Nat} {c : Char} (hbreak : c = '\r' ∨ c = '\n')
    {code : List Char} (h : c ∈ code.take digits) : charOfCode? digits code = none := by
  rw [charOfCode?, readNat?_of_break hbreak h, Option.bind_none, ite_self]

/-- Only what stands before the next line break matters for a code. -/
theorem charOfCode?_takeWhile (digits : Nat) (code : List Char) :
    charOfCode? digits (code.takeWhile fun c => c != '\r' && c != '\n') =
      charOfCode? digits code := by
  generalize hp : (fun c => c != '\r' && c != '\n') = p
  have hsplit : code.takeWhile p ++ code.dropWhile p = code := List.takeWhile_append_dropWhile
  by_cases hlength : digits ≤ (code.takeWhile p).length
  · have htake : code.take digits = (code.takeWhile p).take digits := by
      rw [← List.take_append_of_le_length hlength, hsplit]
    rw [charOfCode?, charOfCode?, htake]
  · cases hdrop : code.dropWhile p with
    | nil =>
        rw [hdrop, List.append_nil] at hsplit
        rw [hsplit]
    | cons c rest =>
        -- The break is among the digits, and without it there are too few.
        have hbreak : c = '\r' ∨ c = '\n' := by
          have hc : p c = false := by
            have hhead := List.head_dropWhile_not p (l := code) (by simp [hdrop])
            simpa only [hdrop, List.head_cons] using hhead
          rw [← hp] at hc
          simpa [or_iff_not_imp_left] using hc
        have hmem : c ∈ code.take digits := by
          rw [← hsplit, hdrop, List.take_append, List.mem_append]
          have hpos : 0 < digits - (code.takeWhile p).length := by omega
          obtain ⟨n, hn⟩ := Nat.exists_eq_succ_of_ne_zero hpos.ne'
          rw [hn]
          exact Or.inr (by simp)
        have hshort : ((code.takeWhile p).take digits).length ≠ digits := by
          rw [List.length_take]
          omega
        rw [charOfCode?_of_break hbreak hmem, charOfCode?, if_neg (by simpa using hshort)]

theorem charOfCode?_mirrors (h : Mirrors K r r') (digits : Nat) :
    charOfCode? digits r.rest = charOfCode? digits r'.rest := by
  rw [← charOfCode?_takeWhile digits r.rest, ← charOfCode?_takeWhile digits r'.rest,
    h.takeWhile rfl rfl]

/-- Both stand behind the code of a character. -/
theorem advance_code (h : Mirrors K r r') {digits : Nat} {c : Char}
    (hc : charOfCode? digits r'.rest = some c) :
    Mirrors K (r.advance digits) (r'.advance digits) := by
  have hlength : (r'.rest.take digits).length = digits := by
    simp only [charOfCode?] at hc
    split_ifs at hc with hlength
    exact beq_iff_eq.mp hlength
  have hreturn : '\r' ∉ r'.rest.take digits := by
    intro hmem
    rw [charOfCode?_of_break (Or.inl rfl) hmem] at hc
    cases hc
  have hadvance := h.advance (List.take_prefix digits _) hreturn
  rwa [hlength] at hadvance

theorem quotedBreaks_mirrors (hstart : Mark.Mirrors K start start') (h : Mirrors K r r') :
    Matches K (Along K Eq) (quotedBreaks start (r.rest.length + 1) r [])
      (quotedBreaks start' (r'.rest.length + 1) r' []) := by
  refine (quotedBreaks_loops start).related_of_lt (R := Held (Mirrors K))
    (quotedBreaks_loops start') quotedBreaksRound_length quotedBreaksRound_length ?_ (.same h [])
    (Nat.lt_succ_self _) (Nat.lt_succ_self _)
  rintro ⟨r, breaks⟩ ⟨r', breaks'⟩ ⟨h, rfl⟩
  have hskip := h.skipWhile (p := isBlank) rfl rfl
  unfold quotedBreaksRound
  rw [h.atSeparator]
  split_ifs
  · exact .inr (.within hstart h.mark rfl)
  · rcases hskip.lineBreak with ⟨hnone, hnone'⟩ | ⟨c, r₁, r₁', hsome, hsome', hr₁⟩
    · simp only [hnone, hnone']
      exact .inr (.ok ⟨rfl, hskip⟩)
    · simp only [hsome, hsome']
      exact .inl (.same hr₁ _)

theorem quotedGap_mirrors (hstart : Mark.Mirrors K start start') (h : Mirrors K r r') :
    Matches K (Along K Eq) (quotedGap start r) (quotedGap start' r') := by
  have hblanks := h.takeWhile (p := isBlank) rfl rfl
  have hskip := h.advance_takeWhile (p := isBlank) rfl
  unfold quotedGap
  dsimp only
  rw [hblanks, hskip.atEnd]
  split_ifs
  · exact .within hstart hskip.mark rfl
  · rcases hskip.lineBreak with ⟨hnone, hnone'⟩ | ⟨first, r₁, r₁', hsome, hsome', hr₁⟩
    · rw [hnone, hnone']
      exact .ok ⟨rfl, hskip⟩
    · rw [hsome, hsome']
      refine (quotedBreaks_mirrors hstart hr₁).bind ?_
      rintro ⟨more, r₂⟩ ⟨more', r₂'⟩ ⟨rfl, hr₂⟩
      exact .ok ⟨rfl, hr₂⟩

theorem quotedEscape_mirrors (hstart : Mark.Mirrors K start start') (h : Mirrors K r r') :
    Matches K (Along K Eq) (quotedEscape start r) (quotedEscape start' r') := by
  unfold quotedEscape
  rw [h.peek_class (p := escapedChar?) rfl, h.peek_class (p := escapeDigits?) rfl]
  cases hchar : escapedChar? r'.peek with
  | some c =>
      have hpeek : r'.peek ≠ '\r' := fun heq => by simp [heq, escapedChar?] at hchar
      exact .ok ⟨rfl, h.next hpeek⟩
  | none =>
      cases hdigits : escapeDigits? r'.peek with
      | some digits =>
          have hpeek : r'.peek ≠ '\r' := fun heq => by simp [heq, escapeDigits?] at hdigits
          have hnext := h.next hpeek
          dsimp only
          rw [charOfCode?_mirrors hnext]
          cases hcode : charOfCode? digits r'.next.rest with
          | some c => exact .ok ⟨rfl, advance_code hnext hcode⟩
          | none => exact hnext.refuses (.badEscapeCode digits) hstart rfl
      | none =>
          dsimp only
          rcases h.lineBreak with ⟨hnone, hnone'⟩ | ⟨c, r₁, r₁', hsome, hsome', hr₁⟩
          · rw [hnone, hnone']
            exact h.refuses .unknownEscape hstart rfl
          · rw [hsome, hsome']
            exact quotedBreaks_mirrors hstart hr₁

theorem quotedPiece_mirrors {double : Bool} (hstart : Mark.Mirrors K start start')
    (h : Mirrors K r r') :
    Matches K (Option.Rel (Along K Eq)) (quotedPiece double start r)
      (quotedPiece double start' r') := by
  have hsome : ∀ {x y : Except Diagnostic (List Char × Reader)}, Matches K (Along K Eq) x y →
      Matches K (Option.Rel (Along K Eq)) (some <$> x) (some <$> y) :=
    fun hxy => hxy.map fun _ _ hab => .some hab
  unfold quotedPiece
  dsimp only
  rw [h.peek_class (p := (· == '\'')) rfl, h.peek_class (p := (· == '"')) rfl,
    h.peek_class (p := (· == '\\')) rfl, h.peek_class (p := isBlankOrEnd) rfl]
  by_cases hsingle : (r'.peek == '\'' && !double) = true
  · have hnext := h.next (ne_return (p := fun c => c == '\'' && !double) rfl hsingle)
    rw [if_pos hsingle, if_pos hsingle, peekAt_one, peekAt_one,
      hnext.peek_class (p := (· == '\'')) rfl]
    split_ifs with hpair
    · exact .ok (.some ⟨rfl, hnext.next (ne_return (p := (· == '\'')) rfl hpair)⟩)
    · exact .ok .none
  · rw [if_neg hsingle, if_neg hsingle]
    split_ifs with hclose hescape hblank
    · exact .ok .none
    · have hnext := h.next (ne_return (p := fun c => c == '\\' && double) rfl hescape)
      exact hsome (quotedEscape_mirrors hstart hnext)
    · exact hsome (quotedGap_mirrors hstart h)
    · have hpeek : r'.peek ≠ '\r' := by
        intro heq
        rw [heq] at hblank
        exact hblank rfl
      rw [h.peek_eq hpeek]
      exact .ok (.some ⟨rfl, h.next hpeek⟩)

/-- A carriage return does not end a quoted scalar. -/
theorem quotedPiece_none {double : Bool} (h : quotedPiece double start r = .ok none) :
    r.peek ≠ '\r' := by
  intro hpeek
  have hgap : quotedPiece double start r = some <$> quotedGap start r := by
    simp [quotedPiece, hpeek, isBlankOrEnd, isSpaceOrEnd, isBreakOrEnd, isBreak]
  rw [hgap] at h
  obtain ⟨_, -, h⟩ := map_eq_ok_iff.mp h
  cases h

theorem quotedRound_shrinks (double : Bool) (start : Mark) :
    Shrinks (quotedRound double start) (quotedEndless start) fun s => s.1.rest.length + 1 := by
  refine shrinks_succ fun s s' hround => ?_
  rcases quotedRound_length hround with hlt | ⟨-, rfl⟩
  · exact Or.inl hlt
  · exact Or.inr hround

theorem quotedText_mirrors {double : Bool} (hstart : Mark.Mirrors K start start')
    (h : Mirrors K r r') {n n' : Nat} (hn : r.rest.length < n) (hn' : r'.rest.length < n') :
    Matches K (Along K Eq) (quotedText double start n r [])
      (quotedText double start' n' r' []) := by
  -- A NUL may hold up both readers. Neither gets on, and both give up in corresponding places.
  refine (quotedText_loops double start).related (R := Held (Mirrors K))
    (quotedText_loops double start') (quotedRound_shrinks double start)
    (quotedRound_shrinks double start') ?_ (fun _ _ _ _ h₁ h₂ => h₁.unique h₂)
    (fun _ _ h => .within hstart h.place.mark rfl) (.same h []) hn hn'
  rintro ⟨r, found⟩ ⟨r', found'⟩ ⟨h, rfl⟩
  have hpiece : Matches K (Option.Rel (Along K Eq)) (quotedPiece double start r)
      (quotedPiece double start' r') := quotedPiece_mirrors hstart h
  unfold quotedRound
  dsimp only
  generalize quotedPiece double start r = piece at hpiece
  generalize hclose : quotedPiece double start' r' = piece' at hpiece
  cases hpiece with
  | error hd => exact .inr (.error hd)
  | ok hpiece =>
      cases hpiece with
      | none => exact .inr (.ok ⟨rfl, h.next (quotedPiece_none hclose)⟩)
      | some hpiece =>
          obtain ⟨heq, hplace⟩ := hpiece
          exact .inl ⟨hplace, by rw [heq]⟩

theorem readQuoted_mirrors {double : Bool} (h : Mirrors K r r') (hpeek : r'.peek ≠ '\r') :
    Matches K (Along K (Token.Mirrors K)) (readQuoted double r) (readQuoted double r') := by
  have hlength : ∀ r : Reader, r.next.rest.length < r.rest.length + 1 :=
    fun r => Nat.lt_succ_of_le (Leads.advance r 1).length_le
  refine (quotedText_mirrors h.mark (h.next hpeek) (hlength r) (hlength r')).bind ?_
  rintro ⟨found, stop⟩ ⟨found', stop'⟩ ⟨rfl, hstop⟩
  exact .ok ⟨⟨rfl, h.mark, hstop.mark⟩, hstop⟩

/-! ### Plain scalars -/

theorem plainPiece_lineFeeds (inFlow : Bool) (rest : List Char) :
    plainPiece inFlow (lineFeeds rest) = plainPiece inFlow rest := by
  induction rest with
  | nil => rfl
  | cons c rest ih =>
      by_cases hc : c = '\r'
      · obtain ⟨more, hmore⟩ := lineFeeds_return_cons rest
        rw [hc, hmore]
        rfl
      · have hstops : plainStops inFlow c ((lineFeeds rest).headD nul) =
            plainStops inFlow c (rest.headD nul) := by
          rw [headD_lineFeeds, asFeed]
          split_ifs with hnext
          · rw [hnext]
            rfl
          · rfl
        rw [lineFeeds_cons hc, plainPiece, plainPiece, hstops, ih]

theorem return_notMem_plainPiece (inFlow : Bool) (rest : List Char) :
    '\r' ∉ plainPiece inFlow rest := by
  induction rest with
  | nil => exact List.not_mem_nil
  | cons c rest ih =>
      rw [plainPiece]
      split_ifs with hstops
      · exact List.not_mem_nil
      · rw [List.mem_cons, not_or]
        refine ⟨?_, ih⟩
        rintro rfl
        exact hstops rfl

theorem plainBreaks_mirrors (h : Mirrors K r r') :
    Along K Eq (plainBreaks (r.rest.length + 1) r [])
      (plainBreaks (r'.rest.length + 1) r' []) := by
  refine plainBreaks_loops.related_of_lt (R := Held (Mirrors K)) plainBreaks_loops
    plainBreaksRound_length plainBreaksRound_length ?_ (.same h []) (Nat.lt_succ_self _)
    (Nat.lt_succ_self _)
  rintro ⟨r, breaks⟩ ⟨r', breaks'⟩ ⟨h, rfl⟩
  have hskip := h.skipWhile (p := (· == ' ')) rfl rfl
  unfold plainBreaksRound
  rcases hskip.lineBreak with ⟨hnone, hnone'⟩ | ⟨c, r₁, r₁', hsome, hsome', hr₁⟩
  · simp only [hnone, hnone']
    exact .inr ⟨rfl, hskip⟩
  · simp only [hsome, hsome', hr₁.atSeparator]
    split_ifs
    · exact .inr ⟨rfl, hr₁⟩
    · exact .inl (.same hr₁ _)

structure PlainGap.Mirrors (K : Pairing) (gap gap' : PlainGap) : Prop where
  content : gap.text = gap'.text
  reader : Reader.Mirrors K gap.reader gap'.reader
  crossed : gap.crossed = gap'.crossed

theorem plainGap_mirrors (h : Mirrors K r r') :
    PlainGap.Mirrors K (plainGap r) (plainGap r') := by
  have hspaces := h.takeWhile (p := (· == ' ')) rfl rfl
  have hskip := h.advance_takeWhile (p := (· == ' ')) rfl
  unfold plainGap
  dsimp only
  rw [hspaces]
  rcases hskip.lineBreak with ⟨hnone, hnone'⟩ | ⟨first, r₁, r₁', hsome, hsome', hr₁⟩
  · rw [hnone, hnone']
    exact ⟨rfl, hskip, rfl⟩
  · rw [hsome, hsome']
    dsimp only
    rw [hr₁.atSeparator]
    split_ifs
    · exact ⟨rfl, hr₁, rfl⟩
    · obtain ⟨hmore, hreader⟩ := plainBreaks_mirrors hr₁
      exact ⟨by rw [hmore], hreader, rfl⟩

structure PlainRun.Mirrors (K : Pairing) (run run' : PlainRun) : Prop where
  content : run.text = run'.text
  stop : Mark.Mirrors K run.stop run'.stop
  reader : Reader.Mirrors K run.reader run'.reader
  crossed : run.crossed = run'.crossed

theorem plainRun_mirrors {inFlow : Bool} {indent : Int} (h : Mirrors K r r') :
    PlainRun.Mirrors K
      (plainRun inFlow indent (r.rest.length + 1) ⟨[], r.mark, r, false⟩ [])
      (plainRun inFlow indent (r'.rest.length + 1) ⟨[], r'.mark, r', false⟩ []) := by
  have hstart : PlainRun.Mirrors K ⟨[], r.mark, r, false⟩ ⟨[], r'.mark, r', false⟩ :=
    ⟨rfl, h.mark, h, rfl⟩
  refine (plainRun_loops inFlow indent).related_of_lt (R := Held (PlainRun.Mirrors K))
    (plainRun_loops inFlow indent) plainRound_length plainRound_length ?_ (.same hstart [])
    (Nat.lt_succ_self _) (Nat.lt_succ_self _)
  rintro ⟨run, gap⟩ ⟨run', gap'⟩ ⟨hrun, rfl⟩
  have hpiece : plainPiece inFlow run.reader.rest = plainPiece inFlow run'.reader.rest := by
    exact hrun.reader.rest_class (plainPiece_lineFeeds inFlow)
  have hreader := hrun.reader.advance (plainPiece_initial inFlow _) (return_notMem_plainPiece _ _)
  have hgap := plainGap_mirrors hreader
  unfold plainRound
  dsimp only
  rw [hpiece, hrun.content, hgap.content, hgap.crossed,
    hrun.reader.peek_class (p := (· == '#')) rfl, hgap.reader.peek_class (p := (· == '#')) rfl,
    hgap.reader.mark.column]
  split_ifs
  · exact .inr hrun
  · cases (plainGap (run'.reader.advance (plainPiece inFlow run'.reader.rest).length)).text with
    | none => exact .inr ⟨rfl, hreader.mark, hgap.reader, rfl⟩
    | some gap =>
        dsimp only
        split_ifs
        · exact .inr ⟨rfl, hreader.mark, hgap.reader, rfl⟩
        · exact .inl ⟨⟨rfl, hreader.mark, hgap.reader, rfl⟩, rfl⟩

theorem readPlain_mirrors {inFlow : Bool} {indent : Int} (h : Mirrors K r r') :
    Token.Mirrors K (readPlain inFlow indent r).1 (readPlain inFlow indent r').1 ∧
      Held (Mirrors K) (readPlain inFlow indent r).2 (readPlain inFlow indent r').2 := by
  have hrun := @plainRun_mirrors K r r' inFlow (indent + 1) h
  unfold readPlain
  dsimp only
  refine ⟨⟨?_, h.mark, hrun.stop⟩, hrun.reader, hrun.crossed⟩
  rw [hrun.content]

/-! ### Block scalars -/

theorem headerIndent_mirrors (hstart : Mark.Mirrors K start start') (h : Mirrors K r r') :
    Matches K (Along K Eq) (headerIndent start r) (headerIndent start' r') := by
  unfold headerIndent
  rw [h.peek_class (p := digitIn? 10) rfl]
  cases hdigit : digitIn? 10 r'.peek with
  | none => exact .ok ⟨rfl, h⟩
  | some n =>
      have hpeek : r'.peek ≠ '\r' := ne_return (p := fun c => (digitIn? 10 c).isSome) rfl
        (by rw [hdigit]; rfl)
      cases n with
      | zero => exact .within hstart h.mark rfl
      | succ n => exact .ok ⟨rfl, h.next hpeek⟩

theorem blockHeader_mirrors (hstart : Mark.Mirrors K start start') (h : Mirrors K r r') :
    Matches K (Along K Eq) (blockHeader start r) (blockHeader start' r') := by
  have hsign : ∀ {c : Char} {chomping : Chomping}, chompingSign? c = some chomping → c ≠ '\r' :=
    fun hc => ne_return (p := fun c => (chompingSign? c).isSome) rfl (by rw [hc]; rfl)
  -- Behind its signs the header must end, whichever of them were there.
  have hend : ∀ (header : BlockHeader) {r r' : Reader}, Mirrors K r r' →
      Matches K (Along K Eq)
        (if isSpaceOrEnd r.peek then .ok (header, r)
          else .error (.within .tokens .blockScalar start (.expectedBlockHeader r.peek) r.mark))
        (if isSpaceOrEnd r'.peek then .ok (header, r')
          else .error (.within .tokens .blockScalar start' (.expectedBlockHeader r'.peek)
            r'.mark)) := by
    intro header r r' h
    rw [h.peek_class (p := isSpaceOrEnd) rfl]
    split_ifs
    · exact .ok ⟨rfl, h⟩
    · exact h.refuses .expectedBlockHeader hstart rfl
  unfold blockHeader
  rw [h.peek_class (p := chompingSign?) rfl]
  cases hchomping : chompingSign? r'.peek with
  | some chomping =>
      refine (headerIndent_mirrors hstart (h.next (hsign hchomping))).bind ?_
      rintro ⟨indent, r₁⟩ ⟨indent', r₁'⟩ ⟨rfl, hr₁⟩
      exact hend _ hr₁
  | none =>
      refine (headerIndent_mirrors hstart h).bind ?_
      rintro ⟨indent, r₁⟩ ⟨indent', r₁'⟩ ⟨rfl, hr₁⟩
      dsimp only at hr₁ ⊢
      rw [hr₁.peek_class (p := chompingSign?) rfl]
      cases indent with
      | none => exact hend _ hr₁
      | some n =>
          cases hchomping' : chompingSign? r₁'.peek with
          | none => exact hend _ hr₁
          | some chomping => exact hend _ (hr₁.next (hsign hchomping'))

theorem headerLineEnd_mirrors (hstart : Mark.Mirrors K start start') (h : Mirrors K r r') :
    Matches K (Mirrors K) (headerLineEnd start r) (headerLineEnd start' r') := by
  have hskip := (h.skipWhile (p := (· == ' ')) rfl rfl).skipComment
  unfold headerLineEnd
  dsimp only
  rcases hskip.lineBreak with ⟨hnone, hnone'⟩ | ⟨c, r₁, r₁', hsome, hsome', hr₁⟩
  · rw [hnone, hnone', hskip.peek_class (p := isBreakOrEnd) rfl]
    dsimp only
    split_ifs
    · exact .ok hskip
    · exact hskip.refuses .expectedLineEnd hstart rfl
  · rw [hsome, hsome']
    exact .ok hr₁

theorem skipIndent_mirrors (indent : Nat) (h : Mirrors K r r') :
    Mirrors K (skipIndent indent r) (skipIndent indent r') := by
  -- The column is the same in both, so they skip as many spaces.
  have hreturn : '\r' ∉ r'.rest.takeWhile (· == ' ') := fun hmem =>
    absurd (List.mem_takeWhile_imp hmem) (by decide)
  have hadvance := h.advance
    ((List.take_prefix (indent - r'.mark.column) _).trans (List.takeWhile_prefix (· == ' ')))
    fun hmem => hreturn (List.mem_of_mem_take hmem)
  rw [List.length_take] at hadvance
  rwa [skipIndent, skipIndent, h.takeWhile rfl rfl, h.mark.column]

structure BlankLines.Mirrors (K : Pairing) (lines lines' : BlankLines) : Prop where
  breaks : lines.breaks = lines'.breaks
  stop : Mark.Mirrors K lines.stop lines'.stop
  reader : Reader.Mirrors K lines.reader lines'.reader

theorem blankLines_mirrors (indent : Nat) (h : Mirrors K r r') :
    BlankLines.Mirrors K (blankLines indent r) (blankLines indent r') := by
  have hlength : ∀ r : Reader, (skipIndent indent r).rest.length < r.rest.length + 1 :=
    fun r => Nat.lt_succ_of_le (Leads.advance r _).length_le
  have hstart : BlankLines.Mirrors K ⟨[], r.mark, skipIndent indent r⟩
      ⟨[], r'.mark, skipIndent indent r'⟩ := ⟨rfl, h.mark, skipIndent_mirrors indent h⟩
  refine (blankLinesFor_loops indent).related_of_lt (R := BlankLines.Mirrors K)
    (blankLinesFor_loops indent) blankRound_length blankRound_length ?_ hstart (hlength r)
    (hlength r')
  intro lines lines' hlines
  unfold blankRound
  rcases hlines.reader.lineBreak with ⟨hnone, hnone'⟩ | ⟨c, r₁, r₁', hsome, hsome', hr₁⟩
  · rw [hnone, hnone']
    exact .inr hlines
  · rw [hsome, hsome', hlines.breaks]
    exact .inl ⟨rfl, hr₁.mark, skipIndent_mirrors indent hr₁⟩

theorem detectIndent_mirrors (h : Mirrors K r r') :
    Held (BlankLines.Mirrors K) (detectIndent r) (detectIndent r') := by
  have hstart : BlankLines.Mirrors K ⟨[], r.mark, r⟩ ⟨[], r'.mark, r'⟩ := ⟨rfl, h.mark, h⟩
  refine detectIndentFor_loops.related_of_lt (R := Held (BlankLines.Mirrors K))
    detectIndentFor_loops detectRound_length detectRound_length ?_ (.same hstart 0)
    (Nat.lt_succ_self _) (Nat.lt_succ_self _)
  rintro ⟨lines, widest⟩ ⟨lines', widest'⟩ ⟨hlines, rfl⟩
  unfold detectRound
  dsimp only
  rw [hlines.reader.peek_class (p := (· == ' ')) rfl]
  split_ifs with hspace
  · have hnext := hlines.reader.next (ne_return (p := (· == ' ')) rfl hspace)
    rw [hnext.mark.column]
    exact .inl ⟨⟨hlines.breaks, hlines.stop, hnext⟩, rfl⟩
  · rcases hlines.reader.lineBreak with ⟨hnone, hnone'⟩ | ⟨c, r₁, r₁', hsome, hsome', hr₁⟩
    · rw [hnone, hnone']
      exact .inr ⟨hlines, rfl⟩
    · rw [hsome, hsome', hlines.breaks]
      exact .inl ⟨⟨rfl, hr₁.mark, hr₁⟩, rfl⟩

structure BlockRun.Mirrors (K : Pairing) (run run' : BlockRun) : Prop where
  content : run.text = run'.text
  lineBreak : run.lineBreak = run'.lineBreak
  blank : BlankLines.Mirrors K run.blank run'.blank

namespace BlockRun.Mirrors

variable {run run' next next' : BlockRun}

theorem unique {run₁ run₂ : BlockRun} (h₁ : BlockRun.Mirrors K run₁ run')
    (h₂ : BlockRun.Mirrors K run₂ run') : run₁ = run₂ := by
  obtain ⟨content₁, break₁, ⟨breaks₁, stop₁, reader₁⟩⟩ := run₁
  obtain ⟨content₂, break₂, ⟨breaks₂, stop₂, reader₂⟩⟩ := run₂
  obtain ⟨rfl, rfl, ⟨rfl, hstop₁, hreader₁⟩⟩ := h₁
  obtain ⟨rfl, rfl, ⟨rfl, hstop₂, hreader₂⟩⟩ := h₂
  cases hstop₁.unique hstop₂
  cases hreader₁.unique hreader₂
  rfl

theorem atLine (h : BlockRun.Mirrors K run run') (indent : Nat) :
    run.atLine indent = run'.atLine indent := by
  rw [BlockRun.atLine, BlockRun.atLine, h.blank.reader.mark.column, h.blank.reader.atEnd]

theorem line (h : BlockRun.Mirrors K run run') (indent : Nat) :
    BlockRun.Mirrors K (run.line indent) (run'.line indent) := by
  have hcontent := h.blank.reader.takeWhile (p := fun c => !isBreakOrEnd c) rfl rfl
  have hskip := h.blank.reader.advance_takeWhile (p := fun c => !isBreakOrEnd c) rfl
  unfold BlockRun.line
  dsimp only
  rw [hcontent, h.content, h.blank.breaks]
  rcases hskip.lineBreak with ⟨hnone, hnone'⟩ | ⟨c, r₁, r₁', hsome, hsome', hr₁⟩
  · rw [hnone, hnone']
    exact ⟨rfl, rfl, blankLines_mirrors indent hskip⟩
  · rw [hsome, hsome']
    exact ⟨rfl, rfl, blankLines_mirrors indent hr₁⟩

theorem joint (h : BlockRun.Mirrors K run run') (hnext : BlockRun.Mirrors K next next')
    (folded : Bool) : run.joint folded next = run'.joint folded next' := by
  rw [BlockRun.joint, BlockRun.joint, hnext.lineBreak, hnext.blank.breaks,
    h.blank.reader.peek_class (p := isBlank) rfl, hnext.blank.reader.peek_class (p := isBlank) rfl]

end BlockRun.Mirrors

theorem blockRound_shrinks (folded : Bool) (indent : Nat) (start : Mark) :
    Shrinks (blockRound folded indent) (blockEndless indent start)
      fun run => run.blank.reader.rest.length := by
  refine ⟨fun run run' hround => ?_, fun run hzero => ?_⟩
  · rcases blockRound_length hround with hlt | ⟨-, hstuck⟩
    · exact Or.inl hlt
    · exact Or.inr hstuck
  · exact blockRound_of_nil (List.length_eq_zero_iff.mp hzero)

theorem blockLines_mirrors {folded : Bool} {indent : Nat} {run run' : BlockRun}
    (hstart : Mark.Mirrors K start start') (h : BlockRun.Mirrors K run run') {n n' : Nat}
    (hn : run.blank.reader.rest.length ≤ n) (hn' : run'.blank.reader.rest.length ≤ n') :
    Matches K (BlockRun.Mirrors K) (blockLines folded indent start n run)
      (blockLines folded indent start' n' run') := by
  refine (blockLines_loops folded indent start).related (R := BlockRun.Mirrors K)
    (blockLines_loops folded indent start') (blockRound_shrinks folded indent start)
    (blockRound_shrinks folded indent start') ?_ (fun _ _ _ _ h₁ h₂ => h₁.unique h₂) ?_ h hn hn'
  · intro run run' hrun
    have hnext := hrun.line indent
    unfold blockRound
    dsimp only
    rw [hrun.atLine, hnext.atLine, hrun.joint hnext]
    split_ifs
    · exact .inr (.ok hrun)
    · exact .inl ⟨by rw [hnext.content], hnext.lineBreak, hnext.blank⟩
    · exact .inr (.ok hnext)
  · intro run run' hrun
    unfold blockEndless
    rw [hrun.atLine]
    split_ifs
    · exact .ok hrun
    · exact .within hstart hrun.blank.reader.mark rfl

theorem readBlockScalar_mirrors {folded : Bool} {outer : Int} (h : Mirrors K r r')
    (hpeek : r'.peek ≠ '\r') :
    Matches K (Along K (Token.Mirrors K)) (readBlockScalar folded outer r)
      (readBlockScalar folded outer r') := by
  unfold readBlockScalar
  refine (blockHeader_mirrors h.mark (h.next hpeek)).bind ?_
  rintro ⟨header, r₁⟩ ⟨header', r₁'⟩ ⟨rfl, hr₁⟩
  refine (headerLineEnd_mirrors h.mark hr₁).bind ?_
  intro r₂ r₂' hr₂
  -- However the indentation was found, the lines are read from corresponding places on.
  have hscalar : ∀ {blank blank' : BlankLines} (indent : Nat),
      BlankLines.Mirrors K blank blank' → r₂.Leads blank.reader → r₂'.Leads blank'.reader →
      Matches K (Along K (Token.Mirrors K))
        (do
          let run ← blockLines folded indent r.mark r₂.rest.length ⟨[], none, blank⟩
          return (⟨.scalar (String.ofList (run.chomp header.chomping))
            (if folded then Style.folded else Style.literal), r.mark, run.blank.stop⟩,
            run.blank.reader))
        (do
          let run ← blockLines folded indent r'.mark r₂'.rest.length ⟨[], none, blank'⟩
          return (⟨.scalar (String.ofList (run.chomp header.chomping))
            (if folded then Style.folded else Style.literal), r'.mark, run.blank.stop⟩,
            run.blank.reader)) := by
    intro blank blank' indent hblank hleads hleads'
    have hfirst : BlockRun.Mirrors K ⟨[], none, blank⟩ ⟨[], none, blank'⟩ := ⟨rfl, rfl, hblank⟩
    refine (blockLines_mirrors h.mark hfirst hleads.length_le hleads'.length_le).bind ?_
    intro run run' hrun
    have hchomp : run.chomp header.chomping = run'.chomp header.chomping := by
      unfold BlockRun.chomp
      rw [hrun.content, hrun.lineBreak, hrun.blank.breaks]
    rw [hchomp]
    exact .ok ⟨⟨rfl, h.mark, hrun.blank.stop⟩, hrun.blank.reader⟩
  cases hindent : header.indent with
  | some n =>
      exact hscalar _ (blankLines_mirrors _ hr₂) (blankLines_leads _ _) (blankLines_leads _ _)
  | none =>
      obtain ⟨hblank, hwidest⟩ := detectIndent_mirrors hr₂
      dsimp only
      rw [hwidest]
      exact hscalar _ hblank (detectIndentFor_leads _ _ _) (detectIndentFor_leads _ _ _)

end Playbook
