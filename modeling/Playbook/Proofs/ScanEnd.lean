import Playbook.Proofs.LookAhead
import Playbook.Proofs.TokenBudget

/-!
Reading a text comes to an end. In a text without NUL every loop ends by itself, so that no token is
given up, and the tokens go on to the end of the stream or to a problem that the text really has.
-/

namespace Playbook

namespace Reader

/-- Every loop that looks at one character after the other from here on ends by itself, at what the
reading takes for its result. -/
structure LooksEnd (r : Reader) : Prop where
  -- spaces before a token, in a block header and between the lines of a plain scalar
  spaces : Comes (readRound (· == ' ')) r (.inr (r.skipWhile (· == ' ')))
  -- blanks between the words of a directive and at the start of quoted lines
  blanks : Comes (readRound isBlank) r (.inr (r.skipWhile isBlank))
  -- comments before a token, behind a directive and in a block header
  comment : r.peek = '#' → Comes (readRound fun c => !isBreakOrEnd c) r (.inr r.skipComment)
  -- names of directives, anchors, aliases and tag handles
  word : Comes (lookRound fun n => isWord (r.peekAt n)) 0 (.inr (r.rest.takeWhile isWord).length)
  param : Comes (lookRound fun n => !isBlankOrEnd (r.peekAt n)) 0
    (.inr (r.rest.takeWhile fun c => !isBlankOrEnd c).length)
  bang : Comes (bangRound r) 1
    (.inr ((r.next.rest.takeWhile fun c => !isSpaceOrEnd c).contains '!'))
  uri : Comes (lookRound fun n => isUri (r.peekAt n)) 0 (.inr (r.rest.takeWhile isUri).length)
  line : Comes (lookRound fun n => !isBreakOrEnd (r.peekAt n)) 0
    (.inr (r.rest.takeWhile fun c => !isBreakOrEnd c).length)
  lineIndent : ∀ indent, Comes (indentRound indent) r (.inr (skipIndent indent r))
  letters : Comes (lookRound fun n => isQuotedLetter (r.peekAt n)) 0
      (.inr (r.rest.takeWhile isQuotedLetter).length) ∧
    ∀ double start n text,
      quotedText double start (n + (r.rest.takeWhile isQuotedLetter).length) r text =
        quotedText double start n (r.skipWhile isQuotedLetter)
          ((r.rest.takeWhile isQuotedLetter).reverse ++ text)
  quotedBlanks : Comes (lookRound fun n => isBlank (r.peekAt n)) 0
    (.inr (r.rest.takeWhile isBlank).length)
  piece : ∀ inFlow,
    Comes (lookRound fun n => !plainStops inFlow (r.peekAt n) (r.peekAt (n + 1))) 0
      (.inr (plainPiece inFlow r.rest).length)
  plainSpaces : Comes (lookRound fun n => r.peekAt n == ' ') 0
    (.inr (r.rest.takeWhile (· == ' ')).length)

/-- NUL fails the test of each of them, so they end at the end of the text at the latest. -/
theorem looksEnd (r : Reader) : r.LooksEnd where
  spaces := comes_skipWhile rfl r
  blanks := comes_skipWhile rfl r
  comment hpeek := by
    rw [skipComment, if_pos (by simpa using hpeek)]
    exact comes_skipWhile rfl r
  word := comes_takeWhile isWord (by decide) r
  param := comes_takeWhile (!isBlankOrEnd ·) rfl r
  bang := by
    have hnext : r.next.rest = r.rest.drop 1 := advance_rest 1 r
    rw [hnext]
    exact comes_bang r 1
  uri := comes_takeWhile isUri (by decide) r
  line := comes_takeWhile (!isBreakOrEnd ·) rfl r
  lineIndent indent := comes_skipIndent indent r
  letters := ⟨comes_takeWhile isQuotedLetter rfl r,
    fun double start n => quotedText_letters double start n r⟩
  quotedBlanks := comes_takeWhile isBlank rfl r
  piece inFlow := comes_plainPiece inFlow r
  plainSpaces := comes_takeWhile (· == ' ') rfl r

/-- Every loop that is begun here ends by itself, and the bound on it does not change its result. -/
structure LoopsEnd (r : Reader) : Prop extends LooksEnd r where
  trivia : Comes triviaRound (r, false) (.inr r.skipTrivia)
  params : Comes directiveRound (r, []) (.inr (directiveParams (r.rest.length + 1) r []))
  quotedBreaks : ∀ start, Comes (quotedBreaksRound start) (r, [])
    (.inr (quotedBreaks start (r.rest.length + 1) r []))
  quoted : ∀ double start, Comes (quotedRound double start) (r.next, [])
    (.inr (quotedText double start (r.rest.length + 1) r.next []))
  plainBreaks : Comes plainBreaksRound (r, []) (.inr (plainBreaks (r.rest.length + 1) r []))
  plain : ∀ inFlow indent, Comes (plainRound inFlow indent) (⟨[], r.mark, r, false⟩, [])
    (.inr (plainRun inFlow indent (r.rest.length + 1) ⟨[], r.mark, r, false⟩ []))
  blank : ∀ indent, Comes (blankRound indent) ⟨[], r.mark, skipIndent indent r⟩
    (.inr (blankLines indent r))
  indent : Comes detectRound (⟨[], r.mark, r⟩, 0) (.inr (detectIndent r))
  block : ∀ folded indent start blank, r.Leads blank.reader →
    Comes (blockRound folded indent) ⟨[], none, blank⟩
      (.inr (blockLines folded indent start r.rest.length ⟨[], none, blank⟩))

end Reader

open Reader

/-! ### Scalars that a NUL could hold up -/

theorem quotedText_ends (double : Bool) (start : Mark) {n : Nat} {s : Reader × List Char}
    (hnul : nul ∉ s.1.rest) (hn : s.1.rest.length < n) :
    Comes (quotedRound double start) s (.inr (quotedText double start n s.1 s.2)) := by
  refine (quotedText_loops double start).ends (fun s => s.1.rest.length + 1)
    (P := fun s => nul ∉ s.1.rest) (fun s s' hs hround => ?_)
    (fun _ hzero => absurd hzero (Nat.succ_ne_zero _)) hnul hn
  rcases quotedRound_length hround with hlt | ⟨hmem, -⟩
  · exact ⟨fun hmem => hs ((quotedRound_leads hround).rest_subset hmem), Nat.succ_lt_succ hlt⟩
  · exact absurd hmem hs

theorem blockLines_ends (folded : Bool) (indent : Nat) (start : Mark) {n : Nat} {run : BlockRun}
    (hnul : nul ∉ run.blank.reader.rest) (hn : run.blank.reader.rest.length ≤ n) :
    Comes (blockRound folded indent) run (.inr (blockLines folded indent start n run)) := by
  refine (blockLines_loops folded indent start).ends (fun run => run.blank.reader.rest.length)
    (P := fun run => nul ∉ run.blank.reader.rest) (fun run run' hs hround => ?_)
    (fun run hzero => ?_) hnul hn
  · rcases blockRound_length hround with hlt | ⟨hmem, -⟩
    · exact ⟨fun hmem => hs ((blockRound_leads hround).rest_subset hmem), hlt⟩
    · exact absurd hmem hs
  · exact blockRound_of_nil (List.length_eq_zero_iff.mp hzero)

theorem Reader.loopsEnd {r : Reader} (hnul : nul ∉ r.rest) : r.LoopsEnd where
  toLooksEnd := r.looksEnd
  trivia := skipTriviaFor_loops.ends_of_lt triviaRound_length (Nat.lt_succ_self _)
  params := directiveParams_loops.ends_of_lt directiveRound_length (Nat.lt_succ_self _)
  quotedBreaks start :=
    (quotedBreaks_loops start).ends_of_lt quotedBreaksRound_length (Nat.lt_succ_self _)
  quoted double start := by
    have hleads := Leads.next r
    exact quotedText_ends double start (fun hmem => hnul (hleads.rest_subset hmem))
      (Nat.lt_succ_of_le hleads.length_le)
  plainBreaks := plainBreaks_loops.ends_of_lt plainBreaksRound_length (Nat.lt_succ_self _)
  plain inFlow indent :=
    (plainRun_loops inFlow indent).ends_of_lt plainRound_length (Nat.lt_succ_self _)
  blank indent := (blankLinesFor_loops indent).ends_of_lt blankRound_length
    (Nat.lt_succ_of_le (Leads.advance r _).length_le)
  indent := detectIndentFor_loops.ends_of_lt detectRound_length (Nat.lt_succ_self _)
  block folded indent start blank hleads :=
    blockLines_ends folded indent start (fun hmem => hnul (hleads.rest_subset hmem))
      hleads.length_le

/-! ### Problems that the text really has -/

/-- The problem is not that the reading was given up. -/
def Diagnostic.Genuine (d : Diagnostic) : Prop := d.problem ≠ .endless

abbrev Genuine {α : Type} (x : Except Diagnostic α) : Prop := Faults Diagnostic.Genuine x

theorem genuine_bind {α β : Type} {x : Except Diagnostic α} {f : α → Except Diagnostic β}
    (hx : Genuine x) (hf : ∀ a, x = .ok a → Genuine (f a)) : Genuine (x >>= f) := by
  intro d hd
  rcases bind_eq_error_iff.mp hd with hd | ⟨a, ha, hd⟩
  · exact hx d hd
  · exact hf a ha d hd

theorem genuine_within {α : Type} {stage : Stage} {activity : Activity} {start mark : Mark}
    {problem : Problem} (h : problem ≠ .endless) :
    Genuine (.error (.within stage activity start problem mark) : Except Diagnostic α) :=
  faults_error h

theorem readName_genuine (context : Activity) (kind : String → TokenKind) (r : Reader) :
    Genuine (readName context kind r) := by
  unfold readName
  exact faults_ite (fun _ => genuine_within nofun) fun _ => faults_ok _

theorem tagUri_genuine (start : Mark) (r : Reader) : Genuine (tagUri start r) := by
  unfold tagUri
  exact faults_ite (fun _ => genuine_within nofun) fun _ => faults_ok _

theorem tagHandle_genuine (start : Mark) (r : Reader) : Genuine (tagHandle start r) := by
  unfold tagHandle
  exact faults_ite (fun _ => faults_ok _) fun _ => genuine_within nofun

theorem tagParts_genuine (r : Reader) : Genuine (tagParts r) := by
  unfold tagParts
  refine faults_ite (fun _ => ?_) fun _ => faults_ite (fun _ => faults_ok _) fun _ =>
    faults_ite (fun _ => ?_) fun _ => ?_
  · exact faults_bind (tagUri_genuine _ _) fun _ =>
      faults_ite (fun _ => faults_ok _) fun _ => genuine_within nofun
  · exact faults_bind (tagHandle_genuine _ _) fun _ =>
      faults_bind (tagUri_genuine _ _) fun _ => faults_ok _
  · exact faults_bind (tagUri_genuine _ _) fun _ => faults_ok _

theorem readTag_genuine (r : Reader) : Genuine (readTag r) :=
  faults_bind (tagParts_genuine r) fun _ =>
    faults_ite (fun _ => faults_ok _) fun _ => genuine_within nofun

theorem readDirective_genuine (r : Reader) : Genuine (readDirective r) := by
  unfold readDirective
  refine faults_ite (fun _ => genuine_within nofun) fun _ => ?_
  dsimp only
  split <;> exact faults_ok _

theorem quotedBreaks_genuine (start : Mark) (r : Reader) (breaks : List Char) :
    Genuine (quotedBreaks start (r.rest.length + 1) r breaks) := by
  intro d hd
  have hcomes := (quotedBreaks_loops start).ends_of_lt quotedBreaksRound_length
    (s := (r, breaks)) (Nat.lt_succ_self _)
  obtain ⟨s, hround⟩ := hcomes.result
  rw [hd] at hround
  unfold quotedBreaksRound at hround
  split_ifs at hround
  · cases hround
    nofun
  · dsimp only at hround
    split at hround <;> cases hround

theorem quotedGap_genuine (start : Mark) (r : Reader) : Genuine (quotedGap start r) := by
  unfold quotedGap
  refine faults_ite (fun _ => genuine_within nofun) fun _ => ?_
  split
  · exact faults_ok _
  · exact faults_bind (quotedBreaks_genuine _ _ _) fun _ => faults_ok _

theorem quotedEscape_genuine (start : Mark) (r : Reader) : Genuine (quotedEscape start r) := by
  unfold quotedEscape
  split
  · exact faults_ok _
  · split
    · exact faults_ok _
    · exact genuine_within nofun
  · split
    · exact quotedBreaks_genuine _ _ _
    · exact genuine_within nofun

theorem quotedPiece_genuine (double : Bool) (start : Mark) (r : Reader) :
    Genuine (quotedPiece double start r) := by
  unfold quotedPiece
  refine faults_ite (fun _ => faults_ite (fun _ => faults_ok _) fun _ => faults_ok _) fun _ => ?_
  refine faults_ite (fun _ => faults_ok _) fun _ => ?_
  refine faults_ite (fun _ => faults_map (quotedEscape_genuine _ _)) fun _ => ?_
  exact faults_ite (fun _ => faults_map (quotedGap_genuine _ _)) fun _ => faults_ok _

theorem readQuoted_genuine (double : Bool) {r : Reader} (hnul : nul ∉ r.rest) :
    Genuine (readQuoted double r) := by
  refine faults_bind (fun d hd => ?_) fun _ => faults_ok _
  obtain ⟨s, hround⟩ := ((loopsEnd hnul).quoted double r.mark).result
  rw [hd] at hround
  unfold quotedRound at hround
  split at hround
  · rename_i hpiece
    cases hround
    exact quotedPiece_genuine double r.mark s.1 _ hpiece
  · cases hround
  · cases hround

theorem headerIndent_genuine (start : Mark) (r : Reader) : Genuine (headerIndent start r) := by
  unfold headerIndent
  split
  · exact faults_ok _
  · exact genuine_within nofun
  · exact faults_ok _

theorem blockHeader_genuine (start : Mark) (r : Reader) : Genuine (blockHeader start r) := by
  have hend : ∀ (header : BlockHeader) (r : Reader), Genuine (if isSpaceOrEnd r.peek then
      pure (header, r)
      else .error (.within .tokens .blockScalar start (.expectedBlockHeader r.peek) r.mark)) :=
    fun _ _ => faults_ite (fun _ => faults_ok _) fun _ => genuine_within nofun
  unfold blockHeader
  dsimp only
  split
  · exact faults_bind (headerIndent_genuine _ _) fun _ =>
      faults_bind (faults_ok _) fun _ => hend _ _
  · refine faults_bind (headerIndent_genuine _ _) fun _ => ?_
    split <;> exact faults_bind (faults_ok _) fun _ => hend _ _

theorem headerLineEnd_genuine (start : Mark) (r : Reader) : Genuine (headerLineEnd start r) := by
  unfold headerLineEnd
  dsimp only
  split
  · exact faults_ok _
  · exact faults_ite (fun _ => faults_ok _) fun _ => genuine_within nofun

/-- Nothing can go wrong with the lines of a block scalar. -/
theorem blockLines_genuine {folded : Bool} {indent : Nat} {start : Mark} {r : Reader}
    {blank : BlankLines} (hnul : nul ∉ r.rest) (hleads : r.Leads blank.reader) :
    Genuine (blockLines folded indent start r.rest.length ⟨[], none, blank⟩) := by
  intro d hd
  obtain ⟨run, hround⟩ := ((loopsEnd hnul).block folded indent start blank hleads).result
  rw [hd] at hround
  unfold blockRound at hround
  dsimp only at hround
  split_ifs at hround <;> cases hround

theorem readBlockScalar_genuine (folded : Bool) (outer : Int) {r : Reader} (hnul : nul ∉ r.rest) :
    Genuine (readBlockScalar folded outer r) := by
  unfold readBlockScalar
  refine genuine_bind (blockHeader_genuine _ _) fun ⟨header, r₁⟩ hheader => ?_
  refine genuine_bind (headerLineEnd_genuine _ _) fun r₂ hline => ?_
  have hleads : r.Leads r₂ :=
    (Leads.next r).trans ((blockHeader_leads hheader).trans (headerLineEnd_leads hline))
  refine faults_bind (blockLines_genuine (fun hmem => hnul (hleads.rest_subset hmem)) ?_)
    fun _ => faults_ok _
  dsimp only
  split
  · exact blankLines_leads _ _
  · exact detectIndentFor_leads _ _ _

namespace TokenStream

variable {s s' : TokenStream}

theorem removeKey_genuine (s : TokenStream) : Genuine s.removeKey := by
  unfold removeKey
  split
  · exact faults_ite (fun _ => genuine_within nofun) fun _ => faults_ok _
  · exact faults_ok _

theorem dropStaleKeys_genuine (s : TokenStream) : Genuine s.dropStaleKeys := by
  unfold dropStaleKeys
  split
  · exact genuine_within nofun
  · exact faults_ok _

theorem saveKey_genuine (s : TokenStream) : Genuine s.saveKey :=
  faults_ite (fun _ => faults_bind s.removeKey_genuine fun _ => faults_ok _) fun _ => faults_ok _

theorem openBlock_genuine (s : TokenStream) (kind : TokenKind) {refusal : Problem}
    (h : refusal ≠ .endless) : Genuine (s.openBlock kind refusal) := by
  refine faults_ite (fun _ => faults_ok _) fun _ => faults_ite (fun _ => faults_error h) fun _ => ?_
  split <;> exact faults_ok _

theorem fetchKeyed_genuine {read : Reader → Except Diagnostic (Token × Reader)}
    (hread : Genuine (read s.reader)) : Genuine (s.fetchKeyed read) := by
  refine genuine_bind s.saveKey_genuine fun s₁ hsave => ?_
  rw [(saveKey_saved hsave).prepared.reader]
  exact faults_bind hread fun _ => faults_ok _

theorem fetchValue_genuine (s : TokenStream) : Genuine s.fetchValue := by
  unfold fetchValue
  split
  · exact faults_ok _
  · exact faults_bind (openBlock_genuine _ _ nofun) fun _ => faults_ok _

theorem fetchSign_genuine (hnul : nul ∉ s.reader.rest) : Genuine s.fetchSign := by
  have hbranch := s.fetchSign_branch
  generalize s.fetchSign = x at hbranch
  cases hbranch with
  | atEnd => exact faults_bind (removeKey_genuine _) fun _ => faults_ok _
  | directive =>
      exact faults_bind (removeKey_genuine _) fun _ =>
        faults_bind (readDirective_genuine _) fun _ => faults_ok _
  | documentSign => exact faults_ok _
  | flowStart => exact faults_bind s.saveKey_genuine fun _ => faults_ok _
  | flowEnd => exact faults_bind s.removeKey_genuine fun _ => faults_ok _
  | flowEntry => exact faults_bind s.removeKey_genuine fun _ => faults_ok _
  | blockEntry =>
      exact faults_bind (openBlock_genuine _ _ nofun) fun _ =>
        faults_bind (removeKey_genuine _) fun _ => faults_ok _
  | key =>
      exact faults_bind (openBlock_genuine _ _ nofun) fun _ =>
        faults_bind (removeKey_genuine _) fun _ => faults_ok _
  | value => exact s.fetchValue_genuine
  | name => exact fetchKeyed_genuine (readName_genuine _ _ _)
  | tag => exact fetchKeyed_genuine (readTag_genuine _)
  | blockScalar _ folded =>
      refine genuine_bind s.removeKey_genuine fun s₁ hremove => ?_
      rw [(removeKey_dropped hremove).prepared.reader]
      exact faults_bind (readBlockScalar_genuine folded _ hnul) fun _ => faults_ok _
  | quoted _ double => exact fetchKeyed_genuine (readQuoted_genuine double hnul)
  | plain => exact faults_bind s.saveKey_genuine fun _ => faults_ok _
  | none => exact faults_error nofun

theorem fetch_genuine (hnul : nul ∉ s.reader.rest) : Genuine s.fetch := by
  refine genuine_bind (dropStaleKeys_genuine _) fun s₁ hdrop => ?_
  refine fetchSign_genuine fun hmem => hnul (s.skipToToken_leads.rest_subset ?_)
  rwa [((dropStaleKeys_dropped hdrop).prepared.trans
    (s₁.unwind_moved s₁.mark.column).prepared).reader] at hmem

theorem needsMore_genuine (s : TokenStream) : Genuine s.needsMore :=
  faults_ite (fun _ => faults_ok _) fun _ => faults_ite (fun _ => faults_ok _) fun _ =>
    faults_bind s.dropStaleKeys_genuine fun _ => faults_ok _

/-- The loop that fills the queue ends by itself in every text. -/
theorem fill_ends (s : TokenStream) : Comes fillRound s (.inr s.fill) :=
  fillFor_loops.ends_of_lt fillRound_unread (Nat.lt_succ_of_le s.unread_le)

theorem fill_genuine (hnul : nul ∉ s.reader.rest) : Genuine s.fill := by
  intro d hd
  obtain ⟨s', hs', hround⟩ := s.fill_ends.result_of (P := fun s' => nul ∉ s'.reader.rest)
    (fun _ _ hs hround hmem => hs ((fillRound_leads hround).rest_subset hmem)) hnul
  rw [hd] at hround
  unfold fillRound at hround
  split at hround
  · rename_i hmore
    cases hround
    exact s'.needsMore_genuine _ hmore
  · cases hround
  · rename_i hmore
    rw [← needsMore_reader hmore] at hs'
    split at hround
    · rename_i hfetch
      cases hround
      exact fetch_genuine hs' _ hfetch
    · cases hround

theorem next_genuine (hnul : nul ∉ s.reader.rest) : Genuine s.next := by
  refine faults_bind (fill_genuine hnul) fun s₁ => ?_
  cases s₁.queue with
  | nil => exact faults_ok _
  | cons token queue => exact faults_ok _

theorem Hands.leads {tokens : List Token} (h : s.Hands tokens s') : s.reader.Leads s'.reader := by
  induction h with
  | nil => exact .refl _
  | cons hnext _ ih =>
      obtain ⟨s₁, queue, hfill, -, rfl⟩ := next_eq_some hnext
      exact (fill_leads hfill).trans ih

/-- A fetch reads something or comes to the end of the stream. -/
theorem Fetch.reads (h : s.Fetch s') : s'.reader.rest.length < s.reader.rest.length ∨
    ∃ stop, s'.queue.getLast? = some stop ∧ stop.kind = .streamEnd := by
  obtain ⟨hdone, hfetch⟩ := h
  have hfetched := fetch_fetched hfetch
  rcases hfetched.ending with hsame | hstop
  · left
    simpa [hsame, hdone] using hfetched.progress
  · exact Or.inr hstop

end TokenStream

namespace Token

/-- The tokens of a text without NUL. Every loop that is begun in the text ends, so does the closing
of blocks, and every fetch reads something or comes to the end of the stream. So the tokens are handed out one by one: from the
start of the stream to its end, behind which there is never another, or up to a problem of the text.
-/
theorem ofText_ends {text : List Char} (hnul : nul ∉ text) :
    (∀ r, (Reader.start text).Leads r → r.LoopsEnd) ∧
    (∀ (s : TokenStream) (column : Int), -1 ≤ column →
      Comes (TokenStream.closeRound column s.mark) (s.indent, s.indents, s.queue)
        (.inr (TokenStream.closeBlocks column s.mark s.indent s.indents s.queue))) ∧
    (∀ s : TokenStream, Comes TokenStream.fillRound s (.inr s.fill)) ∧
    (∀ s s' : TokenStream, s.Fetch s' → s'.reader.rest.length < s.reader.rest.length ∨
      ∃ stop, s'.queue.getLast? = some stop ∧ stop.kind = .streamEnd) ∧
    ∃ last, (TokenStream.start text).Hands (ofText text).items last ∧
      (ofText text).items.head? = some ⟨.streamStart, .origin, .origin⟩ ∧
      (((ofText text).fault = none ∧ last.next = .ok (none, last) ∧
        ∃ init stop, (ofText text).items = init ++ [stop] ∧ stop.kind = .streamEnd ∧
          ∀ token ∈ init, token.kind ≠ .streamEnd) ∨
      ∃ d, (ofText text).fault = some d ∧ last.next = .error d ∧ d.stage = .tokens ∧
        d.problem ≠ .endless ∧ ∀ token ∈ (ofText text).items, token.kind ≠ .streamEnd) := by
  have hbased := TokenStream.based_start text
  have hbudget : (TokenStream.start text).budget < 4 * text.length + 8 := by
    rw [TokenStream.budget_start]
    omega
  have hstart : (TokenStream.start text).Ending [] := by
    refine ⟨fun _ => by simp [TokenStream.start], fun hdone => ?_⟩
    cases hdone
  obtain ⟨last, hhands, hend⟩ := TokenStream.collect_hands hbased hbudget
  obtain ⟨-, hopen, hclosed⟩ := hhands.ending hbased hstart
  refine ⟨fun r hleads => loopsEnd fun hmem => hnul (hleads.rest_subset hmem),
    fun s column hcolumn => TokenStream.comes_closeBlocks hcolumn _ _ _ _, TokenStream.fill_ends, fun _ _ => TokenStream.Fetch.reads, last, hhands, rfl, ?_⟩
  rcases hend with ⟨hfault, s', hnext⟩ | ⟨d, hfault, hnext⟩
  · obtain ⟨rfl, hdone, hqueue⟩ := TokenStream.next_none hnext
    have hstop := hclosed hdone
    rw [hqueue, List.append_nil, List.nil_append] at hstop
    exact Or.inl ⟨hfault, hnext, hstop⟩
  · have hmore : last.done = false := by
      by_contra hdone
      have hfill := TokenStream.fill_of_done (s := last) (by simpa using hdone)
      rw [TokenStream.next, hfill] at hnext
      cases hqueue : last.queue <;> simp [hqueue] at hnext
    have hlast : nul ∉ last.reader.rest := fun hmem => hnul (hhands.leads.rest_subset hmem)
    refine Or.inr ⟨d, hfault, hnext, (last.next_faults d hnext).stage,
      TokenStream.next_genuine hlast d hnext, fun token htoken => ?_⟩
    exact hopen hmore token (List.mem_append_left _ htoken)

/-- A list that is never closed: all its tokens and the end of the stream. -/
theorem ofText_ends_open_list :
    nul ∉ "[a".toList ∧
      ∃ last, (TokenStream.start "[a".toList).Hands (ofText "[a".toList).items last ∧
        last.next = .ok (none, last) := by
  have hnul : nul ∉ "[a".toList := by decide
  obtain ⟨-, -, -, -, last, hhands, -, hend⟩ := ofText_ends hnul
  refine ⟨hnul, last, hhands, ?_⟩
  rcases hend with ⟨-, hnext, -⟩ | ⟨d, hfault, -⟩
  · exact hnext
  · have hnone : (ofText "[a".toList).fault = none := by decide
    rw [hnone] at hfault
    cases hfault

end Token

end Playbook
