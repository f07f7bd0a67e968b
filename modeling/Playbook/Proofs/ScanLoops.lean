import Playbook.Proofs.Loop
import Playbook.Proofs.ScalarText
import Playbook.Proofs.TokenQueue

/-!
The loops that read a text, round by round. A round reads something or is the last, but for two
loops: a NUL inside quotes or at the start of a line of a block scalar is neither read nor an end.
-/

namespace Playbook

namespace Reader

theorem not_atEnd_of_peek {r : Reader} (h : r.peek ≠ nul) : r.atEnd = false := by
  by_contra hend
  have hnil : r.rest = [] := by simpa [atEnd] using hend
  simp [peek, hnil] at h

theorem nul_mem_of_peek {r : Reader} (h : r.peek = nul) (hend : r.rest ≠ []) : nul ∈ r.rest := by
  cases hrest : r.rest with
  | nil => exact absurd hrest hend
  | cons c rest =>
      have hc : c = nul := by simpa [peek, hrest] using h
      simp [hc]

theorem lineBreak?_eq_none_iff {r : Reader} : r.lineBreak? = none ↔ isBreak r.peek = false := by
  refine ⟨fun h => ?_, lineBreak?_eq_none⟩
  unfold lineBreak? at h
  split_ifs at h with hpair hfeed hseparator
  simp only [Bool.or_eq_true, not_or, Bool.not_eq_true] at hfeed hseparator
  simp [isBreak, hfeed, hseparator]

theorem length_lt_of_lineBreak {r r' : Reader} {c : Char} (h : r.lineBreak? = some (c, r')) :
    r'.rest.length < r.rest.length := by
  refine (Leads.lineBreak h).length_lt (not_atEnd_of_peek fun hpeek => ?_)
  rw [lineBreak?_eq_none (by rw [hpeek]; rfl)] at h
  cases h

/-- What reading leaves is part of what was to be read. -/
theorem Leads.rest_subset {r r' : Reader} (h : r.Leads r') : r'.rest ⊆ r.rest := by
  obtain ⟨n, rfl⟩ := h
  rw [advance_rest]
  exact List.drop_subset n _

/-- Reading a stretch that is not empty leaves less. -/
theorem length_advance_lt {r : Reader} {stretch : List Char} (hne : stretch ≠ [])
    (hinitial : stretch <+: r.rest) : (r.advance stretch.length).rest.length < r.rest.length := by
  have hpos := List.length_pos_iff.mpr hne
  have hle := hinitial.length_le
  rw [advance_rest, List.length_drop]
  omega

theorem takeWhile_ne_nil {r : Reader} {p : Char → Bool} (hnul : p nul = false)
    (hpeek : p r.peek = true) : r.rest.takeWhile p ≠ [] := by
  cases hrest : r.rest with
  | nil => simp [peek, hrest, hnul] at hpeek
  | cons c rest =>
      have hc : p c = true := by simpa [peek, hrest] using hpeek
      simp [hc]

theorem skipWhile_rest (r : Reader) (p : Char → Bool) :
    (r.skipWhile p).rest = r.rest.dropWhile p := by
  rw [skipWhile, advance_rest]
  calc r.rest.drop (r.rest.takeWhile p).length
      = (r.rest.takeWhile p ++ r.rest.dropWhile p).drop (r.rest.takeWhile p).length := by
        rw [List.takeWhile_append_dropWhile]
    _ = r.rest.dropWhile p := List.drop_left

theorem peek_skipWhile {r : Reader} {p : Char → Bool} (hnul : p nul = false) :
    p (r.skipWhile p).peek = false := by
  rw [peek, skipWhile_rest]
  cases hdrop : r.rest.dropWhile p with
  | nil => exact hnul
  | cons c rest =>
      have hne : r.rest.dropWhile p ≠ [] := by simp [hdrop]
      simpa [hdrop] using List.head_dropWhile_not p hne

/-! ### Skipping to the next token -/

def triviaRound (s : Reader × Bool) : (Reader × Bool) ⊕ (Reader × Bool) :=
  let r := (s.1.skipWhile (· == ' ')).skipComment
  match r.lineBreak? with
  | some (_, r) => .inl (r, true)
  | none => .inr (r, s.2)

theorem skipTriviaFor_loops : Loops (fun n s => skipTriviaFor n s.1 s.2) triviaRound id := by
  refine ⟨fun _ => rfl, fun n s => ?_⟩
  rw [skipTriviaFor, triviaRound]
  cases ((s.1.skipWhile (· == ' ')).skipComment).lineBreak? <;> rfl

theorem triviaRound_length {s s' : Reader × Bool} (h : triviaRound s = .inl s') :
    s'.1.rest.length < s.1.rest.length := by
  unfold triviaRound at h
  dsimp only at h
  split at h
  · rename_i hbreak
    cases h
    have hleads := (Leads.skipWhile s.1 (· == ' ')).trans (.skipComment _)
    exact Nat.lt_of_lt_of_le (length_lt_of_lineBreak hbreak) hleads.length_le
  · cases h

end Reader

open Reader

/-! ### Directives -/

def directiveRound (s : Reader × List String) :
    (Reader × List String) ⊕ (List String × Reader) :=
  let r := s.1.skipWhile isBlank
  if r.peek == '#' || isBreakOrEnd r.peek then .inr (s.2, r)
  else
    let word := r.rest.takeWhile (fun c => !isBlankOrEnd c)
    .inl (r.advance word.length, s.2 ++ [String.ofList word])

theorem directiveParams_loops :
    Loops (fun n s => directiveParams n s.1 s.2) directiveRound fun s => (s.2, s.1) := by
  refine ⟨fun _ => rfl, fun n s => ?_⟩
  rw [directiveParams, directiveRound]
  dsimp only
  split_ifs <;> rfl

theorem directiveRound_length {s s' : Reader × List String} (h : directiveRound s = .inl s') :
    s'.1.rest.length < s.1.rest.length := by
  unfold directiveRound at h
  dsimp only at h
  split_ifs at h with hend
  cases h
  have hblank : isBlank (s.1.skipWhile isBlank).peek = false := peek_skipWhile rfl
  have hword : isBlankOrEnd (s.1.skipWhile isBlank).peek = false := by
    simp only [Bool.or_eq_true, not_or, Bool.not_eq_true] at hend
    simp only [isBlank, Bool.or_eq_false_iff] at hblank
    simp [isBlankOrEnd, isSpaceOrEnd, hend.2, hblank]
  have hne := takeWhile_ne_nil (r := s.1.skipWhile isBlank) (p := fun c => !isBlankOrEnd c) rfl
    (by simp [hword])
  exact Nat.lt_of_lt_of_le (length_advance_lt hne (List.takeWhile_prefix _))
    (Leads.skipWhile s.1 isBlank).length_le

/-! ### Quoted scalars -/

def quotedBreaksRound (start : Mark) (s : Reader × List Char) :
    (Reader × List Char) ⊕ Except Diagnostic (List Char × Reader) :=
  if s.1.atSeparator then
    .inr (.error (.within .tokens .quoted start .unexpectedSeparator s.1.mark))
  else
    let r := s.1.skipWhile isBlank
    match r.lineBreak? with
    | none => .inr (.ok (s.2, r))
    | some (c, r) => .inl (r, s.2 ++ [c])

def quotedEndless {α : Type} (start : Mark) (s : Reader × List Char) : Except Diagnostic α :=
  .error (.within .tokens .quoted start .endless s.1.mark)

theorem quotedBreaks_loops (start : Mark) :
    Loops (fun n s => quotedBreaks start n s.1 s.2) (quotedBreaksRound start)
      (quotedEndless start) := by
  refine ⟨fun _ => rfl, fun n s => ?_⟩
  rw [quotedBreaks, quotedBreaksRound]
  dsimp only
  split_ifs
  · rfl
  · cases (s.1.skipWhile isBlank).lineBreak? <;> rfl

theorem quotedBreaksRound_length {start : Mark} {s s' : Reader × List Char}
    (h : quotedBreaksRound start s = .inl s') : s'.1.rest.length < s.1.rest.length := by
  unfold quotedBreaksRound at h
  split_ifs at h
  dsimp only at h
  split at h
  · cases h
  · rename_i hbreak
    cases h
    exact Nat.lt_of_lt_of_le (length_lt_of_lineBreak hbreak) (Leads.skipWhile s.1 _).length_le

def quotedRound (double : Bool) (start : Mark) (s : Reader × List Char) :
    (Reader × List Char) ⊕ Except Diagnostic (List Char × Reader) :=
  match quotedPiece double start s.1 with
  | .error d => .inr (.error d)
  | .ok none => .inr (.ok (s.2.reverse, s.1.next))
  | .ok (some (piece, r)) => .inl (r, piece.reverse ++ s.2)

theorem quotedText_loops (double : Bool) (start : Mark) :
    Loops (fun n s => quotedText double start n s.1 s.2) (quotedRound double start)
      (quotedEndless start) := by
  refine ⟨fun _ => rfl, fun n s => ?_⟩
  rw [quotedText, quotedRound]
  cases quotedPiece double start s.1 with
  | error d => rfl
  | ok found => cases found <;> rfl

/-- A gap takes up some text, unless it starts with a NUL. -/
theorem quotedGap_length {start : Mark} {r r' : Reader} {piece : List Char}
    (hblank : isBlankOrEnd r.peek = true) (h : quotedGap start r = .ok (piece, r')) :
    r'.rest.length < r.rest.length ∨ (nul ∈ r.rest ∧ piece = [] ∧ r' = r) := by
  unfold quotedGap at h
  dsimp only at h
  split_ifs at h with hend
  split at h
  · rename_i hnone
    cases h
    by_cases hnil : r.rest.takeWhile isBlank = []
    · rw [hnil] at hend hnone ⊢
      have hbreak : isBreak r.peek = false := lineBreak?_eq_none_iff.mp hnone
      have hnotBlank : isBlank r.peek = false := by
        by_contra hpeek
        exact takeWhile_ne_nil rfl (by simpa using hpeek) hnil
      have hpeek : r.peek = nul := by
        simp only [isBlank, Bool.or_eq_false_iff] at hnotBlank
        simpa [isBlankOrEnd, isSpaceOrEnd, isBreakOrEnd, hbreak, hnotBlank] using hblank
      exact Or.inr ⟨nul_mem_of_peek hpeek (by simpa [advance, atEnd] using hend), rfl, rfl⟩
    · exact Or.inl (length_advance_lt hnil (List.takeWhile_prefix _))
  · rename_i hbreak
    obtain ⟨⟨more, r₁⟩, hmore, h⟩ := bind_eq_ok_iff.mp h
    cases h
    have hlt := length_lt_of_lineBreak hbreak
    have hle := (quotedBreaks_leads hmore).length_le
    have hle' := (Leads.advance r (r.rest.takeWhile isBlank).length).length_le
    refine Or.inl ?_
    dsimp only
    omega

theorem quotedPiece_length {double : Bool} {start : Mark} {r r' : Reader} {piece : List Char}
    (h : quotedPiece double start r = .ok (some (piece, r'))) :
    r'.rest.length < r.rest.length ∨ (nul ∈ r.rest ∧ piece = [] ∧ r' = r) := by
  have hread : r.peek ≠ nul → r.next.Leads r' → r'.rest.length < r.rest.length :=
    fun hpeek hleads => hleads.length_lt (not_atEnd_of_peek hpeek)
  unfold quotedPiece at h
  dsimp only at h
  split_ifs at h with hsingle hpair hclose hescape hblank
  · cases h
    simp only [Bool.and_eq_true, beq_iff_eq] at hsingle
    exact Or.inl (hread (by rw [hsingle.1]; decide) ⟨1, rfl⟩)
  · cases h
  · cases h
  · obtain ⟨result, hresult, h⟩ := map_eq_ok_iff.mp h
    cases h
    simp only [Bool.and_eq_true, beq_iff_eq] at hescape
    exact Or.inl (hread (by rw [hescape.1]; decide) (quotedEscape_leads hresult))
  · obtain ⟨result, hresult, h⟩ := map_eq_ok_iff.mp h
    cases h
    exact quotedGap_length hblank hresult
  · cases h
    refine Or.inl (hread ?_ (.refl _))
    rintro hpeek
    simp [hpeek, isBlankOrEnd, isSpaceOrEnd, isBreakOrEnd] at hblank

/-- Only a NUL can hold up the reading of a quoted scalar, and then it does so for ever. -/
theorem quotedRound_length {double : Bool} {start : Mark} {s s' : Reader × List Char}
    (h : quotedRound double start s = .inl s') :
    s'.1.rest.length < s.1.rest.length ∨ (nul ∈ s.1.rest ∧ s' = s) := by
  unfold quotedRound at h
  split at h
  · cases h
  · cases h
  · rename_i hpiece
    cases h
    rcases quotedPiece_length hpiece with hlt | ⟨hnul, rfl, rfl⟩
    · exact Or.inl hlt
    · exact Or.inr ⟨hnul, rfl⟩

theorem quotedRound_leads {double : Bool} {start : Mark} {s s' : Reader × List Char}
    (h : quotedRound double start s = .inl s') : s.1.Leads s'.1 := by
  unfold quotedRound at h
  split at h
  · cases h
  · cases h
  · rename_i hpiece
    cases h
    exact quotedPiece_leads hpiece

/-! ### Plain scalars -/

def plainBreaksRound (s : Reader × List Char) :
    (Reader × List Char) ⊕ (Option (List Char) × Reader) :=
  let r := s.1.skipWhile (· == ' ')
  match r.lineBreak? with
  | none => .inr (some s.2, r)
  | some (c, r) => if r.atSeparator then .inr (none, r) else .inl (r, s.2 ++ [c])

theorem plainBreaks_loops :
    Loops (fun n s => plainBreaks n s.1 s.2) plainBreaksRound fun s => (some s.2, s.1) := by
  refine ⟨fun _ => rfl, fun n s => ?_⟩
  rw [plainBreaks, plainBreaksRound]
  cases (s.1.skipWhile (· == ' ')).lineBreak? with
  | none => rfl
  | some found =>
      dsimp only
      split_ifs <;> rfl

theorem plainBreaksRound_length {s s' : Reader × List Char} (h : plainBreaksRound s = .inl s') :
    s'.1.rest.length < s.1.rest.length := by
  unfold plainBreaksRound at h
  dsimp only at h
  split at h
  · cases h
  · rename_i hbreak
    split_ifs at h
    cases h
    exact Nat.lt_of_lt_of_le (length_lt_of_lineBreak hbreak) (Leads.skipWhile s.1 _).length_le

def plainRound (inFlow : Bool) (indent : Int) (s : PlainRun × List Char) :
    (PlainRun × List Char) ⊕ PlainRun :=
  let piece := plainPiece inFlow s.1.reader.rest
  if s.1.reader.peek == '#' || piece.isEmpty then .inr s.1
  else
    let reader := s.1.reader.advance piece.length
    let next := plainGap reader
    let run := ⟨s.1.text ++ s.2 ++ piece, reader.mark, next.reader, next.crossed⟩
    match next.text with
    | none => .inr run
    | some gap =>
        if gap.isEmpty || next.reader.peek == '#' ||
            (!inFlow && (next.reader.mark.column : Int) < indent) then .inr run
        else .inl (run, gap)

theorem plainRun_loops (inFlow : Bool) (indent : Int) :
    Loops (fun n s => plainRun inFlow indent n s.1 s.2) (plainRound inFlow indent)
      fun s => s.1 := by
  refine ⟨fun _ => rfl, fun n s => ?_⟩
  rw [plainRun, plainRound]
  dsimp only
  split_ifs
  · rfl
  · generalize plainGap (s.1.reader.advance (plainPiece inFlow s.1.reader.rest).length) = next
    cases next.text with
    | none => rfl
    | some gap =>
        dsimp only
        split_ifs <;> rfl

theorem plainPiece_initial (inFlow : Bool) (text : List Char) : plainPiece inFlow text <+: text := by
  induction text with
  | nil => exact List.prefix_rfl
  | cons c rest ih =>
      unfold plainPiece
      split_ifs
      · exact List.nil_prefix
      · exact List.prefix_cons_inj c |>.mpr ih

theorem plainRound_length {inFlow : Bool} {indent : Int} {s s' : PlainRun × List Char}
    (h : plainRound inFlow indent s = .inl s') :
    s'.1.reader.rest.length < s.1.reader.rest.length := by
  unfold plainRound at h
  dsimp only at h
  split_ifs at h with hend
  split at h
  · cases h
  · split_ifs at h
    cases h
    simp only [Bool.or_eq_true, not_or, List.isEmpty_iff] at hend
    exact Nat.lt_of_le_of_lt (plainGap_leads _).length_le
      (length_advance_lt hend.2 (plainPiece_initial _ _))

/-! ### Block scalars -/

def blankRound (indent : Nat) (lines : BlankLines) : BlankLines ⊕ BlankLines :=
  match lines.reader.lineBreak? with
  | none => .inr lines
  | some (c, r) => .inl ⟨lines.breaks ++ [c], r.mark, skipIndent indent r⟩

theorem blankLinesFor_loops (indent : Nat) :
    Loops (blankLinesFor indent) (blankRound indent) id := by
  refine ⟨fun _ => rfl, fun n lines => ?_⟩
  rw [blankLinesFor, blankRound]
  cases lines.reader.lineBreak? <;> rfl

theorem blankRound_length {indent : Nat} {lines lines' : BlankLines}
    (h : blankRound indent lines = .inl lines') :
    lines'.reader.rest.length < lines.reader.rest.length := by
  unfold blankRound at h
  split at h
  · cases h
  · rename_i hbreak
    cases h
    exact Nat.lt_of_le_of_lt (Leads.advance _ _).length_le (length_lt_of_lineBreak hbreak)

def detectRound (s : BlankLines × Nat) : (BlankLines × Nat) ⊕ (BlankLines × Nat) :=
  let r := s.1.reader
  if r.peek == ' ' then .inl ({ s.1 with reader := r.next }, max s.2 r.next.mark.column)
  else
    match r.lineBreak? with
    | none => .inr s
    | some (c, r) => .inl (⟨s.1.breaks ++ [c], r.mark, r⟩, s.2)

theorem detectIndentFor_loops :
    Loops (fun n s => detectIndentFor n s.1 s.2) detectRound id := by
  refine ⟨fun _ => rfl, fun n s => ?_⟩
  rw [detectIndentFor, detectRound]
  dsimp only
  split_ifs
  · rfl
  · cases s.1.reader.lineBreak? <;> rfl

theorem detectRound_length {s s' : BlankLines × Nat} (h : detectRound s = .inl s') :
    s'.1.reader.rest.length < s.1.reader.rest.length := by
  unfold detectRound at h
  dsimp only at h
  split_ifs at h with hspace
  · cases h
    refine (Leads.refl _).length_lt (not_atEnd_of_peek ?_)
    rw [beq_iff_eq.mp hspace]
    decide
  · split at h
    · cases h
    · rename_i hbreak
      cases h
      exact length_lt_of_lineBreak hbreak

def blockRound (folded : Bool) (indent : Nat) (run : BlockRun) :
    BlockRun ⊕ Except Diagnostic BlockRun :=
  if !run.atLine indent then .inr (.ok run)
  else
    let next := run.line indent
    if next.atLine indent then .inl { next with text := next.text ++ run.joint folded next }
    else .inr (.ok next)

def blockEndless (indent : Nat) (start : Mark) (run : BlockRun) : Except Diagnostic BlockRun :=
  if !run.atLine indent then .ok run
  else .error (.within .tokens .blockScalar start .endless run.blank.reader.mark)

theorem blockLines_loops (folded : Bool) (indent : Nat) (start : Mark) :
    Loops (blockLines folded indent start) (blockRound folded indent)
      (blockEndless indent start) := by
  refine ⟨fun run => ?_, fun n run => ?_⟩
  · rw [blockLines, blockEndless]
  · rw [blockLines, blockRound]
    dsimp only
    split_ifs <;> rfl

theorem blockRound_of_nil {folded : Bool} {indent : Nat} {start : Mark} {run : BlockRun}
    (h : run.blank.reader.rest = []) :
    blockRound folded indent run = .inr (blockEndless indent start run) := by
  simp [blockRound, blockEndless, BlockRun.atLine, atEnd, h]

theorem blockRound_leads {folded : Bool} {indent : Nat} {run run' : BlockRun}
    (h : blockRound folded indent run = .inl run') :
    run.blank.reader.Leads run'.blank.reader := by
  unfold blockRound at h
  dsimp only at h
  split_ifs at h
  cases h
  exact blockLine_leads indent run

theorem skipIndent_of_column {indent : Nat} {r : Reader} (h : r.mark.column = indent) :
    skipIndent indent r = r := by
  simp [skipIndent, h, advance]

/-- A line that starts with a NUL is empty, and is read again and again. -/
theorem line_of_nul {indent : Nat} (run : BlockRun) (hpeek : run.blank.reader.peek = nul)
    (hcolumn : run.blank.reader.mark.column = indent) :
    run.line indent = ⟨run.text ++ run.blank.breaks, none,
      ⟨[], run.blank.reader.mark, run.blank.reader⟩⟩ := by
  have hcontent : run.blank.reader.rest.takeWhile (fun c => !isBreakOrEnd c) = [] := by
    cases hrest : run.blank.reader.rest with
    | nil => rfl
    | cons c rest =>
        have hc : c = nul := by simpa [peek, hrest] using hpeek
        simp [hc, isBreakOrEnd]
  have hbreak : run.blank.reader.lineBreak? = none := lineBreak?_eq_none (by rw [hpeek]; rfl)
  simp [BlockRun.line, hcontent, advance, hbreak, blankLines, blankLinesFor,
    skipIndent_of_column hcolumn]

theorem line_length {indent : Nat} {run : BlockRun} (hpeek : run.blank.reader.peek ≠ nul) :
    (run.line indent).blank.reader.rest.length < run.blank.reader.rest.length := by
  unfold BlockRun.line
  dsimp only
  split
  · rename_i hbreak
    exact Nat.lt_of_le_of_lt (blankLines_leads _ _).length_le
      (Nat.lt_of_lt_of_le (length_lt_of_lineBreak hbreak) (Leads.advance _ _).length_le)
  · rename_i hbreak
    refine Nat.lt_of_le_of_lt (blankLines_leads _ _).length_le
      (length_advance_lt (fun hnil => ?_) (List.takeWhile_prefix _))
    rw [hnil] at hbreak
    have hnot : isBreak run.blank.reader.peek = false := lineBreak?_eq_none_iff.mp hbreak
    exact takeWhile_ne_nil rfl (by simp [isBreakOrEnd, hpeek, hnot]) hnil

/-- Only a NUL can hold up the reading of a block scalar, and then it does so for ever. -/
theorem blockRound_length {folded : Bool} {indent : Nat} {run run' : BlockRun}
    (h : blockRound folded indent run = .inl run') :
    run'.blank.reader.rest.length < run.blank.reader.rest.length ∨
      (nul ∈ run.blank.reader.rest ∧ blockRound folded indent run' = .inl run') := by
  unfold blockRound at h
  dsimp only at h
  split_ifs at h with hline hnext
  cases h
  obtain ⟨hcolumn, hend⟩ : run.blank.reader.mark.column = indent ∧ run.blank.reader.rest ≠ [] := by
    simpa [BlockRun.atLine, atEnd] using hline
  by_cases hpeek : run.blank.reader.peek = nul
  · refine Or.inr ⟨nul_mem_of_peek hpeek hend, ?_⟩
    rw [line_of_nul run hpeek hcolumn]
    have hagain := line_of_nul ⟨run.text ++ run.blank.breaks, none,
      ⟨[], run.blank.reader.mark, run.blank.reader⟩⟩ hpeek hcolumn
    simp [blockRound, BlockRun.atLine, BlockRun.joint, hagain, hcolumn, atEnd, hend]
  · exact Or.inl (line_length hpeek)

namespace TokenStream

/-! ### Filling the queue -/

def fillRound (s : TokenStream) : TokenStream ⊕ Except Diagnostic TokenStream :=
  match s.needsMore with
  | .error d => .inr (.error d)
  | .ok (false, s) => .inr (.ok s)
  | .ok (true, s) =>
      match s.fetch with
      | .error d => .inr (.error d)
      | .ok s => .inl s

theorem fillFor_loops :
    Loops fillFor fillRound fun s => .error (.plain .tokens .endless s.mark) := by
  refine ⟨fun _ => rfl, fun n s => ?_⟩
  rw [fillFor, fillRound]
  cases s.needsMore with
  | error d => rfl
  | ok found =>
      obtain ⟨more, s₁⟩ := found
      cases more with
      | false => rfl
      | true =>
          simp only [ok_bind, if_true]
          cases s₁.fetch <;> rfl

theorem needsMore_unread {s s' : TokenStream} (h : s.needsMore = .ok (true, s')) :
    s'.done = false ∧ s'.unread = s.unread := by
  unfold needsMore at h
  split_ifs at h with hdone hempty
  · cases h
  · cases h
    exact ⟨by simpa using hdone, rfl⟩
  · obtain ⟨s₁, hdropped, h⟩ := bind_eq_ok_iff.mp h
    simp only [pure_eq_ok, Except.ok.injEq, Prod.mk.injEq] at h
    obtain ⟨-, rfl⟩ := h
    have hsame := (dropStaleKeys_dropped hdropped).same
    refine ⟨?_, ?_⟩
    · rw [hsame]
      simpa using hdone
    · rw [hsame]
      rfl

theorem fillRound_unread {s s' : TokenStream} (h : fillRound s = .inl s') :
    s'.unread < s.unread := by
  unfold fillRound at h
  split at h
  · cases h
  · cases h
  · rename_i hmore
    split at h
    · cases h
    · rename_i hfetch
      cases h
      obtain ⟨hdone, hunread⟩ := needsMore_unread hmore
      rw [← hunread]
      exact unread_lt_of_fetch ⟨hdone, hfetch⟩

theorem fillRound_leads {s s' : TokenStream} (h : fillRound s = .inl s') :
    s.reader.Leads s'.reader := by
  unfold fillRound at h
  split at h
  · cases h
  · cases h
  · rename_i hmore
    split at h
    · cases h
    · rename_i hfetch
      cases h
      rw [← needsMore_reader hmore]
      exact (fetch_fetched hfetch).reader

theorem unread_le (s : TokenStream) : s.unread ≤ s.reader.rest.length + 1 := by
  unfold unread
  split_ifs <;> omega

end TokenStream

end Playbook
