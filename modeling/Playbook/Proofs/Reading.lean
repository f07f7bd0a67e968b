import Playbook.Proofs.Outcome
import Playbook.Token.Plain
import Playbook.Token.Quoted
import Playbook.Token.BlockScalar
import Playbook.Token.Property

/-!
What reading can do to a place in a text: move it forward, and nothing else. Every function that
reads a token leads from where it stands to a later place, and whatever it has to complain about is
a problem with the token that it has begun to read.
-/

namespace Playbook

namespace Reader

/-- The second place is the first or comes after it. -/
def Leads (r r' : Reader) : Prop := ∃ n, r' = r.advance n

theorem advance_add (m n : Nat) (r : Reader) : r.advance (m + n) = (r.advance m).advance n := by
  induction m generalizing r with
  | zero => simp [advance]
  | succ m ih =>
      rw [Nat.succ_add]
      exact ih r.next

theorem next_rest (r : Reader) : r.next.rest = r.rest.tail := by
  unfold next
  split
  · rename_i h
    rw [h]
    rfl
  · rename_i h
    rw [h]
    rfl

theorem advance_rest (n : Nat) (r : Reader) : (r.advance n).rest = r.rest.drop n := by
  induction n generalizing r with
  | zero => rfl
  | succ n ih =>
      change (r.next.advance n).rest = _
      rw [ih, next_rest, List.drop_tail]

theorem rest_of_peek {r : Reader} {c : Char} (h : r.peek = c) (hc : c ≠ nul) :
    ∃ tail, r.rest = c :: tail := by
  subst h
  cases hrest : r.rest with
  | nil => simp [peek, hrest] at hc
  | cons c tail => exact ⟨tail, by simp [peek, hrest]⟩

theorem Leads.refl (r : Reader) : r.Leads r := ⟨0, rfl⟩

theorem Leads.advance (r : Reader) (n : Nat) : r.Leads (r.advance n) := ⟨n, rfl⟩

theorem Leads.next (r : Reader) : r.Leads r.next := ⟨1, rfl⟩

theorem Leads.trans {r r' r'' : Reader} (h : r.Leads r') (h' : r'.Leads r'') : r.Leads r'' := by
  obtain ⟨m, rfl⟩ := h
  obtain ⟨n, rfl⟩ := h'
  exact ⟨m + n, (advance_add m n r).symm⟩

theorem Leads.skipWhile (r : Reader) (p : Char → Bool) : r.Leads (r.skipWhile p) := ⟨_, rfl⟩

theorem Leads.length_le {r r' : Reader} (h : r.Leads r') : r'.rest.length ≤ r.rest.length := by
  obtain ⟨n, rfl⟩ := h
  rw [advance_rest, List.length_drop]
  omega

theorem Leads.length_lt {r r' : Reader} (h : r.next.Leads r') (hrest : r.atEnd = false) :
    r'.rest.length < r.rest.length := by
  have hle := h.length_le
  have hne : r.rest ≠ [] := by simpa [atEnd] using hrest
  have hpos := List.length_pos_iff.mpr hne
  rw [next_rest, List.length_tail] at hle
  omega

theorem Leads.lineBreak {r r' : Reader} {c : Char} (h : r.lineBreak? = some (c, r')) :
    r.next.Leads r' := by
  unfold lineBreak? at h
  split_ifs at h
  · cases h
    exact ⟨1, rfl⟩
  · cases h
    exact .refl _
  · cases h
    exact .refl _

theorem Leads.skipComment (r : Reader) : r.Leads r.skipComment := by
  unfold Reader.skipComment
  split_ifs
  · exact .skipWhile r _
  · exact .refl r

theorem Leads.skipTriviaFor (n : Nat) (r : Reader) (crossed : Bool) :
    r.Leads (skipTriviaFor n r crossed).1 := by
  induction n generalizing r crossed with
  | zero => exact .refl r
  | succ n ih =>
      have hblank : r.Leads ((r.skipWhile (· == ' ')).skipComment) :=
        (Leads.skipWhile r _).trans (.skipComment _)
      unfold Reader.skipTriviaFor
      dsimp only
      split
      · rename_i hbreak
        exact hblank.trans ((Leads.next _).trans ((Leads.lineBreak hbreak).trans (ih _ _)))
      · exact hblank

theorem Leads.skipTrivia (r : Reader) : r.Leads r.skipTrivia.1 := .skipTriviaFor _ r false

/-- Lines are counted upwards. -/
theorem Leads.line_le {r r' : Reader} (h : r.Leads r') : r.mark.line ≤ r'.mark.line := by
  obtain ⟨n, rfl⟩ := h
  induction n generalizing r with
  | zero => exact Nat.le_refl _
  | succ n ih =>
      refine Nat.le_trans ?_ ih
      unfold Reader.next
      split
      · exact Nat.le_refl _
      · unfold Mark.past
        split_ifs <;> simp

theorem Leads.index_le {r r' : Reader} (h : r.Leads r') : r.mark.index ≤ r'.mark.index := by
  obtain ⟨n, rfl⟩ := h
  induction n generalizing r with
  | zero => exact Nat.le_refl _
  | succ n ih =>
      refine Nat.le_trans ?_ ih
      unfold Reader.next
      split
      · exact Nat.le_refl _
      · unfold Mark.past
        split_ifs <;> simp

theorem next_index {r : Reader} {c : Char} {rest : List Char} (h : r.rest = c :: rest) :
    r.next.mark.index = r.mark.index + 1 := by
  simp only [Reader.next, h, Mark.past]
  split_ifs <;> rfl

/-- The mark of a place counts the characters before it. -/
theorem Leads.eq_advance {text : List Char} {r : Reader} (h : (start text).Leads r) :
    r = (start text).advance r.mark.index := by
  have hnext : ∀ r : Reader, r = (start text).advance r.mark.index →
      r.next = (start text).advance r.next.mark.index := by
    intro r hr
    cases hrest : r.rest with
    | nil =>
        have hsame : r.next = r := by simp [Reader.next, hrest]
        rwa [hsame]
    | cons c rest =>
        rw [next_index hrest, advance_add, ← hr]
        rfl
  have hrun : ∀ n (r : Reader), r = (start text).advance r.mark.index →
      r.advance n = (start text).advance (r.advance n).mark.index := by
    intro n
    induction n with
    | zero => exact fun r hr => hr
    | succ n ih => exact fun r hr => ih r.next (hnext r hr)
  obtain ⟨n, rfl⟩ := h
  exact hrun n (start text) rfl

theorem Leads.rest_eq {text : List Char} {r : Reader} (h : (start text).Leads r) :
    r.rest = text.drop r.mark.index := by
  rw [h.eq_advance, advance_rest, ← h.eq_advance]
  rfl

end Reader

open Reader

/-- A problem with tokens that was found in one of the activities, which began at `start`. -/
def Diagnostic.Amid (activities : List Activity) (start : Mark) (d : Diagnostic) : Prop :=
  ∃ activity ∈ activities, ∃ problem mark, d = .within .tokens activity start problem mark

/-- All that can go wrong goes wrong in one of the activities, which began at `start`. -/
abbrev FaultsAmid {α : Type} (activities : List Activity) (start : Mark)
    (x : Except Diagnostic α) : Prop :=
  Faults (Diagnostic.Amid activities start) x

theorem faults_within {α : Type} {activities : List Activity} {activity : Activity}
    (h : activity ∈ activities) {start mark : Mark} {problem : Problem} :
    FaultsAmid activities start
      (.error (.within .tokens activity start problem mark) : Except Diagnostic α) :=
  faults_error ⟨activity, h, problem, mark, rfl⟩

/-! ### Names, tags and directives -/

theorem readName_leads {context : Activity} {kind : String → TokenKind} {r r' : Reader}
    {token : Token} (h : readName context kind r = .ok (token, r')) : r.next.Leads r' := by
  unfold readName at h
  dsimp only at h
  split_ifs at h
  cases h
  exact .advance _ _

theorem readName_faults (context : Activity) (kind : String → TokenKind) (r : Reader) :
    FaultsAmid [context] r.mark (readName context kind r) := by
  unfold readName
  dsimp only
  split_ifs
  · exact faults_within (by simp)
  · exact faults_ok _

theorem tagUri_leads {start : Mark} {r r' : Reader} {uri : String}
    (h : tagUri start r = .ok (uri, r')) : r.Leads r' := by
  unfold tagUri at h
  dsimp only at h
  split_ifs at h
  cases h
  exact .advance _ _

theorem tagUri_faults (start : Mark) (r : Reader) :
    FaultsAmid [.tag, .tagUri] start (tagUri start r) := by
  unfold tagUri
  dsimp only
  split_ifs
  · exact faults_within (by simp)
  · exact faults_ok _

theorem tagHandle_leads {start : Mark} {r r' : Reader} {handle : String}
    (h : tagHandle start r = .ok (handle, r')) : r.next.Leads r' := by
  unfold tagHandle at h
  dsimp only at h
  split_ifs at h
  cases h
  exact (Leads.advance _ _).trans (.next _)

theorem tagHandle_faults (start : Mark) (r : Reader) :
    FaultsAmid [.tag, .tagUri] start (tagHandle start r) := by
  unfold tagHandle
  dsimp only
  split_ifs
  · exact faults_ok _
  · exact faults_within (by simp)

theorem tagParts_leads {r r' : Reader} {handle : Option String} {suffix : String}
    (h : tagParts r = .ok (handle, suffix, r')) : r.next.Leads r' := by
  unfold tagParts at h
  dsimp only at h
  split_ifs at h
  · obtain ⟨⟨uri, r₁⟩, huri, h⟩ := bind_eq_ok_iff.mp h
    dsimp only at h
    split_ifs at h
    cases h
    have hfirst : r.next.Leads (r.advance 2) := ⟨1, rfl⟩
    exact hfirst.trans ((tagUri_leads huri).trans (.next _))
  · cases h
    exact .refl _
  · obtain ⟨⟨name, r₁⟩, hname, h⟩ := bind_eq_ok_iff.mp h
    obtain ⟨⟨uri, r₂⟩, huri, h⟩ := bind_eq_ok_iff.mp h
    cases h
    exact (tagHandle_leads hname).trans (tagUri_leads huri)
  · obtain ⟨⟨uri, r₁⟩, huri, h⟩ := bind_eq_ok_iff.mp h
    cases h
    exact tagUri_leads huri

theorem tagParts_faults (r : Reader) : FaultsAmid [.tag, .tagUri] r.mark (tagParts r) := by
  unfold tagParts
  dsimp only
  split_ifs
  · refine faults_bind (tagUri_faults _ _) fun _ => ?_
    split_ifs
    · exact faults_ok _
    · exact faults_within (by simp)
  · exact faults_ok _
  · exact faults_bind (tagHandle_faults _ _) fun _ =>
      faults_bind (tagUri_faults _ _) fun _ => faults_ok _
  · exact faults_bind (tagUri_faults _ _) fun _ => faults_ok _

theorem readTag_leads {r r' : Reader} {token : Token} (h : readTag r = .ok (token, r')) :
    r.next.Leads r' := by
  obtain ⟨⟨handle, suffix, r₁⟩, hparts, h⟩ := bind_eq_ok_iff.mp h
  dsimp only at h
  split_ifs at h
  cases h
  exact tagParts_leads hparts

theorem readTag_faults (r : Reader) : FaultsAmid [.tag, .tagUri] r.mark (readTag r) := by
  refine faults_bind (tagParts_faults r) fun _ => ?_
  dsimp only
  split_ifs
  · exact faults_ok _
  · exact faults_within (by simp)

theorem directiveParams_leads (n : Nat) (r : Reader) (params : List String) :
    r.Leads (directiveParams n r params).2 := by
  induction n generalizing r params with
  | zero => exact .refl r
  | succ n ih =>
      unfold directiveParams
      dsimp only
      split_ifs
      · exact .skipWhile r _
      · exact (Leads.skipWhile r _).trans ((Leads.advance _ _).trans (ih _ _))

theorem readDirective_leads {r r' : Reader} {token : Token}
    (h : readDirective r = .ok (token, r')) : r.next.Leads r' := by
  unfold readDirective at h
  dsimp only at h
  split_ifs at h
  have hparams : ∀ r₁ : Reader, r₁.Leads
      (directiveParams (r₁.rest.length + 1) r₁ []).2.skipComment :=
    fun r₁ => (directiveParams_leads _ _ _).trans (.skipComment _)
  split at h
  · rename_i hbreak
    cases h
    exact (Leads.advance _ _).trans
      ((hparams _).trans ((Leads.next _).trans (.lineBreak hbreak)))
  · cases h
    exact (Leads.advance _ _).trans (hparams _)

theorem readDirective_faults (r : Reader) : FaultsAmid [.directive] r.mark (readDirective r) := by
  unfold readDirective
  dsimp only
  split_ifs
  · exact faults_within (by simp)
  · split <;> exact faults_ok _

/-! ### Quoted scalars -/

theorem quotedBreaks_leads {start : Mark} {n : Nat} {r r' : Reader} {breaks breaks' : List Char}
    (h : quotedBreaks start n r breaks = .ok (breaks', r')) : r.Leads r' := by
  induction n generalizing r breaks with
  | zero => cases h
  | succ n ih =>
      unfold quotedBreaks at h
      split_ifs at h
      dsimp only at h
      split at h
      · cases h
        exact .skipWhile r _
      · rename_i hbreak
        exact (Leads.skipWhile r _).trans
          ((Leads.next _).trans ((Leads.lineBreak hbreak).trans (ih h)))

theorem quotedBreaks_faults (start : Mark) (n : Nat) (r : Reader) (breaks : List Char) :
    FaultsAmid [.quoted, .doubleQuoted] start (quotedBreaks start n r breaks) := by
  induction n generalizing r breaks with
  | zero => exact faults_within (by simp)
  | succ n ih =>
      unfold quotedBreaks
      split_ifs
      · exact faults_within (by simp)
      · dsimp only
        split
        · exact faults_ok _
        · exact ih _ _

theorem quotedGap_leads {start : Mark} {r r' : Reader} {piece : List Char}
    (h : quotedGap start r = .ok (piece, r')) : r.Leads r' := by
  unfold quotedGap at h
  dsimp only at h
  split_ifs at h
  split at h
  · cases h
    exact .advance _ _
  · rename_i hbreak
    obtain ⟨⟨more, r₁⟩, hmore, h⟩ := bind_eq_ok_iff.mp h
    cases h
    exact (Leads.advance _ _).trans
      ((Leads.next _).trans ((Leads.lineBreak hbreak).trans (quotedBreaks_leads hmore)))

theorem quotedGap_faults (start : Mark) (r : Reader) :
    FaultsAmid [.quoted, .doubleQuoted] start (quotedGap start r) := by
  unfold quotedGap
  dsimp only
  split_ifs
  · exact faults_within (by simp)
  · split
    · exact faults_ok _
    · exact faults_bind (quotedBreaks_faults _ _ _ _) fun _ => faults_ok _

theorem quotedEscape_leads {start : Mark} {r r' : Reader} {piece : List Char}
    (h : quotedEscape start r = .ok (piece, r')) : r.Leads r' := by
  unfold quotedEscape at h
  split at h
  · cases h
    exact .next r
  · split at h
    · cases h
      exact (Leads.next r).trans (.advance _ _)
    · cases h
  · split at h
    · rename_i hbreak
      exact (Leads.next r).trans ((Leads.lineBreak hbreak).trans (quotedBreaks_leads h))
    · cases h

theorem quotedEscape_faults (start : Mark) (r : Reader) :
    FaultsAmid [.quoted, .doubleQuoted] start (quotedEscape start r) := by
  unfold quotedEscape
  split
  · exact faults_ok _
  · split
    · exact faults_ok _
    · exact faults_within (by simp)
  · split
    · exact quotedBreaks_faults _ _ _ _
    · exact faults_within (by simp)

theorem quotedPiece_leads {double : Bool} {start : Mark} {r r' : Reader} {piece : List Char}
    (h : quotedPiece double start r = .ok (some (piece, r'))) : r.Leads r' := by
  unfold quotedPiece at h
  dsimp only at h
  split_ifs at h
  · cases h
    exact .advance r 2
  · cases h
  · cases h
  · obtain ⟨result, hescape, h⟩ := map_eq_ok_iff.mp h
    cases h
    exact (Leads.next r).trans (quotedEscape_leads hescape)
  · obtain ⟨result, hgap, h⟩ := map_eq_ok_iff.mp h
    cases h
    exact quotedGap_leads hgap
  · cases h
    exact .next r

theorem quotedPiece_faults (double : Bool) (start : Mark) (r : Reader) :
    FaultsAmid [.quoted, .doubleQuoted] start (quotedPiece double start r) := by
  unfold quotedPiece
  dsimp only
  split_ifs
  · exact faults_ok _
  · exact faults_ok _
  · exact faults_ok _
  · exact faults_map (quotedEscape_faults _ _)
  · exact faults_map (quotedGap_faults _ _)
  · exact faults_ok _

theorem quotedText_leads {double : Bool} {start : Mark} {n : Nat} {r r' : Reader}
    {text text' : List Char} (h : quotedText double start n r text = .ok (text', r')) :
    r.Leads r' := by
  induction n generalizing r text with
  | zero => cases h
  | succ n ih =>
      unfold quotedText at h
      split at h
      · cases h
      · cases h
        exact .next r
      · rename_i hpiece
        exact (quotedPiece_leads hpiece).trans (ih h)

theorem quotedText_faults (double : Bool) (start : Mark) (n : Nat) (r : Reader)
    (text : List Char) :
    FaultsAmid [.quoted, .doubleQuoted] start (quotedText double start n r text) := by
  induction n generalizing r text with
  | zero => exact faults_within (by simp)
  | succ n ih =>
      unfold quotedText
      split
      · rename_i hpiece
        exact faults_error (quotedPiece_faults double start r _ hpiece)
      · exact faults_ok _
      · exact ih _ _

theorem readQuoted_leads {double : Bool} {r r' : Reader} {token : Token}
    (h : readQuoted double r = .ok (token, r')) : r.next.Leads r' := by
  obtain ⟨⟨text, stop⟩, htext, h⟩ := bind_eq_ok_iff.mp h
  cases h
  exact quotedText_leads htext

theorem readQuoted_faults (double : Bool) (r : Reader) :
    FaultsAmid [.quoted, .doubleQuoted] r.mark (readQuoted double r) :=
  faults_bind (quotedText_faults _ _ _ _ _) fun _ => faults_ok _

/-! ### Plain scalars -/

theorem plainBreaks_leads (n : Nat) (r : Reader) (breaks : List Char) :
    r.Leads (plainBreaks n r breaks).2 := by
  induction n generalizing r breaks with
  | zero => exact .refl r
  | succ n ih =>
      unfold plainBreaks
      dsimp only
      split
      · exact .skipWhile r _
      · rename_i hbreak
        have hline := (Leads.skipWhile r (· == ' ')).trans
          ((Leads.next _).trans (Leads.lineBreak hbreak))
        split_ifs
        · exact hline
        · exact hline.trans (ih _ _)

theorem plainGap_leads (r : Reader) : r.Leads (plainGap r).reader := by
  unfold plainGap
  dsimp only
  split
  · exact .advance _ _
  · rename_i hbreak
    have hline := (Leads.advance r _).trans ((Leads.next _).trans (Leads.lineBreak hbreak))
    split_ifs
    · exact hline
    · exact hline.trans (plainBreaks_leads _ _ _)

theorem plainRun_leads (inFlow : Bool) (indent : Int) (n : Nat) (run : PlainRun)
    (gap : List Char) : run.reader.Leads (plainRun inFlow indent n run gap).reader := by
  induction n generalizing run gap with
  | zero => exact .refl _
  | succ n ih =>
      unfold plainRun
      dsimp only
      split_ifs
      · exact .refl _
      · have hgap := (Leads.advance run.reader _).trans
          (plainGap_leads (run.reader.advance (plainPiece inFlow run.reader.rest).length))
        split
        · exact hgap
        · split_ifs
          · exact hgap
          · exact hgap.trans (ih _ _)

/-- A plain scalar takes at least one character where its first piece is not empty. -/
theorem readPlain_leads {inFlow : Bool} {indent : Int} {r : Reader} (hhash : r.peek ≠ '#')
    (hpiece : plainPiece inFlow r.rest ≠ []) :
    r.next.Leads (readPlain inFlow indent r).2.1 := by
  obtain ⟨c, piece, hcons⟩ := List.exists_cons_of_ne_nil hpiece
  have hfirst : r.next.Leads (plainGap (r.advance (piece.length + 1))).reader :=
    Leads.trans ⟨piece.length, rfl⟩ (plainGap_leads _)
  unfold readPlain plainRun
  simp only [hcons, List.length_cons, List.isEmpty_cons, Bool.or_false, beq_iff_eq, hhash,
    if_false]
  split
  · exact hfirst
  · split_ifs
    · exact hfirst
    · exact hfirst.trans (plainRun_leads _ _ _ _ _)

/-! ### Block scalars -/

theorem headerIndent_leads {start : Mark} {r r' : Reader} {indent : Option Nat}
    (h : headerIndent start r = .ok (indent, r')) : r.Leads r' := by
  unfold headerIndent at h
  split at h
  · cases h
    exact .refl r
  · cases h
  · cases h
    exact .next r

theorem headerIndent_faults (start : Mark) (r : Reader) :
    FaultsAmid [.blockScalar] start (headerIndent start r) := by
  unfold headerIndent
  split
  · exact faults_ok _
  · exact faults_within (by simp)
  · exact faults_ok _

theorem blockHeader_leads {start : Mark} {r r' : Reader} {header : BlockHeader}
    (h : blockHeader start r = .ok (header, r')) : r.Leads r' := by
  unfold blockHeader at h
  dsimp only at h
  split at h
  · obtain ⟨⟨indent, r₁⟩, hindent, h⟩ := bind_eq_ok_iff.mp h
    simp only [pure_eq_ok, ok_bind] at h
    split_ifs at h
    cases h
    exact (Leads.next r).trans (headerIndent_leads hindent)
  · obtain ⟨⟨indent, r₁⟩, hindent, h⟩ := bind_eq_ok_iff.mp h
    dsimp only at h
    split at h
    · simp only [pure_eq_ok, ok_bind] at h
      split_ifs at h
      cases h
      exact (headerIndent_leads hindent).trans (.next _)
    · simp only [pure_eq_ok, ok_bind] at h
      split_ifs at h
      cases h
      exact headerIndent_leads hindent

theorem blockHeader_faults (start : Mark) (r : Reader) :
    FaultsAmid [.blockScalar] start (blockHeader start r) := by
  unfold blockHeader
  dsimp only
  split
  · refine faults_bind (headerIndent_faults _ _) fun _ => ?_
    refine faults_bind (faults_ok _) fun _ => ?_
    split_ifs
    · exact faults_ok _
    · exact faults_within (by simp)
  · refine faults_bind (headerIndent_faults _ _) fun _ => ?_
    split
    · refine faults_bind (faults_ok _) fun _ => ?_
      split_ifs
      · exact faults_ok _
      · exact faults_within (by simp)
    · refine faults_bind (faults_ok _) fun _ => ?_
      split_ifs
      · exact faults_ok _
      · exact faults_within (by simp)

theorem headerLineEnd_leads {start : Mark} {r r' : Reader}
    (h : headerLineEnd start r = .ok r') : r.Leads r' := by
  have hblank : r.Leads ((r.skipWhile (· == ' ')).skipComment) :=
    (Leads.skipWhile r _).trans (.skipComment _)
  unfold headerLineEnd at h
  dsimp only at h
  split at h
  · rename_i hbreak
    cases h
    exact hblank.trans ((Leads.next _).trans (.lineBreak hbreak))
  · split_ifs at h
    cases h
    exact hblank

theorem headerLineEnd_faults (start : Mark) (r : Reader) :
    FaultsAmid [.blockScalar] start (headerLineEnd start r) := by
  unfold headerLineEnd
  dsimp only
  split
  · exact faults_ok _
  · split_ifs
    · exact faults_ok _
    · exact faults_within (by simp)

theorem blankLinesFor_leads (indent n : Nat) (lines : BlankLines) :
    lines.reader.Leads (blankLinesFor indent n lines).reader := by
  induction n generalizing lines with
  | zero => exact .refl _
  | succ n ih =>
      unfold blankLinesFor
      split
      · exact .refl _
      · rename_i hbreak
        have hline : lines.reader.Leads (skipIndent indent _) :=
          (Leads.next _).trans ((Leads.lineBreak hbreak).trans (.advance _ _))
        exact hline.trans (ih _)

theorem blankLines_leads (indent : Nat) (r : Reader) : r.Leads (blankLines indent r).reader :=
  (Leads.advance r _).trans (blankLinesFor_leads _ _ _)

theorem detectIndentFor_leads (n : Nat) (lines : BlankLines) (widest : Nat) :
    lines.reader.Leads (detectIndentFor n lines widest).1.reader := by
  induction n generalizing lines widest with
  | zero => exact .refl _
  | succ n ih =>
      unfold detectIndentFor
      dsimp only
      split_ifs
      · exact (Leads.next _).trans (ih _ _)
      · split
        · exact .refl _
        · rename_i hbreak
          exact (Leads.next _).trans ((Leads.lineBreak hbreak).trans (ih _ _))

theorem blockLine_leads (indent : Nat) (run : BlockRun) :
    run.blank.reader.Leads (run.line indent).blank.reader := by
  unfold BlockRun.line
  dsimp only
  split
  · rename_i hbreak
    exact (Leads.advance _ _).trans
      ((Leads.next _).trans ((Leads.lineBreak hbreak).trans (blankLines_leads _ _)))
  · exact (Leads.advance _ _).trans (blankLines_leads _ _)

theorem blockLines_leads {folded : Bool} {indent : Nat} {start : Mark} {n : Nat}
    {run run' : BlockRun} (h : blockLines folded indent start n run = .ok run') :
    run.blank.reader.Leads run'.blank.reader := by
  induction n generalizing run with
  | zero =>
      unfold blockLines at h
      split_ifs at h
      cases h
      exact .refl _
  | succ n ih =>
      unfold blockLines at h
      dsimp only at h
      split_ifs at h
      · cases h
        exact .refl _
      · have hrest := ih h
        exact (blockLine_leads indent run).trans hrest
      · cases h
        exact blockLine_leads indent run

theorem blockLines_faults (folded : Bool) (indent : Nat) (start : Mark) (n : Nat)
    (run : BlockRun) :
    FaultsAmid [.blockScalar] start (blockLines folded indent start n run) := by
  induction n generalizing run with
  | zero =>
      unfold blockLines
      split_ifs
      · exact faults_ok _
      · exact faults_within (by simp)
  | succ n ih =>
      unfold blockLines
      dsimp only
      split_ifs
      · exact faults_ok _
      · exact ih _
      · exact faults_ok _

theorem readBlockScalar_leads {folded : Bool} {outer : Int} {r r' : Reader} {token : Token}
    (h : readBlockScalar folded outer r = .ok (token, r')) : r.next.Leads r' := by
  unfold readBlockScalar at h
  dsimp only at h
  obtain ⟨⟨header, r₁⟩, hheader, h⟩ := bind_eq_ok_iff.mp h
  obtain ⟨r₂, hline, h⟩ := bind_eq_ok_iff.mp h
  obtain ⟨run, hrun, h⟩ := bind_eq_ok_iff.mp h
  cases h
  refine (blockHeader_leads hheader).trans ((headerLineEnd_leads hline).trans ?_)
  refine Leads.trans ?_ (blockLines_leads hrun)
  dsimp only
  split
  · exact blankLines_leads _ _
  · exact detectIndentFor_leads _ _ _

theorem readBlockScalar_faults (folded : Bool) (outer : Int) (r : Reader) :
    FaultsAmid [.blockScalar] r.mark (readBlockScalar folded outer r) :=
  faults_bind (blockHeader_faults _ _) fun _ =>
    faults_bind (headerLineEnd_faults _ _) fun _ =>
      faults_bind (blockLines_faults _ _ _ _ _) fun _ => faults_ok _

end Playbook
