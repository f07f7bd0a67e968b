import Mathlib.Data.List.SplitBy
import Playbook.Proofs.TokenPlaces

/-!
Plain scalars and the text that they are read from. A plain scalar is made of pieces and of the
gaps between them. The value is the text from the first piece to the last with every gap folded,
whatever it is that ends the scalar behind white space which was read already.
-/

namespace Playbook

open Reader

/-! ### Folding -/

/-- What the gaps in a plain scalar are made of. -/
def isGapChar (c : Char) : Bool := c == ' ' || isBreak c

/-- The line breaks of a text. Of those that are not line feeds the two separators stand for
themselves. -/
def breaksOf (text : List Char) : List Char :=
  ((lineFeeds text).filter isBreak).map fun c => if c = '\u0085' then '\n' else c

/-- What a run of spaces and line breaks is folded to. -/
def foldGap (run : List Char) : List Char :=
  match breaksOf run with
  | [] => run
  | ['\n'] => [' ']
  | '\n' :: more => more
  | breaks => breaks

/-- The text with each of its longest runs of spaces and line breaks folded. -/
def foldGaps (text : List Char) : List Char :=
  (text.splitBy fun c d => isGapChar c == isGapChar d).flatMap foldGap

theorem breaksOf_append {text more : List Char} (h : Apart text more) :
    breaksOf (text ++ more) = breaksOf text ++ breaksOf more := by
  rw [breaksOf, lineFeeds_append h, List.filter_append, List.map_append]
  rfl

theorem breaksOf_eq_nil {text : List Char} (h : ∀ c ∈ text, isBreak c = false) :
    breaksOf text = [] := by
  have hreturn : '\r' ∉ text := fun hmem => nomatch h '\r' hmem
  rw [breaksOf, lineFeeds_eq_self hreturn, List.filter_eq_nil_iff.mpr (by simpa using h)]
  rfl

theorem foldGap_of_no_break {run : List Char} (h : ∀ c ∈ run, isBreak c = false) :
    foldGap run = run := by
  rw [foldGap, breaksOf_eq_nil h]

theorem foldGap_of_breaks {run more : List Char} {first : Char}
    (h : breaksOf run = first :: more) : foldGap run = foldBreaks first more := by
  rw [foldGap, h, foldBreaks]
  by_cases hfeed : first = '\n'
  · subst hfeed
    cases more with
    | nil => rfl
    | cons second more => rfl
  · have hne : (first != '\n') = true := by simpa using hfeed
    rw [if_pos hne]
    split <;> simp_all

theorem foldGaps_append {text more : List Char}
    (h : ∀ c ∈ text.getLast?, ∀ d ∈ more.head?, isGapChar c ≠ isGapChar d) :
    foldGaps (text ++ more) = foldGaps text ++ foldGaps more := by
  rw [foldGaps, List.splitBy_append fun c hc d hd => by simpa using h c hc d hd,
    List.flatMap_append]
  rfl

theorem foldGaps_run {run : List Char} {gap : Bool} (h : ∀ c ∈ run, isGapChar c = gap) :
    foldGaps run = foldGap run := by
  by_cases hnil : run = []
  · subst hnil
    rfl
  · have hchain : run.IsChain fun c d => (isGapChar c == isGapChar d) = true := by
      refine List.Pairwise.isChain (List.pairwise_of_forall_mem_list fun c hc d hd => ?_)
      rw [h c hc, h d hd, beq_self_eq_true]
    rw [foldGaps, List.splitBy_of_isChain hnil hchain, List.flatMap_singleton]

/-- A text without line breaks stays as it is. -/
theorem foldGaps_of_no_break {text : List Char} (h : ∀ c ∈ text, isBreak c = false) :
    foldGaps text = text := by
  have hruns : ∀ run ∈ text.splitBy fun c d => isGapChar c == isGapChar d, foldGap run = run := by
    intro run hrun
    refine foldGap_of_no_break fun c hc => h c ?_
    rw [← List.flatten_splitBy (fun c d => isGapChar c == isGapChar d) text]
    exact List.mem_flatten.mpr ⟨run, hrun, hc⟩
  rw [foldGaps, List.flatMap_def, List.map_congr_left hruns, List.map_id', List.flatten_splitBy]

/-- Another piece behind a gap. -/
theorem foldGaps_piece {source gap piece : List Char}
    (hsource : ∀ c ∈ source.getLast?, isGapChar c = false) (hgap : ∀ c ∈ gap, isGapChar c = true)
    (hpiece : ∀ c ∈ piece, isGapChar c = false) (hfirst : gap = [] → source = []) :
    foldGaps (source ++ gap ++ piece) = foldGaps source ++ foldGap gap ++ piece := by
  have hfold : foldGaps piece = piece := by
    refine foldGaps_of_no_break fun c hc => ?_
    have hc := hpiece c hc
    simp only [isGapChar, Bool.or_eq_false_iff] at hc
    exact hc.2
  have hleft : foldGaps (source ++ gap) = foldGaps source ++ foldGap gap := by
    rw [foldGaps_append fun c hc d hd => ?_, foldGaps_run hgap]
    rw [hsource c hc, hgap d (List.mem_of_mem_head? hd)]
    decide
  rw [foldGaps_append fun c hc d hd => ?_, hleft, hfold]
  rw [hpiece d (List.mem_of_mem_head? hd)]
  cases gap with
  | nil =>
      rw [hfirst rfl] at hc
      cases hc
  | cons e gap =>
      rw [List.getLast?_append_of_ne_nil _ (by simp)] at hc
      rw [hgap c (List.mem_of_getLast? hc)]
      decide

/-! ### Places -/

/-- The given text stands between the two places. -/
structure Reader.Passes (r : Reader) (source : List Char) (r' : Reader) : Prop where
  rest : r.rest = source ++ r'.rest
  reader : r' = r.advance source.length

section Passes

variable {r r' r'' : Reader} {source source' : List Char}

theorem Reader.Passes.refl (r : Reader) : r.Passes [] r := ⟨rfl, rfl⟩

theorem Reader.Passes.trans (h : r.Passes source r') (h' : r'.Passes source' r'') :
    r.Passes (source ++ source') r'' := by
  refine ⟨?_, ?_⟩
  · rw [h.rest, h'.rest, List.append_assoc]
  · rw [h'.reader, h.reader, List.length_append, advance_add]

theorem passes_advance (h : source <+: r.rest) : r.Passes source (r.advance source.length) := by
  obtain ⟨rest, hrest⟩ := h
  refine ⟨?_, rfl⟩
  rw [advance_rest, ← hrest, List.drop_left]

theorem passes_next {c : Char} {rest : List Char} (h : r.rest = c :: rest) :
    r.Passes [c] r.next := by
  have hprefix : [c] <+: r.rest := ⟨rest, h.symm⟩
  exact passes_advance hprefix

theorem Reader.Passes.index (h : r.Passes source r') :
    r'.mark.index = r.mark.index + source.length := by
  obtain ⟨hrest, rfl⟩ := h
  induction source generalizing r with
  | nil => rfl
  | cons c source ih =>
      have htail : r.next.rest = source ++ (r.next.advance source.length).rest := by
        rw [next_rest, hrest]
        rfl
      change (r.next.advance source.length).mark.index = _
      rw [ih htail, next_index hrest, List.length_cons]
      omega

end Passes

/-! ### Gaps and pieces -/

section Reading

variable {r r' : Reader}

/-- A line break is read whole: behind a lone carriage return there is no line feed. -/
theorem lineBreak?_passes {c : Char} (h : r.lineBreak? = some (c, r')) :
    ∃ source, r.Passes source r' ∧ (∀ d ∈ source, isGapChar d = true) ∧ breaksOf source = [c] ∧
      Apart source r'.rest := by
  unfold lineBreak? at h
  split_ifs at h with hpair hfeed hseparator
  · cases h
    have hpre : ['\r', '\n'] <+: r.rest := List.isPrefixOf_iff_prefix.mp hpair
    exact ⟨['\r', '\n'], passes_advance hpre, by simp [isGapChar, isBreak], rfl,
      fun hlast => nomatch hlast⟩
  · cases h
    cases hrest : r.rest with
    | nil => simp [peek, hrest, nul] at hfeed
    | cons d rest =>
        have hd : (d = '\r' ∨ d = '\n') ∨ d = '\u0085' := by simpa [peek, hrest] using hfeed
        refine ⟨[d], passes_next hrest, ?_, ?_, ?_⟩
        · rcases hd with (rfl | rfl) | rfl <;> simp [isGapChar, isBreak]
        · rcases hd with (rfl | rfl) | rfl <;> rfl
        · rintro hlast hhead
          obtain rfl : d = '\r' := by simpa using hlast
          refine hpair (List.isPrefixOf_iff_prefix.mpr ?_)
          rw [next_rest, hrest] at hhead
          obtain ⟨rest, rfl⟩ := List.head?_eq_some_iff.mp hhead
          exact ⟨rest, hrest.symm⟩
  · cases h
    cases hrest : r.rest with
    | nil => simp [peek, hrest, nul] at hseparator
    | cons d rest =>
        have hpeek : r.peek = d := by rw [peek, hrest]; rfl
        rw [hpeek] at hseparator ⊢
        have hd : d = '\u2028' ∨ d = '\u2029' := by simpa using hseparator
        refine ⟨[d], passes_next hrest, ?_, ?_, ?_⟩
        · rcases hd with rfl | rfl <;> simp [isGapChar, isBreak]
        · rcases hd with rfl | rfl <;> rfl
        · exact apart_of_not_return (by rcases hd with rfl | rfl <;> simp)

theorem eq_space_of_mem {text : List Char} : ∀ c ∈ text.takeWhile (· == ' '), c = ' ' := by
  intro c hc
  simpa using List.mem_takeWhile_imp hc

theorem not_break_of_mem {text : List Char} :
    ∀ c ∈ text.takeWhile (· == ' '), isBreak c = false := by
  intro c hc
  rw [eq_space_of_mem c hc]
  rfl

/-- Spaces are part of a gap and add no line break to it. -/
theorem spaces_passes (r : Reader) :
    r.Passes (r.rest.takeWhile (· == ' ')) (r.skipWhile (· == ' ')) ∧
      (∀ c ∈ r.rest.takeWhile (· == ' '), isGapChar c = true) ∧
      ∀ more, breaksOf (r.rest.takeWhile (· == ' ') ++ more) = breaksOf more := by
  refine ⟨passes_advance (List.takeWhile_prefix _), fun c hc => ?_, fun more => ?_⟩
  · rw [eq_space_of_mem c hc]
    rfl
  · have hreturn : '\r' ∉ r.rest.takeWhile (· == ' ') := fun hmem =>
      nomatch eq_space_of_mem '\r' hmem
    rw [breaksOf_append (apart_of_not_return hreturn), breaksOf_eq_nil not_break_of_mem,
      List.nil_append]

theorem plainBreaks_passes (n : Nat) (r : Reader) (breaks : List Char) :
    ∃ source, r.Passes source (plainBreaks n r breaks).2 ∧ (∀ c ∈ source, isGapChar c = true) ∧
      ∀ more, (plainBreaks n r breaks).1 = some more → more = breaks ++ breaksOf source := by
  induction n generalizing r breaks with
  | zero =>
      refine ⟨[], .refl r, by simp, fun more hmore => ?_⟩
      cases hmore
      exact (List.append_nil _).symm
  | succ n ih =>
      obtain ⟨hspaces, hgap, hnone⟩ := spaces_passes r
      unfold plainBreaks
      dsimp only
      split
      · refine ⟨_, hspaces, hgap, fun more hmore => ?_⟩
        cases hmore
        rw [breaksOf_eq_nil not_break_of_mem, List.append_nil]
      · rename_i c r₁ hbreak
        obtain ⟨source, hsource, hgap₁, hbreaks, hapart⟩ := lineBreak?_passes hbreak
        have hgap₁ := List.forall_mem_append.mpr ⟨hgap, hgap₁⟩
        -- A separator leaves nothing to be said of the breaks, but the text was read all the same.
        split_ifs
        · exact ⟨_, hspaces.trans hsource, hgap₁, by rintro more ⟨⟩⟩
        · obtain ⟨source', hsource', hgap', hmore⟩ := ih r₁ (breaks ++ [c])
          refine ⟨_, (hspaces.trans hsource).trans hsource',
            List.forall_mem_append.mpr ⟨hgap₁, hgap'⟩, fun more hdone => ?_⟩
          rw [hsource'.rest] at hapart
          rw [hmore more hdone, List.append_assoc, List.append_assoc, hnone,
            breaksOf_append hapart.left, hbreaks]

theorem plainGap_passes (r : Reader) :
    ∃ source, r.Passes source (plainGap r).reader ∧ (∀ c ∈ source, isGapChar c = true) ∧
      ∀ text, (plainGap r).text = some text → text = foldGap source := by
  obtain ⟨hspaces, hgap, hnone⟩ := spaces_passes r
  unfold plainGap
  dsimp only
  split
  · refine ⟨_, hspaces, hgap, fun text htext => ?_⟩
    cases htext
    exact (foldGap_of_no_break not_break_of_mem).symm
  · rename_i first r₁ hbreak
    obtain ⟨source, hsource, hgap₁, hbreaks, hapart⟩ := lineBreak?_passes hbreak
    have hgap₁ := List.forall_mem_append.mpr ⟨hgap, hgap₁⟩
    split_ifs
    · exact ⟨_, hspaces.trans hsource, hgap₁, by rintro text ⟨⟩⟩
    · obtain ⟨source', hsource', hgap', hmore⟩ := plainBreaks_passes (r₁.rest.length + 1) r₁ []
      refine ⟨_, (hspaces.trans hsource).trans hsource',
        List.forall_mem_append.mpr ⟨hgap₁, hgap'⟩, fun text htext => ?_⟩
      obtain ⟨more, hdone, rfl⟩ := Option.map_eq_some_iff.mp htext
      rw [hsource'.rest] at hapart
      refine (foldGap_of_breaks ?_).symm
      rw [hmore more hdone, List.append_assoc, hnone, breaksOf_append hapart.left, hbreaks]
      rfl

theorem plainPiece_no_gap (inFlow : Bool) (text : List Char) :
    ∀ c ∈ plainPiece inFlow text, isGapChar c = false := by
  induction text with
  | nil => simp [plainPiece]
  | cons c text ih =>
      rw [plainPiece]
      split_ifs with hstops
      · simp
      · refine List.forall_mem_cons.mpr ⟨?_, ih⟩
        have hblank : isBlankOrEnd c = false := by
          simp only [plainStops, Bool.or_eq_true, not_or] at hstops
          simpa using hstops.1.1
        simp only [isBlankOrEnd, isSpaceOrEnd, isBreakOrEnd, Bool.or_eq_false_iff] at hblank
        simp [isGapChar, hblank]

/-- What was read from `r` on, up to the end of the last piece, is folded. -/
structure PlainRun.Folds (r : Reader) (source : List Char) (last : Reader) (run : PlainRun) :
    Prop where
  passes : r.Passes source last
  stop : run.stop = last.mark
  text : run.text = foldGaps source

/-- Behind the last piece there are blanks up to the reader. There are none only before the first
piece. -/
structure PlainRun.Awaits (r : Reader) (source blanks : List Char) (last : Reader)
    (run : PlainRun) (gap : List Char) : Prop extends run.Folds r source last where
  behind : last.Passes blanks run.reader
  gap : gap = foldGap blanks
  ends : ∀ c ∈ source.getLast?, isGapChar c = false
  blank : ∀ c ∈ blanks, isGapChar c = true
  first : blanks = [] → source = []

/-- The text up to a piece that may still come. -/
def AwaitsPiece (r : Reader) (s : PlainRun × List Char) : Prop :=
  ∃ source blanks last, s.1.Awaits r source blanks last s.2

/-- Another piece and the gap behind it. -/
theorem plainRound_folds (inFlow : Bool) (indent : Int) {s : PlainRun × List Char}
    (h : AwaitsPiece r s) : Sum.elim (AwaitsPiece r)
      (fun run => ∃ source last, run.Folds r source last) (plainRound inFlow indent s) := by
  obtain ⟨source, blanks, last, h⟩ := h
  -- The blanks before the piece count only now that there is one.
  unfold plainRound
  dsimp only
  split_ifs with hstop
  · exact ⟨source, last, h.toFolds⟩
  have hpiece : plainPiece inFlow s.1.reader.rest ≠ [] := by
    rw [Bool.or_eq_true, not_or, List.isEmpty_iff] at hstop
    exact hstop.2
  have hclean := plainPiece_no_gap inFlow s.1.reader.rest
  have hpasses := passes_advance (plainPiece_initial inFlow s.1.reader.rest)
  generalize plainPiece inFlow s.1.reader.rest = piece at hpiece hclean hpasses
  generalize s.1.reader.advance piece.length = reader at hpasses
  have hfolds : ∀ stop crossed, PlainRun.Folds r (source ++ blanks ++ piece) reader
      ⟨s.1.text ++ s.2 ++ piece, reader.mark, stop, crossed⟩ := fun _ _ =>
    ⟨(h.passes.trans h.behind).trans hpasses, rfl, by
      rw [h.text, h.gap, foldGaps_piece h.ends h.blank hclean h.first]⟩
  obtain ⟨blanks', hblanks, hblank, hfold⟩ := plainGap_passes reader
  cases htext : (plainGap reader).text with
  | none => exact ⟨_, _, hfolds _ _⟩
  | some gap =>
      dsimp only
      split_ifs with hgap
      · exact ⟨_, _, hfolds _ _⟩
      · refine ⟨_, blanks', reader, hfolds _ _, hblanks, hfold gap htext, fun c hc => ?_, hblank,
          fun hnil => ?_⟩
        · rw [List.getLast?_append_of_ne_nil _ hpiece] at hc
          exact hclean c (List.mem_of_getLast? hc)
        · subst hnil
          have hempty : gap = [] := hfold gap htext
          simp [hempty] at hgap

theorem readPlain_folds (inFlow : Bool) (indent : Int) (r : Reader) :
    ∃ source last, r.Passes source last ∧ (readPlain inFlow indent r).1 =
      ⟨.scalar (String.ofList (foldGaps source)) .plain, r.mark, last.mark⟩ := by
  have hcomes := (plainRun_loops inFlow (indent + 1)).ends_of_lt
    (s := (⟨[], r.mark, r, false⟩, [])) plainRound_length (Nat.lt_succ_self _)
  have hstart : AwaitsPiece r (⟨[], r.mark, r, false⟩, []) :=
    ⟨[], [], r, ⟨.refl r, rfl, rfl⟩, .refl r, rfl, by simp, by simp, fun _ => rfl⟩
  have hround : ∀ s s', AwaitsPiece r s → plainRound inFlow (indent + 1) s = .inl s' →
      AwaitsPiece r s' := by
    intro s s' hs hround
    have hfolds := plainRound_folds inFlow (indent + 1) hs
    rwa [hround] at hfolds
  obtain ⟨s, hs, hlast⟩ := hcomes.result_of hround hstart
  have hfolds := plainRound_folds inFlow (indent + 1) hs
  rw [hlast] at hfolds
  obtain ⟨source, last, hfolds⟩ := hfolds
  refine ⟨source, last, hfolds.passes, ?_⟩
  dsimp only [readPlain]
  rw [hfolds.text, hfolds.stop]

end Reading

/-! ### Tokens -/

/-- The token is a plain scalar. -/
def Token.IsPlain (token : Token) : Prop := ∃ value, token.kind = .scalar value .plain

theorem not_isPlain_of_kind {token : Token} {kind : TokenKind} (h : token.kind = kind)
    (hkind : ∀ value, kind ≠ .scalar value .plain) : ¬ token.IsPlain := by
  rintro ⟨value, hvalue⟩
  exact hkind value (h.symm.trans hvalue)

theorem readQuoted_not_plain {double : Bool} {r r' : Reader} {token : Token}
    (h : readQuoted double r = .ok (token, r')) : ¬ token.IsPlain := by
  obtain ⟨_, -, h⟩ := bind_eq_ok_iff.mp h
  cases h
  cases double <;> exact not_isPlain_of_kind rfl (by simp)

theorem readBlockScalar_not_plain {folded : Bool} {outer : Int} {r r' : Reader} {token : Token}
    (h : readBlockScalar folded outer r = .ok (token, r')) : ¬ token.IsPlain := by
  unfold readBlockScalar at h
  obtain ⟨_, -, h⟩ := bind_eq_ok_iff.mp h
  obtain ⟨_, -, h⟩ := bind_eq_ok_iff.mp h
  obtain ⟨_, -, h⟩ := bind_eq_ok_iff.mp h
  cases h
  cases folded <;> exact not_isPlain_of_kind rfl (by simp)

namespace TokenStream

variable {s s' s'' : TokenStream}

/-- Every plain scalar in the second queue is in the first one. -/
def AddsNoPlain (s s' : TokenStream) : Prop := ∀ token ∈ s'.queue, token.IsPlain → token ∈ s.queue

theorem AddsNoPlain.trans (h : s.AddsNoPlain s') (h' : s'.AddsNoPlain s'') : s.AddsNoPlain s'' :=
  fun token htoken hplain => h token (h' token htoken hplain) hplain

theorem addsNoPlain_of_same (h : s'.queue = s.queue) : s.AddsNoPlain s' := by
  intro token htoken _
  rwa [h] at htoken

theorem addsNoPlain_of_insert {token : Token} (position : Nat) (hplain : ¬ token.IsPlain)
    (h : s'.queue = s.queue.insertIdx position token) : s.AddsNoPlain s' := by
  intro token' htoken' hplain'
  rw [h] at htoken'
  rcases List.eq_or_mem_of_mem_insertIdx htoken' with rfl | hold
  · exact absurd hplain' hplain
  · exact hold

theorem addsNoPlain_of_push {token : Token} (hplain : ¬ token.IsPlain)
    (h : s'.queue = s.queue ++ [token]) : s.AddsNoPlain s' :=
  addsNoPlain_of_insert s.queue.length hplain (by rw [h, List.insertIdx_length_self])

theorem KeysDropped.addsNoPlain (h : s.KeysDropped s') : s.AddsNoPlain s' :=
  addsNoPlain_of_same (by rw [h.same])

theorem KeysSaved.addsNoPlain (h : s.KeysSaved s') : s.AddsNoPlain s' :=
  addsNoPlain_of_same (by rw [h.same])

theorem mem_closeBlocks {column : Int} {mark : Mark} {indent : Int} {indents : List Int}
    {queue : List Token} {token : Token}
    (h : token ∈ (closeBlocks column mark indent indents queue).2.2) :
    token ∈ queue ∨ token.kind = .blockEnd := by
  induction indents generalizing indent queue with
  | nil =>
      unfold closeBlocks at h
      split_ifs at h
      · rcases List.mem_append.mp h with hold | hnew
        · exact Or.inl hold
        · cases List.mem_singleton.mp hnew
          exact Or.inr rfl
      · exact Or.inl h
  | cons outer indents ih =>
      unfold closeBlocks at h
      split_ifs at h
      · rcases ih h with hold | hkind
        · rcases List.mem_append.mp hold with hold | hnew
          · exact Or.inl hold
          · cases List.mem_singleton.mp hnew
            exact Or.inr rfl
        · exact Or.inr hkind
      · exact Or.inl h

theorem unwind_addsNoPlain (s : TokenStream) (column : Int) : s.AddsNoPlain (s.unwind column) := by
  intro token htoken hplain
  unfold unwind at htoken
  split_ifs at htoken
  · exact htoken
  · rcases mem_closeBlocks htoken with hold | hkind
    · exact hold
    · exact absurd hplain (not_isPlain_of_kind hkind (by simp))

theorem openBlock_addsNoPlain {kind : TokenKind} {refusal : Problem}
    (hkind : ∀ value, kind ≠ .scalar value .plain) (h : s.openBlock kind refusal = .ok s') :
    s.AddsNoPlain s' := by
  unfold openBlock at h
  split_ifs at h
  · cases h
    exact addsNoPlain_of_same rfl
  · split at h
    · rename_i s₁ hindent
      cases h
      rw [indentTo_eq_some hindent]
      exact addsNoPlain_of_push (not_isPlain_of_kind rfl hkind) rfl
    · cases h
      exact addsNoPlain_of_same rfl

theorem insertKey_addsNoPlain (s : TokenStream) (key : SimpleKey) :
    s.AddsNoPlain (s.insertKey key) := by
  let queue := s.queue.insertIdx (key.number - s.taken) ⟨.key, key.mark, key.mark⟩
  have hkey : s.AddsNoPlain { s with queue } :=
    addsNoPlain_of_insert _ (not_isPlain_of_kind rfl (by simp)) rfl
  unfold insertKey
  dsimp only
  split
  · exact hkey.trans (addsNoPlain_of_insert _ (not_isPlain_of_kind rfl (by simp)) rfl)
  · exact hkey

theorem fetchKeyed_addsNoPlain {read : Reader → Except Diagnostic (Token × Reader)}
    (hread : ∀ r token r', read r = .ok (token, r') → ¬ token.IsPlain)
    (h : s.fetchKeyed read = .ok s') : s.AddsNoPlain s' := by
  obtain ⟨s₁, hsave, h⟩ := bind_eq_ok_iff.mp h
  obtain ⟨⟨token, reader⟩, hok, h⟩ := bind_eq_ok_iff.mp h
  cases h
  exact (saveKey_saved hsave).addsNoPlain.trans (addsNoPlain_of_push (hread _ _ _ hok) rfl)

theorem addsNoPlain_of_sign {kind : TokenKind} {length : Nat}
    (hkind : ∀ value, kind ≠ .scalar value .plain)
    (h : s'.queue = (s.pushSign kind length).queue) : s.AddsNoPlain s' :=
  addsNoPlain_of_push (not_isPlain_of_kind rfl hkind) h

theorem fetchValue_addsNoPlain (h : s.fetchValue = .ok s') : s.AddsNoPlain s' := by
  unfold fetchValue at h
  split at h
  · cases h
    exact (s.forgetKey_dropped.addsNoPlain.trans (insertKey_addsNoPlain _ _)).trans
      (addsNoPlain_of_sign (by simp) rfl)
  · obtain ⟨s₁, hopen, h⟩ := bind_eq_ok_iff.mp h
    cases h
    exact (openBlock_addsNoPlain (by simp) hopen).trans (addsNoPlain_of_sign (by simp) rfl)

/-- A plain scalar is queued where it is read, and nowhere else. -/
theorem fetchSign_plain_cases (h : s.fetchSign = .ok s') :
    s.AddsNoPlain s' ∨ s.fetchPlain = .ok s' := by
  have hbranch := s.fetchSign_branch
  generalize s.fetchSign = x at h hbranch
  cases hbranch with
  | plain => exact Or.inr h
  | none => cases h
  | atEnd =>
      obtain ⟨s₁, hremove, h⟩ := bind_eq_ok_iff.mp h
      cases h
      exact Or.inl (((s.unwind_addsNoPlain _).trans (removeKey_dropped hremove).addsNoPlain).trans
        (addsNoPlain_of_push (not_isPlain_of_kind rfl (by simp)) rfl))
  | directive =>
      obtain ⟨s₁, hremove, h⟩ := bind_eq_ok_iff.mp h
      obtain ⟨⟨token, reader⟩, hread, h⟩ := bind_eq_ok_iff.mp h
      cases h
      obtain ⟨name, params, hkind⟩ := readDirective_kind hread
      exact Or.inl (((s.unwind_addsNoPlain _).trans (removeKey_dropped hremove).addsNoPlain).trans
        (addsNoPlain_of_push (not_isPlain_of_kind hkind (by simp)) rfl))
  | documentSign _ hkind =>
      cases h
      exact Or.inl (((s.unwind_addsNoPlain _).trans (forgetKey_dropped _).addsNoPlain).trans
        (addsNoPlain_of_sign (by rcases hkind with rfl | rfl <;> simp) rfl))
  | flowStart _ hkind =>
      obtain ⟨s₁, hsave, h⟩ := bind_eq_ok_iff.mp h
      cases h
      exact Or.inl ((saveKey_saved hsave).addsNoPlain.trans
        (addsNoPlain_of_sign (by rcases hkind with rfl | rfl <;> simp) rfl))
  | flowEnd _ hkind =>
      obtain ⟨s₁, hremove, h⟩ := bind_eq_ok_iff.mp h
      cases h
      exact Or.inl ((removeKey_dropped hremove).addsNoPlain.trans
        (addsNoPlain_of_sign (by rcases hkind with rfl | rfl <;> simp) rfl))
  | flowEntry =>
      obtain ⟨s₁, hremove, h⟩ := bind_eq_ok_iff.mp h
      cases h
      exact Or.inl ((removeKey_dropped hremove).addsNoPlain.trans
        (addsNoPlain_of_sign (by simp) rfl))
  | blockEntry =>
      obtain ⟨s₁, hopen, h⟩ := bind_eq_ok_iff.mp h
      obtain ⟨s₂, hremove, h⟩ := bind_eq_ok_iff.mp h
      cases h
      exact Or.inl (((openBlock_addsNoPlain (by simp) hopen).trans
        (removeKey_dropped hremove).addsNoPlain).trans (addsNoPlain_of_sign (by simp) rfl))
  | key =>
      obtain ⟨s₁, hopen, h⟩ := bind_eq_ok_iff.mp h
      obtain ⟨s₂, hremove, h⟩ := bind_eq_ok_iff.mp h
      cases h
      exact Or.inl (((openBlock_addsNoPlain (by simp) hopen).trans
        (removeKey_dropped hremove).addsNoPlain).trans (addsNoPlain_of_sign (by simp) rfl))
  | value => exact Or.inl (fetchValue_addsNoPlain h)
  | name _ hkind =>
      refine Or.inl (fetchKeyed_addsNoPlain (fun r token r' hread => ?_) h)
      obtain ⟨name, hname⟩ := readName_kind hread
      exact not_isPlain_of_kind hname (by rcases hkind with rfl | rfl <;> simp)
  | tag =>
      refine Or.inl (fetchKeyed_addsNoPlain (fun r token r' hread => ?_) h)
      obtain ⟨handle, suffix, hkind⟩ := readTag_kind hread
      exact not_isPlain_of_kind hkind (by simp)
  | blockScalar =>
      obtain ⟨s₁, hremove, h⟩ := bind_eq_ok_iff.mp h
      obtain ⟨⟨token, reader⟩, hread, h⟩ := bind_eq_ok_iff.mp h
      cases h
      exact Or.inl ((removeKey_dropped hremove).addsNoPlain.trans
        (addsNoPlain_of_push (readBlockScalar_not_plain hread) rfl))
  | quoted =>
      exact Or.inl (fetchKeyed_addsNoPlain (fun _ _ _ hread => readQuoted_not_plain hread) h)

theorem fetchPlain_queue (h : s.fetchPlain = .ok s') :
    ∃ inFlow indent, s'.queue = s.queue ++ [(readPlain inFlow indent s.reader).1] := by
  obtain ⟨s₁, hsave, h⟩ := bind_eq_ok_iff.mp h
  cases h
  rw [(saveKey_saved hsave).same]
  exact ⟨_, _, rfl⟩

/-- The plain scalars that a fetch adds to the queue are read behind the stream. -/
theorem fetch_plain (h : s.fetch = .ok s') : ∀ token ∈ s'.queue, token.IsPlain →
    token ∈ s.queue ∨
      ∃ inFlow indent r, s.reader.Leads r ∧ token = (readPlain inFlow indent r).1 := by
  intro token htoken hplain
  obtain ⟨s₁, hdrop, h⟩ := bind_eq_ok_iff.mp h
  have hdropped := dropStaleKeys_dropped hdrop
  have hskip : s.AddsNoPlain s.skipToToken := addsNoPlain_of_same rfl
  have hready : s.AddsNoPlain (s₁.unwind s₁.mark.column) :=
    (hskip.trans hdropped.addsNoPlain).trans (s₁.unwind_addsNoPlain _)
  have hreader : s.reader.Leads (s₁.unwind s₁.mark.column).reader := by
    rw [(s₁.unwind_moved _).prepared.reader, hdropped.prepared.reader]
    exact s.skipToToken_leads
  rcases fetchSign_plain_cases h with hnone | hfetch
  · exact Or.inl (hready token (hnone token htoken hplain) hplain)
  · obtain ⟨inFlow, indent, hqueue⟩ := fetchPlain_queue hfetch
    rw [hqueue] at htoken
    rcases List.mem_append.mp htoken with hold | hnew
    · exact Or.inl (hready token hold hplain)
    · exact Or.inr ⟨inFlow, indent, _, hreader, List.mem_singleton.mp hnew⟩

/-- The stream stands in the text, and the plain scalars of its queue were read there. -/
structure ReadsPlain (text : List Char) (s : TokenStream) : Prop where
  reader : (Reader.start text).Leads s.reader
  queue : ∀ token ∈ s.queue, token.IsPlain →
    ∃ inFlow indent r, (Reader.start text).Leads r ∧ token = (readPlain inFlow indent r).1

theorem ReadsPlain.fetch {text : List Char} (hs : s.ReadsPlain text) (h : s.fetch = .ok s') :
    s'.ReadsPlain text := by
  refine ⟨hs.reader.trans (fetch_fetched h).reader, fun token htoken hplain => ?_⟩
  rcases fetch_plain h token htoken hplain with hold | ⟨inFlow, indent, r, hr, hread⟩
  · exact hs.queue token hold hplain
  · exact ⟨inFlow, indent, r, hs.reader.trans hr, hread⟩

theorem ReadsPlain.fill {text : List Char} (hs : s.ReadsPlain text) (h : s.fill = .ok s') :
    s'.ReadsPlain text := by
  refine (fillFor_keeps (P := ReadsPlain text) ?_ (fun _ _ _ hfetch hs => hs.fetch hfetch) hs h).1
  intro s s' hdrop hs
  rw [(dropStaleKeys_dropped hdrop).same]
  exact ⟨hs.reader, hs.queue⟩

theorem ReadsPlain.collect {text : List Char} (hs : s.ReadsPlain text) {n : Nat} :
    ∀ token ∈ (s.collect n).items, token.IsPlain →
      ∃ inFlow indent r, (Reader.start text).Leads r ∧ token = (readPlain inFlow indent r).1 := by
  induction n generalizing s with
  | zero => exact fun _ htoken => (List.not_mem_nil htoken).elim
  | succ n ih =>
      unfold TokenStream.collect
      split
      · exact fun _ htoken => (List.not_mem_nil htoken).elim
      · exact fun _ htoken => (List.not_mem_nil htoken).elim
      · rename_i first s' hnext
        obtain ⟨s₁, queue, hfill, hqueue, rfl⟩ := next_eq_some hnext
        have hs₁ := hs.fill hfill
        have hmem := hs₁.queue
        rw [hqueue] at hmem
        obtain ⟨hfirst, hrest⟩ := List.forall_mem_cons.mp hmem
        exact List.forall_mem_cons.mpr ⟨hfirst, ih ⟨hs₁.reader, hrest⟩⟩

theorem readsPlain_start (text : List Char) : (start text).ReadsPlain text := by
  refine ⟨.refl _, fun token htoken hplain => ?_⟩
  cases List.mem_singleton.mp htoken
  exact absurd hplain (not_isPlain_of_kind rfl (by simp))

end TokenStream

namespace Token

/-- The text between the marks of a token. -/
def source (text : List Char) (token : Token) : List Char :=
  (text.drop token.start.index).take (token.stop.index - token.start.index)

theorem source_eq {text between : List Char} {r last : Reader} {token : Token}
    (hr : (Reader.start text).Leads r) (hlast : r.Passes between last)
    (hstart : token.start = r.mark) (hstop : token.stop = last.mark) :
    token.source text = between := by
  rw [source, hstart, hstop, hlast.index, ← hr.rest_eq, hlast.rest, Nat.add_sub_cancel_left,
    List.take_left]

/-- Where a token starts and stops on one line, there is no line break between. -/
theorem source_no_break {text : List Char} {token : Token} (hstart : token.start.StandsIn text)
    (hstop : token.stop.StandsIn text) (hline : token.start.line = token.stop.line) :
    ∀ c ∈ token.source text, isBreak c = false := by
  by_cases hle : token.start.index ≤ token.stop.index
  · have htake : text.take token.stop.index =
        text.take token.start.index ++ token.source text := by
      rw [source, ← List.take_add, Nat.add_sub_cancel' hle]
    have hdrop : text.drop token.start.index =
        token.source text ++ text.drop token.stop.index := by
      rw [source, ← Nat.add_sub_cancel' hle, ← List.drop_drop, Nat.add_sub_cancel_left,
        List.take_append_drop]
    have hapart : Apart (text.take token.start.index) (token.source text) := by
      have hwhole := hstart.apart
      rw [hdrop] at hwhole
      exact hwhole.left
    have hlines : (lineFeeds (text.take token.start.index)).countP isBreak =
        (lineFeeds (text.take token.stop.index)).countP isBreak := by
      rw [hstart.eq_behind, hstop.eq_behind] at hline
      exact hline
    rw [htake, lineFeeds_append hapart, List.countP_append] at hlines
    have hnone : (lineFeeds (token.source text)).countP isBreak = 0 := by omega
    intro c hc
    by_contra hbreak
    obtain ⟨d, hd, hdbreak⟩ := exists_break_lineFeeds ⟨c, hc, by simpa using hbreak⟩
    exact List.countP_eq_zero.mp hnone d hd hdbreak
  · rw [source, Nat.sub_eq_zero_of_le (by omega), List.take_zero]
    simp

end Token

/-- The value of a plain scalar is the text between its marks with the gaps folded, and on one line
it is that text as it stands. -/
theorem Token.ofText_plain_folded (text : List Char) :
    ∀ token ∈ (ofText text).items, ∀ value, token.kind = .scalar value .plain →
      value.toList = foldGaps (token.source text) ∧
      (token.start.line = token.stop.line → value.toList = token.source text) := by
  intro token htoken value hkind
  obtain ⟨inFlow, indent, r, hr, hread⟩ :=
    (TokenStream.readsPlain_start text).collect token htoken ⟨value, hkind⟩
  obtain ⟨between, last, hlast, hfold⟩ := readPlain_folds inFlow indent r
  rw [← hread] at hfold
  have hsource : token.source text = between := source_eq hr hlast (by rw [hfold]) (by rw [hfold])
  have hvalue : value.toList = foldGaps (token.source text) := by
    rw [hfold] at hkind
    cases hkind
    rw [hsource, String.toList_ofList]
  refine ⟨hvalue, fun hline => ?_⟩
  obtain ⟨hstart, hstop⟩ := ofText_stands text token htoken
  rw [hvalue, foldGaps_of_no_break (source_no_break hstart hstop hline)]

/-- A gap of each kind in one scalar, with a comment behind it, and a key on one line. -/
theorem Token.ofText_plain_folded_gaps :
    (∃ token ∈ (ofText "key: a  b\r\n c\n\n d\u2028\n e # f".toList).items,
      token.kind = .scalar "a  b c\nd\u2028\ne" .plain ∧
      foldGaps "a  b\r\n c\n\n d\u2028\n e".toList = "a  b c\nd\u2028\ne".toList) ∧
    ∃ token ∈ (ofText "key: a  b\r\n c\n\n d\u2028\n e # f".toList).items,
      token.kind = .scalar "key" .plain ∧ token.start.line = token.stop.line ∧
      token.source "key: a  b\r\n c\n\n d\u2028\n e # f".toList = "key".toList := by
  obtain ⟨⟨token, hmem, hkind, hsource⟩, token', hmem', hkind', hline⟩ :
      (∃ token ∈ (ofText "key: a  b\r\n c\n\n d\u2028\n e # f".toList).items,
        token.kind = .scalar "a  b c\nd\u2028\ne" .plain ∧
        token.source "key: a  b\r\n c\n\n d\u2028\n e # f".toList =
          "a  b\r\n c\n\n d\u2028\n e".toList) ∧
      ∃ token ∈ (ofText "key: a  b\r\n c\n\n d\u2028\n e # f".toList).items,
        token.kind = .scalar "key" .plain ∧ token.start.line = token.stop.line := by
    decide +kernel
  obtain ⟨hfold, -⟩ := ofText_plain_folded _ token hmem _ hkind
  obtain ⟨-, hone⟩ := ofText_plain_folded _ token' hmem' _ hkind'
  rw [hsource] at hfold
  exact ⟨⟨token, hmem, hkind, hfold.symm⟩, token', hmem', hkind', hline, (hone hline).symm⟩

end Playbook
