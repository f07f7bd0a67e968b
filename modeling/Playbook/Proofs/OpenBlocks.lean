import Playbook.Proofs.KeyNumbers

/-!
Open blocks. The columns of the blocks that are open rise from the outermost to the innermost, above
the `-1` that stands for the text around them, and there is one for each start of a block that no
end has followed yet. Starts are queued by several kinds of tokens, one of them late and in the
middle of the queue, and ends many at a time; but each change of a fetch moves columns and tokens
together.
-/

namespace Playbook

theorem TokenKind.endsBlock_of_startsBlock {kind : TokenKind} (h : kind.startsBlock = true) :
    kind.endsBlock = false := by
  cases kind <;> first | rfl | cases h

namespace Token

def blockStarts (tokens : List Token) : Nat := tokens.countP (·.kind.startsBlock)

def blockEnds (tokens : List Token) : Nat := tokens.countP (·.kind.endsBlock)

/-- Up to every token, no more blocks have ended than started. -/
def WellNested (tokens : List Token) : Prop :=
  ∀ front, front <+: tokens → blockEnds front ≤ blockStarts front

@[simp] theorem blockStarts_append (tokens tokens' : List Token) :
    blockStarts (tokens ++ tokens') = blockStarts tokens + blockStarts tokens' :=
  List.countP_append

@[simp] theorem blockEnds_append (tokens tokens' : List Token) :
    blockEnds (tokens ++ tokens') = blockEnds tokens + blockEnds tokens' :=
  List.countP_append

@[simp] theorem blockStarts_cons (token : Token) (tokens : List Token) :
    blockStarts (token :: tokens) =
      blockStarts tokens + if token.kind.startsBlock then 1 else 0 :=
  List.countP_cons

@[simp] theorem blockEnds_cons (token : Token) (tokens : List Token) :
    blockEnds (token :: tokens) = blockEnds tokens + if token.kind.endsBlock then 1 else 0 :=
  List.countP_cons

@[simp] theorem blockStarts_nil : blockStarts [] = 0 := rfl

@[simp] theorem blockEnds_nil : blockEnds [] = 0 := rfl

/-- A token that ends no block may be put in anywhere. -/
theorem WellNested.insert {before after : List Token} {token : Token}
    (h : WellNested (before ++ after)) (htoken : token.kind.endsBlock = false) :
    WellNested (before ++ token :: after) := by
  rintro front ⟨rest, hrest⟩
  rcases List.append_eq_append_iff.mp hrest with ⟨middle, hbefore, -⟩ | ⟨middle, hfront, hafter⟩
  · refine h front ⟨middle ++ after, ?_⟩
    rw [hbefore, List.append_assoc]
  · subst hfront
    cases middle with
    | nil =>
        rw [List.append_nil]
        exact h before (List.prefix_append _ _)
    | cons first middle =>
        obtain ⟨rfl, rfl⟩ := List.cons.inj hafter
        have hle := h (before ++ middle) ⟨rest, List.append_assoc _ _ _⟩
        simp only [blockEnds_append, blockStarts_append, blockEnds_cons, blockStarts_cons,
          htoken, Bool.false_eq_true, if_false] at hle ⊢
        split_ifs <;> omega

/-- An end may be added if a block is open. -/
theorem WellNested.concat {tokens : List Token} (h : WellNested tokens) (token : Token)
    (hlt : blockEnds tokens < blockStarts tokens) : WellNested (tokens ++ [token]) := by
  intro front hfront
  rcases List.prefix_concat_iff.mp hfront with rfl | hfront
  · simp only [blockEnds_append, blockStarts_append, blockEnds_cons, blockStarts_cons,
      blockEnds_nil, blockStarts_nil]
    split_ifs <;> omega
  · exact h front hfront

end Token

open Token

/-- The columns of the open blocks, innermost first, and the tokens that opened and closed
blocks. -/
structure OpenBlocks (indent : Int) (indents : List Int) (tokens : List Token) : Prop where
  falling : (indent :: indents).Pairwise (· > ·)
  based : (indent :: indents).getLast? = some (-1)
  count : blockStarts tokens = blockEnds tokens + indents.length
  nested : WellNested tokens

namespace OpenBlocks

variable {indent outer column : Int} {indents : List Int} {tokens before after : List Token}
  {token : Token}

theorem written (h : OpenBlocks indent indents (before ++ after)) (htoken : token.kind.Written) :
    OpenBlocks indent indents (before ++ token :: after) := by
  refine ⟨h.falling, h.based, ?_, h.nested.insert htoken.2⟩
  have hcount := h.count
  simpa [htoken.1, htoken.2] using hcount

theorem concat_written (h : OpenBlocks indent indents tokens) (htoken : token.kind.Written) :
    OpenBlocks indent indents (tokens ++ [token]) :=
  written (by rwa [List.append_nil]) htoken

theorem started (h : OpenBlocks indent indents (before ++ after))
    (htoken : token.kind.startsBlock = true) (hlt : indent < column) :
    OpenBlocks column (indent :: indents) (before ++ token :: after) := by
  have hend := TokenKind.endsBlock_of_startsBlock htoken
  refine ⟨?_, ?_, ?_, h.nested.insert hend⟩
  · refine List.pairwise_cons.mpr ⟨List.forall_mem_cons.mpr ⟨hlt, fun outer houter => ?_⟩,
      h.falling⟩
    have hgt := (List.pairwise_cons.mp h.falling).1 outer houter
    omega
  · rw [List.getLast?_cons_cons]
    exact h.based
  · have hcount := h.count
    simp only [blockEnds_append, blockStarts_append, blockEnds_cons, blockStarts_cons, htoken,
      hend, List.length_cons, ↓reduceIte, Bool.false_eq_true] at hcount ⊢
    omega

theorem ended (h : OpenBlocks indent (outer :: indents) tokens)
    (htoken : token.kind.endsBlock = true) : OpenBlocks outer indents (tokens ++ [token]) := by
  have hstart : token.kind.startsBlock = false := by
    cases hkind : token.kind.startsBlock with
    | false => rfl
    | true =>
        rw [TokenKind.endsBlock_of_startsBlock hkind] at htoken
        cases htoken
  have hcount := h.count
  rw [List.length_cons] at hcount
  refine ⟨(List.pairwise_cons.mp h.falling).2, ?_, ?_, h.nested.concat token (by omega)⟩
  · rw [← h.based, List.getLast?_cons_cons]
  · simp only [blockEnds_append, blockStarts_append, blockEnds_cons, blockStarts_cons,
      blockEnds_nil, blockStarts_nil, htoken, hstart, ↓reduceIte, Bool.false_eq_true]
    omega

/-- Outside of all columns no block is open. -/
theorem indents_eq_nil (h : OpenBlocks indent indents tokens) (hle : indent ≤ -1) :
    indents = [] := by
  cases indents with
  | nil => rfl
  | cons outer indents =>
      have hlast : (outer :: indents).getLast? = some (-1) := by
        rw [← h.based, List.getLast?_cons_cons]
      have hgt := (List.pairwise_cons.mp h.falling).1 (-1) (List.mem_of_getLast? hlast)
      omega

theorem rising (h : OpenBlocks indent indents tokens) :
    (indents.reverse ++ [indent]).Pairwise (· < ·) := by
  rw [← List.reverse_cons, List.pairwise_reverse]
  exact h.falling

theorem head?_eq (h : OpenBlocks indent indents tokens) :
    (indents.reverse ++ [indent]).head? = some (-1) := by
  rw [← List.reverse_cons, List.head?_reverse]
  exact h.based

end OpenBlocks

namespace TokenStream

/-- The columns that are left when blocks are closed as by `closeBlocks`, or none if one is to be
closed while none is open. -/
def closeBlocks? (column : Int) : Int → List Int → Option (Int × List Int)
  | indent, [] => if indent > column then none else some (indent, [])
  | indent, outer :: indents =>
      if indent > column then closeBlocks? column outer indents
      else some (indent, outer :: indents)

theorem closeBlocks_open {column indent : Int} {indents : List Int} {handed queue : List Token}
    (hcolumn : -1 ≤ column) (mark : Mark) (h : OpenBlocks indent indents (handed ++ queue)) :
    ∃ indent' indents' queue',
      closeBlocks column mark indent indents queue = (indent', indents', queue') ∧
      closeBlocks? column indent indents = some (indent', indents') ∧
      OpenBlocks indent' indents' (handed ++ queue') := by
  induction indents generalizing indent queue with
  | nil =>
      have hindent : indent = -1 := by simpa using h.based
      have hle : ¬ indent > column := by omega
      exact ⟨indent, [], queue, by rw [closeBlocks, if_neg hle], by rw [closeBlocks?, if_neg hle],
        h⟩
  | cons outer indents ih =>
      unfold closeBlocks closeBlocks?
      split_ifs
      · have hended : OpenBlocks outer indents (handed ++ queue ++ [⟨.blockEnd, mark, mark⟩]) :=
          h.ended rfl
        rw [List.append_assoc] at hended
        exact ih hended
      · exact ⟨indent, outer :: indents, queue, rfl, rfl, h⟩

variable {s s' : TokenStream} {handed : List Token}

/-- The blocks of a stream that has handed out some tokens. -/
structure Indented (handed : List Token) (s : TokenStream) : Prop where
  numbered : s.Numbered
  blocks : OpenBlocks s.indent s.indents (handed ++ s.queue)
  ended : s.done = true → s.inFlow = false → s.indents = []

theorem Indented.of_open (hopen : s.done = false) (hnumbered : s.Numbered)
    (hblocks : OpenBlocks s.indent s.indents (handed ++ s.queue)) : s.Indented handed := by
  refine ⟨hnumbered, hblocks, fun hdone => ?_⟩
  rw [hopen] at hdone
  cases hdone

theorem openBlocks_unwind {column : Int} (hcolumn : -1 ≤ column)
    (h : OpenBlocks s.indent s.indents (handed ++ s.queue)) :
    OpenBlocks (s.unwind column).indent (s.unwind column).indents
      (handed ++ (s.unwind column).queue) := by
  unfold TokenStream.unwind
  split_ifs
  · exact h
  · obtain ⟨indent, indents, queue, hclose, -, hopen⟩ := closeBlocks_open hcolumn s.mark h
    rw [hclose]
    exact hopen

theorem openBlocks_insertKey {key : SimpleKey}
    (hposition : key.number - s.taken ≤ s.queue.length)
    (h : OpenBlocks s.indent s.indents (handed ++ s.queue)) :
    OpenBlocks (s.insertKey key).indent (s.insertKey key).indents
      (handed ++ (s.insertKey key).queue) := by
  obtain ⟨before, after, hqueue, -, heq | ⟨hlt, heq⟩⟩ := insertKey_cases hposition
  all_goals rw [hqueue, ← List.append_assoc] at h
  · rw [heq]
    dsimp only
    rw [← List.append_assoc]
    exact h.written ⟨rfl, rfl⟩
  · rw [heq]
    dsimp only
    rw [← List.append_assoc]
    have hkey : OpenBlocks s.indent s.indents
        (handed ++ before ++ ⟨.key, key.mark, key.mark⟩ :: after) := h.written ⟨rfl, rfl⟩
    exact hkey.started rfl hlt

theorem Indented.act (hdone : s.done = false) (hact : s.Act s') (h : s.Indented handed) :
    s'.Indented handed := by
  have hnumbered := h.numbered.act hdone hact
  have hblocks := h.blocks
  -- Only tokens and columns matter; a token at the end of the queue is one behind all others.
  have hpush : ∀ token, token.kind.Written →
      OpenBlocks s.indent s.indents (handed ++ (s.queue ++ [token])) := by
    intro token htoken
    rw [← List.append_assoc]
    exact hblocks.concat_written htoken
  cases hact with
  | skip => exact .of_open hdone hnumbered hblocks
  | drop => exact .of_open hdone hnumbered hblocks
  | unwind hcolumn =>
      exact .of_open ((s.unwind_done _).trans hdone) hnumbered (openBlocks_unwind hcolumn hblocks)
  | indent hkind hlt =>
      refine .of_open hdone hnumbered ?_
      change OpenBlocks _ _ (handed ++ (s.queue ++ [_]))
      rw [← List.append_assoc]
      refine OpenBlocks.started ?_ hkind hlt
      rwa [List.append_nil]
  | @insert key hkey =>
      have hwaits := h.numbered.keys key (List.mem_of_find?_eq_some hkey)
      have hopen : (s.forgetKey.insertKey key).done = false := by
        rw [insertKey_moved]
        exact hdone
      exact .of_open hopen hnumbered
        (openBlocks_insertKey (s := s.forgetKey) (Nat.le_of_lt hwaits.position_lt) hblocks)
  | read _ hkind => exact .of_open hdone hnumbered (hpush _ hkind)
  | note _ _ hkind => exact .of_open hdone hnumbered (hpush _ hkind)
  | enter => exact .of_open hdone hnumbered hblocks
  | leave => exact .of_open hdone hnumbered hblocks
  | finish hindent =>
      exact ⟨hnumbered, hpush _ ⟨rfl, rfl⟩, fun _ hflow => hblocks.indents_eq_nil (hindent hflow)⟩

theorem Reached.indented {text : List Char} (h : Reached text handed s) : s.Indented handed := by
  apply h.keeps (P := fun handed s => s.Indented handed)
  · refine .of_open rfl Reached.start.numbered ⟨List.pairwise_singleton _ _, rfl, rfl, ?_⟩
    intro front hfront
    rcases List.prefix_cons_iff.mp hfront with rfl | ⟨front, rfl, hfront⟩
    · exact Nat.le_refl _
    · rw [List.prefix_nil.mp ‹front <+: []›]
      exact Nat.le_refl _
  · exact fun _ _ _ hdone hact hs => hs.act hdone hact
  · intro handed s token queue hqueue hfront hs
    refine ⟨hs.numbered.handed hqueue hfront, ?_, hs.ended⟩
    have hblocks := hs.blocks
    rw [hqueue] at hblocks
    rwa [List.append_assoc]

/-- The columns of the open blocks, outermost first, behind the `-1` outside of all. -/
def indentation (s : TokenStream) : List Int := s.indents.reverse ++ [s.indent]

/-- For each block that closes down to `column` there is one that was open. -/
def Unwinds (s : TokenStream) (column : Int) : Prop :=
  s.inFlow = false → closeBlocks? column s.indent s.indents =
    some ((s.unwind column).indent, (s.unwind column).indents)

theorem unwinds_of_open {column : Int} (hcolumn : -1 ≤ column)
    (h : OpenBlocks s.indent s.indents (handed ++ s.queue)) : s.Unwinds column := by
  intro hflow
  obtain ⟨indent, indents, queue, hclose, hchecked, -⟩ := closeBlocks_open hcolumn s.mark h
  rw [hchecked, unwind, if_neg (by simp [hflow]), hclose]

theorem Reached.unwinds {text : List Char} {t : TokenStream} (h : Reached text handed s)
    (hdone : s.done = false) (hdrop : s.skipToToken.dropStaleKeys = .ok t) :
    t.Unwinds t.mark.column ∧ (t.unwind t.mark.column).Unwinds (-1) := by
  have hblocks := ((skipToToken_acts hdone hdrop).1.keeps (P := Indented handed)
    (fun _ _ hdone hact => Indented.act hdone hact) h.indented).blocks
  have hcolumn : -1 ≤ (t.mark.column : Int) := by omega
  exact ⟨unwinds_of_open hcolumn hblocks,
    unwinds_of_open (by omega) (openBlocks_unwind hcolumn hblocks)⟩

theorem Reached.balanced {text : List Char} (h : Reached text handed s)
    (hnext : s.next = .ok (none, s')) (hflow : s'.flowLevel = 0) :
    WellNested handed ∧ blockStarts handed = blockEnds handed := by
  obtain ⟨rfl, hdone, hqueue⟩ := next_none hnext
  have hindented := h.indented
  have hblocks := hindented.blocks
  rw [hindented.ended hdone (by simp [inFlow, hflow]), hqueue, List.append_nil] at hblocks
  exact ⟨hblocks.nested, hblocks.count⟩

theorem reached_ofText {text : List Char} (h : (ofText text).fault = none) :
    ∃ last, Reached text (ofText text).items last ∧ last.next = .ok (none, last) := by
  have hbudget : (TokenStream.start text).budget < 4 * text.length + 8 := by
    rw [budget_start]
    omega
  obtain ⟨last, hhands, ⟨-, s', hnext⟩ | ⟨d, hfault, -⟩⟩ := collect_hands (based_start text) hbudget
  · obtain ⟨rfl, -⟩ := next_none hnext
    exact ⟨s', Reached.start.hands hhands, hnext⟩
  · cases h.symm.trans hfault

/-- Every text: the columns of the open blocks rise from `-1`, and there is one more of them than
blocks that have started and not ended among the tokens handed out and queued. No block is closed
while none is open. If the text comes to its end outside of all brackets, every block that has
started has ended, and none before it started. -/
theorem reached_indentation (text : List Char) :
    (∀ handed s, Reached text handed s →
      s.indentation.Pairwise (· < ·) ∧ s.indentation.head? = some (-1) ∧
      (s.indentation.length : Int) - 1 =
        blockStarts (handed ++ s.queue) - blockEnds (handed ++ s.queue) ∧
      (∀ t, s.done = false → s.skipToToken.dropStaleKeys = .ok t →
        t.Unwinds t.mark.column ∧ (t.unwind t.mark.column).Unwinds (-1)) ∧
      (∀ s', s.next = .ok (none, s') → s'.flowLevel = 0 →
        WellNested handed ∧ blockStarts handed = blockEnds handed)) ∧
    ((ofText text).fault = none →
      ∃ last, Reached text (ofText text).items last ∧ last.next = .ok (none, last)) := by
  refine ⟨fun handed s h => ?_, reached_ofText⟩
  have hblocks := h.indented.blocks
  refine ⟨hblocks.rising, hblocks.head?_eq, ?_, fun t => h.unwinds, fun s' => h.balanced⟩
  have hcount := hblocks.count
  rw [indentation, List.length_append, List.length_reverse, List.length_singleton]
  omega

/-- A sequence inside of a mapping: two blocks start, and at the end of the text both have ended. -/
theorem reached_indentation_nested :
    ∃ handed last, Reached "a:\n  - b".toList handed last ∧ last.next = .ok (none, last) ∧
      last.flowLevel = 0 ∧ blockStarts handed = 2 ∧
      WellNested handed ∧ blockStarts handed = blockEnds handed := by
  obtain ⟨handed, last, hhands, hnext, hflow, hstarts⟩ :
      ∃ handed last, (TokenStream.start "a:\n  - b".toList).Hands handed last ∧
        last.next = .ok (none, last) ∧ last.flowLevel = 0 ∧ blockStarts handed = 2 :=
    ⟨_, _, .cons rfl (.cons rfl (.cons rfl (.cons rfl (.cons rfl (.cons rfl (.cons rfl (.cons rfl
      (.cons rfl (.cons rfl (.cons rfl (.nil _))))))))))), rfl, rfl, rfl⟩
  have hreached := Reached.start.hands hhands
  exact ⟨handed, last, hreached, hnext, hflow, hstarts,
    ((reached_indentation _).1 _ _ hreached).2.2.2.2 last hnext hflow⟩

end TokenStream

end Playbook
