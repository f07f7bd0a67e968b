import Playbook.Proofs.Bare
import Playbook.Event.Stream

/-!
Events do not depend on indices. The machine that makes events of tokens hands on the marks of the
tokens and never looks at their indices, so that the events of bare tokens are the bare events.
-/

namespace Playbook

def Token.bare (token : Token) : Token := ⟨token.kind, token.start.bare, token.stop.bare⟩

def Event.bare (event : Event) : Event := ⟨event.kind, event.start.bare, event.stop.bare⟩

@[simp] theorem Token.bare_kind (token : Token) : token.bare.kind = token.kind := rfl

/-- The feed with bare items and a bare diagnostic. -/
def Feed.bare {α : Type} (f : α → α) (feed : Feed α) : Feed α :=
  ⟨feed.items.map f, feed.fault.map Diagnostic.bare⟩

namespace EventStream

def bare (s : EventStream) : EventStream where
  tokens := s.tokens.bare Token.bare
  state := s.state
  pending := s.pending
  openMarks := s.openMarks.map Mark.bare
  handles := s.handles
  ready := s.ready.map Event.bare

/-- What a step yields, without indices. -/
def bareStep (found : Event × EventStream) : Event × EventStream := (found.1.bare, found.2.bare)

def PropertyRun.bare (run : PropertyRun) : PropertyRun where
  anchor := run.anchor
  tag := run.tag
  tagMark := run.tagMark.bare
  start := run.start.map Mark.bare
  stop := run.stop.map Mark.bare

variable (s : EventStream)

/-! ### Moving on -/

theorem token_bare : s.bare.token = bareOutcome Token.bare s.token := by
  obtain ⟨⟨items, fault⟩, _, _, _, _, _⟩ := s
  cases items with
  | cons token items => rfl
  | nil => cases fault <;> rfl

theorem kind_bare : s.bare.kind = bareOutcome id s.kind := by
  unfold kind
  rw [token_bare]
  cases s.token <;> rfl

theorem skip_bare : s.bare.skip = s.skip.bare := by
  simp [skip, bare, Feed.bare, List.map_tail]

theorem push_bare (state : Expect) : s.bare.push state = (s.push state).bare := rfl

theorem close_bare : s.bare.close = s.close.bare := by
  simp [close, pop, bare, List.map_tail]

theorem unexpected_bare (context : Activity) {problem : Problem} (mark : Mark)
    (hproblem : problem.bare = problem) :
    s.bare.unexpected context problem mark.bare = (s.unexpected context problem mark).bare := by
  unfold unexpected bare
  cases s.openMarks <;> simp [Diagnostic.bare, Diagnostic.within, Diagnostic.plain, hproblem]

/-! ### Nodes -/

theorem getD_bare (mark : Option Mark) (other : Mark) :
    (mark.map Mark.bare).getD other.bare = (mark.getD other).bare := by
  cases mark <;> rfl

theorem property_bare (run : PropertyRun) :
    property run.bare s.bare =
      bareOutcome (fun found => (found.1.bare, found.2.bare)) (property run s) := by
  unfold property
  refine bareOutcome_bind s.token_bare fun token => ?_
  obtain ⟨kind, start, stop⟩ := token
  obtain ⟨anchor, tag, tagMark, first, last⟩ := run
  cases kind with
  | anchor name =>
      cases anchor with
      | some name' => rfl
      | none => simp [Token.bare, PropertyRun.bare, skip_bare]
  | tag handle suffix =>
      cases tag with
      | some tag' => rfl
      | none => simp [Token.bare, PropertyRun.bare, skip_bare]
  | _ => rfl

theorem resolveTag_bare (run : PropertyRun) :
    s.bare.resolveTag run.bare = bareOutcome id (s.resolveTag run) := by
  obtain ⟨anchor, tag, tagMark, start, stop⟩ := run
  cases tag with
  | none => rfl
  | some tag =>
      obtain ⟨handle, suffix⟩ := tag
      cases handle with
      | none => rfl
      | some handle =>
          unfold resolveTag PropertyRun.bare bare
          dsimp only
          cases s.handles.lookup handle with
          | some expansion => rfl
          | none => cases start <;> rfl

theorem node_bare (block indentless : Bool) :
    s.bare.node block indentless = bareOutcome bareStep (s.node block indentless) := by
  unfold node content
  refine bareOutcome_bind s.token_bare fun token => ?_
  obtain ⟨kind, start, stop⟩ := token
  dsimp only [Token.bare]
  -- The outer match comes first only on the left of the equation, so each side is split there.
  symm
  split
  · rename_i heq
    cases heq
    rw [skip_bare]
    rfl
  · rename_i hother
    symm
    split
    · rename_i heq
      cases heq
      exact (hother _ _ _ rfl).elim
    · refine bareOutcome_bind (s.property_bare ⟨none, none, .origin, none, none⟩) ?_
      rintro ⟨run, s₁⟩
      refine bareOutcome_bind (s₁.property_bare run) ?_
      rintro ⟨run, s₂⟩
      refine bareOutcome_bind (s₂.resolveTag_bare run) fun tag => ?_
      refine bareOutcome_bind s₂.token_bare fun token => ?_
      obtain ⟨kind, start, stop⟩ := token
      dsimp only [Token.bare, PropertyRun.bare, id]
      rw [getD_bare]
      symm
      split
      · rw [skip_bare]
        rfl
      · rfl
      · rfl
      · symm
        split_ifs with hentry hsequence hmapping hprops
        · rfl
        · rfl
        · rfl
        · refine (if_pos hprops).trans ?_
          rw [getD_bare]
          rfl
        · exact if_neg hprops

theorem nodeUnless_bare (token : Token) (stops : List TokenKind) (after : Expect)
    (block indentless : Bool) :
    s.bare.nodeUnless token.bare stops after block indentless =
      bareOutcome bareStep (s.nodeUnless token stops after block indentless) := by
  unfold nodeUnless
  refine bareOutcome_bind s.kind_bare fun kind => ?_
  rw [id]
  split_ifs
  · rfl
  · rw [push_bare, node_bare]

/-! ### Documents -/

theorem streamStep_bare : s.bare.streamStep = bareOutcome bareStep s.streamStep := by
  refine bareOutcome_bind s.token_bare fun token => ?_
  rw [skip_bare]
  rfl

theorem directive_bare (run : DirectiveRun) (token : Token) :
    directive run token.bare = bareOutcome id (directive run token) := by
  unfold directive
  rw [Token.bare_kind]
  split
  · split_ifs <;> rfl
  · split_ifs <;> rfl
  · rfl
  · rfl

theorem foldlM_directive_bare (lines : List Token) (run : DirectiveRun) :
    (lines.map Token.bare).foldlM directive run = bareOutcome id (lines.foldlM directive run) := by
  induction lines generalizing run with
  | nil => rfl
  | cons line lines ih =>
      rw [List.map_cons, List.foldlM_cons, List.foldlM_cons]
      exact bareOutcome_bind (directive_bare run line) ih

theorem directives_bare : s.bare.directives = bareOutcome bare s.directives := by
  unfold directives
  rw [List.span_eq_takeWhile_dropWhile, List.span_eq_takeWhile_dropWhile]
  dsimp only [bare, Feed.bare]
  rw [List.takeWhile_map, List.dropWhile_map]
  refine bareOutcome_bind (foldlM_directive_bare _ _) fun run => ?_
  rfl

theorem skipDocumentEnds_bare : s.bare.skipDocumentEnds = s.skipDocumentEnds.bare := by
  unfold skipDocumentEnds bare Feed.bare
  simp [List.dropWhile_map, Function.comp_def]

theorem explicitDocumentStep_bare :
    s.bare.explicitDocumentStep = bareOutcome bareStep s.explicitDocumentStep := by
  unfold explicitDocumentStep
  rw [skipDocumentEnds_bare]
  refine bareOutcome_bind (token_bare _) fun first => ?_
  rw [Token.bare_kind]
  split_ifs
  · rw [skip_bare]
    rfl
  · refine bareOutcome_bind (directives_bare _) fun s => ?_
    refine bareOutcome_bind s.token_bare fun token => ?_
    rw [Token.bare_kind]
    split_ifs
    · rw [skip_bare]
      rfl
    · rfl

theorem implicitDocumentStep_bare :
    s.bare.implicitDocumentStep = bareOutcome bareStep s.implicitDocumentStep := by
  unfold implicitDocumentStep
  refine bareOutcome_bind s.token_bare fun token => ?_
  rw [Token.bare_kind]
  split_ifs
  · exact s.explicitDocumentStep_bare
  · rfl

theorem documentEndStep_bare :
    s.bare.documentEndStep = bareOutcome bareStep s.documentEndStep := by
  unfold documentEndStep
  refine bareOutcome_bind s.token_bare fun token => ?_
  rw [Token.bare_kind]
  split_ifs
  · rw [skip_bare]
    rfl
  · rfl

theorem documentContentStep_bare :
    s.bare.documentContentStep = bareOutcome bareStep s.documentContentStep := by
  unfold documentContentStep
  refine bareOutcome_bind s.token_bare fun token => ?_
  rw [Token.bare_kind]
  split_ifs
  · rfl
  · exact s.node_bare true false

/-! ### Collections -/

/-- Behind a sign stands a node, or it is left out; without the sign there is none. -/
theorem signed_bare {kind : TokenKind} {stops : List TokenKind} {after : Expect}
    {block indentless : Bool} {absent absent' : Token → Event × EventStream}
    (habsent : ∀ token, absent' token.bare = bareStep (absent token)) :
    (do
      let token ← s.bare.token
      if token.kind == kind then s.bare.skip.nodeUnless token stops after block indentless
      else return absent' token) =
    bareOutcome bareStep (do
      let token ← s.token
      if token.kind == kind then s.skip.nodeUnless token stops after block indentless
      else return absent token) := by
  refine bareOutcome_bind s.token_bare fun token => ?_
  rw [Token.bare_kind, skip_bare]
  split_ifs
  · exact nodeUnless_bare _ token _ _ _ _
  · exact congrArg Except.ok (habsent token)

theorem indentlessStep_bare : s.bare.indentlessStep = bareOutcome bareStep s.indentlessStep :=
  s.signed_bare fun _ => rfl

theorem blockValueStep_bare : s.bare.blockValueStep = bareOutcome bareStep s.blockValueStep :=
  s.signed_bare fun _ => rfl

theorem pairValueStep_bare : s.bare.pairValueStep = bareOutcome bareStep s.pairValueStep :=
  s.signed_bare fun _ => rfl

theorem flowValueStep_bare : s.bare.flowValueStep = bareOutcome bareStep s.flowValueStep :=
  s.signed_bare fun _ => rfl

/-- An entry of a block, or its end. -/
theorem entry_bare {kind : TokenKind} {stops : List TokenKind} {after : Expect}
    {indentless : Bool} {closing : EventKind} {context : Activity} :
    (do
      let token ← s.bare.token
      if token.kind == kind then s.bare.skip.nodeUnless token stops after true indentless
      else if token.kind == .blockEnd then
        return (⟨closing, token.start, token.stop⟩, s.bare.skip.close)
      else .error (s.bare.unexpected context (.expectedBlockEnd token.kind.label) token.start)) =
    bareOutcome bareStep (do
      let token ← s.token
      if token.kind == kind then s.skip.nodeUnless token stops after true indentless
      else if token.kind == .blockEnd then
        return (⟨closing, token.start, token.stop⟩, s.skip.close)
      else .error (s.unexpected context (.expectedBlockEnd token.kind.label) token.start)) := by
  refine bareOutcome_bind s.token_bare fun token => ?_
  rw [Token.bare_kind, skip_bare]
  split_ifs
  · exact nodeUnless_bare _ token _ _ _ _
  · rw [close_bare]
    rfl
  · exact congrArg Except.error (s.unexpected_bare _ token.start rfl)

theorem blockSequenceStep_bare :
    s.bare.blockSequenceStep = bareOutcome bareStep s.blockSequenceStep :=
  s.entry_bare

theorem blockKeyStep_bare : s.bare.blockKeyStep = bareOutcome bareStep s.blockKeyStep :=
  s.entry_bare

theorem flowComma_bare (first : Bool) (context : Activity) {problem : String → Problem}
    (hproblem : ∀ label, (problem label).bare = problem label) :
    s.bare.flowComma first context problem =
      bareOutcome bare (s.flowComma first context problem) := by
  unfold flowComma
  refine bareOutcome_bind s.token_bare fun token => ?_
  rw [Token.bare_kind, skip_bare]
  split_ifs
  · rfl
  · rfl
  · exact congrArg Except.error (s.unexpected_bare _ token.start (hproblem _))

/-- The end of a collection in brackets. -/
theorem ended_bare {closing : EventKind} :
    (do
      let token ← s.bare.token
      return (⟨closing, token.start, token.stop⟩, s.bare.skip.close) : Step) =
    bareOutcome bareStep (do
      let token ← s.token
      return (⟨closing, token.start, token.stop⟩, s.skip.close)) := by
  refine bareOutcome_bind s.token_bare fun token => ?_
  rw [skip_bare, close_bare]
  rfl

theorem flowSequenceEnd_bare :
    s.bare.flowSequenceEnd = bareOutcome bareStep s.flowSequenceEnd :=
  s.ended_bare

theorem flowMappingEnd_bare : s.bare.flowMappingEnd = bareOutcome bareStep s.flowMappingEnd :=
  s.ended_bare

theorem flowSequenceStep_bare (first : Bool) :
    s.bare.flowSequenceStep first = bareOutcome bareStep (s.flowSequenceStep first) := by
  unfold flowSequenceStep
  refine bareOutcome_bind s.kind_bare fun kind => ?_
  rw [id]
  split_ifs
  · exact s.flowSequenceEnd_bare
  · refine bareOutcome_bind (s.flowComma_bare first _ fun _ => rfl) fun s => ?_
    refine bareOutcome_bind s.token_bare fun token => ?_
    rw [Token.bare_kind]
    split_ifs
    · rfl
    · exact s.flowSequenceEnd_bare
    · exact (s.push _).node_bare false false

theorem pairKeyStep_bare : s.bare.pairKeyStep = bareOutcome bareStep s.pairKeyStep := by
  refine bareOutcome_bind s.token_bare fun token => ?_
  rw [skip_bare]
  exact nodeUnless_bare _ token _ _ _ _

theorem pairEndStep_bare : s.bare.pairEndStep = bareOutcome bareStep s.pairEndStep :=
  bareOutcome_bind s.token_bare fun _ => rfl

theorem flowKeyStep_bare (first : Bool) :
    s.bare.flowKeyStep first = bareOutcome bareStep (s.flowKeyStep first) := by
  unfold flowKeyStep
  refine bareOutcome_bind s.kind_bare fun kind => ?_
  rw [id]
  split_ifs
  · exact s.flowMappingEnd_bare
  · refine bareOutcome_bind (s.flowComma_bare first _ fun _ => rfl) fun s => ?_
    refine bareOutcome_bind s.token_bare fun token => ?_
    rw [Token.bare_kind, skip_bare]
    split_ifs
    · exact nodeUnless_bare _ token _ _ _ _
    · exact s.flowMappingEnd_bare
    · exact (s.push _).node_bare false false

theorem flowNoValueStep_bare :
    s.bare.flowNoValueStep = bareOutcome bareStep s.flowNoValueStep :=
  bareOutcome_bind s.token_bare fun _ => rfl

theorem opened_bare : s.bare.opened = bareOutcome bare s.opened := by
  refine bareOutcome_bind s.token_bare fun token => ?_
  rw [skip_bare]
  rfl

/-! ### Steps and runs -/

theorem step_bare (e : Expect) : s.bare.step e = bareOutcome bareStep (s.step e) := by
  cases e with
  | streamStart => exact s.streamStep_bare
  | implicitDocumentStart => exact s.implicitDocumentStep_bare
  | documentStart => exact s.explicitDocumentStep_bare
  | documentContent => exact s.documentContentStep_bare
  | documentEnd => exact s.documentEndStep_bare
  | blockNode => exact s.node_bare true false
  | blockSequenceFirst => exact bareOutcome_bind s.opened_bare fun s => s.blockSequenceStep_bare
  | blockSequenceEntry => exact s.blockSequenceStep_bare
  | indentlessEntry => exact s.indentlessStep_bare
  | blockMappingFirst => exact bareOutcome_bind s.opened_bare fun s => s.blockKeyStep_bare
  | blockMappingKey => exact s.blockKeyStep_bare
  | blockMappingValue => exact s.blockValueStep_bare
  | flowSequenceFirst => exact bareOutcome_bind s.opened_bare fun s => s.flowSequenceStep_bare true
  | flowSequenceEntry => exact s.flowSequenceStep_bare false
  | pairKey => exact s.pairKeyStep_bare
  | pairValue => exact s.pairValueStep_bare
  | pairEnd => exact s.pairEndStep_bare
  | flowMappingFirst => exact bareOutcome_bind s.opened_bare fun s => s.flowKeyStep_bare true
  | flowMappingKey => exact s.flowKeyStep_bare false
  | flowMappingValue => exact s.flowValueStep_bare
  | flowMappingNoValue => exact s.flowNoValueStep_bare

theorem peek_bare :
    s.bare.peek = bareOutcome (fun found => (found.1.map Event.bare, found.2.bare)) s.peek := by
  obtain ⟨tokens, state, pending, openMarks, handles, ready⟩ := s
  cases ready with
  | some event => rfl
  | none =>
      cases state with
      | none => rfl
      | some e => exact bareOutcome_bind (step_bare _ e) fun _ => rfl

theorem next_bare :
    s.bare.next = bareOutcome (fun found => (found.1.map Event.bare, found.2.bare)) s.next :=
  bareOutcome_bind s.peek_bare fun _ => rfl

theorem collect_bare (n : Nat) : s.bare.collect n = (s.collect n).bare Event.bare := by
  induction n generalizing s with
  | zero => rfl
  | succ n ih =>
      unfold collect
      rw [next_bare]
      cases s.next with
      | error d => rfl
      | ok found =>
          obtain ⟨event, s'⟩ := found
          cases event with
          | none => rfl
          | some event =>
              simp only [bareOutcome_ok, Option.map_some]
              rw [ih]
              rfl

end EventStream

/-- The events of bare tokens are the bare events. -/
theorem Event.ofTokens_bare (tokens : Feed Token) :
    Event.ofTokens (tokens.bare Token.bare) = (Event.ofTokens tokens).bare Event.bare := by
  have hlength : (tokens.bare Token.bare).items.length = tokens.items.length := List.length_map _
  unfold Event.ofTokens
  rw [hlength]
  exact (EventStream.start tokens).collect_bare _

end Playbook
