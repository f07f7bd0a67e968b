import Playbook.Proofs.StreamOfText
import Playbook.Proofs.TokenOrder

/-!
The events of a text stand in the order of the text. The marks of an event are taken from the tokens
it is made of, or from the next one where something is left out, so that the order of the tokens
carries over.
-/

namespace Playbook

/-- Whether an event opens a collection. -/
def EventKind.opens : EventKind → Bool
  | .sequenceStart .. => true
  | .mappingStart .. => true
  | _ => false

/-- The marks of an event. The opening of a collection counts by its start only: the sign that it
may end with is read together with what is inside. -/
def Event.marks (event : Event) : List Mark :=
  if event.kind.opens then [event.start] else [event.start, event.stop]

theorem Event.start_mem_marks (event : Event) : event.start ∈ event.marks := by
  unfold marks
  split_ifs <;> simp

theorem Event.stop_mem_marks {event : Event} (h : event.kind.opens = false) :
    event.stop ∈ event.marks := by
  simp [marks, h]

namespace EventStream

/-- A step that reads from `tokens` an event and leaves `rest`: all marks of the event are those of
tokens, and they are in order with what is left. -/
structure Draws (tokens : List Token) (event : Event) (rest : List Token) : Prop where
  marks : ∀ m ∈ event.marks, m ∈ Token.marks tokens
  suffix : rest <:+ tokens
  ordered : Mark.Ordered (event.marks ++ Token.marks rest)

section Lists

variable {t : Token} {used rest tokens tokens' : List Token} {event : Event} {m m' : Mark}

theorem marks_subset (h : tokens <:+ tokens') (hm : m ∈ Token.marks tokens) :
    m ∈ Token.marks tokens' := by
  obtain ⟨used, rfl⟩ := h
  simp [hm]

theorem ordered_suffix (h : Mark.Ordered (Token.marks tokens')) (hsuffix : tokens <:+ tokens') :
    Mark.Ordered (Token.marks tokens) := by
  obtain ⟨used, rfl⟩ := hsuffix
  rw [Token.marks_append, Mark.ordered_append] at h
  exact h.2.1

theorem Draws.of_suffix (h : Draws tokens event rest) (hsuffix : tokens <:+ tokens') :
    Draws tokens' event rest :=
  ⟨fun m hm => marks_subset hsuffix (h.marks m hm), h.suffix.trans hsuffix, h.ordered⟩

/-- An event between two marks of the tokens, in order with the rest. -/
theorem draws_between {kind : EventKind} (hordered : Mark.Ordered (m :: m' :: Token.marks rest))
    (hm : m ∈ Token.marks tokens) (hm' : m' ∈ Token.marks tokens) (hsuffix : rest <:+ tokens) :
    Draws tokens ⟨kind, m, m'⟩ rest := by
  cases hopens : kind.opens with
  | true =>
      have hmarks : Event.marks ⟨kind, m, m'⟩ = [m] := by simp [Event.marks, hopens]
      refine ⟨by simpa [hmarks] using hm, hsuffix, ?_⟩
      rw [hmarks]
      exact hordered.sublist ((List.sublist_cons_self _ _).cons_cons _)
  | false =>
      have hmarks : Event.marks ⟨kind, m, m'⟩ = [m, m'] := by simp [Event.marks, hopens]
      refine ⟨by simpa [hmarks] using ⟨hm, hm'⟩, hsuffix, ?_⟩
      rw [hmarks]
      exact hordered

/-- The opening of a collection, which leaves the token that it starts at or one behind that. -/
theorem draws_opening {kind : EventKind} (hopens : kind.opens = true)
    (hordered : Mark.Ordered (m :: Token.marks rest)) (hm : m ∈ Token.marks tokens)
    (hsuffix : rest <:+ tokens) : Draws tokens ⟨kind, m, m'⟩ rest := by
  have hmarks : Event.marks ⟨kind, m, m'⟩ = [m] := by simp [Event.marks, hopens]
  refine ⟨by simpa [hmarks] using hm, hsuffix, ?_⟩
  rw [hmarks]
  exact hordered

theorem ordered_twice {marks : List Mark} (h : Mark.Ordered (m :: marks)) :
    Mark.Ordered (m :: m :: marks) := by
  refine Mark.ordered_cons.mpr ⟨fun m' hm' => ?_, h⟩
  rcases List.mem_cons.mp hm' with rfl | hm'
  · exact le_refl _
  · exact (Mark.ordered_cons.mp h).1 m' hm'

/-- An event that takes up the next token. -/
theorem draws_token {kind : EventKind} (h : Mark.Ordered (Token.marks (t :: rest))) :
    Draws (t :: rest) ⟨kind, t.start, t.stop⟩ rest :=
  draws_between h (by simp) (by simp) (List.suffix_cons t rest)

/-- An event of no width before the next token. -/
theorem draws_before {kind : EventKind} (h : Mark.Ordered (Token.marks (t :: rest))) :
    Draws (t :: rest) ⟨kind, t.start, t.start⟩ (t :: rest) :=
  draws_between (ordered_twice (ordered_twice h)) (by simp) (by simp) (List.suffix_refl _)

/-- An event of no width behind a token. -/
theorem draws_behind {kind : EventKind} (h : Mark.Ordered (Token.marks (t :: rest))) :
    Draws (t :: rest) ⟨kind, t.stop, t.stop⟩ rest :=
  draws_between (ordered_twice (Mark.ordered_cons.mp h).2) (by simp) (by simp)
    (List.suffix_cons t rest)

end Lists

/-! ### Nodes -/

/-- Properties that were read from `tokens`, in front of `rest`. -/
structure PropertyRun.Drawn (tokens rest : List Token) (run : PropertyRun) : Prop where
  marks : ∀ m ∈ run.start.toList ++ run.stop.toList, m ∈ Token.marks tokens
  ordered : Mark.Ordered (run.start.toList ++ (run.stop.toList ++ Token.marks rest))
  none : run.start = none → run.stop = none

variable {s s' : EventStream} {event : Event} {t : Token} {rest tokens : List Token}

/-- A node starts with its first property or else with its first token. -/
theorem PropertyRun.Drawn.start_mem {run : PropertyRun} (h : run.Drawn tokens (t :: rest))
    (hsuffix : t :: rest <:+ tokens) : run.start.getD t.start ∈ Token.marks tokens := by
  cases hstart : run.start with
  | none => exact marks_subset hsuffix (by simp)
  | some m => exact h.marks m (by simp [hstart])

theorem PropertyRun.Drawn.start_le {run : PropertyRun} (h : run.Drawn tokens (t :: rest)) :
    Mark.Ordered (run.start.getD t.start :: Token.marks (t :: rest)) := by
  have hordered := h.ordered
  cases hstart : run.start with
  | none =>
      rw [hstart] at hordered
      exact ordered_twice (hordered.sublist (List.sublist_append_right _ _))
  | some m =>
      rw [hstart] at hordered
      exact hordered.sublist ((List.sublist_append_right _ _).cons_cons m)

theorem PropertyRun.Drawn.start_stop {run : PropertyRun} (h : run.Drawn tokens (t :: rest)) :
    Mark.Ordered (run.start.getD t.start :: t.stop :: Token.marks rest) :=
  h.start_le.sublist ((List.sublist_cons_self _ _).cons_cons _)

/-- Properties without anything behind them are an empty scalar. -/
theorem PropertyRun.Drawn.draws {run : PropertyRun} {kind : EventKind}
    (h : run.Drawn tokens (t :: rest)) (hsuffix : t :: rest <:+ tokens) :
    Draws tokens ⟨kind, run.start.getD t.start, run.stop.getD t.start⟩ (t :: rest) := by
  have hstart := h.start_mem hsuffix
  cases hstop : run.stop with
  | none =>
      obtain ⟨hle, hordered⟩ := Mark.ordered_cons.mp h.start_le
      refine draws_between (Mark.ordered_cons.mpr ⟨fun m hm => hle m ?_, ordered_twice hordered⟩)
        hstart (marks_subset hsuffix (by simp)) hsuffix
      simpa using hm
  | some m =>
      have hordered := h.ordered
      cases hfirst : run.start with
      | none => simp [h.none hfirst] at hstop
      | some first =>
          rw [hfirst, hstop] at hordered
          rw [hfirst] at hstart
          exact draws_between hordered hstart (h.marks m (by simp [hstop])) hsuffix

theorem property_drawn {run run' : PropertyRun} (hrun : run.Drawn tokens s.tokens.items)
    (hsuffix : s.tokens.items <:+ tokens) (h : property run s = .ok (run', s')) :
    run'.Drawn tokens s'.tokens.items ∧ s'.tokens.items <:+ tokens := by
  obtain ⟨t, ht, h⟩ := bind_eq_ok_iff.mp h
  obtain ⟨rest, hitems⟩ := token_eq_ok_iff.mp ht
  rw [hitems] at hrun hsuffix
  have hstart := hrun.start_mem hsuffix
  have hstop : t.stop ∈ Token.marks tokens := marks_subset hsuffix (by simp)
  have hrest : rest <:+ tokens := (List.suffix_cons t rest).trans hsuffix
  dsimp only at h
  rw [skip_eq_readTo hitems] at h
  split at h
  · cases h
    exact ⟨⟨by simpa using ⟨hstart, hstop⟩, hrun.start_stop, nofun⟩, hrest⟩
  · cases h
    exact ⟨⟨by simpa using ⟨hstart, hstop⟩, hrun.start_stop, nofun⟩, hrest⟩
  · cases h
    rw [hitems]
    exact ⟨hrun, hsuffix⟩

theorem node_draws {block indentless : Bool} (hordered : Mark.Ordered (Token.marks s.tokens.items))
    (h : s.node block indentless = .ok (event, s')) :
    Draws s.tokens.items event s'.tokens.items := by
  obtain ⟨t, ht, h⟩ := bind_eq_ok_iff.mp h
  split at h
  · obtain ⟨rest, hitems⟩ := token_eq_ok_iff.mp ht
    rw [hitems] at hordered
    cases h
    rw [skip_eq_readTo hitems, hitems]
    exact draws_token hordered
  · obtain ⟨⟨run₁, s₁⟩, h₁, h⟩ := bind_eq_ok_iff.mp h
    obtain ⟨⟨run₂, s₂⟩, h₂, h⟩ := bind_eq_ok_iff.mp h
    obtain ⟨tag, -, h⟩ := bind_eq_ok_iff.mp h
    obtain ⟨token, htoken, h⟩ := bind_eq_ok_iff.mp h
    have hnone : PropertyRun.Drawn s.tokens.items s.tokens.items
        ⟨none, none, .origin, none, none⟩ := ⟨by simp, hordered, fun _ => rfl⟩
    obtain ⟨hrun₁, hsuffix₁⟩ := property_drawn hnone (List.suffix_refl _) h₁
    obtain ⟨hrun₂, hsuffix₂⟩ := property_drawn hrun₁ hsuffix₁ h₂
    obtain ⟨rest, hitems⟩ := token_eq_ok_iff.mp htoken
    rw [hitems] at hrun₂ hsuffix₂
    have hstart := hrun₂.start_mem hsuffix₂
    have hstop : token.stop ∈ Token.marks s.tokens.items := marks_subset hsuffix₂ (by simp)
    -- A collection leaves the token that opens it.
    have hopening : ∀ {kind : EventKind} {stop : Mark}, kind.opens = true →
        Draws s.tokens.items ⟨kind, run₂.start.getD token.start, stop⟩ s₂.tokens.items :=
      fun hopens => draws_opening hopens (hitems ▸ hrun₂.start_le) hstart (hitems ▸ hsuffix₂)
    rw [skip_eq_readTo hitems] at h
    dsimp only at h
    split at h
    · cases h
      exact draws_between hrun₂.start_stop hstart hstop
        ((List.suffix_cons token rest).trans hsuffix₂)
    · cases h
      exact hopening rfl
    · cases h
      exact hopening rfl
    · split_ifs at h
      · cases h
        exact hopening rfl
      · cases h
        exact hopening rfl
      · cases h
        exact hopening rfl
      · cases h
        change Draws _ _ s₂.tokens.items
        rw [hitems]
        exact hrun₂.draws hsuffix₂

theorem pushed_draws {after : Expect} {block indentless : Bool}
    (hordered : Mark.Ordered (Token.marks s.tokens.items))
    (h : (s.push after).node block indentless = .ok (event, s')) :
    Draws s.tokens.items event s'.tokens.items :=
  node_draws (s := s.push after) hordered h

/-- A node behind a token that was read, or an empty scalar at the stop of that token. -/
theorem nodeUnless_draws {stops : List TokenKind} {after : Expect} {block indentless : Bool}
    (hordered : Mark.Ordered (Token.marks (t :: s.tokens.items)))
    (h : s.nodeUnless t stops after block indentless = .ok (event, s')) :
    Draws (t :: s.tokens.items) event s'.tokens.items := by
  obtain ⟨kind, -, h⟩ := bind_eq_ok_iff.mp h
  split_ifs at h
  · cases h
    exact draws_behind hordered
  · have hsuffix := List.suffix_cons t s.tokens.items
    exact (pushed_draws (ordered_suffix hordered hsuffix) h).of_suffix hsuffix

/-! ### Steps -/

section Steps

variable (hordered : Mark.Ordered (Token.marks s.tokens.items))
include hordered

theorem streamStep_draws (h : s.streamStep = .ok (event, s')) :
    Draws s.tokens.items event s'.tokens.items := by
  obtain ⟨t, ht, h⟩ := bind_eq_ok_iff.mp h
  obtain ⟨rest, hitems⟩ := token_eq_ok_iff.mp ht
  rw [hitems] at hordered
  rw [skip_eq_readTo hitems] at h
  cases h
  rw [hitems]
  exact draws_token hordered

/-- The start of a document reaches from its first directive to its sign. -/
theorem explicitDocumentStep_draws (h : s.explicitDocumentStep = .ok (event, s')) :
    Draws s.tokens.items event s'.tokens.items := by
  obtain ⟨used, rest, hpassed, hskip⟩ := s.skipDocumentEnds_outcome
  have hsuffix : rest <:+ s.tokens.items := ⟨used, hpassed.items.symm⟩
  replace hordered := ordered_suffix hordered hsuffix
  unfold explicitDocumentStep at h
  dsimp only at h
  rw [hskip] at h
  obtain ⟨first, hfirst, h⟩ := bind_eq_ok_iff.mp h
  obtain ⟨behind, hitems⟩ := token_eq_ok_iff.mp hfirst
  rw [readTo_items] at hitems
  subst hitems
  refine Draws.of_suffix ?_ hsuffix
  split_ifs at h
  · rw [skip_eq_readTo rfl] at h
    cases h
    exact draws_token hordered
  · obtain ⟨s₁, hdirectives, h⟩ := bind_eq_ok_iff.mp h
    obtain ⟨lines, left, handles, hlines, rfl⟩ := directives_outcome hdirectives
    obtain ⟨t, ht, h⟩ := bind_eq_ok_iff.mp h
    obtain ⟨rest, hitems⟩ := token_eq_ok_iff.mp ht
    have hleft : left = t :: rest := hitems
    subst hleft
    split_ifs at h
    rw [skip_eq_readTo hitems] at h
    cases h
    have hsign : t :: rest <:+ first :: behind := ⟨lines, hlines.items.symm⟩
    have hrest := ordered_suffix hordered hsign
    rw [Token.marks_cons, Mark.ordered_cons] at hrest
    have hfirst : ∀ m ∈ Token.marks (t :: rest), first.start ≤ m := by
      intro m hm
      rcases List.mem_cons.mp (marks_subset hsign hm) with rfl | hm
      · exact le_refl _
      · exact (Mark.ordered_cons.mp hordered).1 m hm
    refine draws_between (Mark.ordered_cons.mpr ⟨fun m hm => hfirst m ?_, hrest.2⟩) (by simp)
      (marks_subset hsign (by simp)) ((List.suffix_cons t rest).trans hsign)
    exact List.mem_cons_of_mem _ hm

theorem implicitDocumentStep_draws (h : s.implicitDocumentStep = .ok (event, s')) :
    Draws s.tokens.items event s'.tokens.items := by
  obtain ⟨t, ht, h⟩ := bind_eq_ok_iff.mp h
  obtain ⟨rest, hitems⟩ := token_eq_ok_iff.mp ht
  split_ifs at h
  · exact explicitDocumentStep_draws hordered h
  · cases h
    change Draws s.tokens.items _ s.tokens.items
    rw [hitems] at hordered ⊢
    exact draws_before hordered

theorem documentEndStep_draws (h : s.documentEndStep = .ok (event, s')) :
    Draws s.tokens.items event s'.tokens.items := by
  obtain ⟨t, ht, h⟩ := bind_eq_ok_iff.mp h
  obtain ⟨rest, hitems⟩ := token_eq_ok_iff.mp ht
  rw [skip_eq_readTo hitems] at h
  split_ifs at h
  · cases h
    rw [hitems] at hordered ⊢
    exact draws_token hordered
  · cases h
    change Draws s.tokens.items _ s.tokens.items
    rw [hitems] at hordered ⊢
    exact draws_before hordered

theorem documentContentStep_draws (h : s.documentContentStep = .ok (event, s')) :
    Draws s.tokens.items event s'.tokens.items := by
  obtain ⟨t, ht, h⟩ := bind_eq_ok_iff.mp h
  obtain ⟨rest, hitems⟩ := token_eq_ok_iff.mp ht
  split_ifs at h
  · cases h
    change Draws s.tokens.items _ s.tokens.items
    rw [hitems] at hordered ⊢
    exact draws_before hordered
  · exact node_draws hordered h

/-- What follows a sign that introduces a node. -/
theorem signed_draws {stops : List TokenKind} {after : Expect} {block indentless : Bool}
    (hitems : s.tokens.items = t :: rest)
    (h : (s.readTo rest).nodeUnless t stops after block indentless = .ok (event, s')) :
    Draws s.tokens.items event s'.tokens.items := by
  rw [hitems] at hordered ⊢
  exact nodeUnless_draws (s := s.readTo rest) hordered h

/-- The end of a block: its token is taken up. -/
theorem ended_draws {kind : EventKind} (hitems : s.tokens.items = t :: rest) :
    Draws s.tokens.items ⟨kind, t.start, t.stop⟩ (s.readTo rest).close.tokens.items := by
  rw [hitems] at hordered ⊢
  exact draws_token hordered

/-- Something is left out before the next token. -/
theorem absent_draws {kind : EventKind} (hitems : s.tokens.items = t :: rest) :
    Draws s.tokens.items ⟨kind, t.start, t.start⟩ s.tokens.items := by
  rw [hitems] at hordered ⊢
  exact draws_before hordered

theorem blockSequenceStep_draws (h : s.blockSequenceStep = .ok (event, s')) :
    Draws s.tokens.items event s'.tokens.items := by
  obtain ⟨t, ht, h⟩ := bind_eq_ok_iff.mp h
  obtain ⟨rest, hitems⟩ := token_eq_ok_iff.mp ht
  rw [skip_eq_readTo hitems] at h
  split_ifs at h
  · exact signed_draws hordered hitems h
  · cases h
    exact ended_draws hordered hitems

theorem indentlessStep_draws (h : s.indentlessStep = .ok (event, s')) :
    Draws s.tokens.items event s'.tokens.items := by
  obtain ⟨t, ht, h⟩ := bind_eq_ok_iff.mp h
  obtain ⟨rest, hitems⟩ := token_eq_ok_iff.mp ht
  rw [skip_eq_readTo hitems] at h
  split_ifs at h
  · exact signed_draws hordered hitems h
  · cases h
    exact absent_draws hordered hitems

theorem blockKeyStep_draws (h : s.blockKeyStep = .ok (event, s')) :
    Draws s.tokens.items event s'.tokens.items := by
  obtain ⟨t, ht, h⟩ := bind_eq_ok_iff.mp h
  obtain ⟨rest, hitems⟩ := token_eq_ok_iff.mp ht
  rw [skip_eq_readTo hitems] at h
  split_ifs at h
  · exact signed_draws hordered hitems h
  · cases h
    exact ended_draws hordered hitems

/-- The step behind a key: a value if there is a sign for it, else an empty scalar. -/
theorem value_draws {after : Expect} {stops : List TokenKind} {block indentless : Bool}
    (h : (do
      let token ← s.token
      if token.kind == TokenKind.value then s.skip.nodeUnless token stops after block indentless
      else return (.empty token.start, s.expect after)) = .ok (event, s')) :
    Draws s.tokens.items event s'.tokens.items := by
  obtain ⟨t, ht, h⟩ := bind_eq_ok_iff.mp h
  obtain ⟨rest, hitems⟩ := token_eq_ok_iff.mp ht
  rw [skip_eq_readTo hitems] at h
  split_ifs at h
  · exact signed_draws hordered hitems h
  · cases h
    exact absent_draws hordered hitems

theorem flowSequenceEnd_draws (h : s.flowSequenceEnd = .ok (event, s')) :
    Draws s.tokens.items event s'.tokens.items := by
  obtain ⟨t, ht, h⟩ := bind_eq_ok_iff.mp h
  obtain ⟨rest, hitems⟩ := token_eq_ok_iff.mp ht
  rw [skip_eq_readTo hitems] at h
  cases h
  exact ended_draws hordered hitems

theorem flowMappingEnd_draws (h : s.flowMappingEnd = .ok (event, s')) :
    Draws s.tokens.items event s'.tokens.items := by
  obtain ⟨t, ht, h⟩ := bind_eq_ok_iff.mp h
  obtain ⟨rest, hitems⟩ := token_eq_ok_iff.mp ht
  rw [skip_eq_readTo hitems] at h
  cases h
  exact ended_draws hordered hitems

theorem flowSequenceStep_draws {first : Bool} (h : s.flowSequenceStep first = .ok (event, s')) :
    Draws s.tokens.items event s'.tokens.items := by
  obtain ⟨kind, -, h⟩ := bind_eq_ok_iff.mp h
  split_ifs at h
  · exact flowSequenceEnd_draws hordered h
  · obtain ⟨s₁, hcomma, h⟩ := bind_eq_ok_iff.mp h
    obtain ⟨used, left, hpassed, rfl, -⟩ := flowComma_outcome hcomma
    have hsuffix : left <:+ s.tokens.items := ⟨used, hpassed.items.symm⟩
    have hleft : Mark.Ordered (Token.marks (s.readTo left).tokens.items) :=
      ordered_suffix hordered hsuffix
    refine Draws.of_suffix ?_ hsuffix
    obtain ⟨t, ht, h⟩ := bind_eq_ok_iff.mp h
    obtain ⟨rest, hitems⟩ := token_eq_ok_iff.mp ht
    rw [readTo_items] at hitems
    subst hitems
    split_ifs at h
    · cases h
      exact draws_opening rfl (ordered_twice hleft) (by simp) (List.suffix_refl _)
    · exact flowSequenceEnd_draws hleft h
    · exact pushed_draws hleft h

theorem pairKeyStep_draws (h : s.pairKeyStep = .ok (event, s')) :
    Draws s.tokens.items event s'.tokens.items := by
  obtain ⟨t, ht, h⟩ := bind_eq_ok_iff.mp h
  obtain ⟨rest, hitems⟩ := token_eq_ok_iff.mp ht
  rw [skip_eq_readTo hitems] at h
  exact signed_draws hordered hitems h

theorem pairEndStep_draws (h : s.pairEndStep = .ok (event, s')) :
    Draws s.tokens.items event s'.tokens.items := by
  obtain ⟨t, ht, h⟩ := bind_eq_ok_iff.mp h
  obtain ⟨rest, hitems⟩ := token_eq_ok_iff.mp ht
  cases h
  exact absent_draws hordered hitems

theorem flowKeyStep_draws {first : Bool} (h : s.flowKeyStep first = .ok (event, s')) :
    Draws s.tokens.items event s'.tokens.items := by
  obtain ⟨kind, -, h⟩ := bind_eq_ok_iff.mp h
  split_ifs at h
  · exact flowMappingEnd_draws hordered h
  · obtain ⟨s₁, hcomma, h⟩ := bind_eq_ok_iff.mp h
    obtain ⟨used, left, hpassed, rfl, -⟩ := flowComma_outcome hcomma
    have hsuffix : left <:+ s.tokens.items := ⟨used, hpassed.items.symm⟩
    have hleft : Mark.Ordered (Token.marks (s.readTo left).tokens.items) :=
      ordered_suffix hordered hsuffix
    refine Draws.of_suffix ?_ hsuffix
    obtain ⟨t, ht, h⟩ := bind_eq_ok_iff.mp h
    obtain ⟨rest, hitems⟩ := token_eq_ok_iff.mp ht
    split_ifs at h
    · rw [skip_eq_readTo hitems] at h
      exact signed_draws hleft hitems h
    · exact flowMappingEnd_draws hleft h
    · exact pushed_draws hleft h

theorem flowNoValueStep_draws (h : s.flowNoValueStep = .ok (event, s')) :
    Draws s.tokens.items event s'.tokens.items := by
  obtain ⟨t, ht, h⟩ := bind_eq_ok_iff.mp h
  obtain ⟨rest, hitems⟩ := token_eq_ok_iff.mp ht
  cases h
  exact absent_draws hordered hitems

/-- The step before a collection reads its opening token first. -/
theorem opened_draws {f : EventStream → Step}
    (hf : ∀ s₁, Mark.Ordered (Token.marks s₁.tokens.items) → f s₁ = .ok (event, s') →
      Draws s₁.tokens.items event s'.tokens.items)
    (h : s.opened >>= f = .ok (event, s')) : Draws s.tokens.items event s'.tokens.items := by
  obtain ⟨s₁, h₁, h⟩ := bind_eq_ok_iff.mp h
  obtain ⟨t, ht, h₁⟩ := bind_eq_ok_iff.mp h₁
  obtain ⟨rest, hitems⟩ := token_eq_ok_iff.mp ht
  rw [skip_eq_readTo hitems] at h₁
  cases h₁
  have hsuffix : rest <:+ s.tokens.items := hitems ▸ List.suffix_cons t rest
  exact (hf _ (ordered_suffix hordered hsuffix) h).of_suffix hsuffix

theorem step_draws {e : Expect} (h : s.step e = .ok (event, s')) :
    Draws s.tokens.items event s'.tokens.items := by
  cases e with
  | streamStart => exact streamStep_draws hordered h
  | implicitDocumentStart => exact implicitDocumentStep_draws hordered h
  | documentStart => exact explicitDocumentStep_draws hordered h
  | documentContent => exact documentContentStep_draws hordered h
  | documentEnd => exact documentEndStep_draws hordered h
  | blockNode => exact node_draws hordered h
  | blockSequenceFirst => exact opened_draws hordered (fun _ => blockSequenceStep_draws) h
  | blockSequenceEntry => exact blockSequenceStep_draws hordered h
  | indentlessEntry => exact indentlessStep_draws hordered h
  | blockMappingFirst => exact opened_draws hordered (fun _ => blockKeyStep_draws) h
  | blockMappingKey => exact blockKeyStep_draws hordered h
  | blockMappingValue => exact value_draws hordered h
  | flowSequenceFirst => exact opened_draws hordered (fun _ hs => flowSequenceStep_draws hs) h
  | flowSequenceEntry => exact flowSequenceStep_draws hordered h
  | pairKey => exact pairKeyStep_draws hordered h
  | pairValue => exact value_draws hordered h
  | pairEnd => exact pairEndStep_draws hordered h
  | flowMappingFirst => exact opened_draws hordered (fun _ hs => flowKeyStep_draws hs) h
  | flowMappingKey => exact flowKeyStep_draws hordered h
  | flowMappingValue => exact value_draws hordered h
  | flowMappingNoValue => exact flowNoValueStep_draws hordered h

end Steps

/-! ### Runs -/

theorem Steady.next_draws (hsteady : s.Steady)
    (hordered : Mark.Ordered (Token.marks s.tokens.items))
    (h : s.next = .ok (some event, s')) : Draws s.tokens.items event s'.tokens.items := by
  cases hstate : s.state with
  | none =>
      rw [next_of_state_none hsteady.ready hstate] at h
      cases h
  | some e =>
      rw [next_of_state_some hsteady.ready hstate] at h
      obtain ⟨⟨event', s₁⟩, hstep, h⟩ := bind_eq_ok_iff.mp h
      cases h
      have hdraws := step_draws hordered hstep
      exact hdraws

/-- The events that were handed out and the tokens that are left are in order. -/
theorem Reaches.ordered {events : List Event} (h : s.Reaches events s') (hsteady : s.Steady)
    (hordered : Mark.Ordered (Token.marks s.tokens.items)) :
    Mark.Ordered (events.flatMap Event.marks ++ Token.marks s'.tokens.items) := by
  induction h with
  | start => exact hordered
  | @next events s₁ s₂ event hreaches hnext ih =>
      rw [Mark.ordered_append] at ih
      obtain ⟨hevents, htokens, hbelow⟩ := ih
      have hdraws := (hreaches.steady hsteady).1.next_draws htokens hnext
      rw [List.flatMap_append, List.append_assoc, Mark.ordered_append]
      refine ⟨hevents, by simpa using hdraws.ordered, fun m hm m' hm' => hbelow m hm m' ?_⟩
      rcases List.mem_append.mp hm' with hm' | hm'
      · exact hdraws.marks m' (by simpa using hm')
      · exact marks_subset hdraws.suffix hm'

end EventStream

/-- The events of every text are in order. -/
theorem Event.ofText_ordered (text : List Char) :
    Mark.Ordered ((ofText text).items.flatMap marks) := by
  obtain ⟨s, hreaches, -⟩ := ofText_reaches text
  have hordered := hreaches.ordered (EventStream.ofText_steady text) (Token.ofText_ordered text)
  exact (Mark.ordered_append.mp hordered).1

end Playbook
