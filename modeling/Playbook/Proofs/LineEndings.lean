import Playbook.Proofs.BareNodes
import Playbook.Proofs.MirroredTokens

/-!
Line endings do not matter. A text whose lines end with carriage returns, alone or before line
feeds, has the same document as the text with line feeds in their place, or it is wrong in the same
line and column.
-/

namespace Playbook

/-- Every line feed as a pair of carriage return and line feed. -/
def pairedFeeds (text : List Char) : List Char :=
  text.flatMap fun c => if c = '\n' then ['\r', '\n'] else [c]

theorem lineFeeds_pairedFeeds {text : List Char} (h : '\r' ∉ text) :
    lineFeeds (pairedFeeds text) = text := by
  induction text with
  | nil => rfl
  | cons c text ih =>
      rw [List.mem_cons, not_or] at h
      have htext : lineFeeds (pairedFeeds text) = text := ih h.2
      unfold pairedFeeds at htext ⊢
      rw [List.flatMap_cons]
      split_ifs with hfeed
      · rw [List.cons_append, List.cons_append, List.nil_append, lineFeeds_pair, htext, hfeed]
      · rw [List.cons_append, List.nil_append, lineFeeds_cons (Ne.symm h.1), htext]

theorem Token.Mirrors.bare {K : Pairing} {token token' : Token}
    (h : Token.Mirrors K token token') : token.bare = token'.bare := by
  rw [Token.bare, Token.bare, h.kind, h.start.bare, h.stop.bare]

theorem Feed.Mirrors.bare {K : Pairing} {feed feed' : Feed Token} (h : Feed.Mirrors K feed feed') :
    feed.bare Token.bare = feed'.bare Token.bare := by
  have hitems : feed.items.map Token.bare = feed'.items.map Token.bare := by
    rw [← List.forall₂_eq_eq_eq, List.forall₂_map_left_iff, List.forall₂_map_right_iff]
    exact h.items.imp fun _ _ h => h.bare
  have hfault : feed.fault.map Diagnostic.bare = feed'.fault.map Diagnostic.bare := by
    have hfault := h.fault
    generalize feed.fault = fault at hfault
    generalize feed'.fault = fault' at hfault
    cases hfault with
    | none => rfl
    | some hd => exact congrArg some hd.bare
  rw [Feed.bare, Feed.bare, hitems, hfault]

theorem Token.ofText_lineFeeds (text : List Char) :
    (ofText (lineFeeds text)).bare Token.bare = (ofText text).bare Token.bare :=
  (ofText_mirrors text).bare

theorem Event.ofText_lineFeeds (text : List Char) :
    (ofText (lineFeeds text)).bare Event.bare = (ofText text).bare Event.bare := by
  unfold ofText
  rw [← ofTokens_bare, ← ofTokens_bare, Token.ofText_lineFeeds]

namespace Document

/-- The document of a text comes from its bare events. -/
theorem ofText_bare (text : List Char) (cursor : Cursor) :
    bareOutcome id (ofText text cursor) =
      (do
        match ← Node.ofEvents ((Event.ofText text).bare Event.bare) with
        | none => return ⟨.null, []⟩
        | some node => ofNode cursor node) := by
  refine (bareOutcome_bind (Node.ofEvents_bare (Event.ofText text)) fun root => ?_).symm
  cases root with
  | none => rfl
  | some node => exact ofNode_bare cursor node

theorem ofText_lineFeeds (text : List Char) (cursor : Cursor) :
    bareOutcome id (ofText (lineFeeds text) cursor) = bareOutcome id (ofText text cursor) := by
  rw [ofText_bare, ofText_bare, Event.ofText_lineFeeds]

/-- A text without carriage returns, and the text with one before every line feed: both have the
same document, or both are wrong at the same stage and in the same place. -/
theorem ofText_pairedFeeds {text : List Char} (hreturn : '\r' ∉ text) (cursor : Cursor) :
    (∃ document, ofText text cursor = .ok document ∧
      ofText (pairedFeeds text) cursor = .ok document) ∨
    ∃ d d', ofText text cursor = .error d ∧ ofText (pairedFeeds text) cursor = .error d' ∧
      d.stage = d'.stage ∧ d.contextMark.map Mark.cursor = d'.contextMark.map Mark.cursor ∧
      d.problemMark.cursor = d'.problemMark.cursor := by
  have hsame := ofText_lineFeeds (pairedFeeds text) cursor
  rw [lineFeeds_pairedFeeds hreturn] at hsame
  cases hfeeds : ofText text cursor with
  | ok document =>
      cases hpairs : ofText (pairedFeeds text) cursor with
      | ok document' =>
          rw [hfeeds, hpairs] at hsame
          cases hsame
          exact Or.inl ⟨document, rfl, rfl⟩
      | error d' =>
          rw [hfeeds, hpairs] at hsame
          cases hsame
  | error d =>
      cases hpairs : ofText (pairedFeeds text) cursor with
      | ok document' =>
          rw [hfeeds, hpairs] at hsame
          cases hsame
      | error d' =>
          rw [hfeeds, hpairs, bareOutcome_error, bareOutcome_error, Except.error.injEq] at hsame
          exact Or.inr ⟨d, d', rfl, rfl, d.places_of_bare hsame⟩

/-- Lines that a literal scalar keeps and lines that a quoted one folds, under the cursor. -/
theorem ofText_pairedFeeds_scalars :
    '\r' ∉ "a: |\n  b\n\n  c\nd: \"e\n f\"".toList ∧
      ∃ document, ofText "a: |\n  b\n\n  c\nd: \"e\n f\"".toList ⟨3, 2⟩ = .ok document ∧
        ofText (pairedFeeds "a: |\n  b\n\n  c\nd: \"e\n f\"".toList) ⟨3, 2⟩ = .ok document := by
  have hreturn : '\r' ∉ "a: |\n  b\n\n  c\nd: \"e\n f\"".toList := by decide
  refine ⟨hreturn, ?_⟩
  rcases ofText_pairedFeeds hreturn ⟨3, 2⟩ with hok | ⟨d, _, herror, _⟩
  · exact hok
  · have hyes : (ofText "a: |\n  b\n\n  c\nd: \"e\n f\"".toList ⟨3, 2⟩).isOk = true := by
      decide +kernel
    rw [herror] at hyes
    cases hyes

end Document

end Playbook
