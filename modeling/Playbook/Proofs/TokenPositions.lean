import Playbook.Proofs.MirroredTokens
import Playbook.Proofs.TokenOrder

/-!
Where the tokens of a text stand. The marks of a token are places of the text: line and column are
those that one counts behind the characters before it. Tokens do not overlap and follow each other
as they do in the text, those that are put in front of a key included.
-/

namespace Playbook

/-- The mark of a place in the text, which does not divide a carriage return from the line feed
behind it. -/
structure Mark.StandsIn (text : List Char) (m : Mark) : Prop where
  index_le : m.index ≤ text.length
  eq_behind : m = .behind (text.take m.index)
  apart : Apart (text.take m.index) (text.drop m.index)

theorem Mark.WithFeeds.standsIn {text : List Char} {m m' : Mark} (h : Mark.WithFeeds text m m') :
    m'.StandsIn text := by
  cases h with
  | @behind read rest htext hapart =>
      have hindex : (Mark.behind read).index = read.length := rfl
      have htake : text.take read.length = read := by rw [htext, List.take_left]
      have hdrop : text.drop read.length = rest := by rw [htext, List.drop_left]
      refine ⟨?_, ?_, ?_⟩
      · rw [hindex, htext, List.length_append]
        exact Nat.le_add_right _ _
      · rw [hindex, htake]
      · rwa [hindex, htake, hdrop]

/-- What is known of the second items of related lists. -/
theorem forall_of_forall₂ {α β : Type} {R : α → β → Prop} {P : β → Prop} {xs : List α}
    {ys : List β} (h : List.Forall₂ R xs ys) (hP : ∀ a b, R a b → P b) : ∀ b ∈ ys, P b := by
  induction h with
  | nil => exact fun _ hb => (List.not_mem_nil hb).elim
  | cons hab _ ih => exact List.forall_mem_cons.mpr ⟨hP _ _ hab, ih⟩

namespace Token

variable {tokens : List Token}

/-- If all marks are in order, then no token stops before it starts, and none starts before one
in front of it stops. -/
theorem index_le_of_ordered (h : Mark.Ordered (marks tokens)) :
    (∀ token ∈ tokens, token.start.index ≤ token.stop.index) ∧
      tokens.Pairwise fun token token' => token.stop.index ≤ token'.start.index := by
  induction tokens with
  | nil => exact ⟨fun _ hmem => (List.not_mem_nil hmem).elim, .nil⟩
  | cons token tokens ih =>
      rw [marks_cons, Mark.ordered_cons, Mark.ordered_cons] at h
      obtain ⟨hstart, hstop, hrest⟩ := h
      obtain ⟨hspans, hpairs⟩ := ih hrest
      refine ⟨List.forall_mem_cons.mpr ⟨?_, hspans⟩, List.pairwise_cons.mpr ⟨?_, hpairs⟩⟩
      · exact (hstart _ List.mem_cons_self).1
      · exact fun token' htoken' => (forall_marks.mp hstop token' htoken').1.1

/-- Every token starts and stops at places of the text, it does not stop before it starts, and no
token starts before one in front of it stops. -/
theorem ofText_positions (text : List Char) :
    (∀ token ∈ (ofText text).items, token.start.StandsIn text ∧ token.stop.StandsIn text ∧
      token.start.index ≤ token.stop.index) ∧
    (ofText text).items.Pairwise fun token token' => token.stop.index ≤ token'.start.index := by
  obtain ⟨hspans, hpairs⟩ := index_le_of_ordered (ofText_ordered text)
  have hplaces := forall_of_forall₂ (ofText_mirrors text).items
    (P := fun token => token.start.StandsIn text ∧ token.stop.StandsIn text)
    fun _ _ h => ⟨h.start.standsIn, h.stop.standsIn⟩
  refine ⟨fun token htoken => ?_, hpairs⟩
  obtain ⟨hstart, hstop⟩ := hplaces token htoken
  exact ⟨hstart, hstop, hspans token htoken⟩

/-- The key sign in front of `b` is put there once the colon behind it is read. -/
theorem ofText_positions_inner_key :
    ∃ token ∈ (ofText "a:\r\n  b: c".toList).items, token.kind = .key ∧
      token.start = ⟨6, 1, 2⟩ ∧ token.start.StandsIn "a:\r\n  b: c".toList := by
  obtain ⟨token, hmem, hkind, hstart⟩ : ∃ token ∈ (ofText "a:\r\n  b: c".toList).items,
      token.kind = .key ∧ token.start = ⟨6, 1, 2⟩ := by
    decide +kernel
  exact ⟨token, hmem, hkind, hstart, ((ofText_positions _).1 token hmem).1⟩

end Token

end Playbook
