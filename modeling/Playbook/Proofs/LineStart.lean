import Playbook.Proofs.MarkOrder
import Playbook.Proofs.TokenStep

/-!
Document indicators stand at the start of a line. A byte order mark takes no column, so the start of
a line may also lie behind characters of it. But behind a token that may start a key, a place on the
same line either has columns before it or shows a character that starts no indicator, and this holds
for the rest of the line.
-/

namespace Playbook

namespace Reader

/-- On the rest of this line there is no document indicator. -/
def Parted (r : Reader) : Prop :=
  0 < r.mark.column ∨ (r.peek ≠ '-' ∧ r.peek ≠ '.' ∧ r.peek ≠ '\ufeff')

variable {r r' : Reader}

/-- A character that takes a column has one behind it, unless it ends the line. -/
theorem next_column_pos (hend : r.atEnd = false) (hpeek : r.peek ≠ '\ufeff')
    (hline : r.next.mark.line = r.mark.line) : 0 < r.next.mark.column := by
  cases hrest : r.rest with
  | nil => simp [atEnd, hrest] at hend
  | cons c rest =>
      have hc : c ≠ '\ufeff' := by simpa [peek, hrest] using hpeek
      simp only [next, hrest, Mark.past, beq_iff_eq, hc, if_false] at hline ⊢
      split_ifs at hline ⊢
      · simp at hline
      · exact Nat.succ_pos _

theorem Leads.line_eq {r₁ : Reader} (h : r.Leads r₁) (h' : r₁.Leads r')
    (hline : r'.mark.line = r.mark.line) : r'.mark.line = r₁.mark.line := by
  have hle := h.line_le
  have hle' := h'.line_le
  omega

theorem Leads.column_pos (h : r.Leads r') (hpos : 0 < r.mark.column)
    (hline : r'.mark.line = r.mark.line) : 0 < r'.mark.column := by
  rcases (Mark.le_def.mp h.mark_le).2 with hlt | ⟨-, hle⟩
  · omega
  · omega

theorem Leads.column_pos_of_next (h : r.next.Leads r') (hend : r.atEnd = false)
    (hpeek : r.peek ≠ '\ufeff') (hline : r'.mark.line = r.mark.line) : 0 < r'.mark.column := by
  have hline' := (Leads.next r).line_eq h hline
  exact h.column_pos (next_column_pos hend hpeek (hline'.symm.trans hline)) hline'

/-- On one line, a place that is parted stays so. -/
theorem Parted.leads (h : r.Parted) (hleads : r.Leads r')
    (hline : r'.mark.line = r.mark.line) : r'.Parted := by
  rcases h with hpos | hpeek
  · exact Or.inl (hleads.column_pos hpos hline)
  · obtain ⟨n, rfl⟩ := hleads
    cases n with
    | zero => exact Or.inr hpeek
    | succ n =>
        have hrest : r.next.Leads (r.advance (n + 1)) := ⟨n, rfl⟩
        cases hend : r.atEnd with
        | true =>
            have hnil : r.rest = [] := List.isEmpty_iff.mp hend
            refine Or.inr ?_
            rw [peek, advance_rest, hnil, List.drop_nil]
            decide
        | false => exact Or.inl (hrest.column_pos_of_next hend hpeek.2.2 hline)

/-- Reading from the first place to the second either ends the line or parts it. -/
def Parts (r r' : Reader) : Prop := r'.mark.line = r.mark.line → r'.Parted

theorem parts_of_next (hend : r.atEnd = false) (hpeek : r.peek ≠ '\ufeff')
    (h : r.next.Leads r') : r.Parts r' :=
  fun hline => Or.inl (h.column_pos_of_next hend hpeek hline)

end Reader

open Reader

/-- What ends a piece of a plain scalar starts no document indicator. -/
theorem plainStops_ne {inFlow : Bool} {c next : Char} (h : plainStops inFlow c next = true) :
    c ≠ '-' ∧ c ≠ '.' ∧ c ≠ '\ufeff' := by
  refine ⟨?_, ?_, ?_⟩
  all_goals
    rintro rfl
    cases inFlow <;> simp [plainStops, isBlankOrEnd, isSpaceOrEnd, isBreakOrEnd, isBreak, nul,
      isFlowIndicator] at h

/-- A piece of a plain scalar goes on until something ends it. -/
theorem plainPiece_stops (inFlow : Bool) (text : List Char) :
    let c := (text.drop (plainPiece inFlow text).length).headD nul
    c = nul ∨ ∃ next, plainStops inFlow c next = true := by
  induction text with
  | nil => exact Or.inl rfl
  | cons c text ih =>
      unfold plainPiece
      split_ifs with hstops
      · exact Or.inr ⟨_, hstops⟩
      · exact ih

theorem readPlain_parts {inFlow : Bool} {indent : Int} {r : Reader} (hhash : r.peek ≠ '#')
    (hpiece : plainPiece inFlow r.rest ≠ []) : r.Parts (readPlain inFlow indent r).2.1 := by
  intro hline
  have hparted : (r.advance (plainPiece inFlow r.rest).length).Parted := by
    refine Or.inr ?_
    rw [peek, advance_rest]
    rcases plainPiece_stops inFlow r.rest with hnul | ⟨next, hstops⟩
    · rw [hnul]
      decide
    · exact plainStops_ne hstops
  have hleads : (r.advance (plainPiece inFlow r.rest).length).Leads
      (readPlain inFlow indent r).2.1 := by
    unfold readPlain plainRun
    simp only [hpiece, List.isEmpty_iff, beq_iff_eq, hhash, if_false, Bool.or_eq_true, or_false]
    split
    · exact plainGap_leads _
    · split_ifs
      · exact plainGap_leads _
      · exact (plainGap_leads _).trans (plainRun_leads _ _ _ _ _)
  exact hparted.leads hleads ((Leads.advance r _).line_eq hleads hline)

end Playbook
