import Playbook.Proofs.MirroredReading
import Playbook.Proofs.ScanEnd

/-!
Whether reading a block scalar comes to an end. Every round reads a line, and with it at least one
character, unless the line starts with a NUL right at the indentation. The NUL is no part of the
line and does not end the scalar either, so the round leaves all as it was, and is repeated for
ever. Blank lines and the search for the indentation always end.
-/

namespace Playbook

open Reader

/-! ### The states that a loop visits -/

section

variable {σ ρ : Type} {round : σ → σ ⊕ ρ} {s s' : σ} {o : σ ⊕ ρ}

/-- Some rounds lead from one state to the other. -/
def Visits (round : σ → σ ⊕ ρ) : σ → σ → Prop :=
  Relation.ReflTransGen fun s s' => round s = .inl s'

theorem Visits.comes (h : Visits round s s') (hcomes : Comes round s' o) : Comes round s o := by
  induction h using Relation.ReflTransGen.head_induction_on with
  | refl => exact hcomes
  | head hround _ ih => exact .again hround ih

/-- A loop that never ends visits a state that no round changes. -/
theorem Comes.visits (h : Comes round s (.inl s')) : Visits round s s' ∧ round s' = .inl s' := by
  generalize ho : Sum.inl s' = o at h
  induction h with
  | done => cases ho
  | stuck hstuck =>
      cases ho
      exact ⟨.refl, hstuck⟩
  | again hround _ ih =>
      obtain ⟨hvisits, hstuck⟩ := ih ho
      exact ⟨.head hround hvisits, hstuck⟩

end

/-! ### One line -/

namespace BlockRun

variable {folded : Bool} {indent : Nat} {run run' : BlockRun}

/-- The next line starts with a NUL right at the indentation. -/
def HeldUp (indent : Nat) (run : BlockRun) : Prop :=
  run.blank.reader.mark.column = indent ∧ run.blank.reader.rest.head? = some nul

theorem heldUp_iff (h : run.atLine indent = true) :
    run.HeldUp indent ↔ run.blank.reader.peek = nul := by
  obtain ⟨hcolumn, hend⟩ : run.blank.reader.mark.column = indent ∧ run.blank.reader.rest ≠ [] := by
    simpa [atLine, atEnd] using h
  unfold HeldUp Reader.peek
  cases hrest : run.blank.reader.rest with
  | nil => exact absurd hrest hend
  | cons c rest => simp [hcolumn]

theorem HeldUp.atLine (h : run.HeldUp indent) : run.atLine indent = true := by
  obtain ⟨hcolumn, hhead⟩ := h
  obtain ⟨rest, hrest⟩ := List.head?_eq_some_iff.mp hhead
  simp [BlockRun.atLine, atEnd, hcolumn, hrest]

theorem HeldUp.line (h : run.HeldUp indent) : run.line indent = ⟨run.text ++ run.blank.breaks, none,
    ⟨[], run.blank.reader.mark, run.blank.reader⟩⟩ :=
  line_of_nul run ((heldUp_iff h.atLine).mp h) h.1

/-- A round takes up some text, unless it is held up. -/
theorem line_length_iff (h : run.atLine indent = true) :
    (run.line indent).blank.reader.rest.length < run.blank.reader.rest.length ↔
      ¬run.HeldUp indent := by
  refine ⟨fun hlt hheld => ?_, fun hheld => line_length fun hpeek => ?_⟩
  · rw [hheld.line] at hlt
    exact Nat.lt_irrefl _ hlt
  · exact hheld ((heldUp_iff h).mpr hpeek)

/-- A round that is held up comes to a state that no round changes. -/
theorem HeldUp.comes (folded : Bool) (h : run.HeldUp indent) :
    ∃ run', Comes (blockRound folded indent) run (.inl run') := by
  have hagain : ∀ run : BlockRun, run.HeldUp indent → blockRound folded indent run =
      .inl ⟨run.text ++ run.blank.breaks, none,
        ⟨[], run.blank.reader.mark, run.blank.reader⟩⟩ := by
    intro run h
    have hnext : BlockRun.atLine indent ⟨run.text ++ run.blank.breaks, none,
        ⟨[], run.blank.reader.mark, run.blank.reader⟩⟩ = true := h.atLine
    simp [blockRound, h.atLine, h.line, hnext, joint]
  have hstuck := hagain ⟨run.text ++ run.blank.breaks, none,
    ⟨[], run.blank.reader.mark, run.blank.reader⟩⟩ h
  rw [List.append_nil] at hstuck
  exact ⟨_, .again (hagain run h) (.stuck hstuck)⟩

theorem heldUp_of_stuck (h : blockRound folded indent run = .inl run) : run.HeldUp indent := by
  by_contra hheld
  unfold blockRound at h
  dsimp only at h
  split_ifs at h with hline hnext
  have hlt := (line_length_iff (by simpa using hline)).mpr hheld
  have hsame := congrArg (fun run => run.blank.reader.rest.length) (Sum.inl.inj h)
  dsimp only at hsame
  omega

/-! ### All lines -/

/-- The lines are read to their end if and only if no line holds this up. -/
theorem comes_iff (run : BlockRun) :
    (∃ result, Comes (blockRound folded indent) run (.inr result)) ↔
      ∀ run', Visits (blockRound folded indent) run run' → ¬run'.HeldUp indent := by
  constructor
  · rintro ⟨result, hcomes⟩ run' hvisits hheld
    obtain ⟨_, hstuck⟩ := hheld.comes folded
    cases hcomes.unique (hvisits.comes hstuck)
  · intro hfree
    obtain ⟨o, hcomes, -⟩ := (blockLines_loops folded indent .origin).comes
      (blockRound_shrinks folded indent .origin) (Nat.le_refl run.blank.reader.rest.length)
    cases o with
    | inr result => exact ⟨result, hcomes⟩
    | inl run' =>
        obtain ⟨hvisits, hstuck⟩ := hcomes.visits
        exact absurd (heldUp_of_stuck hstuck) (hfree run' hvisits)

/-- The bound on the lines cuts off only what would never end. -/
theorem blockLines_genuine_iff (start : Mark) {n : Nat} (hn : run.blank.reader.rest.length ≤ n) :
    Genuine (blockLines folded indent start n run) ↔
      ∃ result, Comes (blockRound folded indent) run (.inr result) := by
  obtain ⟨o, hcomes, hloop⟩ := (blockLines_loops folded indent start).comes
    (blockRound_shrinks folded indent start) hn
  rw [hloop]
  cases o with
  | inr result =>
      refine iff_of_true (fun d hd => ?_) ⟨result, hcomes⟩
      obtain ⟨last, hlast⟩ := hcomes.result
      have hd : result = .error d := hd
      rw [hd] at hlast
      unfold blockRound at hlast
      dsimp only at hlast
      split_ifs at hlast <;> cases hlast
  | inl last =>
      refine iff_of_false (fun hgenuine => ?_) fun ⟨result, hend⟩ => by cases hcomes.unique hend
      have hheld := heldUp_of_stuck hcomes.visits.2
      exact hgenuine _ (if_neg (by simp [hheld.atLine])) rfl

end BlockRun

/-! ### Whole scalars -/

/-- The blank lines at the head of a block scalar, and the column in which its lines start. -/
def BlockHeader.content (header : BlockHeader) (outer : Int) (r : Reader) : BlankLines × Nat :=
  let least := (max (outer + 1) 1).toNat
  match header.indent with
  | some n => (blankLines (least + n - 1) r, least + n - 1)
  | none =>
      let (blank, widest) := detectIndent r
      (blank, max least widest)

/-- Reading the block scalar at `r` comes to a line: so far it has read `run`, and lines start in
column `indent`. -/
def ReachesLine (folded : Bool) (outer : Int) (r : Reader) (indent : Nat) (run : BlockRun) : Prop :=
  ∃ header r₁ r₂, blockHeader r.mark r.next = .ok (header, r₁) ∧
    headerLineEnd r.mark r₁ = .ok r₂ ∧ indent = (header.content outer r₂).2 ∧
      Visits (blockRound folded indent) ⟨[], none, (header.content outer r₂).1⟩ run

theorem BlockHeader.content_leads (header : BlockHeader) (outer : Int) (r : Reader) :
    r.Leads (header.content outer r).1.reader := by
  unfold content
  dsimp only
  split
  · exact blankLines_leads _ _
  · exact detectIndentFor_leads _ _ _

/-- Behind a header that can be read, it all hangs on the lines. -/
theorem readBlockScalar_genuine_of_header {folded : Bool} {outer : Int} {r r₁ r₂ : Reader}
    {header : BlockHeader} (hheader : blockHeader r.mark r.next = .ok (header, r₁))
    (hline : headerLineEnd r.mark r₁ = .ok r₂) :
    Genuine (readBlockScalar folded outer r) ↔
      Genuine (blockLines folded (header.content outer r₂).2 r.mark r₂.rest.length
        ⟨[], none, (header.content outer r₂).1⟩) := by
  have hread : readBlockScalar folded outer r = (do
      let found ← blockHeader r.mark r.next
      let r₂ ← headerLineEnd r.mark found.2
      let run ← blockLines folded (found.1.content outer r₂).2 r.mark r₂.rest.length
        ⟨[], none, (found.1.content outer r₂).1⟩
      return (⟨.scalar (String.ofList (run.chomp found.1.chomping))
        (if folded then Style.folded else Style.literal), r.mark, run.blank.stop⟩,
          run.blank.reader)) := rfl
  rw [hread, hheader, ok_bind]
  dsimp only
  rw [hline, ok_bind]
  cases blockLines folded (header.content outer r₂).2 r.mark r₂.rest.length
      ⟨[], none, (header.content outer r₂).1⟩ with
  | ok run => exact iff_of_true (faults_ok _) (faults_ok _)
  | error d => exact ⟨fun h => faults_error (h d rfl), fun h => faults_error (h d rfl)⟩

/-- The reading is cut off if and only if some line holds it up. -/
theorem readBlockScalar_genuine_iff (folded : Bool) (outer : Int) (r : Reader) :
    Genuine (readBlockScalar folded outer r) ↔
      ∀ indent run, ReachesLine folded outer r indent run → ¬run.HeldUp indent := by
  cases hheader : blockHeader r.mark r.next with
  | error d =>
      refine iff_of_true ?_ ?_
      · rw [readBlockScalar, hheader]
        exact faults_error (blockHeader_genuine _ _ d hheader)
      · rintro indent run ⟨header, r₁, r₂, hok, -⟩
        cases hheader.symm.trans hok
  | ok found =>
      obtain ⟨header, r₁⟩ := found
      cases hline : headerLineEnd r.mark r₁ with
      | error d =>
          refine iff_of_true ?_ ?_
          · rw [readBlockScalar, hheader, ok_bind]
            dsimp only
            rw [hline]
            exact faults_error (headerLineEnd_genuine _ _ d hline)
          · rintro indent run ⟨header', r₁', r₂, hok, hok', -⟩
            cases hheader.symm.trans hok
            cases hline.symm.trans hok'
      | ok r₂ =>
          rw [readBlockScalar_genuine_of_header hheader hline,
            BlockRun.blockLines_genuine_iff _ (header.content_leads outer r₂).length_le,
            BlockRun.comes_iff]
          constructor
          · rintro hfree indent run ⟨header', r₁', r₂', hok, hok', rfl, hvisits⟩
            cases hheader.symm.trans hok
            cases hline.symm.trans hok'
            exact hfree run hvisits
          · exact fun hfree run hvisits =>
              hfree _ run ⟨header, r₁, r₂, hheader, hline, rfl, hvisits⟩

/-- Wherever a block scalar is read: blank lines and the search for the indentation end. A round
over the lines reads some text unless it is held up by a NUL. The rounds come to an end if and only
if no line holds them up, and the bound on them cuts off no others. -/
theorem readBlockScalar_ends_iff (folded : Bool) (outer : Int) (r : Reader) :
    (∀ r' : Reader, Comes detectRound (⟨[], r'.mark, r'⟩, 0) (.inr (detectIndent r')) ∧
      ∀ indent, Comes (blankRound indent) ⟨[], r'.mark, skipIndent indent r'⟩
        (.inr (blankLines indent r'))) ∧
    (∀ indent run, ReachesLine folded outer r indent run → run.atLine indent = true →
      ((run.line indent).blank.reader.rest.length < run.blank.reader.rest.length ↔
        ¬run.HeldUp indent)) ∧
    ((∀ indent run, ReachesLine folded outer r indent run →
        ∃ result, Comes (blockRound folded indent) run (.inr result)) ↔
      ∀ indent run, ReachesLine folded outer r indent run → ¬run.HeldUp indent) ∧
    (Genuine (readBlockScalar folded outer r) ↔
      ∀ indent run, ReachesLine folded outer r indent run → ¬run.HeldUp indent) := by
  refine ⟨fun r' => ⟨?_, fun indent => ?_⟩, ?_, ⟨?_, ?_⟩, ?_⟩
  · exact detectIndentFor_loops.ends_of_lt detectRound_length (Nat.lt_succ_self _)
  · exact (blankLinesFor_loops indent).ends_of_lt blankRound_length
      (Nat.lt_succ_of_le (Leads.advance r' _).length_le)
  · exact fun indent run _ hline => BlockRun.line_length_iff hline
  · exact fun hends indent run hreach =>
      (BlockRun.comes_iff run).mp (hends indent run hreach) run .refl
  · rintro hfree indent run ⟨header, r₁, r₂, hheader, hline, hindent, hvisits⟩
    refine (BlockRun.comes_iff run).mpr fun run' hvisits' => hfree indent run' ?_
    exact ⟨header, r₁, r₂, hheader, hline, hindent, hvisits.trans hvisits'⟩
  · exact readBlockScalar_genuine_iff folded outer r

/-- A NUL behind the first character of a line ends the scalar. -/
theorem readBlockScalar_ends_iff_nul_behind :
    (readBlockScalar true 0 (.start ">\n  a\n  b\x00\n".toList)).isOk = true ∧
      ¬∃ indent run, ReachesLine true 0 (.start ">\n  a\n  b\x00\n".toList) indent run ∧
        run.HeldUp indent := by
  have hok : (readBlockScalar true 0 (.start ">\n  a\n  b\x00\n".toList)).isOk = true := by
    decide +kernel
  have hgenuine : Genuine (readBlockScalar true 0 (.start ">\n  a\n  b\x00\n".toList)) := by
    intro d hd
    rw [hd] at hok
    cases hok
  have hfree := (readBlockScalar_ends_iff true 0 _).2.2.2.mp hgenuine
  exact ⟨hok, fun ⟨indent, run, hreach, hheld⟩ => hfree indent run hreach hheld⟩

/-- A NUL right at the indentation: the round over it leaves all as it was, and the scalar has no
end. -/
theorem readBlockScalar_held_up :
    ReachesLine false (-1) (.start "|\n \x00".toList) 1
        ⟨[], none, ⟨[], ⟨2, 1, 0⟩, ⟨[nul], ⟨3, 1, 1⟩⟩⟩⟩ ∧
      Comes (blockRound false 1) ⟨[], none, ⟨[], ⟨2, 1, 0⟩, ⟨[nul], ⟨3, 1, 1⟩⟩⟩⟩
        (.inl ⟨[], none, ⟨[], ⟨3, 1, 1⟩, ⟨[nul], ⟨3, 1, 1⟩⟩⟩⟩) ∧
      (Token.ofText "|\n \x00".toList).fault.map Diagnostic.problem = some .endless := by
  have hheader : blockHeader ⟨0, 0, 0⟩ ⟨['\n', ' ', nul], ⟨1, 0, 1⟩⟩ =
      .ok (⟨.clip, none⟩, ⟨['\n', ' ', nul], ⟨1, 0, 1⟩⟩) := by decide +kernel
  have hline : headerLineEnd ⟨0, 0, 0⟩ ⟨['\n', ' ', nul], ⟨1, 0, 1⟩⟩ =
      .ok ⟨[' ', nul], ⟨2, 1, 0⟩⟩ := by decide +kernel
  refine ⟨⟨_, _, _, hheader, hline, rfl, .refl⟩, .again rfl (.stuck rfl), ?_⟩
  decide +kernel

end Playbook
