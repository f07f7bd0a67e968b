import Playbook.Proofs.Reading

/-!
The order of marks. Reading on, the index grows, and the line, or else the column on one line. A
token that was read starts where reading began, and stops on the way to where it came to.
-/

namespace Playbook

namespace Mark

/-- The second mark is not before the first, neither by its index nor by its line and column. -/
instance : LE Mark where
  le m m' := m.index ≤ m'.index ∧ (m.line < m'.line ∨ m.line = m'.line ∧ m.column ≤ m'.column)

theorem le_def {m m' : Mark} : m ≤ m' ↔
    m.index ≤ m'.index ∧ (m.line < m'.line ∨ m.line = m'.line ∧ m.column ≤ m'.column) :=
  Iff.rfl

instance : Preorder Mark where
  le_refl m := ⟨Nat.le_refl _, Or.inr ⟨rfl, Nat.le_refl _⟩⟩
  le_trans m m' m'' h h' := by
    rw [le_def] at h h' ⊢
    omega

theorem past_ge (m : Mark) (c : Char) (rest : List Char) : m ≤ m.past c rest := by
  unfold past
  split_ifs <;> simp [le_def]

end Mark

/-- A span that reaches at least as far to both sides holds every place that the other one does. -/
theorem Span.contains_mono {outer inner : Span} {cursor : Cursor}
    (hstart : outer.start ≤ inner.start) (hstop : inner.stop ≤ outer.stop)
    (h : inner.contains cursor = true) : outer.contains cursor = true := by
  rw [Mark.le_def] at hstart hstop
  simp only [contains, Bool.and_eq_true, Bool.or_eq_true, decide_eq_true_eq, bne_iff_ne] at h ⊢
  omega

namespace Reader

theorem Leads.mark_le {r r' : Reader} (h : r.Leads r') : r.mark ≤ r'.mark := by
  obtain ⟨n, rfl⟩ := h
  induction n generalizing r with
  | zero => exact le_refl _
  | succ n ih =>
      refine le_trans ?_ ih
      unfold Reader.next
      split
      · exact le_refl _
      · exact Mark.past_ge _ _ _

end Reader

open Reader

/-- The mark lies on the way from the first place to the second. -/
def Mark.Between (m : Mark) (r r' : Reader) : Prop :=
  ∃ q, r.Leads q ∧ q.Leads r' ∧ m = q.mark

theorem Mark.Between.first {r r' : Reader} (h : r.Leads r') : r.mark.Between r r' :=
  ⟨r, .refl r, h, rfl⟩

theorem Mark.Between.last {r r' : Reader} (h : r.Leads r') : r'.mark.Between r r' :=
  ⟨r', h, .refl r', rfl⟩

theorem Mark.Between.widen {m : Mark} {r₀ r r' r₁ : Reader} (h : m.Between r r')
    (hbefore : r₀.Leads r) (hafter : r'.Leads r₁) : m.Between r₀ r₁ := by
  obtain ⟨q, hq, hq', rfl⟩ := h
  exact ⟨q, hbefore.trans hq, hq'.trans hafter, rfl⟩

theorem Mark.Between.leads {m : Mark} {r r' : Reader} (h : m.Between r r') : r.Leads r' := by
  obtain ⟨q, hq, hq', -⟩ := h
  exact hq.trans hq'

theorem Mark.Between.le {m : Mark} {r r' : Reader} (h : m.Between r r') :
    r.mark ≤ m ∧ m ≤ r'.mark := by
  obtain ⟨q, hq, hq', rfl⟩ := h
  exact ⟨hq.mark_le, hq'.mark_le⟩

/-- The token starts at the first place and stops on the way to the second. -/
structure Token.Spans (token : Token) (r r' : Reader) : Prop where
  start : token.start = r.mark
  stop : token.stop.Between r r'

theorem readName_spans {context : Activity} {kind : String → TokenKind} {r r' : Reader}
    {token : Token} (h : readName context kind r = .ok (token, r')) : token.Spans r r' := by
  have hleads := (Leads.next r).trans (readName_leads h)
  unfold readName at h
  dsimp only at h
  split_ifs at h
  cases h
  exact ⟨rfl, .last hleads⟩

theorem readTag_spans {r r' : Reader} {token : Token} (h : readTag r = .ok (token, r')) :
    token.Spans r r' := by
  have hleads := (Leads.next r).trans (readTag_leads h)
  obtain ⟨⟨handle, suffix, r₁⟩, -, h⟩ := bind_eq_ok_iff.mp h
  dsimp only at h
  split_ifs at h
  cases h
  exact ⟨rfl, .last hleads⟩

theorem readQuoted_spans {double : Bool} {r r' : Reader} {token : Token}
    (h : readQuoted double r = .ok (token, r')) : token.Spans r r' := by
  have hleads := (Leads.next r).trans (readQuoted_leads h)
  obtain ⟨⟨text, stop⟩, -, h⟩ := bind_eq_ok_iff.mp h
  cases h
  exact ⟨rfl, .last hleads⟩

/-- A directive stops before the comment behind it. -/
theorem readDirective_spans {r r' : Reader} {token : Token}
    (h : readDirective r = .ok (token, r')) : token.Spans r r' := by
  unfold readDirective at h
  dsimp only at h
  split_ifs at h
  have hparams : ∀ name : List Char, r.Leads (directiveParams
      ((r.next.advance name.length).rest.length + 1) (r.next.advance name.length) []).2 :=
    fun name => (Leads.next r).trans ((Leads.advance _ _).trans (directiveParams_leads _ _ _))
  split at h
  · rename_i hbreak
    cases h
    have hline := (Leads.skipComment _).trans ((Leads.next _).trans (Leads.lineBreak hbreak))
    exact ⟨rfl, _, hparams _, hline, rfl⟩
  · cases h
    exact ⟨rfl, _, hparams _, .skipComment _, rfl⟩

/-- A plain scalar stops behind its last piece. -/
theorem plainRun_stop {inFlow : Bool} {indent : Int} {r : Reader} (n : Nat) (run : PlainRun)
    (gap : List Char) (h : run.stop.Between r run.reader) :
    (plainRun inFlow indent n run gap).stop.Between r
      (plainRun inFlow indent n run gap).reader := by
  induction n generalizing run gap with
  | zero => exact h
  | succ n ih =>
      unfold plainRun
      dsimp only
      split_ifs
      · exact h
      · generalize hpiece : run.reader.advance (plainPiece inFlow run.reader.rest).length = reader
        have hreader : r.Leads reader := hpiece ▸ h.leads.trans (.advance _ _)
        have hnext : reader.mark.Between r (plainGap reader).reader :=
          ⟨reader, hreader, plainGap_leads reader, rfl⟩
        split
        · exact hnext
        · split_ifs
          · exact hnext
          · exact ih _ _ hnext

theorem readPlain_spans (inFlow : Bool) (indent : Int) (r : Reader) :
    (readPlain inFlow indent r).1.Spans r (readPlain inFlow indent r).2.1 :=
  ⟨rfl, plainRun_stop _ _ _ (.first (.refl r))⟩

/-- The lines stop behind the last line break, with nothing but spaces up to the reader. -/
def BlankLines.Behind (r : Reader) (lines : BlankLines) : Prop :=
  lines.stop.Between r lines.reader

theorem blankLinesFor_behind {r : Reader} (indent n : Nat) {lines : BlankLines}
    (h : lines.Behind r) : (blankLinesFor indent n lines).Behind r := by
  induction n generalizing lines with
  | zero => exact h
  | succ n ih =>
      unfold blankLinesFor
      split
      · exact h
      · rename_i hbreak
        have hline := (Leads.next _).trans (Leads.lineBreak hbreak)
        exact ih ⟨_, h.leads.trans hline, .advance _ _, rfl⟩

theorem blankLines_behind (indent : Nat) (r : Reader) : (blankLines indent r).Behind r :=
  blankLinesFor_behind _ _ (.first (.advance _ _))

theorem detectIndentFor_behind {r : Reader} (n : Nat) {lines : BlankLines} (widest : Nat)
    (h : lines.Behind r) : (detectIndentFor n lines widest).1.Behind r := by
  induction n generalizing lines widest with
  | zero => exact h
  | succ n ih =>
      unfold detectIndentFor
      dsimp only
      split_ifs
      · exact ih _ (h.widen (.refl r) (.next _))
      · split
        · exact h
        · rename_i hbreak
          have hline := (Leads.next _).trans (Leads.lineBreak hbreak)
          exact ih _ (.last (h.leads.trans hline))

theorem blockLine_behind (indent : Nat) (run : BlockRun) :
    (run.line indent).blank.Behind run.blank.reader := by
  unfold BlockRun.line
  dsimp only
  split
  · rename_i hbreak
    have hline := (Leads.advance run.blank.reader _).trans
      ((Leads.next _).trans (Leads.lineBreak hbreak))
    exact (blankLines_behind indent _).widen hline (.refl _)
  · exact (blankLines_behind indent _).widen (.advance _ _) (.refl _)

theorem blockLines_behind {folded : Bool} {indent : Nat} {start : Mark} {n : Nat}
    {run run' : BlockRun} {r : Reader} (hrun : run.blank.Behind r)
    (h : blockLines folded indent start n run = .ok run') : run'.blank.Behind r := by
  have hnext : ∀ {run : BlockRun}, run.blank.Behind r → (run.line indent).blank.Behind r :=
    fun hrun => (blockLine_behind indent _).widen hrun.leads (.refl _)
  induction n generalizing run with
  | zero =>
      unfold blockLines at h
      split_ifs at h
      cases h
      exact hrun
  | succ n ih =>
      unfold blockLines at h
      dsimp only at h
      split_ifs at h
      · cases h
        exact hrun
      · refine ih ?_ h
        exact hnext hrun
      · cases h
        exact hnext hrun

/-- A block scalar stops behind its last line break. -/
theorem readBlockScalar_spans {folded : Bool} {outer : Int} {r r' : Reader} {token : Token}
    (h : readBlockScalar folded outer r = .ok (token, r')) : token.Spans r r' := by
  unfold readBlockScalar at h
  dsimp only at h
  obtain ⟨⟨header, r₁⟩, hheader, h⟩ := bind_eq_ok_iff.mp h
  obtain ⟨r₂, hline, h⟩ := bind_eq_ok_iff.mp h
  obtain ⟨run, hrun, h⟩ := bind_eq_ok_iff.mp h
  cases h
  have hbody : r.Leads r₂ :=
    (Leads.next r).trans ((blockHeader_leads hheader).trans (headerLineEnd_leads hline))
  refine ⟨rfl, Mark.Between.widen (blockLines_behind ?_ hrun) hbody (.refl _)⟩
  dsimp only
  split
  · exact blankLines_behind _ _
  · exact detectIndentFor_behind _ _ (.first (.refl _))

end Playbook
