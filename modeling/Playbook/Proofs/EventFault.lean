import Playbook.Proofs.EventStep

/-!
How a step of the event machine can fail: with a diagnostic of its own, or with the fault that cut
the tokens short. A sound machine never finds that the tokens have run out.
-/

namespace Playbook

namespace EventStream

open EventGrammar

/-- A computation that fails for a reason of its own or for lack of tokens cut short by a fault, but
never because the tokens have run out. -/
def Fair {α : Type} (feed : Feed Token) (x : Except Diagnostic α) : Prop :=
  ∀ d, x = .error d → feed.fault = some d ∨
    d.stage = .events ∧ d.problem ≠ .tokensExhausted ∧ d.problem ≠ .endless

section Fairness

variable {α β : Type} {feed : Feed Token}

theorem fair_ok (a : α) : Fair feed (.ok a) := by
  intro d h
  cases h

theorem fair_error {d : Diagnostic} (hstage : d.stage = .events)
    (hproblem : d.problem ≠ .tokensExhausted) (hendless : d.problem ≠ .endless) :
    Fair feed (.error d : Except Diagnostic α) := by
  intro d' h
  cases h
  exact Or.inr ⟨hstage, hproblem, hendless⟩

theorem fair_bind {x : Except Diagnostic α} {f : α → Except Diagnostic β} (hx : Fair feed x)
    (hf : ∀ a, x = .ok a → Fair feed (f a)) : Fair feed (x >>= f) := by
  intro d h
  rcases bind_eq_error_iff.mp h with h | ⟨a, ha, h⟩
  · exact hx d h
  · exact hf a ha d h

theorem fair_unexpected {s : EventStream} {context : Activity} {problem : Problem} {mark : Mark}
    (hproblem : problem ≠ .tokensExhausted) (hendless : problem ≠ .endless) :
    Fair feed (.error (s.unexpected context problem mark) : Except Diagnostic α) := by
  unfold unexpected
  split
  · exact fair_error rfl hproblem hendless
  · exact fair_error rfl hproblem hendless

end Fairness

theorem token_fair {s : EventStream} (h : Supplied s.tokens) : Fair s.tokens s.token := by
  intro d hd
  unfold token at hd
  split at hd
  · cases hd
  · rename_i hfault
    cases hd
    exact Or.inl hfault
  · rename_i hitems hfault
    obtain ⟨t, ht, -⟩ := h hfault
    simp [hitems] at ht

theorem kind_fair {s : EventStream} (h : Supplied s.tokens) : Fair s.tokens s.kind :=
  fair_bind (token_fair h) fun _ _ => fair_ok _

theorem property_fair {s : EventStream} {run : PropertyRun} (h : Supplied s.tokens) :
    Fair s.tokens (property run s) := by
  refine fair_bind (token_fair h) fun t _ => ?_
  dsimp only
  split <;> exact fair_ok _

theorem resolveTag_fair (s : EventStream) (run : PropertyRun) :
    Fair s.tokens (s.resolveTag run) := by
  unfold resolveTag
  split
  · exact fair_ok _
  · exact fair_ok _
  · split
    · exact fair_ok _
    · exact fair_error rfl (by simp) (by simp)

theorem node_fair {s : EventStream} {block indentless : Bool} (h : Supplied s.tokens) :
    Fair s.tokens (s.node block indentless) := by
  refine fair_bind (token_fair h) fun t _ => ?_
  split
  · exact fair_ok _
  · refine fair_bind (property_fair h) fun ⟨run₁, s₁⟩ h₁ => ?_
    obtain ⟨used₁, rest₁, hpassed₁, rfl, -⟩ := property_outcome h₁
    have hsupplied₁ := h.passed hpassed₁
    refine fair_bind (property_fair hsupplied₁) fun ⟨run₂, s₂⟩ h₂ => ?_
    obtain ⟨used₂, rest₂, hpassed₂, rfl, -⟩ := property_outcome h₂
    have hsupplied₂ := hsupplied₁.passed hpassed₂
    refine fair_bind (resolveTag_fair _ _) fun tag _ => ?_
    refine fair_bind (token_fair hsupplied₂) fun token _ => ?_
    dsimp only
    split
    · exact fair_ok _
    · exact fair_ok _
    · exact fair_ok _
    · split_ifs
      · exact fair_ok _
      · exact fair_ok _
      · exact fair_ok _
      · exact fair_ok _
      all_goals exact fair_error rfl (by simp [Diagnostic.within]) (by simp [Diagnostic.within])

theorem nodeUnless_fair {s : EventStream} {token : Token} {stops : List TokenKind}
    {after : Expect} {block indentless : Bool} (h : Supplied s.tokens) :
    Fair s.tokens (s.nodeUnless token stops after block indentless) := by
  refine fair_bind (kind_fair h) fun kind _ => ?_
  split_ifs
  · exact fair_ok _
  · exact node_fair h

theorem Supplied.skip {s : EventStream} {t : Token} (h : Supplied s.tokens)
    (ht : s.token = .ok t) (hkind : t.kind ≠ .streamEnd) : Supplied s.skip.tokens := by
  obtain ⟨rest, hitems⟩ := token_eq_ok_iff.mp ht
  rw [skip_eq_readTo hitems]
  exact h.passed (.one hitems hkind)

theorem blockSequenceStep_fair {s : EventStream} (h : Supplied s.tokens) :
    Fair s.tokens s.blockSequenceStep := by
  refine fair_bind (token_fair h) fun t ht => ?_
  split_ifs with hentry
  · exact nodeUnless_fair (h.skip ht (ne_streamEnd hentry (by decide)))
  · exact fair_ok _
  · exact fair_unexpected (by simp) (by simp)

theorem indentlessStep_fair {s : EventStream} (h : Supplied s.tokens) :
    Fair s.tokens s.indentlessStep := by
  refine fair_bind (token_fair h) fun t ht => ?_
  split_ifs with hentry
  · exact nodeUnless_fair (h.skip ht (ne_streamEnd hentry (by decide)))
  · exact fair_ok _

theorem blockKeyStep_fair {s : EventStream} (h : Supplied s.tokens) :
    Fair s.tokens s.blockKeyStep := by
  refine fair_bind (token_fair h) fun t ht => ?_
  split_ifs with hkey
  · exact nodeUnless_fair (h.skip ht (ne_streamEnd hkey (by decide)))
  · exact fair_ok _
  · exact fair_unexpected (by simp) (by simp)

theorem value_fair {s : EventStream} {after : Expect} {stops : List TokenKind}
    {block indentless : Bool} (h : Supplied s.tokens) :
    Fair s.tokens (do
      let token ← s.token
      if token.kind == TokenKind.value then s.skip.nodeUnless token stops after block indentless
      else return (.empty token.start, s.expect after) : Step) := by
  refine fair_bind (token_fair h) fun t ht => ?_
  split_ifs with hvalue
  · exact nodeUnless_fair (h.skip ht (ne_streamEnd hvalue (by decide)))
  · exact fair_ok _

theorem flowComma_fair {s : EventStream} {first : Bool} {context : Activity}
    {problem : String → Problem} (h : Supplied s.tokens)
    (hproblem : ∀ label, problem label ≠ .tokensExhausted)
    (hendless : ∀ label, problem label ≠ .endless) :
    Fair s.tokens (s.flowComma first context problem) := by
  refine fair_bind (token_fair h) fun t _ => ?_
  split_ifs
  · exact fair_ok _
  · exact fair_ok _
  · exact fair_unexpected (hproblem _) (hendless _)

theorem flowSequenceStep_fair {s : EventStream} {first : Bool} (h : Supplied s.tokens) :
    Fair s.tokens (s.flowSequenceStep first) := by
  refine fair_bind (kind_fair h) fun kind _ => ?_
  split_ifs
  · exact fair_bind (token_fair h) fun _ _ => fair_ok _
  · refine fair_bind (flowComma_fair h (by simp) (by simp)) fun s₁ hcomma => ?_
    obtain ⟨used, rest, hpassed, rfl, -⟩ := flowComma_outcome hcomma
    have hsupplied := h.passed hpassed
    refine fair_bind (token_fair hsupplied) fun t _ => ?_
    split_ifs
    · exact fair_ok _
    · exact fair_bind (token_fair hsupplied) fun _ _ => fair_ok _
    · exact node_fair hsupplied

theorem flowKeyStep_fair {s : EventStream} {first : Bool} (h : Supplied s.tokens) :
    Fair s.tokens (s.flowKeyStep first) := by
  refine fair_bind (kind_fair h) fun kind _ => ?_
  split_ifs
  · exact fair_bind (token_fair h) fun _ _ => fair_ok _
  · refine fair_bind (flowComma_fair h (by simp) (by simp)) fun s₁ hcomma => ?_
    obtain ⟨used, rest, hpassed, rfl, -⟩ := flowComma_outcome hcomma
    have hsupplied := h.passed hpassed
    refine fair_bind (token_fair hsupplied) fun t ht => ?_
    split_ifs with hkey
    · exact nodeUnless_fair (hsupplied.skip ht (ne_streamEnd hkey (by decide)))
    · exact fair_bind (token_fair hsupplied) fun _ _ => fair_ok _
    · exact node_fair hsupplied

theorem directive_fair {feed : Feed Token} {run : DirectiveRun} {t : Token} :
    Fair feed (directive run t) := by
  unfold directive
  split
  · split_ifs
    · exact fair_error rfl (by simp [Diagnostic.plain]) (by simp [Diagnostic.plain])
    · exact fair_ok _
    · exact fair_error rfl (by simp [Diagnostic.plain]) (by simp [Diagnostic.plain])
  · split_ifs
    · exact fair_error rfl (by simp [Diagnostic.plain]) (by simp [Diagnostic.plain])
    · exact fair_ok _
  · exact fair_error rfl (by simp [Diagnostic.plain]) (by simp [Diagnostic.plain])
  · exact fair_ok _

theorem directives_fair (s : EventStream) : Fair s.tokens s.directives := by
  have hlines : ∀ (lines : List Token) (run : DirectiveRun),
      Fair s.tokens (lines.foldlM directive run) := by
    intro lines
    induction lines with
    | nil => exact fun run => fair_ok run
    | cons t lines ih => exact fun run => fair_bind directive_fair fun run' _ => ih run'
  exact fair_bind (hlines _ _) fun _ _ => fair_ok _

theorem explicitDocumentStep_fair {s : EventStream} (h : Supplied s.tokens) :
    Fair s.tokens s.explicitDocumentStep := by
  obtain ⟨used, rest, hpassed, hskip⟩ := skipDocumentEnds_outcome s
  unfold explicitDocumentStep
  simp only [hskip]
  have hsupplied := h.passed hpassed
  refine fair_bind (token_fair hsupplied) fun first _ => ?_
  split_ifs
  · exact fair_ok _
  · refine fair_bind (directives_fair (s.readTo rest)) fun s₁ hdirectives => ?_
    obtain ⟨used', rest', handles, hpassed', rfl⟩ := directives_outcome hdirectives
    refine fair_bind (token_fair (hsupplied.passed hpassed')) fun t _ => ?_
    split_ifs
    · exact fair_ok _
    · exact fair_error rfl (by simp [Diagnostic.plain]) (by simp [Diagnostic.plain])

theorem opened_fair {s : EventStream} {first : Expect} {f : EventStream → Step}
    (hsound : (s.expect first).Sound) (hfirst : first ∈ blind)
    (hf : ∀ s₁, Supplied s₁.tokens → Fair s₁.tokens (f s₁)) :
    Fair s.tokens (s.opened >>= f) := by
  refine fair_bind (fair_bind (token_fair hsound.supplied_expect) fun _ _ => fair_ok _)
    fun s₁ hopened => ?_
  obtain ⟨t, ht, hopened⟩ := bind_eq_ok_iff.mp hopened
  obtain ⟨rest, hitems⟩ := token_eq_ok_iff.mp ht
  cases hopened
  exact hf _ (hsound.supplied_expect.skip ht (hsound.ne_streamEnd hfirst hitems))

/-- No step of the machine fails because the tokens have run out. -/
theorem step_fair {s : EventStream} {e : Expect} (hsound : (s.expect e).Sound) :
    Fair s.tokens (s.step e) := by
  have h := hsound.supplied_expect
  cases e with
  | streamStart => exact fair_bind (token_fair h) fun _ _ => fair_ok _
  | implicitDocumentStart =>
      refine fair_bind (token_fair h) fun t _ => ?_
      split_ifs
      · exact explicitDocumentStep_fair h
      · exact fair_ok _
  | documentStart => exact explicitDocumentStep_fair h
  | documentContent =>
      refine fair_bind (token_fair h) fun t _ => ?_
      split_ifs
      · exact fair_ok _
      · exact node_fair h
  | documentEnd =>
      refine fair_bind (token_fair h) fun t _ => ?_
      split_ifs <;> exact fair_ok _
  | blockNode => exact node_fair h
  | blockSequenceFirst =>
      exact opened_fair hsound (by decide) fun _ => blockSequenceStep_fair
  | blockSequenceEntry => exact blockSequenceStep_fair h
  | indentlessEntry => exact indentlessStep_fair h
  | blockMappingFirst => exact opened_fair hsound (by decide) fun _ => blockKeyStep_fair
  | blockMappingKey => exact blockKeyStep_fair h
  | blockMappingValue => exact value_fair h
  | flowSequenceFirst =>
      exact opened_fair hsound (by decide) fun _ => flowSequenceStep_fair
  | flowSequenceEntry => exact flowSequenceStep_fair h
  | pairKey =>
      refine fair_bind (token_fair h) fun t ht => ?_
      obtain ⟨rest, hitems⟩ := token_eq_ok_iff.mp ht
      exact nodeUnless_fair (h.skip ht (hsound.ne_streamEnd (by decide) hitems))
  | pairValue => exact value_fair h
  | pairEnd => exact fair_bind (token_fair h) fun _ _ => fair_ok _
  | flowMappingFirst => exact opened_fair hsound (by decide) fun _ => flowKeyStep_fair
  | flowMappingKey => exact flowKeyStep_fair h
  | flowMappingValue => exact value_fair h
  | flowMappingNoValue => exact fair_bind (token_fair h) fun _ _ => fair_ok _

end EventStream

end Playbook
