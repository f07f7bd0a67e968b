import Playbook.Proofs.Outcome
import Playbook.Token.Scan

/-!
What a step comes to if the state behind a failure is left out. The steps of a token stream that
stays in use come to what `TokenStream` says of them.
-/

namespace Playbook

variable {σ α β : Type}

/-- The result of a step and the state behind it, or what was wrong. -/
def outcome (x : EStateM Diagnostic σ α) (s : σ) : Except Diagnostic (α × σ) :=
  match x s with
  | .ok a s' => .ok (a, s')
  | .error d _ => .error d

@[simp] theorem outcome_get (s : σ) :
    outcome (get : EStateM Diagnostic σ σ) s = .ok (s, s) := rfl

@[simp] theorem outcome_modify (f : σ → σ) (s : σ) :
    outcome (modify f : EStateM Diagnostic σ PUnit) s = .ok (⟨⟩, f s) := rfl

@[simp] theorem outcome_bind (x : EStateM Diagnostic σ α) (f : α → EStateM Diagnostic σ β) (s : σ) :
    outcome (x >>= f) s = outcome x s >>= fun found => outcome (f found.1) found.2 := by
  change outcome (EStateM.bind x f) s = _
  unfold outcome EStateM.bind
  cases x s <;> rfl

theorem outcome_eq_ok_iff {x : EStateM Diagnostic σ α} {s s' : σ} {a : α} :
    outcome x s = .ok (a, s') ↔ x s = .ok a s' := by
  unfold outcome
  cases x s <;> simp

theorem outcome_eq_error_iff {x : EStateM Diagnostic σ α} {s : σ} {d : Diagnostic} :
    outcome x s = .error d ↔ ∃ s', x s = .error d s' := by
  unfold outcome
  cases x s <;> simp

namespace Scan

open TokenStream

/-- The step comes to what the function says of it. -/
def Does (x : Scan Unit) (f : TokenStream → Except Diagnostic TokenStream) : Prop :=
  ∀ s, outcome x s = (((), ·) : TokenStream → Unit × TokenStream) <$> f s

variable {x y : Scan Unit} {f g : TokenStream → Except Diagnostic TokenStream}

theorem Does.bind (hx : Does x f) (hy : Does y g) : Does (x >>= fun _ => y) fun s => f s >>= g := by
  intro s
  change outcome (x >>= fun _ => y) s = _ <$> (f s >>= g)
  rw [outcome_bind, hx s]
  cases f s with
  | error d => rfl
  | ok s' => exact hy s'

theorem Does.congr (hx : Does x f) (h : ∀ s, f s = g s) : Does x g := fun s => h s ▸ hx s

theorem does_modify (f : TokenStream → TokenStream) : Does (modify f) fun s => .ok (f s) :=
  fun _ => rfl

theorem does_attempt (f : TokenStream → Except Diagnostic TokenStream) : Does (attempt f) f := by
  intro s
  unfold attempt
  rw [outcome_bind, outcome_get, ok_bind]
  cases f s <;> rfl

theorem does_readToken (read : Reader → Except Diagnostic (Token × Reader)) :
    Does (readToken read) fun s => do
      let (token, reader) ← read s.reader
      return s.pushRead token reader := by
  intro s
  unfold readToken
  rw [outcome_bind, outcome_get, ok_bind]
  dsimp only
  cases read s.reader <;> rfl

theorem does_removeKey : Does removeKey TokenStream.removeKey := by
  intro s
  unfold removeKey TokenStream.removeKey
  rw [outcome_bind, outcome_get, ok_bind]
  dsimp only
  cases s.key? with
  | none => rfl
  | some key =>
      dsimp only
      split_ifs <;> rfl

theorem does_dropStaleKeys : Does dropStaleKeys TokenStream.dropStaleKeys := by
  intro s
  unfold dropStaleKeys TokenStream.dropStaleKeys
  rw [outcome_bind, outcome_get, ok_bind]
  dsimp only
  cases s.keys.find? (fun key => key.isStale s.mark && key.required) <;> rfl

theorem does_saveKey : Does saveKey TokenStream.saveKey := by
  intro s
  unfold saveKey TokenStream.saveKey
  rw [outcome_bind, outcome_get, ok_bind]
  dsimp only
  split_ifs
  · rw [outcome_bind, does_removeKey s]
    cases s.removeKey <;> rfl
  · rfl

/-- Whether a key may start here does not matter when one is given up. -/
theorem removeKey_withAllowed (s : TokenStream) (allowed : Bool) :
    { s with keyAllowed := allowed }.removeKey =
      (fun s' : TokenStream => { s' with keyAllowed := allowed }) <$> s.removeKey := by
  have hkey : { s with keyAllowed := allowed }.key? = s.key? := rfl
  rw [TokenStream.removeKey, TokenStream.removeKey, hkey]
  cases s.key? with
  | none => rfl
  | some key =>
      dsimp only
      split_ifs <;> rfl

theorem does_fetchEnd : Does fetchEnd TokenStream.fetchEnd :=
  (does_modify _).bind (does_removeKey.bind (does_modify _))

theorem does_fetchDirective : Does fetchDirective TokenStream.fetchDirective := by
  refine ((does_modify _).bind (does_removeKey.bind
    ((does_modify _).bind (does_readToken _)))).congr fun s => ?_
  rw [ok_bind, TokenStream.fetchDirective]
  cases (s.unwind (-1)).removeKey with
  | error d => rfl
  | ok s' =>
      change readDirective s'.reader >>= _ = readDirective s'.reader >>= _
      cases readDirective s'.reader <;> rfl

theorem does_fetchFlowStart (kind : TokenKind) :
    Does (fetchFlowStart kind) (·.fetchFlowStart kind) :=
  does_saveKey.bind (does_modify _)

theorem does_fetchFlowEnd (kind : TokenKind) : Does (fetchFlowEnd kind) (·.fetchFlowEnd kind) :=
  does_removeKey.bind (does_modify _)

theorem does_fetchFlowEntry : Does fetchFlowEntry TokenStream.fetchFlowEntry := by
  refine ((does_modify _).bind (does_removeKey.bind (does_modify _))).congr fun s => ?_
  rw [ok_bind, removeKey_withAllowed, TokenStream.fetchFlowEntry]
  cases s.removeKey <;> rfl

theorem does_fetchBlockEntry : Does fetchBlockEntry TokenStream.fetchBlockEntry := by
  refine ((does_attempt _).bind ((does_modify _).bind
    (does_removeKey.bind (does_modify _)))).congr fun s => ?_
  rw [TokenStream.fetchBlockEntry]
  congr 1
  funext s'
  rw [ok_bind, removeKey_withAllowed]
  cases s'.removeKey <;> rfl

theorem removeKey_inFlow {s s' : TokenStream} (h : s.removeKey = .ok s') :
    s'.inFlow = s.inFlow := by
  unfold TokenStream.removeKey at h
  split at h
  · split_ifs at h
    cases h
    rfl
  · cases h
    rfl

theorem does_fetchKey : Does fetchKey TokenStream.fetchKey := by
  refine ((does_attempt _).bind ((does_modify _).bind
    (does_removeKey.bind (does_modify _)))).congr fun s => ?_
  rw [TokenStream.fetchKey]
  congr 1
  funext s'
  rw [ok_bind, removeKey_withAllowed]
  cases hremove : s'.removeKey with
  | error d => rfl
  | ok s'' =>
      rw [← removeKey_inFlow hremove]
      rfl

theorem does_fetchValue : Does fetchValue TokenStream.fetchValue := by
  intro s
  unfold fetchValue TokenStream.fetchValue
  rw [outcome_bind, outcome_get, ok_bind]
  dsimp only
  cases s.key? with
  | some key => rfl
  | none => exact ((does_attempt _).bind (does_modify _)) s

theorem does_fetchKeyed (read : Reader → Except Diagnostic (Token × Reader)) :
    Does (fetchKeyed read) (·.fetchKeyed read) := by
  refine (does_saveKey.bind ((does_modify _).bind (does_readToken read))).congr fun s => ?_
  rw [TokenStream.fetchKeyed]
  cases s.saveKey with
  | error d => rfl
  | ok s' =>
      change read s'.reader >>= _ = read s'.reader >>= _
      cases read s'.reader <;> rfl

theorem does_fetchBlockScalar (folded : Bool) :
    Does (fetchBlockScalar folded) (·.fetchBlockScalar folded) := by
  intro s
  unfold fetchBlockScalar TokenStream.fetchBlockScalar allowKey
  dsimp only
  rw [outcome_bind, outcome_modify, ok_bind, outcome_bind, does_removeKey, removeKey_withAllowed]
  cases s.removeKey with
  | error d => rfl
  | ok s' =>
      change outcome (readToken (readBlockScalar folded s'.indent)) _ = _
      rw [does_readToken]
      change _ <$> (readBlockScalar folded s'.indent s'.reader >>= _) =
        _ <$> (readBlockScalar folded s'.indent s'.reader >>= _)
      cases readBlockScalar folded s'.indent s'.reader <;> rfl

theorem does_fetchPlain : Does fetchPlain TokenStream.fetchPlain :=
  does_saveKey.bind (does_modify _)

/-- Two ways to go on, the same on both sides. -/
theorem does_ite {c : Prop} [Decidable c] {s : TokenStream} {r r' : Except Diagnostic TokenStream}
    (hx : outcome x s = ((), ·) <$> r) (hy : outcome y s = ((), ·) <$> r') :
    outcome (if c then x else y) s = ((), ·) <$> if c then r else r' := by
  split_ifs
  · exact hx
  · exact hy

theorem does_fetchSign : Does fetchSign TokenStream.fetchSign := by
  intro s
  unfold fetchSign TokenStream.fetchSign
  rw [outcome_bind, outcome_get, ok_bind]
  dsimp only
  refine does_ite (does_fetchEnd s) ?_
  refine does_ite (does_fetchDirective s) ?_
  refine does_ite rfl ?_
  refine does_ite rfl ?_
  refine does_ite (does_fetchFlowStart _ s) ?_
  refine does_ite (does_fetchFlowStart _ s) ?_
  refine does_ite (does_fetchFlowEnd _ s) ?_
  refine does_ite (does_fetchFlowEnd _ s) ?_
  refine does_ite (does_fetchFlowEntry s) ?_
  refine does_ite (does_fetchBlockEntry s) ?_
  refine does_ite (does_fetchKey s) ?_
  refine does_ite (does_fetchValue s) ?_
  refine does_ite (does_fetchKeyed _ s) ?_
  refine does_ite (does_fetchKeyed _ s) ?_
  refine does_ite (does_fetchKeyed _ s) ?_
  refine does_ite (does_fetchBlockScalar _ s) ?_
  refine does_ite (does_fetchBlockScalar _ s) ?_
  refine does_ite (does_fetchKeyed _ s) ?_
  refine does_ite (does_fetchKeyed _ s) ?_
  exact does_ite (does_fetchPlain s) rfl

theorem does_fetch : Does fetch TokenStream.fetch :=
  (does_modify _).bind (does_dropStaleKeys.bind ((does_modify _).bind does_fetchSign))

theorem outcome_needsMore (s : TokenStream) : outcome needsMore s = s.needsMore := by
  unfold needsMore TokenStream.needsMore
  rw [outcome_bind, outcome_get, ok_bind]
  dsimp only
  split_ifs
  · rfl
  · rfl
  · rw [outcome_bind, does_dropStaleKeys s]
    cases s.dropStaleKeys <;> rfl

theorem does_fillFor (n : Nat) : Does (fillFor n) (TokenStream.fillFor n) := by
  induction n with
  | zero => exact fun _ => rfl
  | succ n ih =>
      intro s
      rw [fillFor, TokenStream.fillFor, outcome_bind, outcome_needsMore]
      cases s.needsMore with
      | error d => rfl
      | ok found =>
          obtain ⟨more, s'⟩ := found
          cases more with
          | false => rfl
          | true => exact does_fetch.bind ih s'

theorem does_fill : Does fill TokenStream.fill := fun s => does_fillFor _ s

/-- To look at the next token comes to what the stream says. -/
theorem outcome_peek (s : TokenStream) : outcome peek s = s.peek := by
  unfold peek TokenStream.peek
  rw [outcome_bind, does_fill s]
  cases s.fill <;> rfl

theorem outcome_next (s : TokenStream) : outcome next s = s.next := by
  unfold next TokenStream.next
  rw [outcome_bind, does_fill s]
  cases s.fill with
  | error d => rfl
  | ok s' =>
      change outcome (get >>= _) s' = _
      rw [outcome_bind, outcome_get, ok_bind, ok_bind]
      dsimp only
      cases s'.queue <;> rfl

end Scan

end Playbook
