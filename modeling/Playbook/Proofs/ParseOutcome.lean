import Playbook.Event.Parse
import Playbook.Proofs.Peeking
import Playbook.Proofs.ScanOutcome

/-!
A parser steps like the event machine. The machine has all tokens before it, the parser asks for
them one by one; as long as nothing has failed the tokens that the parser will be given are those
that the machine has left, and a step of either comes to the same.
-/

namespace Playbook

/-! ### Tokens -/

namespace TokenStream

variable {s s' : TokenStream} {feed : Feed Token}

/-- There are no more tokens to come than are allowed for. -/
theorem length_le_budget (h : source.Supplies s feed) (hs : s.Based) :
    feed.items.length ≤ s.budget := by
  induction h with
  | fault => exact Nat.zero_le _
  | stop => exact Nat.zero_le _
  | item hnext _ ih =>
      obtain ⟨hs', hlt⟩ := next_budget hs hnext
      have hle := ih hs'
      simp only [Feed.cons, List.length_cons]
      omega

theorem based_of_peek {found : Option Token} (hs : s.Based) (h : s.peek = .ok (found, s')) :
    s'.Based := by
  obtain ⟨s₁, hfill, h⟩ := bind_eq_ok_iff.mp h
  cases h
  exact (fill_budget hs hfill).1

end TokenStream

/-! ### Runs of tokens -/

namespace EventStream

variable (s : EventStream)

/-- The machine as it is, if there is a token to come. -/
def supplied : Except Diagnostic (Unit × EventStream) :=
  (fun _ => ((), s)) <$> s.token

theorem supplied_skipDocumentEnds : s.skipDocumentEnds.supplied = s.token >>= fun t =>
    if t.kind == .documentEnd then s.skip.skipDocumentEnds.supplied else .ok ((), s) := by
  obtain ⟨⟨items, fault⟩, state, pending, openMarks, handles, ready⟩ := s
  cases items with
  | nil => cases fault <;> rfl
  | cons t items =>
      change _ = if t.kind == .documentEnd then supplied
        (skipDocumentEnds ⟨⟨items, fault⟩, state, pending, openMarks, handles, ready⟩) else _
      unfold skipDocumentEnds
      split_ifs with hkind
      · simp only [List.dropWhile_cons, hkind, if_true]
      · simp only [List.dropWhile_cons, if_neg hkind]
        rfl

/-- The directives and the machine behind them, if there is a token to come. -/
def directiveLines (run : DirectiveRun) : Except Diagnostic (DirectiveRun × EventStream) := do
  let items := s.tokens.items.dropWhile (isDirective ·.kind)
  let run ← (s.tokens.items.takeWhile (isDirective ·.kind)).foldlM directive run
  let _ ← (s.readTo items).token
  return (run, s.readTo items)

theorem directiveLines_eq (run : DirectiveRun) : s.directiveLines run = s.token >>= fun t =>
    if isDirective t.kind then directive run t >>= s.skip.directiveLines else .ok (run, s) := by
  obtain ⟨⟨items, fault⟩, state, pending, openMarks, handles, ready⟩ := s
  cases items with
  | nil => cases fault <;> rfl
  | cons t items =>
      change _ = if isDirective t.kind then directive run t >>=
        directiveLines ⟨⟨items, fault⟩, state, pending, openMarks, handles, ready⟩ else _
      unfold directiveLines
      split_ifs with hkind
      · simp only [List.takeWhile_cons, List.dropWhile_cons, hkind, if_true, List.foldlM_cons,
          bind_assoc]
        rfl
      · simp only [List.takeWhile_cons, List.dropWhile_cons, if_neg hkind]
        rfl

theorem directives_supplied : s.directives >>= supplied =
    s.directiveLines ⟨false, []⟩ >>= fun found =>
      .ok ((), { found.2 with handles := found.1.handles ++ TagHandles.default }) := by
  unfold directives directiveLines
  rw [List.span_eq_takeWhile_dropWhile]
  dsimp only
  cases (s.tokens.items.takeWhile (isDirective ·.kind)).foldlM directive ⟨false, []⟩ with
  | error d => rfl
  | ok run =>
      simp only [ok_bind, pure_eq_ok, supplied, readTo, token]
      cases s.tokens.items.dropWhile (isDirective ·.kind) with
      | nil => cases s.tokens.fault <;> rfl
      | cons t items => rfl

end EventStream

/-- The parser and the machine are in the same state, with the same tokens to come. -/
structure Parser.Agrees (p : Parser) (s : EventStream) : Prop where
  tokens : TokenStream.source.Supplies p.tokens s.tokens
  based : p.tokens.Based
  state : p.state = s.state
  pending : p.pending = s.pending
  openMarks : p.openMarks = s.openMarks
  handles : p.handles = s.handles
  ready : p.ready = s.ready

namespace Parse

open EventStream (PropertyRun DirectiveRun isDirective directive)

variable {α β : Type}

/-- A step of the parser and one of the machine come to the same. Only where it is told that the
tokens are at an end makes a difference. -/
inductive Matches : Except Diagnostic (α × Parser) → Except Diagnostic (α × EventStream) → Prop
  | ok {a : α} {p : Parser} {s : EventStream} (h : p.Agrees s) : Matches (.ok (a, p)) (.ok (a, s))
  | error (d : Diagnostic) : Matches (.error d) (.error d)
  | exhausted (m m' : Mark) : Matches (.error (.plain .events .tokensExhausted m))
      (.error (.plain .events .tokensExhausted m'))

variable {p : Parser} {s : EventStream} {t : Token}

namespace Matches

/-- The machine comes to `y`, from which result and machine follow, and both go on. -/
theorem bind_of_map {γ : Type} {x : Parse α} {y : Except Diagnostic γ} {k : γ → α × EventStream}
    {f : α → Parse β} {g : γ → Except Diagnostic (β × EventStream)}
    (h : Matches (outcome x p) (k <$> y))
    (hf : ∀ c p', y = .ok c → p'.Agrees (k c).2 → Matches (outcome (f (k c).1) p') (g c)) :
    Matches (outcome (x >>= f) p) (y >>= g) := by
  rw [outcome_bind]
  generalize outcome x p = z at h
  cases y with
  | error d =>
      cases h with
      | error => exact .error d
      | exhausted m m' => exact .exhausted m m'
  | ok c =>
      have hgoes := fun p' => hf c p' rfl
      have hk : k <$> (Except.ok c : Except Diagnostic γ) = .ok (k c) := rfl
      rw [hk] at h
      generalize k c = found at h hgoes
      cases h with
      | ok h => exact hgoes _ h

theorem bind {x : Parse α} {y : Except Diagnostic (α × EventStream)} {f : α → Parse β}
    {g : α × EventStream → Except Diagnostic (β × EventStream)} (h : Matches (outcome x p) y)
    (hf : ∀ a p' s', p'.Agrees s' → Matches (outcome (f a) p') (g (a, s'))) :
    Matches (outcome (x >>= f) p) (y >>= g) :=
  bind_of_map (k := id) (by rwa [id_map]) fun found p' _ => hf found.1 p' found.2

theorem bind_unit {x : Parse Unit} {y : Except Diagnostic EventStream} {f : Unit → Parse β}
    {g : EventStream → Except Diagnostic (β × EventStream)}
    (h : Matches (outcome x p) (((), ·) <$> y))
    (hf : ∀ p' s', p'.Agrees s' → Matches (outcome (f ()) p') (g s')) :
    Matches (outcome (x >>= f) p) (y >>= g) :=
  bind_of_map h fun s' p' _ => hf p' s'

theorem bind_pure {x : Parse α} {s' : EventStream} {y : Except Diagnostic α} {f : α → Parse β}
    {g : α → Except Diagnostic (β × EventStream)} (h : Matches (outcome x p) ((·, s') <$> y))
    (hf : ∀ a p', y = .ok a → p'.Agrees s' → Matches (outcome (f a) p') (g a)) :
    Matches (outcome (x >>= f) p) (y >>= g) :=
  bind_of_map h hf

/-- The parser has looked at the token that the machine finds next. -/
theorem supplied {x : Parse Unit} {s' : EventStream} {f : Unit → Parse α}
    {g : Token → Except Diagnostic (α × EventStream)} (h : Matches (outcome x p) s'.supplied)
    (hf : ∀ p', p'.Agrees s' → Matches (outcome (f ()) p') (s'.token >>= g)) :
    Matches (outcome (x >>= f) p) (s'.token >>= g) :=
  bind_of_map h fun t p' htoken hp' => by simpa only [htoken, ok_bind] using hf p' hp'

theorem bind_supplied {x : Parse Unit} {y : Except Diagnostic EventStream} {f : Unit → Parse α}
    {g : EventStream → Token → Except Diagnostic (α × EventStream)}
    (h : Matches (outcome x p) (y >>= EventStream.supplied))
    (hf : ∀ p' s', p'.Agrees s' → Matches (outcome (f ()) p') (s'.token >>= g s')) :
    Matches (outcome (x >>= f) p) (y >>= fun s' => s'.token >>= g s') := by
  cases y with
  | ok s' => exact supplied h (hf · s')
  | error d =>
      have hfails : Matches (outcome x p) (id <$> (.error d : Except Diagnostic (Unit × _))) := h
      exact hfails.bind_of_map (g := fun _ => .error d) fun _ _ hno => by cases hno

theorem ite {c : Prop} [Decidable c] {x y : Parse α} {r r' : Except Diagnostic (α × EventStream)}
    (hx : c → Matches (outcome x p) r) (hy : ¬ c → Matches (outcome y p) r') :
    Matches (outcome (if c then x else y) p) (if c then r else r') := by
  split_ifs with hc
  · exact hx hc
  · exact hy hc

end Matches

theorem outcome_ask (scan : Scan (Option Token)) (p : Parser) :
    outcome (ask scan) p = outcome scan p.tokens >>= fun found =>
      match found.1 with
      | some token => .ok (token, { p with tokens := found.2 })
      | none => .error (.plain .events .tokensExhausted p.tokens.mark) := by
  unfold ask outcome
  dsimp only
  cases scan p.tokens with
  | error d tokens => rfl
  | ok found tokens => cases found <;> rfl

/-- Asking for a token comes to what the machine finds, if the stream answers like its feed. -/
theorem ask_matches {scan : Scan (Option Token)} {s' : EventStream}
    {call : Except Diagnostic (Option Token × TokenStream)} (hscan : outcome scan p.tokens = call)
    (hfront : Prod.fst <$> call = s.tokens.front)
    (hnext : ∀ {token tokens}, call = .ok (some token, tokens) →
      { p with tokens }.Agrees s') :
    Matches (outcome (ask scan) p) ((·, s') <$> s.token) := by
  rw [outcome_ask, hscan]
  obtain ⟨⟨items, fault⟩, _, _, _, _, _⟩ := s
  cases hcall : call with
  | error d =>
      rw [hcall] at hfront
      cases items with
      | cons token items => cases hfront
      | nil =>
          cases fault with
          | none => cases hfront
          | some d' =>
              cases hfront
              exact .error d
  | ok found =>
      obtain ⟨found, tokens⟩ := found
      rw [hcall] at hfront
      cases items with
      | cons token items =>
          cases hfront
          exact .ok (hnext hcall)
      | nil =>
          cases fault with
          | some d => cases hfront
          | none =>
              cases hfront
              exact .exhausted _ _

theorem look_matches (h : p.Agrees s) : Matches (outcome look p) ((·, s) <$> s.token) := by
  have hlawful := TokenStream.source_lawful
  refine ask_matches (Scan.outcome_peek _) ((hlawful.answer _).trans h.tokens.front) ?_
  intro token tokens hpeek
  exact { h with
    tokens := h.tokens.congr (hlawful.next hpeek)
    based := TokenStream.based_of_peek h.based hpeek }

theorem take_matches (h : p.Agrees s) : Matches (outcome take p) ((·, s.skip) <$> s.token) := by
  refine ask_matches (Scan.outcome_next _) h.tokens.front ?_
  intro token tokens hnext
  exact { h with
    tokens := h.tokens.tail hnext
    based := (TokenStream.next_budget h.based hnext).1 }

namespace Matches

theorem look {f : Token → Parse α} {g : Token → Except Diagnostic (α × EventStream)}
    (h : p.Agrees s)
    (hf : ∀ t p', p'.Agrees s → s.token = .ok t → Matches (outcome (f t) p') (g t)) :
    Matches (outcome (Parse.look >>= f) p) (s.token >>= g) :=
  bind_pure (look_matches h) fun t p' htoken hp' => hf t p' hp' htoken

theorem kind {f : Token → Parse α} {g : TokenKind → Except Diagnostic (α × EventStream)}
    (h : p.Agrees s)
    (hf : ∀ t p', p'.Agrees s → s.token = .ok t → Matches (outcome (f t) p') (g t.kind)) :
    Matches (outcome (Parse.look >>= f) p) (s.kind >>= g) := by
  have hkind : s.kind >>= g = s.token >>= fun t => g t.kind := by
    unfold EventStream.kind
    cases s.token <;> rfl
  rw [hkind]
  exact look h hf

theorem take {f : Token → Parse α} {g : Token → Except Diagnostic (α × EventStream)}
    (h : p.Agrees s)
    (hf : ∀ t p', p'.Agrees s.skip → s.token = .ok t → Matches (outcome (f t) p') (g t)) :
    Matches (outcome (Parse.take >>= f) p) (s.token >>= g) :=
  bind_pure (take_matches h) fun t p' htoken hp' => hf t p' hp' htoken

/-- The parser asks for a token that has been looked at. -/
theorem bind_known {x : Parse Token} {s' : EventStream} {f : Token → Parse α}
    {r : Except Diagnostic (α × EventStream)} (h : Matches (outcome x p) ((·, s') <$> s.token))
    (htoken : s.token = .ok t) (hf : ∀ p', p'.Agrees s' → Matches (outcome (f t) p') r) :
    Matches (outcome (x >>= f) p) r := by
  rw [htoken] at h
  exact bind_pure (y := .ok t) (g := fun _ => r) h fun _ p' ht hp' => Except.ok.inj ht ▸ hf p' hp'

theorem looked {f : Token → Parse α} {r : Except Diagnostic (α × EventStream)} (h : p.Agrees s)
    (htoken : s.token = .ok t) (hf : ∀ p', p'.Agrees s → Matches (outcome (f t) p') r) :
    Matches (outcome (Parse.look >>= f) p) r :=
  bind_known (look_matches h) htoken hf

theorem taken {f : Token → Parse α} {r : Except Diagnostic (α × EventStream)} (h : p.Agrees s)
    (htoken : s.token = .ok t) (hf : ∀ p', p'.Agrees s.skip → Matches (outcome (f t) p') r) :
    Matches (outcome (Parse.take >>= f) p) r :=
  bind_known (take_matches h) htoken hf

section

variable {f : Unit → Parse α} {r : Except Diagnostic (α × EventStream)}

theorem expect {e : Expect} (h : p.Agrees s)
    (hf : ∀ p', p'.Agrees (s.expect e) → Matches (outcome (f ()) p') r) :
    Matches (outcome (Parse.expect e >>= f) p) r :=
  hf _ { h with state := rfl }

theorem push {e : Expect} (h : p.Agrees s)
    (hf : ∀ p', p'.Agrees (s.push e) → Matches (outcome (f ()) p') r) :
    Matches (outcome (Parse.push e >>= f) p) r :=
  hf _ { h with pending := congrArg _ h.pending }

theorem pop (h : p.Agrees s) (hf : ∀ p', p'.Agrees s.pop → Matches (outcome (f ()) p') r) :
    Matches (outcome (Parse.pop >>= f) p) r :=
  hf _ { h with state := congrArg List.head? h.pending, pending := congrArg List.tail h.pending }

theorem close (h : p.Agrees s) (hf : ∀ p', p'.Agrees s.close → Matches (outcome (f ()) p') r) :
    Matches (outcome (Parse.close >>= f) p) r :=
  hf _ { h with
    state := congrArg List.head? h.pending
    pending := congrArg List.tail h.pending
    openMarks := congrArg List.tail h.openMarks }

end

end Matches

theorem unexpected_matches (h : p.Agrees s) (context : Activity) (problem : Problem)
    (mark : Mark) :
    Matches (outcome (unexpected (α := α) context problem mark) p)
      (.error (s.unexpected context problem mark)) := by
  unfold unexpected EventStream.unexpected
  rw [outcome_bind, outcome_get, ok_bind, h.openMarks]
  dsimp only
  cases s.openMarks.head? <;> exact .error _

/-! ### Nodes -/

theorem property_matches (run : PropertyRun) (h : p.Agrees s) :
    Matches (outcome (property run) p) (EventStream.property run s) := by
  refine .look h fun t p₁ h₁ htoken => ?_
  obtain ⟨kind, start, stop⟩ := t
  obtain ⟨anchor, tag, tagMark, first, last⟩ := run
  cases kind with
  | anchor name =>
      cases anchor with
      | none => exact .taken h₁ htoken fun p₂ h₂ => .ok h₂
      | some name' => exact .ok h₁
  | tag handle suffix =>
      cases tag with
      | none => exact .taken h₁ htoken fun p₂ h₂ => .ok h₂
      | some tag' => exact .ok h₁
  | _ => exact .ok h₁

theorem resolveTag_matches (run : PropertyRun) (h : p.Agrees s) :
    Matches (outcome (resolveTag run) p) ((·, s) <$> s.resolveTag run) := by
  obtain ⟨anchor, tag, tagMark, start, stop⟩ := run
  cases tag with
  | none => exact .ok h
  | some tag =>
      obtain ⟨handle, suffix⟩ := tag
      cases handle with
      | none => exact .ok h
      | some handle =>
          unfold resolveTag EventStream.resolveTag
          dsimp only
          rw [outcome_bind, outcome_get, ok_bind, h.handles]
          dsimp only
          cases s.handles.lookup handle with
          | some expansion => exact .ok h
          | none => exact .error _

theorem content_matches (h : p.Agrees s) (block indentless : Bool) :
    Matches (outcome (content block indentless) p) (s.content block indentless) := by
  refine .bind (property_matches _ h) fun run p₁ s₁ h₁ => ?_
  refine .bind (property_matches run h₁) fun run p₂ s₂ h₂ => ?_
  refine .bind_pure (resolveTag_matches run h₂) fun tag p₃ _ h₃ => ?_
  refine .look h₃ fun t p₄ h₄ htoken => ?_
  obtain ⟨kind, start, stop⟩ := t
  cases kind with
  | scalar text style => exact .taken h₄ htoken fun p₅ h₅ => .pop h₅ fun p₆ h₆ => .ok h₆
  | flowSequenceStart => exact .expect h₄ fun p₅ h₅ => .ok h₅
  | flowMappingStart => exact .expect h₄ fun p₅ h₅ => .ok h₅
  | _ =>
      refine .ite (fun _ => .expect h₄ fun p₅ h₅ => .ok h₅) fun _ => ?_
      refine .ite (fun _ => .expect h₄ fun p₅ h₅ => .ok h₅) fun _ => ?_
      refine .ite (fun _ => .expect h₄ fun p₅ h₅ => .ok h₅) fun _ => ?_
      exact .ite (fun _ => .pop h₄ fun p₅ h₅ => .ok h₅) fun _ => .error _

theorem node_matches (h : p.Agrees s) (block indentless : Bool) :
    Matches (outcome (node block indentless) p) (s.node block indentless) := by
  refine .look h fun t p₁ h₁ htoken => ?_
  obtain ⟨kind, start, stop⟩ := t
  cases kind with
  | aliasOf name => exact .taken h₁ htoken fun p₂ h₂ => .pop h₂ fun p₃ h₃ => .ok h₃
  | _ => exact content_matches h₁ block indentless

theorem nodeUnless_matches (h : p.Agrees s) (token : Token) (stops : List TokenKind)
    (after : Expect) (block indentless : Bool) :
    Matches (outcome (nodeUnless token stops after block indentless) p)
      (s.nodeUnless token stops after block indentless) := by
  refine .kind h fun t p₁ h₁ _ => .ite (fun _ => ?_) fun _ => ?_
  · exact .expect h₁ fun p₂ h₂ => .ok h₂
  · exact .push h₁ fun p₂ h₂ => node_matches h₂ block indentless

/-! ### Documents -/

theorem length_skip_lt {n : Nat} (htoken : s.token = .ok t) (hn : s.tokens.items.length < n + 1) :
    s.skip.tokens.items.length < n := by
  obtain ⟨rest, hitems⟩ := EventStream.token_eq_ok_iff.mp htoken
  have hskip : s.skip.tokens.items = rest := congrArg List.tail hitems
  rw [hitems, List.length_cons] at hn
  rw [hskip]
  omega

theorem skipDocumentEndsFor_matches {n : Nat} (h : p.Agrees s) (hn : s.tokens.items.length < n) :
    Matches (outcome (skipDocumentEndsFor n) p) s.skipDocumentEnds.supplied := by
  induction n generalizing p s with
  | zero => omega
  | succ n ih =>
      rw [s.supplied_skipDocumentEnds]
      refine .look h fun t p₁ h₁ htoken => .ite (fun _ => ?_) fun _ => .ok h₁
      exact .taken h₁ htoken fun p₂ h₂ => ih h₂ (length_skip_lt htoken hn)

theorem directivesFor_matches {n : Nat} (run : DirectiveRun) (h : p.Agrees s)
    (hn : s.tokens.items.length < n) :
    Matches (outcome (directivesFor n run) p) (s.directiveLines run) := by
  induction n generalizing p s run with
  | zero => omega
  | succ n ih =>
      rw [s.directiveLines_eq]
      refine .look h fun t p₁ h₁ htoken => .ite (fun _ => ?_) fun _ => .ok h₁
      refine .taken h₁ htoken fun p₂ h₂ => ?_
      cases directive run t with
      | error d => exact .error d
      | ok run => exact ih run h₂ (length_skip_lt htoken hn)

theorem Agrees.length_lt (h : p.Agrees s) : s.tokens.items.length < p.tokens.budget + 1 :=
  Nat.lt_succ_of_le (TokenStream.length_le_budget h.tokens h.based)

theorem directives_matches (h : p.Agrees s) :
    Matches (outcome directives p) (s.directives >>= EventStream.supplied) := by
  rw [s.directives_supplied]
  unfold directives
  rw [outcome_bind, outcome_get, ok_bind]
  refine .bind (directivesFor_matches _ h (Agrees.length_lt h)) fun run p₁ s₁ h₁ => ?_
  exact .ok { h₁ with handles := rfl }

theorem streamStep_matches (h : p.Agrees s) : Matches (outcome streamStep p) s.streamStep :=
  .take h fun _ _ h₁ _ => .expect h₁ fun _ h₂ => .ok h₂

theorem explicitDocumentStep_matches (h : p.Agrees s) :
    Matches (outcome explicitDocumentStep p) s.explicitDocumentStep := by
  unfold explicitDocumentStep EventStream.explicitDocumentStep
  rw [outcome_bind, outcome_get, ok_bind]
  refine .supplied (skipDocumentEndsFor_matches h (Agrees.length_lt h)) fun p₁ h₁ => ?_
  refine .look h₁ fun first p₂ h₂ hfirst => .ite (fun _ => ?_) fun _ => ?_
  · exact .taken h₂ hfirst fun p₃ h₃ => .ok { h₃ with state := rfl }
  · refine .bind_supplied (directives_matches h₂) fun p₃ s₃ h₃ => ?_
    refine .look h₃ fun t p₄ h₄ htoken => .ite (fun _ => ?_) fun _ => .error _
    exact .taken h₄ htoken fun p₅ h₅ => .push h₅ fun p₆ h₆ => .expect h₆ fun p₇ h₇ => .ok h₇

theorem implicitDocumentStep_matches (h : p.Agrees s) :
    Matches (outcome implicitDocumentStep p) s.implicitDocumentStep := by
  refine .look h fun t p₁ h₁ _ => .ite (fun _ => explicitDocumentStep_matches h₁) fun _ => ?_
  exact .ok { h₁ with
    state := rfl
    pending := congrArg _ h₁.pending
    handles := rfl }

theorem documentEndStep_matches (h : p.Agrees s) :
    Matches (outcome documentEndStep p) s.documentEndStep := by
  refine .look h fun t p₁ h₁ htoken => .ite (fun _ => ?_) fun _ => ?_
  · exact .taken h₁ htoken fun p₂ h₂ => .expect h₂ fun p₃ h₃ => .ok h₃
  · exact .expect h₁ fun p₂ h₂ => .ok h₂

theorem documentContentStep_matches (h : p.Agrees s) :
    Matches (outcome documentContentStep p) s.documentContentStep := by
  refine .look h fun t p₁ h₁ _ => .ite (fun _ => ?_) fun _ => node_matches h₁ true false
  exact .pop h₁ fun p₂ h₂ => .ok h₂

/-! ### Collections -/

theorem blockSequenceStep_matches (h : p.Agrees s) :
    Matches (outcome blockSequenceStep p) s.blockSequenceStep := by
  refine .look h fun t p₁ h₁ htoken => .ite (fun _ => ?_) fun _ => .ite (fun _ => ?_) fun _ => ?_
  · exact .taken h₁ htoken fun p₂ h₂ => nodeUnless_matches h₂ _ _ _ _ _
  · exact .taken h₁ htoken fun p₂ h₂ => .close h₂ fun p₃ h₃ => .ok h₃
  · exact unexpected_matches h₁ _ _ _

theorem indentlessStep_matches (h : p.Agrees s) :
    Matches (outcome indentlessStep p) s.indentlessStep := by
  refine .look h fun t p₁ h₁ htoken => .ite (fun _ => ?_) fun _ => ?_
  · exact .taken h₁ htoken fun p₂ h₂ => nodeUnless_matches h₂ _ _ _ _ _
  · exact .pop h₁ fun p₂ h₂ => .ok h₂

theorem blockKeyStep_matches (h : p.Agrees s) :
    Matches (outcome blockKeyStep p) s.blockKeyStep := by
  refine .look h fun t p₁ h₁ htoken => .ite (fun _ => ?_) fun _ => .ite (fun _ => ?_) fun _ => ?_
  · exact .taken h₁ htoken fun p₂ h₂ => nodeUnless_matches h₂ _ _ _ _ _
  · exact .taken h₁ htoken fun p₂ h₂ => .close h₂ fun p₃ h₃ => .ok h₃
  · exact unexpected_matches h₁ _ _ _

/-- The three kinds of values differ only in what ends them and what follows. -/
theorem valueStep_matches (h : p.Agrees s) (stops : List TokenKind) (after : Expect)
    (block : Bool) :
    Matches (outcome (valueStep stops after block) p) (do
      let token ← s.token
      if token.kind == .value then s.skip.nodeUnless token stops after block block
      else return (.empty token.start, s.expect after)) := by
  refine .look h fun t p₁ h₁ htoken => .ite (fun _ => ?_) fun _ => ?_
  · exact .taken h₁ htoken fun p₂ h₂ => nodeUnless_matches h₂ _ _ _ _ _
  · exact .expect h₁ fun p₂ h₂ => .ok h₂

theorem flowComma_matches (h : p.Agrees s) (htoken : s.token = .ok t) (first : Bool)
    (context : Activity) (problem : String → Problem) :
    Matches (outcome (flowComma first context problem) p)
      (((), ·) <$> s.flowComma first context problem) := by
  unfold EventStream.flowComma
  rw [htoken, ok_bind]
  cases first with
  | true => exact .ok h
  | false =>
      refine .looked h htoken fun p₁ h₁ => ?_
      change Matches (outcome (if t.kind == .flowEntry then _ else _) p₁)
        (((), ·) <$> if t.kind == .flowEntry then _ else _)
      split_ifs
      · exact .taken h₁ htoken fun p₂ h₂ => .ok h₂
      · exact unexpected_matches h₁ _ _ _

theorem flowEnd_matches (h : p.Agrees s) (kind : EventKind) :
    Matches (outcome (flowEnd kind) p) (do
      let token ← s.token
      return (⟨kind, token.start, token.stop⟩, s.skip.close)) :=
  .take h fun _ _ h₁ _ => .close h₁ fun _ h₂ => .ok h₂

theorem flowSequenceStep_matches (h : p.Agrees s) (first : Bool) :
    Matches (outcome (flowSequenceStep first) p) (s.flowSequenceStep first) := by
  refine .kind h fun t p₁ h₁ htoken => .ite (fun _ => flowEnd_matches h₁ _) fun _ => ?_
  refine .bind_unit (flowComma_matches h₁ htoken _ _ _) fun p₂ s₂ h₂ => ?_
  refine .look h₂ fun t p₃ h₃ htoken => .ite (fun _ => ?_) fun _ => .ite (fun _ => ?_) fun _ => ?_
  · exact .expect h₃ fun p₄ h₄ => .ok h₄
  · exact flowEnd_matches h₃ _
  · exact .push h₃ fun p₄ h₄ => node_matches h₄ false false

theorem pairKeyStep_matches (h : p.Agrees s) : Matches (outcome pairKeyStep p) s.pairKeyStep :=
  .take h fun _ _ h₁ _ => nodeUnless_matches h₁ _ _ _ _ _

theorem pairEndStep_matches (h : p.Agrees s) : Matches (outcome pairEndStep p) s.pairEndStep :=
  .expect h fun _ h₁ => .look (s := s.expect .flowSequenceEntry) h₁ fun _ _ h₂ _ => .ok h₂

theorem flowKeyStep_matches (h : p.Agrees s) (first : Bool) :
    Matches (outcome (flowKeyStep first) p) (s.flowKeyStep first) := by
  refine .kind h fun t p₁ h₁ htoken => .ite (fun _ => flowEnd_matches h₁ _) fun _ => ?_
  refine .bind_unit (flowComma_matches h₁ htoken _ _ _) fun p₂ s₂ h₂ => ?_
  refine .look h₂ fun t p₃ h₃ htoken => .ite (fun _ => ?_) fun _ => .ite (fun _ => ?_) fun _ => ?_
  · exact .taken h₃ htoken fun p₄ h₄ => nodeUnless_matches h₄ _ _ _ _ _
  · exact flowEnd_matches h₃ _
  · exact .push h₃ fun p₄ h₄ => node_matches h₄ false false

theorem flowNoValueStep_matches (h : p.Agrees s) :
    Matches (outcome flowNoValueStep p) s.flowNoValueStep :=
  .expect h fun _ h₁ => .look (s := s.expect .flowMappingKey) h₁ fun _ _ h₂ _ => .ok h₂

theorem opened_matches (h : p.Agrees s) : Matches (outcome opened p) (((), ·) <$> s.opened) := by
  have hopened : (((), ·) <$> s.opened : Except Diagnostic (Unit × EventStream)) =
      s.token >>= fun t => .ok ((), s.skip.openAt t.start) := by
    unfold EventStream.opened
    cases s.token <;> rfl
  rw [hopened]
  refine .take h fun t p₁ h₁ _ => .ok { h₁ with openMarks := congrArg _ h₁.openMarks }

/-! ### Calls -/

theorem step_matches (h : p.Agrees s) (e : Expect) : Matches (outcome (step e) p) (s.step e) := by
  cases e with
  | streamStart => exact streamStep_matches h
  | implicitDocumentStart => exact implicitDocumentStep_matches h
  | documentStart => exact explicitDocumentStep_matches h
  | documentContent => exact documentContentStep_matches h
  | documentEnd => exact documentEndStep_matches h
  | blockNode => exact node_matches h true false
  | blockSequenceFirst =>
      exact .bind_unit (opened_matches h) fun _ _ h₁ => blockSequenceStep_matches h₁
  | blockSequenceEntry => exact blockSequenceStep_matches h
  | indentlessEntry => exact indentlessStep_matches h
  | blockMappingFirst => exact .bind_unit (opened_matches h) fun _ _ h₁ => blockKeyStep_matches h₁
  | blockMappingKey => exact blockKeyStep_matches h
  | blockMappingValue => exact valueStep_matches h _ _ _
  | flowSequenceFirst =>
      exact .bind_unit (opened_matches h) fun _ _ h₁ => flowSequenceStep_matches h₁ true
  | flowSequenceEntry => exact flowSequenceStep_matches h false
  | pairKey => exact pairKeyStep_matches h
  | pairValue => exact valueStep_matches h _ _ _
  | pairEnd => exact pairEndStep_matches h
  | flowMappingFirst =>
      exact .bind_unit (opened_matches h) fun _ _ h₁ => flowKeyStep_matches h₁ true
  | flowMappingKey => exact flowKeyStep_matches h false
  | flowMappingValue => exact valueStep_matches h _ _ _
  | flowMappingNoValue => exact flowNoValueStep_matches h

theorem peek_matches (h : p.Agrees s) : Matches (outcome peek p) s.peek := by
  unfold peek EventStream.peek
  rw [outcome_bind, outcome_get, ok_bind]
  dsimp only
  rw [h.ready, h.state]
  cases s.ready with
  | some event => exact .ok h
  | none =>
      cases s.state with
      | none => exact .ok h
      | some e =>
          refine .bind (step_matches h e) fun event p₁ s₁ h₁ => ?_
          exact .ok { h₁ with ready := rfl }

theorem next_matches (h : p.Agrees s) : Matches (outcome next p) s.next :=
  .bind (peek_matches h) fun _ _ _ h₁ => .ok { h₁ with ready := rfl }

end Parse

/-- At the start of a text the parser has all its tokens before it. -/
theorem Parser.start_agrees (text : List Char) : (start text).Agrees (.ofText text) where
  tokens := TokenStream.start_supplies text
  based := TokenStream.based_start text
  state := rfl
  pending := rfl
  openMarks := rfl
  handles := rfl
  ready := rfl

end Playbook
