import Playbook.Proofs.EventRun

/-!
Runs of the event machine over a known stretch of tokens. What the machine does with a node depends
only on the tokens before it, and it goes on with what was put off.
-/

namespace Playbook

namespace EventStream

/-! ### Composing runs -/

theorem Reaches.trans {s s' s'' : EventStream} {events events' : List Event}
    (h : s.Reaches events s') (h' : s'.Reaches events' s'') :
    s.Reaches (events ++ events') s'' := by
  induction h' with
  | start => rwa [List.append_nil]
  | next _ hnext ih =>
      rw [← List.append_assoc]
      exact ih.next hnext

theorem Reaches.single {s s' : EventStream} {event : Event}
    (hnext : s.next = .ok (some event, s')) : s.Reaches [event] s' :=
  Reaches.start.next hnext

theorem Reaches.cases_head {s s' : EventStream} {events : List Event} (h : s.Reaches events s') :
    events = [] ∧ s' = s ∨ ∃ event more s₁, events = event :: more ∧
      s.next = .ok (some event, s₁) ∧ s₁.Reaches more s' := by
  induction h with
  | start => exact Or.inl ⟨rfl, rfl⟩
  | next _ hnext ih =>
      rcases ih with ⟨rfl, rfl⟩ | ⟨event, more, s₁, rfl, hfirst, hmore⟩
      · exact Or.inr ⟨_, [], _, rfl, hnext, .start⟩
      · exact Or.inr ⟨event, _, s₁, rfl, hfirst, hmore.next hnext⟩

theorem Reaches.load {s s' : EventStream} {events : List Event} (h : s.Reaches events s')
    (hsteady : s.Steady) : events.length + s'.load ≤ s.load := by
  induction h with
  | start => simp
  | next hreaches hnext ih =>
      have hload := ((hreaches.steady hsteady).1.next hnext).2.1
      rw [List.length_append, List.length_singleton]
      omega

/-- A run to the end is what is collected. -/
theorem collect_of_reaches {n : Nat} {s s' : EventStream} {events : List Event}
    (h : s.Reaches events s') (hlast : s'.next = .ok (none, s')) (hn : events.length < n) :
    s.collect n = ⟨events, none⟩ := by
  induction n generalizing s events with
  | zero => omega
  | succ n ih =>
      rcases h.cases_head with ⟨rfl, rfl⟩ | ⟨event, more, s₁, rfl, hfirst, hmore⟩
      · simp [collect, hlast]
      · have hmore := ih hmore (by simpa using hn)
        simp [collect, hfirst, hmore, Feed.cons]

/-! ### Where a machine stands -/

/-- The machine stands before the given tokens and goes on with the given expectations, the next
one first. -/
structure Awaits (s : EventStream) (tokens : List TokenKind) (stack : List Expect) : Prop where
  tokens : s.tokens.items.map Token.kind = tokens
  state : s.state = stack.head?
  pending : s.pending = stack.tail
  ready : s.ready = none

/-- The machine stands before the given tokens in the middle of a step, and goes on with the given
expectations after it. -/
structure Before (s : EventStream) (tokens : List TokenKind) (stack : List Expect) : Prop where
  tokens : s.tokens.items.map Token.kind = tokens
  pending : s.pending = stack

/-- The machine hands out events of the given kinds and stands where it is said then. -/
def Runs (s : EventStream) (kinds : List EventKind) (tokens : List TokenKind)
    (stack : List Expect) : Prop :=
  ∃ events s', s.Reaches events s' ∧ events.map Event.kind = kinds ∧ s'.Awaits tokens stack

/-- As `Runs`, from the middle of a step. -/
def StepRuns (x : Step) (kinds : List EventKind) (tokens : List TokenKind) (stack : List Expect) :
    Prop :=
  ∃ event s₁ more, x = .ok (event, s₁) ∧ kinds = event.kind :: more ∧
    Runs { s₁ with ready := none } more tokens stack

section Runs

variable {s : EventStream} {x : Step} {kinds kinds' : List EventKind}
  {tokens tokens' : List TokenKind} {stack stack' : List Expect}

theorem Awaits.runs (hs : s.Awaits tokens stack) : s.Runs [] tokens stack :=
  ⟨[], s, .start, rfl, hs⟩

theorem Runs.trans (h : s.Runs kinds tokens stack)
    (h' : ∀ s' : EventStream, s'.Awaits tokens stack → s'.Runs kinds' tokens' stack') :
    s.Runs (kinds ++ kinds') tokens' stack' := by
  obtain ⟨events, s', hreaches, rfl, hs'⟩ := h
  obtain ⟨events', s'', hreaches', rfl, hs''⟩ := h' s' hs'
  exact ⟨events ++ events', s'', hreaches.trans hreaches', List.map_append, hs''⟩

theorem StepRuns.trans (h : StepRuns x kinds tokens stack)
    (h' : ∀ s' : EventStream, s'.Awaits tokens stack → s'.Runs kinds' tokens' stack') :
    StepRuns x (kinds ++ kinds') tokens' stack' := by
  obtain ⟨event, s₁, more, hx, rfl, hruns⟩ := h
  exact ⟨event, s₁, more ++ kinds', hx, rfl, hruns.trans h'⟩

theorem StepRuns.of_ok {event : Event} {s₁ : EventStream} {kind : EventKind}
    (hx : x = .ok (event, s₁)) (hkind : event.kind = kind) (hruns : Runs { s₁ with ready := none } kinds tokens stack) :
    StepRuns x (kind :: kinds) tokens stack :=
  ⟨event, s₁, kinds, hx, by rw [hkind], hruns⟩

theorem Awaits.runs_step {e : Expect} (hs : s.Awaits tokens' (e :: stack'))
    (h : StepRuns (s.step e) kinds tokens stack) : s.Runs kinds tokens stack := by
  obtain ⟨event, s₁, more, hx, rfl, events, s', hreaches, rfl, hs'⟩ := h
  have hnext : s.next = .ok (some event, { s₁ with ready := none }) := by
    rw [next_of_state_some hs.ready hs.state, hx]
    rfl
  exact ⟨event :: events, s', (Reaches.single hnext).trans hreaches, rfl, hs'⟩

theorem Awaits.before {e : Expect} (hs : s.Awaits tokens (e :: stack)) : s.Before tokens stack :=
  ⟨hs.tokens, hs.pending⟩

/-! ### Tokens -/

theorem Before.token {kind : TokenKind} (hs : s.Before (kind :: tokens) stack) :
    ∃ start stop, s.token = .ok ⟨kind, start, stop⟩ ∧ s.skip.Before tokens stack := by
  have htokens := hs.tokens
  cases hitems : s.tokens.items with
  | nil => simp [hitems] at htokens
  | cons token items =>
      obtain ⟨kind', start, stop⟩ := token
      rw [hitems] at htokens
      obtain ⟨rfl, hrest⟩ := List.cons.inj htokens
      refine ⟨start, stop, ?_, ?_, hs.pending⟩
      · simp [EventStream.token, hitems]
      · simp only [skip, hitems, List.tail_cons]
        exact hrest

theorem Before.pop (hs : s.Before tokens stack) :
    Awaits { s.pop with ready := none } tokens stack :=
  ⟨hs.tokens, congrArg List.head? hs.pending, congrArg List.tail hs.pending, rfl⟩

theorem Before.close (hs : s.Before tokens stack) :
    Awaits { s.close with ready := none } tokens stack :=
  ⟨hs.tokens, congrArg List.head? hs.pending, congrArg List.tail hs.pending, rfl⟩

theorem Before.expect (hs : s.Before tokens stack) (e : Expect) :
    Awaits { s.expect e with ready := none } tokens (e :: stack) :=
  ⟨hs.tokens, rfl, hs.pending, rfl⟩

theorem Before.push (hs : s.Before tokens stack) (e : Expect) :
    (s.push e).Before tokens (e :: stack) :=
  ⟨hs.tokens, congrArg (e :: ·) hs.pending⟩

/-- The token that opens a collection is read with its first entry. -/
theorem opened_runs {kind : TokenKind} {f : EventStream → Step}
    (hs : s.Before (kind :: tokens) stack)
    (h : ∀ s' : EventStream, s'.Before tokens stack → StepRuns (f s') kinds tokens' stack') :
    StepRuns (s.opened >>= f) kinds tokens' stack' := by
  obtain ⟨start, stop, htoken, hskip⟩ := hs.token
  have hopened : s.opened = .ok (s.skip.openAt start) := by
    rw [opened, htoken]
    rfl
  rw [hopened, ok_bind]
  exact h _ ⟨hskip.tokens, hskip.pending⟩

/-! ### Nodes -/

/-- What the machine does with the node that comes next. -/
def NodeRuns (block indentless : Bool) (tokens : List TokenKind) (stack : List Expect)
    (kinds : List EventKind) (tokens' : List TokenKind) (stack' : List Expect) : Prop :=
  ∀ s : EventStream, s.Before tokens stack →
    StepRuns (s.node block indentless) kinds tokens' stack'

theorem NodeRuns.trans {block indentless : Bool} {tokens'' : List TokenKind}
    {stack'' : List Expect} (h : NodeRuns block indentless tokens stack kinds tokens' stack')
    (h' : ∀ s' : EventStream, s'.Awaits tokens' stack' → s'.Runs kinds' tokens'' stack'') :
    NodeRuns block indentless tokens stack (kinds ++ kinds') tokens'' stack'' := by
  intro s hs
  exact (h s hs).trans h'

theorem node_scalar (text : String) (style : Style) (block indentless : Bool) :
    NodeRuns block indentless (.scalar text style :: tokens) stack
      [.scalar .none (style == .plain) text style] tokens stack := by
  intro s hs
  obtain ⟨start, stop, htoken, hskip⟩ := hs.token
  have hnode : s.node block indentless =
      .ok (⟨.scalar .none (style == .plain) text style, start, stop⟩, s.skip.pop) := by
    simp [node, content, property, htoken, resolveTag, Properties.none]
  exact StepRuns.of_ok hnode rfl hskip.pop.runs

/-- A token that opens a collection, the event of it and what is expected inside. -/
inductive Opens (block : Bool) : TokenKind → EventKind → Expect → Prop
  | flowSequence : Opens block .flowSequenceStart (.sequenceStart .none true) .flowSequenceFirst
  | flowMapping : Opens block .flowMappingStart (.mappingStart .none true) .flowMappingFirst
  | blockSequence (hblock : block = true) :
      Opens block .blockSequenceStart (.sequenceStart .none false) .blockSequenceFirst
  | blockMapping (hblock : block = true) :
      Opens block .blockMappingStart (.mappingStart .none false) .blockMappingFirst

theorem node_opens {kind : TokenKind} {event : EventKind} {e : Expect} {block : Bool}
    (hopens : Opens block kind event e) (indentless : Bool) :
    NodeRuns block indentless (kind :: tokens) stack [event] (kind :: tokens) (e :: stack) := by
  intro s hs
  obtain ⟨start, stop, htoken, -⟩ := hs.token
  have hnode : ∃ stop', s.node block indentless = .ok (⟨event, start, stop'⟩, s.expect e) := by
    cases hopens with
    | flowSequence => exact ⟨stop, by simp [node, content, property, htoken, resolveTag, Properties.none]⟩
    | flowMapping => exact ⟨stop, by simp [node, content, property, htoken, resolveTag, Properties.none]⟩
    | blockSequence hblock =>
        exact ⟨start, by simp [node, content, property, htoken, resolveTag, Properties.none, hblock]⟩
    | blockMapping hblock =>
        exact ⟨start, by simp [node, content, property, htoken, resolveTag, Properties.none, hblock]⟩
  obtain ⟨stop', hnode⟩ := hnode
  exact StepRuns.of_ok hnode rfl (hs.expect e).runs

/-- The tokens that a node without properties begins with. -/
def startsNode : TokenKind → Bool
  | .scalar .. | .flowSequenceStart | .flowMappingStart | .blockSequenceStart
  | .blockMappingStart => true
  | _ => false

theorem startsNode_ne {kind : TokenKind} (h : startsNode kind = true) (kind' : TokenKind)
    (h' : startsNode kind' = false) : kind ≠ kind' := by
  rintro rfl
  rw [h] at h'
  cases h'

/-- A node comes next. -/
def NodeFirst (tokens : List TokenKind) : Prop :=
  ∃ kind more, tokens = kind :: more ∧ startsNode kind = true

theorem Before.kind {kind : TokenKind} (hs : s.Before (kind :: tokens) stack) :
    s.kind = .ok kind := by
  obtain ⟨start, stop, htoken, -⟩ := hs.token
  rw [EventStream.kind, htoken]
  rfl

theorem nodeUnless_runs {stops : List TokenKind} {after : Expect} {block indentless : Bool}
    (hs : s.Before tokens stack) (hfirst : NodeFirst tokens)
    (hstops : stops.all (fun stop => !startsNode stop) = true)
    (hnode : NodeRuns block indentless tokens (after :: stack) kinds tokens' stack')
    (token : Token) :
    StepRuns (s.nodeUnless token stops after block indentless) kinds tokens' stack' := by
  obtain ⟨kind, more, rfl, hkind⟩ := hfirst
  have hcontains : stops.contains kind = false := by
    rw [List.contains_eq_mem, decide_eq_false_iff_not]
    intro hmem
    have hstop := List.all_eq_true.mp hstops kind hmem
    rw [hkind] at hstop
    cases hstop
  have hunless : s.nodeUnless token stops after block indentless =
      (s.push after).node block indentless := by
    rw [nodeUnless, hs.kind, ok_bind, hcontains]
    rfl
  rw [hunless]
  exact hnode _ (hs.push after)

/-! ### Flow collections -/

theorem flowSequenceStep_end (hs : s.Before (.flowSequenceEnd :: tokens) stack) (first : Bool) :
    StepRuns (s.flowSequenceStep first) [.sequenceEnd] tokens stack := by
  obtain ⟨start, stop, htoken, hskip⟩ := hs.token
  have hstep : s.flowSequenceStep first = .ok (⟨.sequenceEnd, start, stop⟩, s.skip.close) := by
    simp [flowSequenceStep, hs.kind, flowSequenceEnd, htoken]
  exact StepRuns.of_ok hstep rfl hskip.close.runs

theorem flowSequenceStep_first (hs : s.Before tokens stack) (hfirst : NodeFirst tokens)
    (hnode : NodeRuns false false tokens (.flowSequenceEntry :: stack) kinds tokens' stack') :
    StepRuns (s.flowSequenceStep true) kinds tokens' stack' := by
  obtain ⟨kind, more, rfl, hkind⟩ := hfirst
  obtain ⟨start, stop, htoken, -⟩ := hs.token
  have hstep : s.flowSequenceStep true = (s.push .flowSequenceEntry).node false false := by
    simp [flowSequenceStep, hs.kind, flowComma, htoken, startsNode_ne hkind .flowSequenceEnd rfl,
      startsNode_ne hkind .key rfl]
  rw [hstep]
  exact hnode _ (hs.push _)

theorem flowSequenceStep_entry (hs : s.Before (.flowEntry :: tokens) stack)
    (hfirst : NodeFirst tokens)
    (hnode : NodeRuns false false tokens (.flowSequenceEntry :: stack) kinds tokens' stack') :
    StepRuns (s.flowSequenceStep false) kinds tokens' stack' := by
  obtain ⟨kind, more, rfl, hkind⟩ := hfirst
  obtain ⟨start, stop, htoken, hskip⟩ := hs.token
  obtain ⟨start', stop', htoken', -⟩ := hskip.token
  have hstep : s.flowSequenceStep false = (s.skip.push .flowSequenceEntry).node false false := by
    simp [flowSequenceStep, hs.kind, flowComma, htoken, htoken',
      startsNode_ne hkind .flowSequenceEnd rfl, startsNode_ne hkind .key rfl]
  rw [hstep]
  exact hnode _ (hskip.push _)

theorem flowKeyStep_end (hs : s.Before (.flowMappingEnd :: tokens) stack) (first : Bool) :
    StepRuns (s.flowKeyStep first) [.mappingEnd] tokens stack := by
  obtain ⟨start, stop, htoken, hskip⟩ := hs.token
  have hstep : s.flowKeyStep first = .ok (⟨.mappingEnd, start, stop⟩, s.skip.close) := by
    simp [flowKeyStep, hs.kind, flowMappingEnd, htoken]
  exact StepRuns.of_ok hstep rfl hskip.close.runs

theorem flowKeyStep_first (hs : s.Before (.key :: tokens) stack) (hfirst : NodeFirst tokens)
    (hnode : NodeRuns false false tokens (.flowMappingValue :: stack) kinds tokens' stack') :
    StepRuns (s.flowKeyStep true) kinds tokens' stack' := by
  obtain ⟨start, stop, htoken, hskip⟩ := hs.token
  have hstep : s.flowKeyStep true = s.skip.nodeUnless ⟨.key, start, stop⟩
      [.value, .flowEntry, .flowMappingEnd] .flowMappingValue false false := by
    simp [flowKeyStep, hs.kind, flowComma, htoken]
  rw [hstep]
  exact nodeUnless_runs hskip hfirst rfl hnode _

theorem flowKeyStep_entry (hs : s.Before (.flowEntry :: .key :: tokens) stack)
    (hfirst : NodeFirst tokens)
    (hnode : NodeRuns false false tokens (.flowMappingValue :: stack) kinds tokens' stack') :
    StepRuns (s.flowKeyStep false) kinds tokens' stack' := by
  obtain ⟨start, stop, htoken, hskip⟩ := hs.token
  obtain ⟨start', stop', htoken', hskip'⟩ := hskip.token
  have hstep : s.flowKeyStep false = s.skip.skip.nodeUnless ⟨.key, start', stop'⟩
      [.value, .flowEntry, .flowMappingEnd] .flowMappingValue false false := by
    simp [flowKeyStep, hs.kind, flowComma, htoken, htoken']
  rw [hstep]
  exact nodeUnless_runs hskip' hfirst rfl hnode _

theorem flowValueStep_runs (hs : s.Before (.value :: tokens) stack) (hfirst : NodeFirst tokens)
    (hnode : NodeRuns false false tokens (.flowMappingKey :: stack) kinds tokens' stack') :
    StepRuns s.flowValueStep kinds tokens' stack' := by
  obtain ⟨start, stop, htoken, hskip⟩ := hs.token
  have hstep : s.flowValueStep = s.skip.nodeUnless ⟨.value, start, stop⟩
      [.flowEntry, .flowMappingEnd] .flowMappingKey false false := by
    simp [flowValueStep, htoken]
  rw [hstep]
  exact nodeUnless_runs hskip hfirst rfl hnode _

/-! ### Block collections -/

theorem blockSequenceStep_end (hs : s.Before (.blockEnd :: tokens) stack) :
    StepRuns s.blockSequenceStep [.sequenceEnd] tokens stack := by
  obtain ⟨start, stop, htoken, hskip⟩ := hs.token
  have hstep : s.blockSequenceStep = .ok (⟨.sequenceEnd, start, stop⟩, s.skip.close) := by
    simp [blockSequenceStep, htoken]
  exact StepRuns.of_ok hstep rfl hskip.close.runs

theorem blockSequenceStep_entry (hs : s.Before (.blockEntry :: tokens) stack)
    (hfirst : NodeFirst tokens)
    (hnode : NodeRuns true false tokens (.blockSequenceEntry :: stack) kinds tokens' stack') :
    StepRuns s.blockSequenceStep kinds tokens' stack' := by
  obtain ⟨start, stop, htoken, hskip⟩ := hs.token
  have hstep : s.blockSequenceStep = s.skip.nodeUnless ⟨.blockEntry, start, stop⟩
      [.blockEntry, .blockEnd] .blockSequenceEntry true false := by
    simp [blockSequenceStep, htoken]
  rw [hstep]
  exact nodeUnless_runs hskip hfirst rfl hnode _

theorem blockKeyStep_end (hs : s.Before (.blockEnd :: tokens) stack) :
    StepRuns s.blockKeyStep [.mappingEnd] tokens stack := by
  obtain ⟨start, stop, htoken, hskip⟩ := hs.token
  have hstep : s.blockKeyStep = .ok (⟨.mappingEnd, start, stop⟩, s.skip.close) := by
    simp [blockKeyStep, htoken]
  exact StepRuns.of_ok hstep rfl hskip.close.runs

theorem blockKeyStep_entry (hs : s.Before (.key :: tokens) stack) (hfirst : NodeFirst tokens)
    (hnode : NodeRuns true true tokens (.blockMappingValue :: stack) kinds tokens' stack') :
    StepRuns s.blockKeyStep kinds tokens' stack' := by
  obtain ⟨start, stop, htoken, hskip⟩ := hs.token
  have hstep : s.blockKeyStep = s.skip.nodeUnless ⟨.key, start, stop⟩
      [.key, .value, .blockEnd] .blockMappingValue true true := by
    simp [blockKeyStep, htoken]
  rw [hstep]
  exact nodeUnless_runs hskip hfirst rfl hnode _

theorem blockValueStep_runs (hs : s.Before (.value :: tokens) stack) (hfirst : NodeFirst tokens)
    (hnode : NodeRuns true true tokens (.blockMappingKey :: stack) kinds tokens' stack') :
    StepRuns s.blockValueStep kinds tokens' stack' := by
  obtain ⟨start, stop, htoken, hskip⟩ := hs.token
  have hstep : s.blockValueStep = s.skip.nodeUnless ⟨.value, start, stop⟩
      [.key, .value, .blockEnd] .blockMappingKey true true := by
    simp [blockValueStep, htoken]
  rw [hstep]
  exact nodeUnless_runs hskip hfirst rfl hnode _

end Runs

end EventStream

end Playbook
