import Playbook.Proofs.EventInvariant

/-!
One step of the event machine. From a sound machine each state yields one event, after which the
machine is sound again, what it still has to yield completes the event to what it had to yield
before, and less work is left.
-/

namespace Playbook

namespace EventStream

open EventGrammar

/-- What holds after a node, or the start of one, has been read in front of `s.pending`. -/
structure NodeYields (s : EventStream) (event : Event) (s' : EventStream) : Prop where
  rest : ∀ w, StackRest s'.stack w → NodeThen (StackRest s.pending) (event :: w)
  load : s'.load < 4 * s.tokens.items.length + stackWeight s.pending + 2
  fault : s'.tokens.fault = s.tokens.fault
  sound : Supplied s.tokens → Nested s.pending → s'.Sound

/-- The start of a collection, with its opening token still to be read. -/
theorem collection_yields {s : EventStream} {used rest : List Token} {t : Token} {event : Event}
    {next : Expect} (hpassed : s.Passed used (t :: rest)) (hkind : t.kind ≠ .streamEnd)
    (hrest : ∀ u v, Rest next u → StackRest s.pending v →
      NodeThen (StackRest s.pending) (event :: (u ++ v)))
    (hweight : weight next = 1) (houter : next ∉ outer) :
    NodeYields s event ((s.readTo (t :: rest)).expect next) := by
  constructor
  · rintro w ⟨u, v, hu, hv, rfl⟩
    exact hrest u v hu hv
  · change 4 * (t :: rest).length + (weight next + stackWeight s.pending) < _
    rw [hpassed.items, List.length_append, hweight]
    omega
  · rfl
  · intro hsupplied hnested
    exact .expect (hsupplied.passed hpassed) houter (fun _ => ⟨t, rest, rfl, hkind⟩) hnested

theorem NodeOutcome.yields {s s' : EventStream} {event : Event} (h : NodeOutcome s event s') :
    NodeYields s event s' := by
  cases h with
  | @leaf used rest _ hpassed hused hleaf =>
      constructor
      · intro w hw
        rw [stack_pop] at hw
        exact ⟨[event], w, hleaf, hw, rfl⟩
      · have hlength : 0 < used.length := List.length_pos_iff.mpr hused
        simp only [EventStream.load, stack_pop, hpassed.items, List.length_append]
        change 4 * rest.length + stackWeight s.pending < _
        omega
      · rfl
      · intro hsupplied hnested
        exact .pop (hsupplied.passed hpassed) hnested
  | sequence hpassed hkind props flow start stop hnext =>
      simp only [List.mem_cons, List.not_mem_nil, or_false] at hnext
      rcases hnext with rfl | rfl | rfl
      all_goals
        exact collection_yields hpassed hkind (fun _ _ => nodeThen_sequence) rfl (by decide)
  | mapping hpassed hkind props flow start stop hnext =>
      simp only [List.mem_cons, List.not_mem_nil, or_false] at hnext
      rcases hnext with rfl | rfl
      all_goals
        exact collection_yields hpassed hkind (fun _ _ => nodeThen_mapping) rfl (by decide)

theorem Nested.tail {e : Expect} {es : List Expect} (h : Nested (e :: es)) (he : e ∉ outer) :
    Nested es := by
  cases es with
  | nil =>
      cases h
      simp [outer] at he
  | cons f es => exact h.2.2

/-- A node that may be left out leads on to `after` in either case. -/
theorem nodeUnless_yields {s s' : EventStream} {token : Token} {stops : List TokenKind}
    {after : Expect} {block indentless : Bool} {event : Event}
    (houter : after ∉ outer) (hblind : after ∉ blind)
    (h : s.nodeUnless token stops after block indentless = .ok (event, s')) :
    NodeYields (s.push after) event s' := by
  unfold nodeUnless at h
  obtain ⟨kind, hkind, h⟩ := bind_eq_ok_iff.mp h
  split_ifs at h
  · cases h
    constructor
    · intro w hw
      exact ⟨[Event.empty token.stop], w, .scalar _ _ _ _ _ _, hw, rfl⟩
    · exact Nat.lt_add_of_pos_right (by decide)
    · rfl
    · intro hsupplied hnested
      exact .expect hsupplied houter (fun h => absurd h hblind) (hnested.tail houter)
  · exact (node_outcome h).yields

/-- What holds after a step from the state `e`, which may yield `room` events without reading a
token. -/
structure Yields (s : EventStream) (e : Expect) (room : Nat) (event : Event)
    (s' : EventStream) : Prop where
  rest : ∀ w, StackRest s'.stack w → StackRest (e :: s.pending) (event :: w)
  load : s'.load < 4 * s.tokens.items.length + room + stackWeight s.pending
  fault : s'.tokens.fault = s.tokens.fault
  sound : (s.expect e).Sound → s'.Sound

theorem stackWeight_cons (e : Expect) (es : List Expect) :
    stackWeight (e :: es) = weight e + stackWeight es := rfl

theorem Sound.supplied_expect {s : EventStream} {e : Expect} (h : (s.expect e).Sound) :
    Supplied s.tokens :=
  h.supplied (by simp [EventStream.expect])

/-- A step that reads some tokens, then a node, and goes on with `after`. -/
theorem NodeYields.step {s s' : EventStream} {e after : Expect} {room : Nat}
    {used rest : List Token} {event : Event} (hpassed : s.Passed used rest)
    (h : NodeYields ((s.readTo rest).push after) event s')
    (hrest : ∀ w, NodeThen (Rest after) w → Rest e w)
    (hroom : weight after + 2 ≤ 4 * used.length + room)
    (houter : e ∉ outer) (hafter : after ∉ outer) (hblind : after ∉ blind) :
    Yields s e room event s' := by
  constructor
  · intro w hw
    obtain ⟨head, tail, hhead, ⟨u, v, hu, hv, rfl⟩, hword⟩ := h.rest w hw
    exact ⟨head ++ u, v, hrest _ ⟨head, u, hhead, hu, rfl⟩, hv, by rw [hword, List.append_assoc]⟩
  · have hload := h.load
    change s'.load < 4 * rest.length + stackWeight (after :: s.pending) + 2 at hload
    rw [stackWeight_cons] at hload
    rw [hpassed.items, List.length_append]
    omega
  · exact h.fault
  · intro hsound
    have hnested : Nested s.pending := hsound.inside e rfl houter
    exact h.sound (hsound.supplied_expect.passed hpassed) (hnested.push hafter hblind)

/-- A step that ends a node and goes on with what was put off for it. -/
theorem pop_yields {s : EventStream} {e : Expect} {room : Nat} {used rest : List Token}
    {event : Event} {marks : List Mark} (hpassed : s.Passed used rest) (hrest : Rest e [event])
    (hroom : 0 < 4 * used.length + room) (houter : e ∉ outer) :
    Yields s e room event { (s.readTo rest).pop with openMarks := marks } := by
  constructor
  · intro w hw
    refine ⟨[event], w, hrest, ?_, rfl⟩
    rw [← stack_pop]
    exact hw
  · change 4 * rest.length + stackWeight s.pop.stack < _
    rw [stack_pop, hpassed.items, List.length_append]
    omega
  · rfl
  · intro hsound
    have hnested : Nested s.pending := hsound.inside e rfl houter
    have hpop : (s.readTo rest).pop.Sound := .pop (hsound.supplied_expect.passed hpassed) hnested
    exact ⟨hpop.supplied, hpop.opening, hpop.outside, hpop.inside, hpop.finished⟩

/-- A step that goes over to another state of the same node. -/
theorem expect_yields {s : EventStream} {e next : Expect} {room : Nat} {used rest : List Token}
    {event : Event} (hpassed : s.Passed used rest)
    (hrest : ∀ w, Rest next w → Rest e (event :: w))
    (hroom : weight next < 4 * used.length + room) (houter : e ∉ outer)
    (hnext : next ∉ outer) (hopening : next ∈ blind →
      ∃ t tail, rest = t :: tail ∧ t.kind ≠ .streamEnd) :
    Yields s e room event ((s.readTo rest).expect next) := by
  constructor
  · rintro w ⟨u, v, hu, hv, rfl⟩
    exact ⟨event :: u, v, hrest u hu, hv, rfl⟩
  · change 4 * rest.length + stackWeight (next :: s.pending) < _
    rw [stackWeight_cons, hpassed.items, List.length_append]
    omega
  · rfl
  · intro hsound
    have hnested : Nested s.pending := hsound.inside e rfl houter
    exact .expect (hsound.supplied_expect.passed hpassed) hnext hopening hnested

theorem Sound.ne_streamEnd {s : EventStream} {e : Expect} {t : Token} {rest : List Token}
    (h : (s.expect e).Sound) (he : e ∈ blind) (hitems : s.tokens.items = t :: rest) :
    t.kind ≠ .streamEnd := by
  obtain ⟨u, tail, hitems', hkind⟩ := h.opening e rfl he
  have hcons : u :: tail = t :: rest := hitems'.symm.trans hitems
  cases hcons
  exact hkind

/-- The step before a collection reads its opening token first. -/
theorem opened_yields {s s' : EventStream} {first entry : Expect} {room : Nat} {event : Event}
    {f : EventStream → Step}
    (hf : ∀ s₁, f s₁ = .ok (event, s') → Yields s₁ entry room event s')
    (hrest : Rest first = Rest entry) (hroom : room ≤ 4 + weight first)
    (hfirst : first ∈ blind) (houter : first ∉ outer)
    (hentry : entry ∉ outer) (hblind : entry ∉ blind)
    (h : s.opened >>= f = .ok (event, s')) : Yields s first (weight first) event s' := by
  obtain ⟨s₁, h₁, h⟩ := bind_eq_ok_iff.mp h
  unfold opened at h₁
  obtain ⟨t, ht, h₁⟩ := bind_eq_ok_iff.mp h₁
  obtain ⟨rest, hitems⟩ := token_eq_ok_iff.mp ht
  rw [skip_eq_readTo hitems] at h₁
  cases h₁
  have hyields := hf _ h
  constructor
  · intro w hw
    obtain ⟨u, v, hu, hv, hword⟩ := hyields.rest w hw
    exact ⟨u, v, by rwa [hrest], hv, hword⟩
  · have hload := hyields.load
    change s'.load < 4 * rest.length + room + stackWeight s.pending at hload
    rw [hitems, List.length_cons]
    omega
  · exact hyields.fault
  · intro hsound
    have hkind : t.kind ≠ .streamEnd := hsound.ne_streamEnd hfirst hitems
    apply hyields.sound
    exact .expect (hsound.supplied_expect.passed (.one hitems hkind)) hentry
      (fun h => absurd h hblind) (hsound.inside first rfl houter)

theorem ne_streamEnd {kind found : TokenKind} (h : (found == kind) = true)
    (hkind : kind ≠ .streamEnd) : found ≠ .streamEnd := by
  rw [beq_iff_eq] at h
  rwa [h]

theorem blockSequenceStep_yields {s s' : EventStream} {event : Event}
    (h : s.blockSequenceStep = .ok (event, s')) :
    Yields s .blockSequenceEntry 0 event s' := by
  unfold blockSequenceStep at h
  obtain ⟨t, ht, h⟩ := bind_eq_ok_iff.mp h
  obtain ⟨rest, hitems⟩ := token_eq_ok_iff.mp ht
  rw [skip_eq_readTo hitems] at h
  split_ifs at h with hentry hend
  · exact (nodeUnless_yields (by decide) (by decide) h).step
      (.one hitems (ne_streamEnd hentry (by decide)))
      (fun _ => sequenceRest_of_item) (by simp [weight]) (by decide) (by decide) (by decide)
  · cases h
    exact pop_yields (.one hitems (ne_streamEnd hend (by decide))) (sequenceRest_stop _ _)
      (by simp) (by decide)

theorem indentlessStep_yields {s s' : EventStream} {event : Event}
    (h : s.indentlessStep = .ok (event, s')) :
    Yields s .indentlessEntry 1 event s' := by
  unfold indentlessStep at h
  obtain ⟨t, ht, h⟩ := bind_eq_ok_iff.mp h
  obtain ⟨rest, hitems⟩ := token_eq_ok_iff.mp ht
  rw [skip_eq_readTo hitems] at h
  split_ifs at h with hentry
  · exact (nodeUnless_yields (by decide) (by decide) h).step
      (.one hitems (ne_streamEnd hentry (by decide)))
      (fun _ => sequenceRest_of_item) (by simp [weight]) (by decide) (by decide) (by decide)
  · cases h
    exact pop_yields (.still rfl) (sequenceRest_stop _ _) (by decide) (by decide)

theorem blockKeyStep_yields {s s' : EventStream} {event : Event}
    (h : s.blockKeyStep = .ok (event, s')) :
    Yields s .blockMappingKey 0 event s' := by
  unfold blockKeyStep at h
  obtain ⟨t, ht, h⟩ := bind_eq_ok_iff.mp h
  obtain ⟨rest, hitems⟩ := token_eq_ok_iff.mp ht
  rw [skip_eq_readTo hitems] at h
  split_ifs at h with hkey hend
  · exact (nodeUnless_yields (by decide) (by decide) h).step
      (.one hitems (ne_streamEnd hkey (by decide)))
      (fun _ => mappingRest_of_pair) (by simp [weight]) (by decide) (by decide) (by decide)
  · cases h
    exact pop_yields (.one hitems (ne_streamEnd hend (by decide))) (mappingRest_stop _ _)
      (by simp) (by decide)

/-- A value that is left out stands as an empty scalar. -/
theorem nodeThen_empty {rest : List Event → Prop} {w : List Event} (mark : Mark) (h : rest w) :
    NodeThen rest (Event.empty mark :: w) :=
  ⟨[Event.empty mark], w, .scalar _ _ _ _ _ _, h, rfl⟩

/-- The step behind a key: a value if there is a sign for it, else an empty scalar. -/
theorem value_yields {s s' : EventStream} {e after : Expect} {stops : List TokenKind}
    {block indentless : Bool} {event : Event} (hrest : Rest e = NodeThen (Rest after))
    (hroom : weight after < weight e) (houter : e ∉ outer) (hafter : after ∉ outer)
    (hblind : after ∉ blind)
    (h : (do
      let token ← s.token
      if token.kind == TokenKind.value then s.skip.nodeUnless token stops after block indentless
      else return (.empty token.start, s.expect after)) = .ok (event, s')) :
    Yields s e (weight e) event s' := by
  obtain ⟨t, ht, h⟩ := bind_eq_ok_iff.mp h
  obtain ⟨rest, hitems⟩ := token_eq_ok_iff.mp ht
  rw [skip_eq_readTo hitems] at h
  split_ifs at h with hvalue
  · refine (nodeUnless_yields hafter hblind h).step
      (.one hitems (ne_streamEnd hvalue (by decide))) ?_ ?_ houter hafter hblind
    · intro w hw
      rwa [hrest]
    · simp only [List.length_singleton]
      omega
  · cases h
    refine expect_yields (.still rfl) ?_ (by simpa using hroom) houter hafter
      (fun h => absurd h hblind)
    intro w hw
    rw [hrest]
    exact nodeThen_empty _ hw

theorem flowComma_outcome {s s' : EventStream} {first : Bool} {context : Activity}
    {problem : String → Problem} (h : s.flowComma first context problem = .ok s') :
    ∃ used rest, s.Passed used rest ∧ s' = s.readTo rest ∧ (first = false → used ≠ []) := by
  unfold flowComma at h
  obtain ⟨t, ht, h⟩ := bind_eq_ok_iff.mp h
  obtain ⟨rest, hitems⟩ := token_eq_ok_iff.mp ht
  split_ifs at h with hfirst hcomma
  · cases h
    exact ⟨[], s.tokens.items, .still rfl, rfl, by simp [hfirst]⟩
  · cases h
    exact ⟨[t], rest, .one hitems (ne_streamEnd hcomma (by decide)), skip_eq_readTo hitems,
      by simp⟩

theorem flowSequenceEnd_yields {s s' : EventStream} {event : Event} {room : Nat}
    {used rest : List Token} {t : Token} (hpassed : s.Passed used (t :: rest))
    (hkind : (t.kind == .flowSequenceEnd) = true)
    (h : (s.readTo (t :: rest)).flowSequenceEnd = .ok (event, s')) :
    Yields s .flowSequenceEntry room event s' := by
  unfold flowSequenceEnd at h
  obtain ⟨t', ht, h⟩ := bind_eq_ok_iff.mp h
  rw [skip_eq_readTo rfl] at h
  cases h
  exact pop_yields (hpassed.trans (.one rfl (ne_streamEnd hkind (by decide))))
    (sequenceRest_stop _ _) (by simp) (by decide)

theorem flowMappingEnd_yields {s s' : EventStream} {event : Event} {room : Nat}
    {used rest : List Token} {t : Token} (hpassed : s.Passed used (t :: rest))
    (hkind : (t.kind == .flowMappingEnd) = true)
    (h : (s.readTo (t :: rest)).flowMappingEnd = .ok (event, s')) :
    Yields s .flowMappingKey room event s' := by
  unfold flowMappingEnd at h
  obtain ⟨t', ht, h⟩ := bind_eq_ok_iff.mp h
  rw [skip_eq_readTo rfl] at h
  cases h
  exact pop_yields (hpassed.trans (.one rfl (ne_streamEnd hkind (by decide))))
    (mappingRest_stop _ _) (by simp) (by decide)

theorem flowSequenceStep_yields {s s' : EventStream} {event : Event} {first : Bool}
    (h : s.flowSequenceStep first = .ok (event, s')) :
    Yields s .flowSequenceEntry (if first then 2 else 0) event s' := by
  unfold flowSequenceStep at h
  obtain ⟨kind, hkind, h⟩ := bind_eq_ok_iff.mp h
  obtain ⟨t, rest, hitems, rfl⟩ := kind_eq_ok_iff.mp hkind
  split_ifs at h with hend
  · rw [← readTo_self hitems] at h
    exact flowSequenceEnd_yields (.still hitems) hend h
  · obtain ⟨s₁, hcomma, h⟩ := bind_eq_ok_iff.mp h
    obtain ⟨used, rest, hpassed, rfl, hused⟩ := flowComma_outcome hcomma
    obtain ⟨t, ht, h⟩ := bind_eq_ok_iff.mp h
    obtain ⟨rest', hitems'⟩ := token_eq_ok_iff.mp ht
    rw [readTo_items] at hitems'
    subst hitems'
    have hroom : 2 ≤ 4 * used.length + (if first then 2 else 0) := by
      cases first with
      | true => simp
      | false =>
          have hlength : 0 < used.length := List.length_pos_iff.mpr (hused rfl)
          simp only [Bool.false_eq_true, if_false]
          omega
    split_ifs at h with hkey hend'
    · cases h
      exact expect_yields hpassed (fun _ => sequenceRest_of_singlePair)
        (by simp only [weight]; omega) (by decide) (by decide)
        (fun _ => ⟨t, rest', rfl, ne_streamEnd hkey (by decide)⟩)
    · exact flowSequenceEnd_yields hpassed hend' h
    · exact (node_outcome h).yields.step hpassed (fun _ => sequenceRest_of_item)
        (by simp only [weight]; omega) (by decide) (by decide) (by decide)

theorem pairKeyStep_yields {s s' : EventStream} {event : Event}
    (hsound : (s.expect .pairKey).Sound) (h : s.pairKeyStep = .ok (event, s')) :
    Yields s .pairKey 0 event s' := by
  unfold pairKeyStep at h
  obtain ⟨t, ht, h⟩ := bind_eq_ok_iff.mp h
  obtain ⟨rest, hitems⟩ := token_eq_ok_iff.mp ht
  rw [skip_eq_readTo hitems] at h
  exact (nodeUnless_yields (by decide) (by decide) h).step
    (.one hitems (hsound.ne_streamEnd (by decide) hitems))
    (fun _ => id) (by simp [weight]) (by decide) (by decide) (by decide)

theorem pairEndStep_yields {s s' : EventStream} {event : Event}
    (h : s.pairEndStep = .ok (event, s')) :
    Yields s .pairEnd 1 event s' := by
  unfold pairEndStep at h
  obtain ⟨t, ht, h⟩ := bind_eq_ok_iff.mp h
  cases h
  exact expect_yields (.still rfl) (fun w hw => ⟨t.start, t.start, w, hw, rfl⟩) (by decide)
    (by decide) (by decide) (by simp [blind])

theorem flowKeyStep_yields {s s' : EventStream} {event : Event} {first : Bool}
    (h : s.flowKeyStep first = .ok (event, s')) :
    Yields s .flowMappingKey (if first then 3 else 0) event s' := by
  unfold flowKeyStep at h
  obtain ⟨kind, hkind, h⟩ := bind_eq_ok_iff.mp h
  obtain ⟨t, rest, hitems, rfl⟩ := kind_eq_ok_iff.mp hkind
  split_ifs at h with hend
  · rw [← readTo_self hitems] at h
    exact flowMappingEnd_yields (.still hitems) hend h
  · obtain ⟨s₁, hcomma, h⟩ := bind_eq_ok_iff.mp h
    obtain ⟨used, rest, hpassed, rfl, hused⟩ := flowComma_outcome hcomma
    obtain ⟨t, ht, h⟩ := bind_eq_ok_iff.mp h
    obtain ⟨rest', hitems'⟩ := token_eq_ok_iff.mp ht
    rw [readTo_items] at hitems'
    subst hitems'
    have hroom : 3 ≤ 4 * used.length + (if first then 3 else 0) := by
      cases first with
      | true => simp
      | false =>
          have hlength : 0 < used.length := List.length_pos_iff.mpr (hused rfl)
          simp only [Bool.false_eq_true, if_false]
          omega
    split_ifs at h with hkey hend'
    · rw [skip_eq_readTo rfl] at h
      exact (nodeUnless_yields (by decide) (by decide) h).step
        (hpassed.trans (.one rfl (ne_streamEnd hkey (by decide))))
        (fun _ => mappingRest_of_pair) (by simp [weight]; omega) (by decide) (by decide)
        (by decide)
    · exact flowMappingEnd_yields hpassed hend' h
    · exact (node_outcome h).yields.step hpassed (fun _ => mappingRest_of_pair)
        (by simp only [weight]; omega) (by decide) (by decide) (by decide)

theorem flowNoValueStep_yields {s s' : EventStream} {event : Event}
    (h : s.flowNoValueStep = .ok (event, s')) :
    Yields s .flowMappingNoValue 1 event s' := by
  unfold flowNoValueStep at h
  obtain ⟨t, ht, h⟩ := bind_eq_ok_iff.mp h
  cases h
  exact expect_yields (.still rfl) (fun _ => nodeThen_empty _) (by decide) (by decide)
    (by decide) (by simp [blind])

/-- A step between documents that leaves nothing put off. -/
theorem outside_yields {s : EventStream} {e next : Expect} {used rest : List Token}
    {event : Event} {handles : TagHandles} (hpassed : s.Passed used rest)
    (hrest : ∀ w, Rest next w → Rest e (event :: w))
    (hroom : weight next < 4 * used.length + weight e) (he : e ∈ outer) (hnext : next ∈ outer)
    (hblind : next ∉ blind) :
    Yields s e (weight e) event { (s.readTo rest).expect next with handles } := by
  constructor
  · rintro w ⟨u, v, hu, hv, rfl⟩
    exact ⟨event :: u, v, hrest u hu, hv, rfl⟩
  · change 4 * rest.length + stackWeight (next :: s.pending) < _
    rw [stackWeight_cons, hpassed.items, List.length_append]
    omega
  · rfl
  · intro hsound
    have hpending : s.pending = [] := hsound.outside e rfl he
    constructor
    · exact fun _ => hsound.supplied_expect.passed hpassed
    · intro f hf h
      cases hf
      exact absurd h hblind
    · exact fun _ _ _ => hpending
    · intro f hf h
      cases hf
      exact absurd hnext h
    · intro h
      cases h

/-- The start of a document: its node comes next, and its end is put off. -/
theorem document_yields {s : EventStream} {e next : Expect} {used rest : List Token}
    {explicit : Bool} {start stop : Mark} {handles : TagHandles} (hpassed : s.Passed used rest)
    (hrest : Rest e = StreamRest) (hroom : 3 < 4 * used.length + weight e) (he : e ∈ outer)
    (hnext : next ∈ [.blockNode, .documentContent]) :
    Yields s e (weight e) ⟨.documentStart explicit, start, stop⟩
      { ((s.readTo rest).push .documentEnd).expect next with handles } := by
  have hnode : Rest next = Phrase.node.Derives ∧ weight next = 2 ∧ next ∉ outer ∧
      next ∉ blind := by
    simp only [List.mem_cons, List.not_mem_nil, or_false] at hnext
    rcases hnext with rfl | rfl
    all_goals exact ⟨rfl, rfl, by decide, by decide⟩
  obtain ⟨hnode, hweight, houter, hblind⟩ := hnode
  constructor
  · rintro w ⟨root, _, hroot, ⟨u, v, hu, hv, rfl⟩, rfl⟩
    rw [hnode] at hroot
    refine ⟨⟨.documentStart explicit, start, stop⟩ :: (root ++ u), v, ?_, hv, ?_⟩
    · rw [hrest]
      exact streamRest_of_document ⟨root, u, hroot, hu, rfl⟩
    · simp
  · change 4 * rest.length + stackWeight (next :: .documentEnd :: s.pending) < _
    rw [stackWeight_cons, stackWeight_cons, hpassed.items, List.length_append, hweight]
    change _ + (2 + (1 + _)) < _
    omega
  · rfl
  · intro hsound
    -- Between documents nothing is put off, so the end of this one is all there is.
    have hpending : s.pending = [] := hsound.outside e rfl he
    constructor
    · exact fun _ => hsound.supplied_expect.passed hpassed
    · intro f hf h
      cases hf
      exact absurd h hblind
    · intro f hf h
      cases hf
      exact absurd h houter
    · intro f hf h
      change Nested (.documentEnd :: s.pending)
      rw [hpending]
      rfl
    · intro h
      cases h

theorem streamStep_yields {s s' : EventStream} {event : Event}
    (hsound : (s.expect .streamStart).Sound) (h : s.streamStep = .ok (event, s')) :
    Yields s .streamStart 1 event s' := by
  unfold streamStep at h
  obtain ⟨t, ht, h⟩ := bind_eq_ok_iff.mp h
  obtain ⟨rest, hitems⟩ := token_eq_ok_iff.mp ht
  rw [skip_eq_readTo hitems] at h
  cases h
  refine outside_yields (.one hitems (hsound.ne_streamEnd (by decide) hitems)) ?_
    (by simp [weight]) (by decide) (by decide) (by decide)
  rintro w ⟨body, start, stop, hbody, rfl⟩
  exact .stream _ _ _ _ hbody

theorem skipDocumentEnds_outcome (s : EventStream) :
    ∃ used rest, s.Passed used rest ∧ s.skipDocumentEnds = s.readTo rest := by
  refine ⟨s.tokens.items.takeWhile (·.kind == .documentEnd), _, ⟨?_, ?_⟩, rfl⟩
  · exact (List.takeWhile_append_dropWhile ..).symm
  · intro t ht
    have hkind := List.mem_takeWhile_imp ht
    exact ne_streamEnd hkind (by decide)

theorem directives_outcome {s s' : EventStream} (h : s.directives = .ok s') :
    ∃ used rest handles, s.Passed used rest ∧ s' = { s.readTo rest with handles } := by
  unfold directives at h
  dsimp only at h
  obtain ⟨run, hrun, h⟩ := bind_eq_ok_iff.mp h
  cases h
  refine ⟨s.tokens.items.takeWhile (isDirective ·.kind),
    s.tokens.items.dropWhile (isDirective ·.kind), run.handles ++ TagHandles.default,
    ⟨?_, ?_⟩, ?_⟩
  · exact (List.takeWhile_append_dropWhile ..).symm
  · intro t ht hkind
    have hdirective := List.mem_takeWhile_imp ht
    simp [hkind, isDirective] at hdirective
  · simp [readTo, List.span_eq_takeWhile_dropWhile]

theorem explicitDocumentStep_yields {s s' : EventStream} {e : Expect} {event : Event}
    (hrest : Rest e = StreamRest) (he : e ∈ outer)
    (h : s.explicitDocumentStep = .ok (event, s')) : Yields s e (weight e) event s' := by
  unfold explicitDocumentStep at h
  obtain ⟨used, rest, hpassed, hskip⟩ := skipDocumentEnds_outcome s
  simp only [hskip] at h
  obtain ⟨t, ht, h⟩ := bind_eq_ok_iff.mp h
  obtain ⟨tail, hitems⟩ := token_eq_ok_iff.mp ht
  rw [readTo_items] at hitems
  subst hitems
  split_ifs at h with hend
  · cases h
    rw [skip_eq_readTo rfl]
    constructor
    · intro w hw
      refine ⟨[_], w, ?_, hw, rfl⟩
      rw [hrest]
      exact streamRest_stop _ _
    · change 4 * tail.length + stackWeight s.pending < _
      rw [hpassed.items, List.length_append, List.length_cons]
      omega
    · rfl
    · intro hsound
      refine ⟨fun h => absurd rfl h, ?_, ?_, ?_, fun _ => hsound.outside e rfl he⟩
      all_goals
        intro f hf
        cases hf
  · obtain ⟨s₁, hdirectives, h⟩ := bind_eq_ok_iff.mp h
    obtain ⟨used', rest', handles, hpassed', rfl⟩ := directives_outcome hdirectives
    obtain ⟨t', ht', h⟩ := bind_eq_ok_iff.mp h
    obtain ⟨tail', hitems'⟩ := token_eq_ok_iff.mp ht'
    change rest' = t' :: tail' at hitems'
    subst hitems'
    split_ifs at h with hstart
    cases h
    exact document_yields
      ((hpassed.trans hpassed').trans (.one rfl (ne_streamEnd hstart (by decide)))) hrest
      (by simp; omega) he (by simp)

theorem implicitDocumentStep_yields {s s' : EventStream} {event : Event}
    (h : s.implicitDocumentStep = .ok (event, s')) :
    Yields s .implicitDocumentStart 4 event s' := by
  unfold implicitDocumentStep at h
  obtain ⟨t, ht, h⟩ := bind_eq_ok_iff.mp h
  split_ifs at h
  · exact explicitDocumentStep_yields rfl (by decide) h
  · cases h
    exact document_yields (.still rfl) rfl (by decide) (by decide) (by simp)

theorem documentEndStep_yields {s s' : EventStream} {event : Event}
    (h : s.documentEndStep = .ok (event, s')) : Yields s .documentEnd 1 event s' := by
  unfold documentEndStep at h
  obtain ⟨t, ht, h⟩ := bind_eq_ok_iff.mp h
  obtain ⟨rest, hitems⟩ := token_eq_ok_iff.mp ht
  rw [skip_eq_readTo hitems] at h
  split_ifs at h with hend
  · cases h
    exact outside_yields (.one hitems (ne_streamEnd hend (by decide)))
      (fun w hw => ⟨_, _, w, hw, rfl⟩) (by simp [weight]) (by decide) (by decide) (by decide)
  · cases h
    exact outside_yields (.still rfl) (fun w hw => ⟨_, _, w, hw, rfl⟩) (by decide)
      (by decide) (by decide) (by decide)

/-- The root of a document. -/
theorem root_yields {s s' : EventStream} {e : Expect} {event : Event}
    (hrest : Rest e = Phrase.node.Derives) (hweight : weight e = 2) (houter : e ∉ outer)
    (h : s.node true false = .ok (event, s')) : Yields s e (weight e) event s' := by
  have hnode := (node_outcome h).yields
  constructor
  · intro w hw
    obtain ⟨head, tail, hhead, htail, hword⟩ := hnode.rest w hw
    exact ⟨head, tail, by rwa [hrest], htail, hword⟩
  · have hload := hnode.load
    omega
  · exact hnode.fault
  · intro hsound
    exact hnode.sound hsound.supplied_expect (hsound.inside e rfl houter)

theorem documentContentStep_yields {s s' : EventStream} {event : Event}
    (h : s.documentContentStep = .ok (event, s')) :
    Yields s .documentContent 2 event s' := by
  unfold documentContentStep at h
  obtain ⟨t, ht, h⟩ := bind_eq_ok_iff.mp h
  split_ifs at h
  · cases h
    exact pop_yields (.still rfl) (.scalar _ _ _ _ _ _) (by decide) (by decide)
  · exact root_yields rfl rfl (by decide) h

/-- Every step of the machine keeps to the grammar, comes closer to the end and keeps the
invariant. -/
theorem step_yields {s s' : EventStream} {e : Expect} {event : Event}
    (hsound : (s.expect e).Sound) (h : s.step e = .ok (event, s')) :
    Yields s e (weight e) event s' := by
  cases e with
  | streamStart => exact streamStep_yields hsound h
  | implicitDocumentStart => exact implicitDocumentStep_yields h
  | documentStart => exact explicitDocumentStep_yields rfl (by decide) h
  | documentContent => exact documentContentStep_yields h
  | documentEnd => exact documentEndStep_yields h
  | blockNode => exact root_yields rfl rfl (by decide) h
  | blockSequenceFirst =>
      exact opened_yields (fun _ => blockSequenceStep_yields) rfl (by decide) (by decide)
        (by decide) (by decide) (by decide) h
  | blockSequenceEntry => exact blockSequenceStep_yields h
  | indentlessEntry => exact indentlessStep_yields h
  | blockMappingFirst =>
      exact opened_yields (fun _ => blockKeyStep_yields) rfl (by decide) (by decide)
        (by decide) (by decide) (by decide) h
  | blockMappingKey => exact blockKeyStep_yields h
  | blockMappingValue =>
      exact value_yields rfl (by decide) (by decide) (by decide) (by decide) h
  | flowSequenceFirst =>
      exact opened_yields (fun _ => flowSequenceStep_yields) rfl (by decide) (by decide)
        (by decide) (by decide) (by decide) h
  | flowSequenceEntry => exact flowSequenceStep_yields h
  | pairKey => exact pairKeyStep_yields hsound h
  | pairValue => exact value_yields rfl (by decide) (by decide) (by decide) (by decide) h
  | pairEnd => exact pairEndStep_yields h
  | flowMappingFirst =>
      exact opened_yields (fun _ => flowKeyStep_yields) rfl (by decide) (by decide)
        (by decide) (by decide) (by decide) h
  | flowMappingKey => exact flowKeyStep_yields h
  | flowMappingValue => exact value_yields rfl (by decide) (by decide) (by decide) (by decide) h
  | flowMappingNoValue => exact flowNoValueStep_yields h

end EventStream

end Playbook
