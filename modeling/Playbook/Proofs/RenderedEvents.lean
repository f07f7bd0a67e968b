import Playbook.Proofs.EventView
import Playbook.Proofs.RenderedTokens
import Playbook.Proofs.StreamOfText

/-!
The events of a rendered value: a collection is opened, its items or its keys and values follow, and
it is closed again.
-/

namespace Playbook

/-- The event of a scalar. -/
def Key.event (key : Key) : EventKind :=
  .scalar .none (key.style == .plain) key.content key.style

namespace Value

mutual

/-- The events of a value, on one line or as a block. -/
def eventKinds (flow : Bool) : Value → List EventKind
  | seq items =>
      .sequenceStart .none (flow || items.isEmpty) :: (itemEvents flow items ++ [.sequenceEnd])
  | map entries =>
      .mappingStart .none (flow || entries.isEmpty) :: (entryEvents flow entries ++ [.mappingEnd])
  | scalar => (scalar.key?.map Key.event).toList

def itemEvents (flow : Bool) : List Value → List EventKind
  | [] => []
  | item :: items => item.eventKinds flow ++ itemEvents flow items

def entryEvents (flow : Bool) : List (Key × Value) → List EventKind
  | [] => []
  | (key, value) :: entries => key.event :: (value.eventKinds flow ++ entryEvents flow entries)

end

@[simp] theorem eventKinds_toValue (key : Key) (flow : Bool) :
    key.toValue.eventKinds flow = [key.event] := by
  cases key <;> rfl

end Value

namespace EventStream

open Value

theorem nodeFirst_flowTokens (value : Value) (tokens : List TokenKind) :
    NodeFirst (value.flowTokens ++ tokens) := by
  cases value with
  | seq items => cases items <;> exact ⟨_, _, rfl, rfl⟩
  | map entries => cases entries <;> exact ⟨_, _, rfl, rfl⟩
  | null | bool | int | float | str => exact ⟨_, _, rfl, rfl⟩

theorem nodeFirst_blockTokens (value : Value) (tokens : List TokenKind) :
    NodeFirst (value.blockTokens ++ tokens) := by
  cases value with
  | seq items => cases items <;> exact ⟨_, _, rfl, rfl⟩
  | map entries => cases entries <;> exact ⟨_, _, rfl, rfl⟩
  | null | bool | int | float | str => exact ⟨_, _, rfl, rfl⟩

theorem nodeFirst_key (key : Key) (tokens : List TokenKind) : NodeFirst (key.token :: tokens) :=
  ⟨_, _, rfl, rfl⟩

section Values

variable {s : EventStream} {tokens : List TokenKind} {stack : List Expect}

theorem node_key (key : Key) (block indentless : Bool) :
    NodeRuns block indentless (key.token :: tokens) stack [key.event] tokens stack :=
  node_scalar key.content key.style block indentless

/-! ### On one line -/

/-- The machine turns the tokens of a value on one line into its events. -/
def RunsFlow (value : Value) : Prop :=
  ∀ {tokens : List TokenKind} {stack : List Expect} (block indentless : Bool),
    NodeRuns block indentless (value.flowTokens ++ tokens) stack (value.eventKinds true) tokens
      stack

theorem runs_flowItems {items : List Value} (hitems : ∀ item ∈ items, RunsFlow item)
    (hs : s.Awaits (flowItemTokens items ++ tokens) (.flowSequenceEntry :: stack)) :
    s.Runs (itemEvents true items ++ [.sequenceEnd]) tokens stack := by
  induction items generalizing s with
  | nil => exact hs.runs_step (flowSequenceStep_end hs.before false)
  | cons item items ih =>
      obtain ⟨hitem, hitems⟩ := List.forall_mem_cons.mp hitems
      have htokens : flowItemTokens (item :: items) ++ tokens =
          .flowEntry :: (item.flowTokens ++ (flowItemTokens items ++ tokens)) := by
        simp [flowItemTokens]
      rw [htokens] at hs
      have hrun := hs.runs_step (flowSequenceStep_entry hs.before (nodeFirst_flowTokens _ _)
        (hitem false false))
      rw [itemEvents, List.append_assoc]
      exact hrun.trans fun s' hs' => ih hitems hs'

theorem runsFlow_seq {items : List Value} (hitems : ∀ item ∈ items, RunsFlow item) :
    RunsFlow (.seq items) := by
  intro tokens stack block indentless
  cases items with
  | nil =>
      refine (node_opens .flowSequence indentless).trans fun s hs => hs.runs_step ?_
      exact opened_runs hs.before fun s' hs' => flowSequenceStep_end hs' true
  | cons item items =>
      obtain ⟨hitem, hitems⟩ := List.forall_mem_cons.mp hitems
      have htokens : flowTokens (.seq (item :: items)) ++ tokens =
          .flowSequenceStart :: (item.flowTokens ++ (flowItemTokens items ++ tokens)) := by
        simp [flowTokens]
      have hkinds : eventKinds true (.seq (item :: items)) = [.sequenceStart .none true] ++
          (item.eventKinds true ++ (itemEvents true items ++ [.sequenceEnd])) := by
        simp [eventKinds, itemEvents]
      rw [htokens, hkinds]
      refine (node_opens .flowSequence indentless).trans fun s hs => ?_
      have hrun := hs.runs_step (opened_runs hs.before fun s' hs' =>
        flowSequenceStep_first hs' (nodeFirst_flowTokens _ _) (hitem false false))
      exact hrun.trans fun s' hs' => runs_flowItems hitems hs'

/-- A key and its value. -/
theorem node_flowEntry {value : Value} (hvalue : RunsFlow value) (key : Key) :
    NodeRuns false false (key.token :: .value :: (value.flowTokens ++ tokens))
      (.flowMappingValue :: stack) ([key.event] ++ value.eventKinds true) tokens
      (.flowMappingKey :: stack) :=
  (node_key key false false).trans fun _ hs =>
    hs.runs_step (flowValueStep_runs hs.before (nodeFirst_flowTokens _ _) (hvalue false false))

theorem runs_flowEntries {entries : List (Key × Value)}
    (hvalues : ∀ entry ∈ entries, RunsFlow entry.2)
    (hs : s.Awaits (flowEntryTokens entries ++ tokens) (.flowMappingKey :: stack)) :
    s.Runs (entryEvents true entries ++ [.mappingEnd]) tokens stack := by
  induction entries generalizing s with
  | nil => exact hs.runs_step (flowKeyStep_end hs.before false)
  | cons entry entries ih =>
      obtain ⟨key, value⟩ := entry
      obtain ⟨hvalue, hvalues⟩ := List.forall_mem_cons.mp hvalues
      have htokens : flowEntryTokens ((key, value) :: entries) ++ tokens =
          .flowEntry :: .key :: key.token :: .value ::
            (value.flowTokens ++ (flowEntryTokens entries ++ tokens)) := by
        simp [flowEntryTokens]
      have hkinds : entryEvents true ((key, value) :: entries) ++ [.mappingEnd] =
          [key.event] ++ value.eventKinds true ++ (entryEvents true entries ++ [.mappingEnd]) := by
        simp [entryEvents]
      rw [htokens] at hs
      rw [hkinds]
      have hrun := hs.runs_step (flowKeyStep_entry hs.before (nodeFirst_key _ _)
        (node_flowEntry hvalue key))
      exact hrun.trans fun s' hs' => ih hvalues hs'

theorem runsFlow_map {entries : List (Key × Value)}
    (hvalues : ∀ entry ∈ entries, RunsFlow entry.2) : RunsFlow (.map entries) := by
  intro tokens stack block indentless
  cases entries with
  | nil =>
      refine (node_opens .flowMapping indentless).trans fun s hs => hs.runs_step ?_
      exact opened_runs hs.before fun s' hs' => flowKeyStep_end hs' true
  | cons entry entries =>
      obtain ⟨key, value⟩ := entry
      obtain ⟨hvalue, hvalues⟩ := List.forall_mem_cons.mp hvalues
      have htokens : flowTokens (.map ((key, value) :: entries)) ++ tokens =
          .flowMappingStart :: .key :: key.token :: .value ::
            (value.flowTokens ++ (flowEntryTokens entries ++ tokens)) := by
        simp [flowTokens]
      have hkinds : eventKinds true (.map ((key, value) :: entries)) =
          [.mappingStart .none true] ++ ([key.event] ++ value.eventKinds true ++
            (entryEvents true entries ++ [.mappingEnd])) := by
        simp [eventKinds, entryEvents]
      rw [htokens, hkinds]
      refine (node_opens .flowMapping indentless).trans fun s hs => ?_
      have hrun := hs.runs_step (opened_runs hs.before fun s' hs' =>
        flowKeyStep_first hs' (nodeFirst_key _ _) (node_flowEntry hvalue key))
      exact hrun.trans fun s' hs' => runs_flowEntries hvalues hs'

theorem runsFlow {value : Value} (hvalue : value.Writable) : RunsFlow value := by
  induction hvalue with
  | @scalar key _ =>
      intro tokens stack block indentless
      rw [flowTokens_toValue, eventKinds_toValue]
      exact node_key key block indentless
  | seq _ ih => exact runsFlow_seq ih
  | map _ _ _ ih => exact runsFlow_map ih

/-! ### As a block -/

/-- The machine turns the tokens of a value as a block into its events. -/
def RunsBlock (value : Value) : Prop :=
  ∀ {tokens : List TokenKind} {stack : List Expect} (indentless : Bool),
    NodeRuns true indentless (value.blockTokens ++ tokens) stack (value.eventKinds false) tokens
      stack

theorem runs_blockItems {items : List Value} (hitems : ∀ item ∈ items, RunsBlock item)
    (hs : s.Before (blockItemTokens items ++ .blockEnd :: tokens) stack) :
    StepRuns s.blockSequenceStep (itemEvents false items ++ [.sequenceEnd]) tokens stack := by
  induction items generalizing s with
  | nil => exact blockSequenceStep_end hs
  | cons item items ih =>
      obtain ⟨hitem, hitems⟩ := List.forall_mem_cons.mp hitems
      have htokens : blockItemTokens (item :: items) ++ .blockEnd :: tokens =
          .blockEntry :: (item.blockTokens ++ (blockItemTokens items ++ .blockEnd :: tokens)) := by
        simp [blockItemTokens]
      rw [htokens] at hs
      rw [itemEvents, List.append_assoc]
      have hrun := blockSequenceStep_entry hs (nodeFirst_blockTokens _ _) (hitem false)
      exact hrun.trans fun s' hs' => hs'.runs_step (ih hitems hs'.before)

theorem runsBlock_seq {items : List Value} (hitems : ∀ item ∈ items, RunsBlock item) :
    RunsBlock (.seq items) := by
  intro tokens stack indentless
  cases items with
  | nil =>
      have hempty : RunsFlow (.seq []) := runsFlow_seq (by simp)
      exact hempty true indentless
  | cons item items =>
      have htokens : blockTokens (.seq (item :: items)) ++ tokens =
          .blockSequenceStart :: (blockItemTokens (item :: items) ++ .blockEnd :: tokens) := by
        simp [blockTokens]
      rw [htokens]
      refine (node_opens (.blockSequence rfl) indentless).trans fun s hs => hs.runs_step ?_
      exact opened_runs hs.before fun s' hs' => runs_blockItems hitems hs'

theorem node_blockEntry {value : Value} (hvalue : RunsBlock value) (key : Key) :
    NodeRuns true true (key.token :: .value :: (value.blockTokens ++ tokens))
      (.blockMappingValue :: stack) ([key.event] ++ value.eventKinds false) tokens
      (.blockMappingKey :: stack) :=
  (node_key key true true).trans fun _ hs =>
    hs.runs_step (blockValueStep_runs hs.before (nodeFirst_blockTokens _ _) (hvalue true))

theorem runs_blockEntries {entries : List (Key × Value)}
    (hvalues : ∀ entry ∈ entries, RunsBlock entry.2)
    (hs : s.Before (blockEntryTokens entries ++ .blockEnd :: tokens) stack) :
    StepRuns s.blockKeyStep (entryEvents false entries ++ [.mappingEnd]) tokens stack := by
  induction entries generalizing s with
  | nil => exact blockKeyStep_end hs
  | cons entry entries ih =>
      obtain ⟨key, value⟩ := entry
      obtain ⟨hvalue, hvalues⟩ := List.forall_mem_cons.mp hvalues
      have htokens : blockEntryTokens ((key, value) :: entries) ++ .blockEnd :: tokens =
          .key :: key.token :: .value ::
            (value.blockTokens ++ (blockEntryTokens entries ++ .blockEnd :: tokens)) := by
        simp [blockEntryTokens]
      have hkinds : entryEvents false ((key, value) :: entries) ++ [.mappingEnd] =
          [key.event] ++ value.eventKinds false ++
            (entryEvents false entries ++ [.mappingEnd]) := by
        simp [entryEvents]
      rw [htokens] at hs
      rw [hkinds]
      have hrun := blockKeyStep_entry hs (nodeFirst_key _ _) (node_blockEntry hvalue key)
      exact hrun.trans fun s' hs' => hs'.runs_step (ih hvalues hs'.before)

theorem runsBlock_map {entries : List (Key × Value)}
    (hvalues : ∀ entry ∈ entries, RunsBlock entry.2) : RunsBlock (.map entries) := by
  intro tokens stack indentless
  cases entries with
  | nil =>
      have hempty : RunsFlow (.map []) := runsFlow_map (by simp)
      exact hempty true indentless
  | cons entry entries =>
      have htokens : blockTokens (.map (entry :: entries)) ++ tokens =
          .blockMappingStart :: (blockEntryTokens (entry :: entries) ++ .blockEnd :: tokens) := by
        simp [blockTokens]
      rw [htokens]
      refine (node_opens (.blockMapping rfl) indentless).trans fun s hs => hs.runs_step ?_
      exact opened_runs hs.before fun s' hs' => runs_blockEntries hvalues hs'

theorem runsBlock {value : Value} (hvalue : value.Writable) : RunsBlock value := by
  induction hvalue with
  | @scalar key _ =>
      intro tokens stack indentless
      rw [blockTokens_toValue, eventKinds_toValue]
      exact node_key key true indentless
  | seq _ ih => exact runsBlock_seq ih
  | map _ _ _ ih => exact runsBlock_map ih

/-! ### Whole streams -/

/-- The events of a stream with one document. -/
def streamKinds (kinds : List EventKind) : List EventKind :=
  [.streamStart, .documentStart false] ++ (kinds ++ [.documentEnd, .streamEnd])

theorem streamStep_runs (hs : s.Before (.streamStart :: tokens) stack) :
    StepRuns s.streamStep [.streamStart] tokens (.implicitDocumentStart :: stack) := by
  obtain ⟨start, stop, htoken, hskip⟩ := hs.token
  have hstep : s.streamStep =
      .ok (⟨.streamStart, start, stop⟩, s.skip.expect .implicitDocumentStart) := by
    rw [streamStep, htoken]
    rfl
  exact StepRuns.of_ok hstep rfl (hskip.expect _).runs

theorem implicitDocumentStep_runs (hs : s.Before tokens stack) (hfirst : NodeFirst tokens) :
    StepRuns s.implicitDocumentStep [.documentStart false] tokens
      (.blockNode :: .documentEnd :: stack) := by
  obtain ⟨kind, more, rfl, hkind⟩ := hfirst
  obtain ⟨start, stop, htoken, -⟩ := hs.token
  have hdirective : isDirective kind = false := by
    cases kind <;> first | rfl | cases hkind
  have hstep : s.implicitDocumentStep = .ok (⟨.documentStart false, start, start⟩,
      { (s.push .documentEnd).expect .blockNode with handles := .default }) := by
    simp [implicitDocumentStep, htoken, hdirective, startsNode_ne hkind .documentStart rfl,
      startsNode_ne hkind .streamEnd rfl]
  have hpush := (hs.push .documentEnd).expect .blockNode
  exact StepRuns.of_ok hstep rfl ⟨[], _, .start, rfl, hpush.tokens, hpush.state, hpush.pending, rfl⟩

theorem documentEndStep_runs (hs : s.Before (.streamEnd :: tokens) stack) :
    StepRuns s.documentEndStep [.documentEnd] (.streamEnd :: tokens) (.documentStart :: stack) := by
  obtain ⟨start, stop, htoken, -⟩ := hs.token
  have hstep : s.documentEndStep = .ok (⟨.documentEnd, start, start⟩, s.expect .documentStart) := by
    simp [documentEndStep, htoken]
  exact StepRuns.of_ok hstep rfl (hs.expect _).runs

theorem explicitDocumentStep_end (hs : s.Before (.streamEnd :: tokens) []) :
    StepRuns s.explicitDocumentStep [.streamEnd] tokens [] := by
  obtain ⟨start, stop, htoken, hskip⟩ := hs.token
  have hitems : s.tokens.items.dropWhile (·.kind == .documentEnd) = s.tokens.items := by
    have htokens := hs.tokens
    cases hitems : s.tokens.items with
    | nil => rfl
    | cons token items =>
        rw [hitems] at htokens
        have hkind : token.kind = .streamEnd := (List.cons.inj htokens).1
        rw [List.dropWhile_cons, hkind]
        rfl
  have hends : s.skipDocumentEnds = s := by rw [skipDocumentEnds, hitems]
  have hstep : s.explicitDocumentStep =
      .ok (⟨.streamEnd, start, stop⟩, { s.skip with state := none }) := by
    simp [explicitDocumentStep, hends, htoken]
  refine StepRuns.of_ok hstep rfl ⟨[], _, .start, rfl, hskip.tokens, rfl, ?_, rfl⟩
  exact hskip.pending

/-- A node between the start and the end of the stream is a document. -/
theorem start_runs {feed : Feed Token} {kinds : List EventKind}
    (hfeed : feed.items.map Token.kind = .streamStart :: (tokens ++ [.streamEnd]))
    (hfirst : NodeFirst (tokens ++ [.streamEnd]))
    (hnode : NodeRuns true false (tokens ++ [.streamEnd]) [.documentEnd] kinds [.streamEnd]
      [.documentEnd]) :
    (EventStream.start feed).Runs (streamKinds kinds) [] [] := by
  have hstart : (EventStream.start feed).Awaits (.streamStart :: (tokens ++ [.streamEnd]))
      [.streamStart] := ⟨hfeed, rfl, rfl, rfl⟩
  refine (hstart.runs_step (streamStep_runs hstart.before)).trans fun s hs => ?_
  refine (hs.runs_step (implicitDocumentStep_runs hs.before hfirst)).trans fun s hs => ?_
  refine (hs.runs_step (hnode s hs.before)).trans fun s hs => ?_
  refine (hs.runs_step (documentEndStep_runs hs.before)).trans fun s hs => ?_
  exact hs.runs_step (explicitDocumentStep_end hs.before)

end Values

end EventStream

namespace Event

/-- A run of the machine to the end of the tokens of a text is the events of the text. -/
theorem ofText_of_runs {text : List Char} {kinds : List EventKind}
    (h : (EventStream.ofText text).Runs kinds [] []) :
    ∃ events, ofText text = ⟨events, none⟩ ∧ events.map Event.kind = kinds := by
  obtain ⟨events, s, hreaches, hkinds, hs⟩ := h
  have hlast := EventStream.next_of_state_none hs.ready hs.state
  have hload := hreaches.load (EventStream.ofText_steady text)
  have hfuel := EventStream.ofText_load text
  exact ⟨events, EventStream.collect_of_reaches hreaches hlast (by omega), hkinds⟩

theorem ofText_flowText {value : Value} (hvalue : value.Writable) :
    ∃ events, ofText value.flowText = ⟨events, none⟩ ∧
      events.map Event.kind = EventStream.streamKinds (value.eventKinds true) := by
  obtain ⟨tokens, htokens, hkinds⟩ := Playbook.ofText_flowText hvalue
  refine ofText_of_runs (EventStream.start_runs ?_ (EventStream.nodeFirst_flowTokens value _)
    (EventStream.runsFlow hvalue true false))
  rw [htokens]
  exact hkinds

theorem ofText_blockText {value : Value} (hvalue : value.Writable) :
    ∃ events, ofText value.blockText = ⟨events, none⟩ ∧
      events.map Event.kind = EventStream.streamKinds (value.eventKinds false) := by
  obtain ⟨tokens, htokens, hkinds⟩ := Playbook.ofText_blockText hvalue
  refine ofText_of_runs (EventStream.start_runs ?_ (EventStream.nodeFirst_blockTokens value _)
    (EventStream.runsBlock hvalue false))
  rw [htokens]
  exact hkinds

end Event

end Playbook
