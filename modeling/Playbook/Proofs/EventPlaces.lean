import Playbook.Proofs.EventOrder
import Playbook.Proofs.TokenPlaces

/-!
Where the problems of events lie. The machine notes where collections are opened and where the
properties of a node begin, and all of that lies before the tokens that are left. So a token that it
cannot go on with is told with marks of the text, the context first.
-/

namespace Playbook

namespace Mark

/-- Marks of the text, in order. -/
structure Line (text : List Char) (marks : List Mark) : Prop where
  stands : ∀ m ∈ marks, m.StandsIn text
  ordered : Ordered marks

/-- A mark of the text with none of the others in front of it. -/
structure Before (text : List Char) (later : List Mark) (m : Mark) : Prop where
  stands : m.StandsIn text
  le : ∀ m' ∈ later, m ≤ m'

variable {text : List Char} {m m' : Mark} {marks marks' : List Mark}

theorem Line.sublist (h : Line text marks) (hsub : marks'.Sublist marks) : Line text marks' :=
  ⟨fun m hm => h.stands m (hsub.subset hm), h.ordered.sublist hsub⟩

theorem Line.before (h : Line text (m :: marks)) : m.Before text (m :: marks) :=
  ⟨h.stands m List.mem_cons_self, (ordered_cons.mp (EventStream.ordered_twice h.ordered)).1⟩

theorem Before.subset (h : m.Before text marks) (hsub : marks' ⊆ marks) : m.Before text marks' :=
  ⟨h.stands, fun m' hm' => h.le m' (hsub hm')⟩

/-- A problem at one of the marks behind the context. -/
theorem Before.points (h : m.Before text marks) (hm' : m' ∈ marks) (hstands : m'.StandsIn text)
    {stage : Stage} {context : Activity} {problem : Problem} :
    (Diagnostic.within stage context m problem m').Points text := by
  refine ⟨hstands, fun m₁ hm₁ => ?_⟩
  cases hm₁
  exact ⟨h.stands, (h.le m' hm').1⟩

theorem standsIn_origin (text : List Char) : origin.StandsIn text := by
  have hnil : Apart [] text := nofun
  have hfeeds : WithFeeds text origin origin := .behind rfl hnil
  exact hfeeds.standsIn

end Mark

theorem Token.start_mem_marks {tokens : List Token} {t : Token} (h : t ∈ tokens) :
    t.start ∈ marks tokens :=
  (forall_marks.mp (fun _ hm => hm) t h).1

namespace EventStream

variable {text : List Char} {s s' : EventStream} {t : Token} {rest : List Token}

theorem head_mem (hitems : s.tokens.items = t :: rest) :
    t.start ∈ Token.marks s.tokens.items :=
  Token.start_mem_marks (hitems ▸ List.mem_cons_self)

/-- The tokens that are left have marks of the text, in order, the open collections start before
them, and what cuts the tokens short points into the text. -/
structure Sited (text : List Char) (s : EventStream) : Prop where
  fault : ∀ d, s.tokens.fault = some d → d.Points text
  line : Mark.Line text (Token.marks s.tokens.items)
  opened : ∀ m ∈ s.openMarks, m.Before text (Token.marks s.tokens.items)

namespace Sited

/-- Some tokens were read, and some collections closed. -/
theorem later (h : s.Sited text) (hfault : s'.tokens.fault = s.tokens.fault)
    (hsuffix : s'.tokens.items <:+ s.tokens.items) (hopened : s'.openMarks ⊆ s.openMarks) :
    s'.Sited text := by
  have hmarks : Token.marks s'.tokens.items ⊆ Token.marks s.tokens.items :=
    fun m hm => marks_subset hsuffix hm
  refine ⟨fun d hd => h.fault d (hfault ▸ hd), ?_, fun m hm => ?_⟩
  · exact ⟨fun m hm => h.line.stands m (hmarks hm), ordered_suffix h.line.ordered hsuffix⟩
  · exact (h.opened m (hopened hm)).subset hmarks

/-- Only the states of the machine have changed. -/
theorem same (h : s.Sited text) (htokens : s'.tokens = s.tokens)
    (hopened : s'.openMarks = s.openMarks) : s'.Sited text :=
  h.later (by rw [htokens]) (by rw [htokens]) (by rw [hopened]; exact List.Subset.refl _)

theorem skip (h : s.Sited text) : s.skip.Sited text :=
  h.later rfl (List.tail_suffix _) (List.Subset.refl _)

theorem close (h : s.Sited text) : s.close.Sited text :=
  h.later rfl (List.suffix_refl _) (List.tail_subset _)

theorem readTo (h : s.Sited text) {used : List Token} (hpassed : s.Passed used rest) :
    (s.readTo rest).Sited text :=
  h.later rfl ⟨used, hpassed.items.symm⟩ (List.Subset.refl _)

theorem start (h : s.Sited text) (hitems : s.tokens.items = t :: rest) :
    t.start.Before text (Token.marks s.tokens.items) := by
  have hline := h.line
  rw [hitems] at hline ⊢
  exact hline.before

/-- A collection is opened at the next token. -/
theorem openAt (h : s.Sited text) (hitems : s.tokens.items = t :: rest) :
    (s.skip.openAt t.start).Sited text := by
  have hopened : t.start.Before text (Token.marks s.skip.tokens.items) :=
    (h.start hitems).subset fun m hm => marks_subset (List.tail_suffix _) hm
  exact ⟨h.fault, h.skip.line, List.forall_mem_cons.mpr ⟨hopened, h.skip.opened⟩⟩

theorem unexpected (h : s.Sited text) (hitems : s.tokens.items = t :: rest) {context : Activity}
    {problem : Problem} : (s.unexpected context problem t.start).Points text := by
  have hstart := h.start hitems
  unfold EventStream.unexpected
  split
  · rename_i m hm
    exact (h.opened m (List.mem_of_head? hm)).points (head_mem hitems) hstart.stands
  · exact Diagnostic.points_plain hstart.stands

end Sited

/-- A step comes to a machine that is in the text again, or to a diagnostic that points into it. -/
def Stays (text : List Char) (x : Step) : Prop :=
  EndsIn (fun found => found.2.Sited text) (Diagnostic.Points text) x

theorem token_endsIn (h : s.Sited text) :
    EndsIn (fun t => ∃ rest, s.tokens.items = t :: rest) (Diagnostic.Points text) s.token := by
  refine Faults.endsIn (fun d hd => ?_) fun t ht => token_eq_ok_iff.mp ht
  unfold token at hd
  split at hd
  · cases hd
  · rename_i hfault
    cases hd
    exact h.fault _ hfault
  · cases hd
    exact Diagnostic.points_plain (Mark.standsIn_origin text)

theorem kind_endsIn (h : s.Sited text) :
    EndsIn (fun _ => True) (Diagnostic.Points text) s.kind :=
  (token_endsIn h).map fun _ _ => trivial

/-! ### Nodes -/

/-- Properties that begin before the marks to come. A tag has a mark between. -/
structure PropertyRun.Sited (text : List Char) (later : List Mark) (run : PropertyRun) : Prop where
  start : ∀ m, run.start = some m → m.Before text later
  tag : run.tag ≠ none →
    run.tagMark.StandsIn text ∧ ∃ m, run.start = some m ∧ m ≤ run.tagMark

theorem PropertyRun.Sited.getD_start {run : PropertyRun}
    (h : run.Sited text (Token.marks s.tokens.items)) (hs : s.Sited text)
    (hitems : s.tokens.items = t :: rest) :
    (run.start.getD t.start).Before text (Token.marks s.tokens.items) := by
  cases hstart : run.start with
  | none => exact hs.start hitems
  | some m => exact h.start m hstart

theorem property_endsIn {run : PropertyRun} (hs : s.Sited text)
    (hrun : run.Sited text (Token.marks s.tokens.items)) :
    EndsIn (fun found : PropertyRun × EventStream =>
        found.2.Sited text ∧ found.1.Sited text (Token.marks found.2.tokens.items))
      (Diagnostic.Points text) (property run s) := by
  refine (token_endsIn hs).bind fun t ⟨rest, hitems⟩ => ?_
  have hstart := hrun.getD_start hs hitems
  -- Behind the token, the node still begins where it did.
  have hlater : ∀ m, some (run.start.getD t.start) = some m →
      m.Before text (Token.marks s.skip.tokens.items) := by
    intro m hm
    cases hm
    exact hstart.subset fun m hm => marks_subset (List.tail_suffix _) hm
  dsimp only
  split
  · refine ⟨hs.skip, hlater, fun htag => ?_⟩
    obtain ⟨hstands, m, hm, hle⟩ := hrun.tag htag
    exact ⟨hstands, m, by simp [hm], hle⟩
  · have hle := hstart.le t.start (head_mem hitems)
    exact ⟨hs.skip, hlater, fun _ => ⟨(hs.start hitems).stands, _, rfl, hle⟩⟩
  · exact ⟨hs, hrun⟩

theorem resolveTag_points {run : PropertyRun} {later : List Mark} (h : run.Sited text later) :
    Faults (Diagnostic.Points text) (s.resolveTag run) := by
  unfold resolveTag
  split
  · exact faults_ok _
  · exact faults_ok _
  · rename_i handle suffix hrun
    split
    · exact faults_ok _
    · obtain ⟨hstands, m, hm, hle⟩ := h.tag (by simp [hrun])
      refine faults_error ⟨hstands, fun m' hm' => ?_⟩
      cases hm.symm.trans hm'
      exact ⟨(h.start m hm).stands, hle.1⟩

theorem node_stays {block indentless : Bool} (h : s.Sited text) :
    Stays text (s.node block indentless) := by
  refine (token_endsIn h).bind fun t _ => ?_
  split
  · exact h.skip.same rfl rfl
  · have hnone : PropertyRun.Sited text (Token.marks s.tokens.items)
        ⟨none, none, .origin, none, none⟩ := ⟨nofun, fun htag => (htag rfl).elim⟩
    refine (property_endsIn h hnone).bind fun ⟨run₁, s₁⟩ ⟨hs₁, hrun₁⟩ => ?_
    refine (property_endsIn hs₁ hrun₁).bind fun ⟨run₂, s₂⟩ ⟨hs₂, hrun₂⟩ => ?_
    refine ((resolveTag_points hrun₂).endsIn (Q := fun _ => True) fun _ _ => trivial).bind
      fun tag _ => ?_
    refine (token_endsIn hs₂).bind fun token ⟨rest, hitems⟩ => ?_
    dsimp only
    split
    · exact hs₂.skip.same rfl rfl
    · exact hs₂.same rfl rfl
    · exact hs₂.same rfl rfl
    · split_ifs
      · exact hs₂.same rfl rfl
      · exact hs₂.same rfl rfl
      · exact hs₂.same rfl rfl
      · exact hs₂.same rfl rfl
      all_goals
        exact (hrun₂.getD_start hs₂ hitems).points (head_mem hitems) (hs₂.start hitems).stands

theorem pushed_stays {after : Expect} {block indentless : Bool} (h : s.Sited text) :
    Stays text ((s.push after).node block indentless) :=
  node_stays (h.same rfl rfl)

theorem nodeUnless_stays {stops : List TokenKind} {after : Expect} {block indentless : Bool}
    (h : s.Sited text) : Stays text (s.nodeUnless t stops after block indentless) := by
  refine (kind_endsIn h).bind fun kind _ => ?_
  split_ifs
  · exact h.same rfl rfl
  · exact pushed_stays h

/-! ### Steps -/

theorem directive_points {run : DirectiveRun} (h : t.start.StandsIn text) :
    Faults (Diagnostic.Points text) (directive run t) := by
  have hplain : ∀ {problem : Problem}, Faults (Diagnostic.Points text)
      (.error (.plain .events problem t.start) : Except Diagnostic DirectiveRun) :=
    faults_error (Diagnostic.points_plain h)
  unfold directive
  split
  · exact faults_ite (fun _ => hplain) fun _ => faults_ite (fun _ => faults_ok _) fun _ => hplain
  · exact faults_ite (fun _ => hplain) fun _ => faults_ok _
  · exact hplain
  · exact faults_ok _

theorem directives_endsIn (h : s.Sited text) :
    EndsIn (fun s' => s'.Sited text) (Diagnostic.Points text) s.directives := by
  have hlines : ∀ (lines : List Token) (run : DirectiveRun),
      (∀ t ∈ lines, t.start.StandsIn text) →
      Faults (Diagnostic.Points text) (lines.foldlM directive run) := by
    intro lines
    induction lines with
    | nil => exact fun run _ => faults_ok run
    | cons t lines ih =>
        intro run hlines
        obtain ⟨ht, hlines⟩ := List.forall_mem_cons.mp hlines
        exact faults_bind (directive_points ht) fun run' => ih run' hlines
  refine Faults.endsIn ?_ fun s' hs' => ?_
  · refine faults_bind (hlines _ _ fun t ht => h.line.stands _ ?_) fun _ => faults_ok _
    change t ∈ (s.tokens.items.span (isDirective ·.kind)).1 at ht
    rw [List.span_eq_takeWhile_dropWhile] at ht
    exact Token.start_mem_marks ((List.takeWhile_prefix _).subset ht)
  · obtain ⟨used, rest, handles, hpassed, rfl⟩ := directives_outcome hs'
    exact (h.readTo hpassed).same rfl rfl

theorem explicitDocumentStep_stays (h : s.Sited text) : Stays text s.explicitDocumentStep := by
  obtain ⟨used, rest, hpassed, hskip⟩ := s.skipDocumentEnds_outcome
  have hs := h.readTo hpassed
  unfold explicitDocumentStep
  simp only [hskip]
  refine (token_endsIn hs).bind fun first _ => ?_
  split_ifs
  · exact hs.skip.same rfl rfl
  · refine (directives_endsIn hs).bind fun s₁ hs₁ => ?_
    refine (token_endsIn hs₁).bind fun t ⟨rest, hitems⟩ => ?_
    split_ifs
    · exact hs₁.skip.same rfl rfl
    · exact Diagnostic.points_plain (hs₁.start hitems).stands

theorem implicitDocumentStep_stays (h : s.Sited text) : Stays text s.implicitDocumentStep := by
  refine (token_endsIn h).bind fun t _ => ?_
  split_ifs
  · exact explicitDocumentStep_stays h
  · exact h.same rfl rfl

theorem documentContentStep_stays (h : s.Sited text) : Stays text s.documentContentStep := by
  refine (token_endsIn h).bind fun t _ => ?_
  split_ifs
  · exact h.same rfl rfl
  · exact node_stays h

theorem documentEndStep_stays (h : s.Sited text) : Stays text s.documentEndStep := by
  refine (token_endsIn h).bind fun t _ => ?_
  split_ifs
  · exact h.skip.same rfl rfl
  · exact h.same rfl rfl

theorem blockSequenceStep_stays (h : s.Sited text) : Stays text s.blockSequenceStep := by
  refine (token_endsIn h).bind fun t ⟨rest, hitems⟩ => ?_
  split_ifs
  · exact nodeUnless_stays h.skip
  · exact h.skip.close
  · exact h.unexpected hitems

theorem indentlessStep_stays (h : s.Sited text) : Stays text s.indentlessStep := by
  refine (token_endsIn h).bind fun t _ => ?_
  split_ifs
  · exact nodeUnless_stays h.skip
  · exact h.same rfl rfl

theorem blockKeyStep_stays (h : s.Sited text) : Stays text s.blockKeyStep := by
  refine (token_endsIn h).bind fun t ⟨rest, hitems⟩ => ?_
  split_ifs
  · exact nodeUnless_stays h.skip
  · exact h.skip.close
  · exact h.unexpected hitems

/-- The step behind a key: a value if there is a sign for it, else an empty scalar. -/
theorem value_stays {after : Expect} {stops : List TokenKind} {block indentless : Bool}
    (h : s.Sited text) :
    Stays text (do
      let token ← s.token
      if token.kind == TokenKind.value then s.skip.nodeUnless token stops after block indentless
      else return (.empty token.start, s.expect after)) := by
  refine (token_endsIn h).bind fun t _ => ?_
  split_ifs
  · exact nodeUnless_stays h.skip
  · exact h.same rfl rfl

theorem flowComma_endsIn {first : Bool} {context : Activity} {problem : String → Problem}
    (h : s.Sited text) :
    EndsIn (fun s' => s'.Sited text) (Diagnostic.Points text)
      (s.flowComma first context problem) := by
  refine (token_endsIn h).bind fun t ⟨rest, hitems⟩ => ?_
  split_ifs
  · exact h
  · exact h.skip
  · exact h.unexpected hitems

/-- The end of a flow collection: its token is taken up. -/
theorem flowEnd_stays {kind : EventKind} (h : s.Sited text) :
    Stays text (do
      let token ← s.token
      return (⟨kind, token.start, token.stop⟩, s.skip.close)) :=
  (token_endsIn h).bind fun _ _ => h.skip.close

theorem flowSequenceStep_stays {first : Bool} (h : s.Sited text) :
    Stays text (s.flowSequenceStep first) := by
  refine (kind_endsIn h).bind fun kind _ => ?_
  split_ifs
  · exact flowEnd_stays h
  · refine (flowComma_endsIn h).bind fun s₁ hs₁ => ?_
    refine (token_endsIn hs₁).bind fun t _ => ?_
    split_ifs
    · exact hs₁.same rfl rfl
    · exact flowEnd_stays hs₁
    · exact pushed_stays hs₁

theorem flowKeyStep_stays {first : Bool} (h : s.Sited text) :
    Stays text (s.flowKeyStep first) := by
  refine (kind_endsIn h).bind fun kind _ => ?_
  split_ifs
  · exact flowEnd_stays h
  · refine (flowComma_endsIn h).bind fun s₁ hs₁ => ?_
    refine (token_endsIn hs₁).bind fun t _ => ?_
    split_ifs
    · exact nodeUnless_stays hs₁.skip
    · exact flowEnd_stays hs₁
    · exact pushed_stays hs₁

theorem opened_endsIn (h : s.Sited text) :
    EndsIn (fun s' => s'.Sited text) (Diagnostic.Points text) s.opened :=
  (token_endsIn h).bind fun _ ⟨_, hitems⟩ => h.openAt hitems

theorem step_stays (h : s.Sited text) (e : Expect) : Stays text (s.step e) := by
  cases e with
  | streamStart => exact (token_endsIn h).bind fun _ _ => h.skip.same rfl rfl
  | implicitDocumentStart => exact implicitDocumentStep_stays h
  | documentStart => exact explicitDocumentStep_stays h
  | documentContent => exact documentContentStep_stays h
  | documentEnd => exact documentEndStep_stays h
  | blockNode => exact node_stays h
  | blockSequenceFirst => exact (opened_endsIn h).bind fun _ => blockSequenceStep_stays
  | blockSequenceEntry => exact blockSequenceStep_stays h
  | indentlessEntry => exact indentlessStep_stays h
  | blockMappingFirst => exact (opened_endsIn h).bind fun _ => blockKeyStep_stays
  | blockMappingKey => exact blockKeyStep_stays h
  | blockMappingValue => exact value_stays h
  | flowSequenceFirst => exact (opened_endsIn h).bind fun _ hs₁ => flowSequenceStep_stays hs₁
  | flowSequenceEntry => exact flowSequenceStep_stays h
  | pairKey => exact (token_endsIn h).bind fun _ _ => nodeUnless_stays h.skip
  | pairValue => exact value_stays h
  | pairEnd => exact (token_endsIn h).bind fun _ _ => h.same rfl rfl
  | flowMappingFirst => exact (opened_endsIn h).bind fun _ hs₁ => flowKeyStep_stays hs₁
  | flowMappingKey => exact flowKeyStep_stays h
  | flowMappingValue => exact value_stays h
  | flowMappingNoValue => exact (token_endsIn h).bind fun _ _ => h.same rfl rfl

/-! ### Runs -/

theorem Steady.next_endsIn (hsteady : s.Steady) (h : s.Sited text) :
    EndsIn (fun found => found.2.Sited text) (Diagnostic.Points text) s.next := by
  cases hstate : s.state with
  | none =>
      rw [next_of_state_none hsteady.ready hstate]
      exact h
  | some e =>
      rw [next_of_state_some hsteady.ready hstate]
      exact (step_stays h e).bind fun _ hs₁ => hs₁.same rfl rfl

/-- Along a run the machine stays in the text, and all marks of its events are marks of the text. -/
theorem Reaches.sited {events : List Event} (h : s.Reaches events s') (hsteady : s.Steady)
    (hs : s.Sited text) :
    s'.Sited text ∧ ∀ m ∈ events.flatMap Event.marks, m.StandsIn text := by
  induction h with
  | start => exact ⟨hs, by simp⟩
  | @next events s₁ s₂ event hreaches hnext ih =>
      obtain ⟨hs₁, hevents⟩ := ih
      have hsteady₁ := (hreaches.steady hsteady).1
      have hdraws := hsteady₁.next_draws hs₁.line.ordered hnext
      refine ⟨(hnext ▸ hsteady₁.next_endsIn hs₁ :), fun m hm => ?_⟩
      rw [List.flatMap_append, List.mem_append] at hm
      rcases hm with hm | hm
      · exact hevents m hm
      · exact hs₁.line.stands m (hdraws.marks m (by simpa using hm))

theorem ofText_sited (text : List Char) : (ofText text).Sited text := by
  refine ⟨fun d hd => Token.ofText_points hd, ⟨?_, Token.ofText_ordered text⟩, nofun⟩
  exact Token.forall_marks.mpr (Token.ofText_stands text)

end EventStream

namespace Event

/-- The events of a text have marks of the text, in order. -/
theorem ofText_line (text : List Char) : Mark.Line text ((ofText text).items.flatMap marks) := by
  obtain ⟨s, hreaches, -⟩ := ofText_reaches text
  have hsited := hreaches.sited (EventStream.ofText_steady text) (EventStream.ofText_sited text)
  exact ⟨hsited.2, ofText_ordered text⟩

/-- What cuts the events of a text short is told with marks of the text. -/
theorem ofText_points {text : List Char} {d : Diagnostic} (h : (ofText text).fault = some d) :
    d.Points text := by
  obtain ⟨s, hreaches, hnext⟩ := ofText_reaches text
  have hsteady := hreaches.steady (EventStream.ofText_steady text)
  have hsited := hreaches.sited (EventStream.ofText_steady text) (EventStream.ofText_sited text)
  rw [h] at hnext
  exact (hsteady.1.next_endsIn hsited.1).faults d hnext

end Event

end Playbook
