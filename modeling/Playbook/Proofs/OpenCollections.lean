import Playbook.Proofs.EventOrder
import Playbook.Proofs.StreamsInUse

/-!
The open collections of the event machine. A collection opens with the event that starts it, and the
token that opens it is the first one that is still unread then. Its start is noted when the token is
read, in the next step, and forgotten with the end of the collection; only a list that is not
indented and a mapping of a single pair have no token of their own, and are not noted. What is noted
and what the machine has put off are two stacks, and they stay in step. So where the machine finds
a token that a collection does not admit, it can say where that collection starts.
-/

namespace Playbook

/-- A collection is opened by a sign or by an indentation of its own. -/
def TokenKind.opensCollection : TokenKind → Bool
  | .blockSequenceStart | .blockMappingStart | .flowSequenceStart | .flowMappingStart => true
  | _ => false

namespace EventKind

def closes : EventKind → Bool
  | .sequenceEnd | .mappingEnd => true
  | _ => false

/-- A document starts or ends, or the stream ends. -/
def boundsDocument : EventKind → Bool
  | .documentStart _ | .documentEnd | .streamEnd => true
  | _ => false

end EventKind

/-- What was being read is a collection. -/
def Activity.ofCollection : Activity → Bool
  | .blockCollection | .blockMapping | .flowSequence | .flowMapping => true
  | _ => false

/-- A collection does not go on as it should. -/
def Problem.ofCollection : Problem → Bool
  | .expectedBlockEnd _ | .expectedSequenceEnd _ | .expectedMappingEnd _ => true
  | _ => false

namespace Diagnostic

/-- The problem is one of a collection, or it is told as one. -/
def inCollection (d : Diagnostic) : Bool :=
  d.problem.ofCollection || d.context.any Activity.ofCollection

/-- If the problem is one of a collection, it is told with the innermost of the marks. -/
def Tells (marks : List Mark) (d : Diagnostic) : Prop :=
  d.stage = .events → d.inCollection = true →
    ∃ activity m, activity.ofCollection = true ∧ marks.head? = some m ∧
      d.context = some activity ∧ d.contextMark = some m

theorem tells_of_not {marks : List Mark} {d : Diagnostic} (h : d.inCollection = false) :
    d.Tells marks := by
  intro _ hcollection
  rw [h] at hcollection
  cases hcollection

end Diagnostic

open Diagnostic

namespace EventStream

/-- The start of the token that opens a collection, if it has one of its own. -/
def openMark : List Token → Option Mark
  | [] => none
  | token :: _ => if token.kind.opensCollection then some token.start else none

theorem openMark_of_opens {token : Token} {rest : List Token}
    (h : token.kind.opensCollection = true) : openMark (token :: rest) = some token.start :=
  if_pos h

theorem openMark_of_not {token : Token} {rest : List Token}
    (h : token.kind.opensCollection = false) : openMark (token :: rest) = none :=
  if_neg (by simp [h])

/-- The open collections after an event, each with the tokens that were unread when it opened. -/
def track (kind : EventKind) (unread : List Token) (opened : List (List Token)) :
    List (List Token) :=
  if kind.opens then unread :: opened
  else if kind.closes then opened.tail
  else opened

/-- The states that have still to read the token that opens their collection. -/
def firsts : List Expect :=
  [.blockSequenceFirst, .blockMappingFirst, .flowSequenceFirst, .flowMappingFirst]

/-- The collections that a state belongs to, innermost first, and whether their starts are noted. -/
def collections : Expect → List Bool
  | .streamStart | .implicitDocumentStart | .documentStart | .documentContent | .documentEnd
  | .blockNode => []
  | .indentlessEntry => [false]
  | .pairKey | .pairValue | .pairEnd => [false, true]
  | _ => [true]

/-- The tokens from the one on that opens a collection. A list that is not indented is opened by its
first entry, and a mapping of a single pair by its key. -/
def Opening (all unread : List Token) : Prop :=
  unread <:+ all ∧ ∃ token rest, unread = token :: rest ∧
    (token.kind.opensCollection = true ∨ token.kind = .blockEntry ∨ token.kind = .key)

variable {all : List Token} {es es' : List Expect} {opened : List (List Token)}
  {s s' : EventStream} {e e' : Expect}

/-- The open collections are those of the states, and all that are to be noted are. -/
structure Noted (all : List Token) (es : List Expect) (opened : List (List Token))
    (s : EventStream) : Prop where
  fault : ∀ d, s.tokens.fault = some d → d.stage = .tokens
  items : s.tokens.items <:+ all
  entered : ∀ e ∈ es, e ∉ firsts
  kinds : opened.map (fun unread => (openMark unread).isSome) = es.flatMap collections
  marks : s.openMarks = opened.filterMap openMark
  read : ∀ unread ∈ opened, (openMark unread).isSome = true →
    s.tokens.items.length < unread.length
  starts : ∀ unread ∈ opened, Opening all unread

namespace Noted

/-- Some tokens were read. -/
theorem later (h : Noted all es opened s) (hfault : s'.tokens.fault = s.tokens.fault)
    (hitems : s'.tokens.items <:+ s.tokens.items) (hmarks : s'.openMarks = s.openMarks) :
    Noted all es opened s' where
  fault d hd := h.fault d (hfault ▸ hd)
  items := hitems.trans h.items
  entered := h.entered
  kinds := h.kinds
  marks := hmarks.trans h.marks
  read unread hunread hmark := Nat.lt_of_le_of_lt hitems.length_le (h.read unread hunread hmark)
  starts := h.starts

theorem same (h : Noted all es opened s) (htokens : s'.tokens = s.tokens)
    (hmarks : s'.openMarks = s.openMarks) : Noted all es opened s' :=
  h.later (by rw [htokens]) (by rw [htokens]) hmarks

theorem skip (h : Noted all es opened s) : Noted all es opened s.skip :=
  h.later rfl (List.tail_suffix _) rfl

theorem readTo {used rest : List Token} (h : Noted all es opened s) (hpassed : s.Passed used rest) :
    Noted all es opened (s.readTo rest) :=
  h.later rfl ⟨used, hpassed.items.symm⟩ rfl

/-- The machine goes over to states of the same collections. -/
theorem states (h : Noted all es opened s)
    (hkinds : es'.flatMap collections = es.flatMap collections)
    (hentered : ∀ e ∈ es', e ∉ firsts) : Noted all es' opened s :=
  { h with entered := hentered, kinds := h.kinds.trans hkinds.symm }

theorem entered_tail (h : Noted all (e :: es) opened s) : ∀ e ∈ es, e ∉ firsts :=
  (List.forall_mem_cons.mp h.entered).2

theorem exchange (h : Noted all (e :: es) opened s) (he : collections e' = collections e)
    (hfirst : e' ∉ firsts) : Noted all (e' :: es) opened s :=
  h.states (by simp [he]) (List.forall_mem_cons.mpr ⟨hfirst, h.entered_tail⟩)

/-- A state that belongs to no collection is left. -/
theorem outside (h : Noted all (e :: es) opened s) (he : collections e = []) :
    Noted all es opened s :=
  h.states (by simp [he]) h.entered_tail

/-- A state that belongs to no collection is put off. -/
theorem push (h : Noted all es opened s) (he : collections e = []) (hfirst : e ∉ firsts) :
    Noted all (e :: es) opened s :=
  h.states (by simp [he]) (List.forall_mem_cons.mpr ⟨hfirst, h.entered⟩)

/-- A collection opens without a token of its own. -/
theorem bare {token : Token} {rest : List Token} (h : Noted all es opened s)
    (hitems : s.tokens.items = token :: rest) (hkind : token.kind = .blockEntry ∨ token.kind = .key)
    (hkinds : es'.flatMap collections = false :: es.flatMap collections)
    (hentered : ∀ e ∈ es', e ∉ firsts) : Noted all es' (s.tokens.items :: opened) s := by
  have hmark : openMark s.tokens.items = none := by
    rw [hitems]
    rcases hkind with hkind | hkind <;> exact openMark_of_not (by rw [hkind]; rfl)
  refine ⟨h.fault, h.items, hentered, ?_, ?_, ?_, ?_⟩
  · rw [hkinds, List.map_cons, hmark, h.kinds]
    rfl
  · rw [List.filterMap_cons_none hmark, h.marks]
  · refine List.forall_mem_cons.mpr ⟨fun hsome => ?_, h.read⟩
    rw [hmark] at hsome
    cases hsome
  · exact List.forall_mem_cons.mpr ⟨⟨h.items, token, rest, hitems, Or.inr hkind⟩, h.starts⟩

/-- A collection without a token of its own ends. -/
theorem ended (h : Noted all es opened s)
    (hkinds : es.flatMap collections = false :: es'.flatMap collections)
    (hentered : ∀ e ∈ es', e ∉ firsts) : Noted all es' opened.tail s := by
  have hall := h.kinds
  rw [hkinds] at hall
  cases opened with
  | nil => cases hall
  | cons unread opened =>
      obtain ⟨hmark, hkinds'⟩ := List.cons.inj hall
      have hnone : openMark unread = none := by simpa using hmark
      refine ⟨h.fault, h.items, hentered, hkinds', ?_, (List.forall_mem_cons.mp h.read).2,
        (List.forall_mem_cons.mp h.starts).2⟩
      rw [h.marks, List.filterMap_cons_none hnone]
      rfl

/-- The innermost collection has a token of its own. -/
theorem innermost {more : List Bool} (h : Noted all es opened s)
    (hkinds : es.flatMap collections = true :: more) :
    ∃ unread outer m, opened = unread :: outer ∧ openMark unread = some m ∧
      s.openMarks = m :: outer.filterMap openMark := by
  have hall := h.kinds
  rw [hkinds] at hall
  cases opened with
  | nil => cases hall
  | cons unread outer =>
      obtain ⟨m, hm⟩ := Option.isSome_iff_exists.mp (List.cons.inj hall).1
      exact ⟨unread, outer, m, rfl, hm, h.marks.trans (List.filterMap_cons_some hm)⟩

/-- A collection with a token of its own ends. -/
theorem closed (h : Noted all es opened s)
    (hkinds : es.flatMap collections = true :: es'.flatMap collections)
    (hentered : ∀ e ∈ es', e ∉ firsts) : Noted all es' opened.tail s.close := by
  obtain ⟨unread, outer, m, rfl, hm, hmarks⟩ := h.innermost hkinds
  have hall := h.kinds
  rw [hkinds] at hall
  refine ⟨h.fault, h.items, hentered, (List.cons.inj hall).2, ?_,
    (List.forall_mem_cons.mp h.read).2, (List.forall_mem_cons.mp h.starts).2⟩
  change s.openMarks.tail = _
  rw [hmarks]
  rfl

/-- The token that opens a collection is read. -/
theorem openAt {token : Token} {rest : List Token} (h : Noted all es opened s)
    (hitems : s.tokens.items = token :: rest) (hopens : token.kind.opensCollection = true)
    (he : collections e = [true]) (hfirst : e ∉ firsts) :
    Noted all (e :: es) (s.tokens.items :: opened) (s.skip.openAt token.start) := by
  have hmark : openMark s.tokens.items = some token.start := by
    rw [hitems]
    exact openMark_of_opens hopens
  refine ⟨h.fault, h.skip.items, List.forall_mem_cons.mpr ⟨hfirst, h.entered⟩, ?_, ?_, ?_, ?_⟩
  · rw [List.map_cons, hmark, h.kinds, List.flatMap_cons, he]
    rfl
  · rw [List.filterMap_cons_some hmark, ← h.marks]
    rfl
  · refine List.forall_mem_cons.mpr ⟨fun _ => ?_, h.skip.read⟩
    change s.tokens.items.tail.length < _
    rw [hitems]
    exact Nat.lt_succ_self _
  · exact List.forall_mem_cons.mpr ⟨⟨h.items, token, rest, hitems, Or.inl hopens⟩, h.starts⟩

/-- A token that the innermost collection does not admit is told with the start of the
collection. -/
theorem unexpected {more : List Bool} {activity : Activity} {problem : Problem} {mark : Mark}
    (h : Noted all es opened s) (hkinds : es.flatMap collections = true :: more)
    (hactivity : activity.ofCollection = true) :
    (s.unexpected activity problem mark).Tells (opened.filterMap openMark) := by
  intro _ _
  obtain ⟨unread, outer, m, rfl, hm, hmarks⟩ := h.innermost hkinds
  refine ⟨activity, m, hactivity, ?_, ?_⟩
  · rw [List.filterMap_cons_some hm]
    rfl
  · rw [EventStream.unexpected, hmarks]
    exact ⟨rfl, rfl⟩

end Noted

/-- What is open, and what of it is noted. A collection whose token is still unread is not. -/
inductive Tracks (all : List Token) (opened : List (List Token)) (s : EventStream) : Prop
  | first {e : Expect} {token : Token} {rest : List Token} {outer : List (List Token)}
      (hstate : s.state = some e) (hfirst : e ∈ firsts) (hitems : s.tokens.items = token :: rest)
      (hopens : token.kind.opensCollection = true) (hopened : opened = s.tokens.items :: outer)
      (h : Noted all s.pending outer s) : Tracks all opened s
  | within (h : Noted all s.stack opened s) : Tracks all opened s

theorem Noted.pop (h : Noted all s.pending opened s) : Tracks all opened s.pop :=
  .within (by rw [stack_pop]; exact h.same rfl rfl)

theorem Noted.expect (h : Noted all (e :: s.pending) opened s) : Tracks all opened (s.expect e) :=
  .within (h.same rfl rfl)

/-- The start of a collection, with its opening token still to be read. -/
theorem Noted.first {token : Token} {rest : List Token} (h : Noted all s.pending opened s)
    (hfirst : e ∈ firsts) (hitems : s.tokens.items = token :: rest)
    (hopens : token.kind.opensCollection = true) :
    Tracks all (s.tokens.items :: opened) (s.expect e) :=
  .first rfl hfirst hitems hopens rfl (h.same rfl rfl)

/-- A step keeps track of what is open, and starts or ends a document only where nothing is. Its
diagnostic tells where the innermost open collection starts. -/
def Follows (all : List Token) (opened : List (List Token)) (x : Step) : Prop :=
  EndsIn (fun found => Tracks all (track found.1.kind found.2.tokens.items opened) found.2 ∧
      (found.1.kind.boundsDocument = true → opened = []))
    (Tells (opened.filterMap openMark)) x

section

variable {event : Event} {t : Token} {rest : List Token} {block indentless : Bool}

theorem follows_leaf (hopens : event.kind.opens = false) (hcloses : event.kind.closes = false)
    (hbounds : event.kind.boundsDocument = false) (h : Tracks all opened s') :
    Follows all opened (.ok (event, s')) := by
  refine ⟨?_, fun hdocument => ?_⟩
  · simpa [track, hopens, hcloses] using h
  · cases hbounds.symm.trans hdocument

theorem follows_opens (hopens : event.kind.opens = true)
    (h : Tracks all (s'.tokens.items :: opened) s') : Follows all opened (.ok (event, s')) := by
  refine ⟨?_, fun hdocument => ?_⟩
  · simpa [track, hopens] using h
  · cases hkind : event.kind <;> simp [hkind, EventKind.opens, EventKind.boundsDocument] at *

theorem follows_closes (hcloses : event.kind.closes = true) (h : Tracks all opened.tail s') :
    Follows all opened (.ok (event, s')) := by
  refine ⟨?_, fun hdocument => ?_⟩
  · have hopens : event.kind.opens = false := by
      cases hkind : event.kind <;> simp [hkind, EventKind.opens, EventKind.closes] at *
    simpa [track, hopens, hcloses] using h
  · cases hkind : event.kind <;> simp [hkind, EventKind.closes, EventKind.boundsDocument] at *

/-- Between documents nothing is open. -/
theorem follows_outside (hopens : event.kind.opens = false) (hcloses : event.kind.closes = false)
    (h : Tracks all [] s') : Follows all [] (.ok (event, s')) := by
  refine ⟨?_, fun _ => rfl⟩
  simpa [track, hopens, hcloses] using h

theorem token_follows (h : Noted all es opened s) :
    EndsIn (fun t => ∃ rest, s.tokens.items = t :: rest) (Tells (opened.filterMap openMark))
      s.token := by
  refine Faults.endsIn (fun d hd => ?_) fun t ht => token_eq_ok_iff.mp ht
  unfold token at hd
  split at hd
  · cases hd
  · rename_i hfault
    cases hd
    intro hstage
    cases (h.fault _ hfault).symm.trans hstage
  · cases hd
    exact tells_of_not rfl

theorem kind_follows (h : Noted all es opened s) :
    EndsIn (fun _ => True) (Tells (opened.filterMap openMark)) s.kind :=
  (token_follows h).map fun _ _ => trivial

/-! ### Nodes -/

theorem property_follows {run : PropertyRun} (h : Noted all es opened s) :
    EndsIn (fun found : PropertyRun × EventStream =>
        Noted all es opened found.2 ∧ found.2.pending = s.pending)
      (Tells (opened.filterMap openMark)) (property run s) := by
  refine (token_follows h).bind fun t _ => ?_
  dsimp only
  split
  · exact ⟨h.skip, rfl⟩
  · exact ⟨h.skip, rfl⟩
  · exact ⟨h, rfl⟩

theorem resolveTag_tells {run : PropertyRun} {marks : List Mark} :
    Faults (Tells marks) (s.resolveTag run) := by
  unfold resolveTag
  split
  · exact faults_ok _
  · exact faults_ok _
  · split
    · exact faults_ok _
    · refine faults_error (tells_of_not ?_)
      cases run.start <;> rfl

theorem node_follows (h : Noted all s.pending opened s) :
    Follows all opened (s.node block indentless) := by
  refine (token_follows h).bind fun t _ => ?_
  split
  · exact follows_leaf rfl rfl rfl h.skip.pop
  · refine (property_follows h).bind fun ⟨run₁, s₁⟩ ⟨hs₁, hpending₁⟩ => ?_
    refine (property_follows hs₁).bind fun ⟨run₂, s₂⟩ ⟨hs₂, hpending₂⟩ => ?_
    refine (resolveTag_tells.endsIn (Q := fun _ => True) fun _ _ => trivial).bind fun tag _ => ?_
    refine (token_follows hs₂).bind fun token ⟨rest, hitems⟩ => ?_
    -- Anchor and tag are read before the token that opens the collection.
    have hs : Noted all s₂.pending opened s₂ := by
      rw [hpending₂, hpending₁]
      exact hs₂
    dsimp only
    split
    · exact follows_leaf rfl rfl rfl hs.skip.pop
    · rename_i hkind
      exact follows_opens rfl (hs.first (by decide) hitems (by rw [hkind]; rfl))
    · rename_i hkind
      exact follows_opens rfl (hs.first (by decide) hitems (by rw [hkind]; rfl))
    · split_ifs with hentry hsequence hmapping
      · simp only [Bool.and_eq_true, beq_iff_eq] at hentry
        refine follows_opens rfl (Noted.expect ?_)
        exact hs.bare hitems (Or.inl hentry.1) rfl
          (List.forall_mem_cons.mpr ⟨by decide, hs.entered⟩)
      · simp only [Bool.and_eq_true, beq_iff_eq] at hsequence
        exact follows_opens rfl (hs.first (by decide) hitems (by rw [hsequence.1]; rfl))
      · simp only [Bool.and_eq_true, beq_iff_eq] at hmapping
        exact follows_opens rfl (hs.first (by decide) hitems (by rw [hmapping.1]; rfl))
      · exact follows_leaf rfl rfl rfl hs.pop
      all_goals exact tells_of_not rfl

theorem pushed_follows {after : Expect} (h : Noted all (after :: s.pending) opened s) :
    Follows all opened ((s.push after).node block indentless) :=
  node_follows (h.same rfl rfl)

theorem nodeUnless_follows {stops : List TokenKind} {after : Expect}
    (h : Noted all (after :: s.pending) opened s) :
    Follows all opened (s.nodeUnless t stops after block indentless) := by
  refine (kind_follows h).bind fun kind _ => ?_
  split_ifs
  · exact follows_leaf rfl rfl rfl h.expect
  · exact pushed_follows h

/-! ### Documents -/

theorem directive_tells {run : DirectiveRun} {marks : List Mark} :
    Faults (Tells marks) (directive run t) := by
  have hplain : ∀ {problem : Problem}, problem.ofCollection = false → Faults (Tells marks)
      (.error (.plain .events problem t.start) : Except Diagnostic DirectiveRun) :=
    fun hproblem => faults_error (tells_of_not (by simp [inCollection, Diagnostic.plain, hproblem]))
  unfold directive
  split
  · exact faults_ite (fun _ => hplain rfl) fun _ =>
      faults_ite (fun _ => faults_ok _) fun _ => hplain rfl
  · exact faults_ite (fun _ => hplain rfl) fun _ => faults_ok _
  · exact hplain rfl
  · exact faults_ok _

theorem directives_follows (h : Noted all es opened s) :
    EndsIn (fun s' => Noted all es opened s' ∧ s'.pending = s.pending)
      (Tells (opened.filterMap openMark)) s.directives := by
  have hlines : ∀ (lines : List Token) (run : DirectiveRun),
      Faults (Tells (opened.filterMap openMark)) (lines.foldlM directive run) := by
    intro lines
    induction lines with
    | nil => exact fun run => faults_ok run
    | cons t lines ih => exact fun run => faults_bind directive_tells ih
  refine Faults.endsIn (faults_bind (hlines _ _) fun _ => faults_ok _) fun s' hs' => ?_
  obtain ⟨used, rest, handles, hpassed, rfl⟩ := directives_outcome hs'
  exact ⟨(h.readTo hpassed).same rfl rfl, rfl⟩

/-- The content of a document comes, and its end is put off. -/
theorem Noted.document (h : Noted all es opened s) (he : collections e = [])
    (hfirst : e ∉ firsts) : Noted all (e :: .documentEnd :: es) opened s :=
  (h.push rfl (by decide)).push he hfirst

theorem explicitDocumentStep_follows (h : Noted all s.pending [] s) :
    Follows all [] s.explicitDocumentStep := by
  obtain ⟨used, rest, hpassed, hskip⟩ := s.skipDocumentEnds_outcome
  have hs := h.readTo hpassed
  unfold explicitDocumentStep
  simp only [hskip]
  refine (token_follows hs).bind fun first _ => ?_
  split_ifs
  · exact follows_outside rfl rfl (.within (hs.skip.same rfl rfl))
  · refine (directives_follows hs).bind fun s₁ ⟨hs₁, hpending⟩ => ?_
    refine (token_follows hs₁).bind fun t _ => ?_
    split_ifs
    · have hdocument : Noted all (.documentContent :: .documentEnd :: s₁.pending) [] s₁ :=
        (hpending ▸ hs₁ : Noted all s₁.pending [] s₁).document rfl (by decide)
      exact follows_outside rfl rfl (.within (hdocument.skip.same rfl rfl))
    · exact tells_of_not rfl

theorem implicitDocumentStep_follows (h : Noted all s.pending [] s) :
    Follows all [] s.implicitDocumentStep := by
  refine (token_follows h).bind fun t _ => ?_
  split_ifs
  · exact explicitDocumentStep_follows h
  · have hdocument : Noted all (.blockNode :: .documentEnd :: s.pending) [] s :=
      h.document rfl (by decide)
    exact follows_outside rfl rfl (.within (hdocument.same rfl rfl))

theorem documentEndStep_follows (h : Noted all s.pending [] s) :
    Follows all [] s.documentEndStep := by
  have hs : Noted all (.documentStart :: s.pending) [] s := h.push rfl (by decide)
  refine (token_follows h).bind fun t _ => ?_
  split_ifs
  · exact follows_outside rfl rfl (Noted.expect (s := s.skip) hs.skip)
  · exact follows_outside rfl rfl hs.expect

theorem documentContentStep_follows (h : Noted all s.pending opened s) :
    Follows all opened s.documentContentStep := by
  refine (token_follows h).bind fun t _ => ?_
  split_ifs
  · exact follows_leaf rfl rfl rfl h.pop
  · exact node_follows h

/-! ### Collections -/

/-- The end of a collection that is noted. -/
theorem Noted.close (h : Noted all (e :: s.pending) opened s) (he : collections e = [true]) :
    Tracks all opened.tail s.close := by
  refine .within ?_
  change Noted all s.pop.stack _ _
  rw [stack_pop]
  exact h.closed (by simp [he]) h.entered_tail

theorem blockSequenceStep_follows (h : Noted all (.blockSequenceEntry :: s.pending) opened s) :
    Follows all opened s.blockSequenceStep := by
  refine (token_follows h).bind fun t _ => ?_
  split_ifs
  · exact nodeUnless_follows h.skip
  · exact follows_closes rfl (Noted.close (s := s.skip) h.skip rfl)
  · exact h.unexpected rfl rfl

theorem indentlessStep_follows (h : Noted all (.indentlessEntry :: s.pending) opened s) :
    Follows all opened s.indentlessStep := by
  refine (token_follows h).bind fun t _ => ?_
  split_ifs
  · exact nodeUnless_follows h.skip
  · exact follows_closes rfl (h.ended rfl h.entered_tail).pop

theorem blockKeyStep_follows (h : Noted all (.blockMappingKey :: s.pending) opened s) :
    Follows all opened s.blockKeyStep := by
  refine (token_follows h).bind fun t _ => ?_
  split_ifs
  · exact nodeUnless_follows (h.skip.exchange rfl (by decide))
  · exact follows_closes rfl (Noted.close (s := s.skip) h.skip rfl)
  · exact h.unexpected rfl rfl

/-- The step behind a key: a value if there is a sign for it, else an empty scalar. -/
theorem value_follows {after : Expect} {stops : List TokenKind}
    (h : Noted all (after :: s.pending) opened s) :
    Follows all opened (do
      let token ← s.token
      if token.kind == TokenKind.value then s.skip.nodeUnless token stops after block indentless
      else return (.empty token.start, s.expect after)) := by
  refine (token_follows h).bind fun t _ => ?_
  split_ifs
  · exact nodeUnless_follows h.skip
  · exact follows_leaf rfl rfl rfl h.expect

theorem flowComma_follows {first : Bool} {context : Activity} {problem : String → Problem}
    {more : List Bool} (h : Noted all es opened s)
    (hkinds : es.flatMap collections = true :: more) (hcontext : context.ofCollection = true) :
    EndsIn (fun s' => Noted all es opened s' ∧ s'.pending = s.pending)
      (Tells (opened.filterMap openMark)) (s.flowComma first context problem) := by
  refine (token_follows h).bind fun t _ => ?_
  split_ifs
  · exact ⟨h, rfl⟩
  · exact ⟨h.skip, rfl⟩
  · exact h.unexpected hkinds hcontext

/-- The end of a flow collection: its token is taken up. -/
theorem flowEnd_follows {kind : EventKind} (h : Noted all (e :: s.pending) opened s)
    (he : collections e = [true]) (hkind : kind.closes = true) :
    Follows all opened (do
      let token ← s.token
      return (⟨kind, token.start, token.stop⟩, s.skip.close)) :=
  (token_follows h).bind fun _ _ => follows_closes hkind (Noted.close (s := s.skip) h.skip he)

theorem flowSequenceStep_follows {first : Bool}
    (h : Noted all (.flowSequenceEntry :: s.pending) opened s) :
    Follows all opened (s.flowSequenceStep first) := by
  refine (kind_follows h).bind fun kind _ => ?_
  split_ifs
  · exact flowEnd_follows h rfl rfl
  · refine (flowComma_follows h rfl rfl).bind fun s₁ ⟨hs₁, hpending⟩ => ?_
    rw [← hpending] at hs₁
    refine (token_follows hs₁).bind fun t ⟨rest, hitems⟩ => ?_
    split_ifs with hkey
    · refine follows_opens rfl (Noted.expect ?_)
      exact hs₁.bare hitems (Or.inr (beq_iff_eq.mp hkey)) rfl
        (List.forall_mem_cons.mpr ⟨by decide, hs₁.entered_tail⟩)
    · exact flowEnd_follows hs₁ rfl rfl
    · exact pushed_follows hs₁

theorem flowKeyStep_follows {first : Bool}
    (h : Noted all (.flowMappingKey :: s.pending) opened s) :
    Follows all opened (s.flowKeyStep first) := by
  refine (kind_follows h).bind fun kind _ => ?_
  split_ifs
  · exact flowEnd_follows h rfl rfl
  · refine (flowComma_follows h rfl rfl).bind fun s₁ ⟨hs₁, hpending⟩ => ?_
    rw [← hpending] at hs₁
    refine (token_follows hs₁).bind fun t _ => ?_
    split_ifs
    · exact nodeUnless_follows (hs₁.skip.exchange rfl (by decide))
    · exact flowEnd_follows hs₁ rfl rfl
    · exact pushed_follows (hs₁.exchange rfl (by decide))

/-- A collection whose opening token has still to be read takes it up and goes on with `next`. -/
theorem opened_follows {f : EventStream → Step} {next : Expect}
    (hf : ∀ s₁, Noted all (next :: s₁.pending) opened s₁ → Follows all opened (f s₁))
    (hstate : s.state = some e) (he : e ∈ firsts) (hnext : collections next = [true])
    (hfirst : next ∉ firsts) (h : Tracks all opened s) : Follows all opened (s.opened >>= f) := by
  cases h with
  | @first _ token rest outer _ _ hitems hopens hopened h =>
      have htoken : s.opened = .ok (s.skip.openAt token.start) := by
        rw [EventStream.opened, token_eq_ok_iff.mpr ⟨rest, hitems⟩]
        rfl
      rw [htoken]
      refine hf _ ?_
      rw [hopened]
      exact h.openAt hitems hopens hnext hfirst
  | within h =>
      -- All states of the stack have read their opening token, and this one has not.
      have hmem : e ∈ s.stack := by simp [stack, hstate]
      exact absurd he (h.entered e hmem)

end

theorem Tracks.noted (h : Tracks all opened s) (hstate : s.state = some e) (he : e ∉ firsts) :
    Noted all (e :: s.pending) opened s := by
  cases h with
  | first hstate' hfirst =>
      cases hstate.symm.trans hstate'
      exact absurd hfirst he
  | within h => simpa [stack, hstate] using h

/-- Where no state belongs to a collection, nothing is open. -/
theorem Noted.opened_eq_nil (h : Noted all es opened s) (hes : es.flatMap collections = []) :
    opened = [] :=
  List.map_eq_nil_iff.mp (h.kinds.trans hes)

theorem step_follows (hsound : s.Sound) (hstate : s.state = some e) (h : Tracks all opened s) :
    Follows all opened (s.step e) := by
  have hnoted : e ∉ firsts → Noted all (e :: s.pending) opened s := h.noted hstate
  -- Between documents nothing is put off, so that no collection is open.
  have houtside : e ∈ outer → e ∉ firsts → collections e = [] →
      opened = [] ∧ Noted all s.pending [] s := by
    intro houter hfirst he
    have hpending := hsound.outside e hstate houter
    have hnil := (hnoted hfirst).opened_eq_nil (by simp [he, hpending])
    exact ⟨hnil, hnil ▸ (hnoted hfirst).outside he⟩
  cases e with
  | streamStart =>
      obtain ⟨rfl, hs⟩ := houtside (by decide) (by decide) rfl
      have hnext : Noted all (.implicitDocumentStart :: s.pending) [] s := hs.push rfl (by decide)
      exact (token_follows hs).bind fun _ _ =>
        follows_outside rfl rfl (Noted.expect (s := s.skip) hnext.skip)
  | implicitDocumentStart =>
      obtain ⟨rfl, hs⟩ := houtside (by decide) (by decide) rfl
      exact implicitDocumentStep_follows hs
  | documentStart =>
      obtain ⟨rfl, hs⟩ := houtside (by decide) (by decide) rfl
      exact explicitDocumentStep_follows hs
  | documentContent => exact documentContentStep_follows ((hnoted (by decide)).outside rfl)
  | documentEnd =>
      obtain ⟨rfl, hs⟩ := houtside (by decide) (by decide) rfl
      exact documentEndStep_follows hs
  | blockNode => exact node_follows ((hnoted (by decide)).outside rfl)
  | blockSequenceFirst =>
      exact opened_follows (fun _ => blockSequenceStep_follows) hstate (by decide) rfl (by decide) h
  | blockSequenceEntry => exact blockSequenceStep_follows (hnoted (by decide))
  | indentlessEntry => exact indentlessStep_follows (hnoted (by decide))
  | blockMappingFirst =>
      exact opened_follows (fun _ => blockKeyStep_follows) hstate (by decide) rfl (by decide) h
  | blockMappingKey => exact blockKeyStep_follows (hnoted (by decide))
  | blockMappingValue => exact value_follows ((hnoted (by decide)).exchange rfl (by decide))
  | flowSequenceFirst =>
      exact opened_follows (fun _ => flowSequenceStep_follows) hstate (by decide) rfl (by decide) h
  | flowSequenceEntry => exact flowSequenceStep_follows (hnoted (by decide))
  | pairKey =>
      have hs := hnoted (by decide)
      exact (token_follows hs).bind fun _ _ =>
        nodeUnless_follows (hs.skip.exchange rfl (by decide))
  | pairValue => exact value_follows ((hnoted (by decide)).exchange rfl (by decide))
  | pairEnd =>
      have hs := hnoted (by decide)
      refine (token_follows hs).bind fun _ _ => follows_closes rfl (Noted.expect ?_)
      exact hs.ended rfl (List.forall_mem_cons.mpr ⟨by decide, hs.entered_tail⟩)
  | flowMappingFirst =>
      exact opened_follows (fun _ => flowKeyStep_follows) hstate (by decide) rfl (by decide) h
  | flowMappingKey => exact flowKeyStep_follows (hnoted (by decide))
  | flowMappingValue => exact value_follows ((hnoted (by decide)).exchange rfl (by decide))
  | flowMappingNoValue =>
      have hs := hnoted (by decide)
      refine (token_follows hs).bind fun _ _ => follows_leaf rfl rfl rfl (Noted.expect ?_)
      exact hs.exchange rfl (by decide)

/-! ### Runs -/

/-- The open collections after a call. An event that is ready was taken into account when it was
looked at. -/
def follow (s : EventStream) (found : Option Event) (unread : List Token)
    (opened : List (List Token)) : List (List Token) :=
  match s.ready, found with
  | none, some event => track event.kind unread opened
  | _, _ => opened

/-- The machines that a text leads to, however its events are looked at and taken, with the
collections that are open then, innermost first. -/
inductive Reached (text : List Char) : List (List Token) → EventStream → Prop
  | start : Reached text [] (ofText text)
  | call {opened : List (List Token)} {s s' : EventStream} {found : Option Event}
      (h : Reached text opened s) (c : Call) (hcall : source.call c s = .ok (found, s')) :
      Reached text (s.follow found s'.tokens.items opened) s'

/-- The start of an open collection, if its opening token is one of its own and has been read. -/
def notedMark (s : EventStream) (unread : List Token) : Option Mark :=
  if s.tokens.items.length < unread.length then openMark unread else none

theorem Noted.filterMap_notedMark (h : Noted all es opened s) :
    opened.filterMap s.notedMark = opened.filterMap openMark := by
  refine List.filterMap_congr fun unread hunread => ?_
  unfold notedMark
  split_ifs with hread
  · rfl
  · cases hmark : openMark unread with
    | none => rfl
    | some m => exact absurd (h.read unread hunread (by rw [hmark]; rfl)) hread

/-- The starts of all open collections are noted that have an opening token and have read it. -/
theorem Tracks.openMarks_eq (h : Tracks all opened s) :
    s.openMarks = opened.filterMap s.notedMark := by
  cases h with
  | first _ _ _ _ hopened h =>
      have hunread : s.notedMark s.tokens.items = none := if_neg (Nat.lt_irrefl _)
      rw [hopened, List.filterMap_cons_none hunread, h.filterMap_notedMark, h.marks]
  | within h => rw [h.filterMap_notedMark, h.marks]

theorem Tracks.starts (h : Tracks all opened s) : ∀ unread ∈ opened, Opening all unread := by
  cases h with
  | first _ _ hitems hopens hopened h =>
      rw [hopened]
      exact List.forall_mem_cons.mpr ⟨⟨h.items, _, _, hitems, Or.inl hopens⟩, h.starts⟩
  | within h => exact h.starts

theorem Tracks.withReady (h : Tracks all opened s) (ready : Option Event) :
    Tracks all opened { s with ready } := by
  cases h with
  | first hstate hfirst hitems hopens hopened h =>
      exact .first hstate hfirst hitems hopens hopened (h.same rfl rfl)
  | within h => exact .within (h.same rfl rfl)

/-- What is known of the machine between two calls. -/
structure Accounts (all : List Token) (opened : List (List Token)) (s : EventStream) : Prop where
  sound : s.Sound
  tracks : Tracks all opened s
  ready : ∀ event, s.ready = some event → event.kind.boundsDocument = true → s.openMarks = []

theorem Tracks.accounts (h : Tracks all opened s) (hsound : s.Sound) {ready : Option Event}
    (hready : ∀ event, ready = some event → event.kind.boundsDocument = true → s.openMarks = []) :
    Accounts all opened { s with ready } where
  sound := ⟨hsound.supplied, hsound.opening, hsound.outside, hsound.inside, hsound.finished⟩
  tracks := h.withReady ready
  ready := hready

/-- What a call comes to: it keeps account of what is open, and no event starts or ends a document
with anything noted. -/
def Answers (all : List Token) (opened : List (List Token)) (s : EventStream)
    (x : Except Diagnostic (Option Event × EventStream)) : Prop :=
  EndsIn (fun found => Accounts all (s.follow found.1 found.2.tokens.items opened) found.2 ∧
      ∀ event, found.1 = some event → event.kind.boundsDocument = true → found.2.openMarks = [])
    (Tells (opened.filterMap openMark)) x

theorem openMarks_of_bounds {event : Event}
    (h : Tracks all (track event.kind s.tokens.items []) s)
    (hkind : event.kind.boundsDocument = true) : s.openMarks = [] := by
  have hnil : track event.kind s.tokens.items [] = [] := by
    cases hevent : event.kind <;>
      simp [hevent, track, EventKind.opens, EventKind.boundsDocument] at hkind ⊢
  rw [h.openMarks_eq, hnil]
  rfl

theorem Accounts.peek (h : Accounts all opened s) : Answers all opened s s.peek := by
  unfold EventStream.peek
  cases hready : s.ready with
  | some event =>
      refine ⟨by simpa [follow, hready] using h, ?_⟩
      rintro _ ⟨⟩
      exact h.ready event hready
  | none =>
      cases hstate : s.state with
      | none => exact ⟨by simpa [follow, hready] using h, nofun⟩
      | some e =>
          have hstep := step_follows h.sound hstate h.tracks
          have hexpect : (s.expect e).Sound := (expect_self hstate).symm ▸ h.sound
          dsimp only
          cases hfound : s.step e with
          | error d =>
              rw [hfound] at hstep
              exact hstep
          | ok found =>
              obtain ⟨event, s₁⟩ := found
              rw [hfound] at hstep
              obtain ⟨htracks, hbounds⟩ := hstep
              have hsound₁ := (step_yields hexpect hfound).sound hexpect
              -- The event is now ready, so a later call answers it without a step.
              have hready₁ : ∀ event', some event = some event' →
                  event'.kind.boundsDocument = true → s₁.openMarks = [] := by
                rintro _ ⟨⟩ hkind
                rw [hbounds hkind] at htracks
                exact openMarks_of_bounds htracks hkind
              have haccounts := htracks.accounts hsound₁ hready₁
              exact ⟨by simpa [follow, hready] using haccounts, hready₁⟩

theorem Accounts.call (h : Accounts all opened s) (c : Call) :
    Answers all opened s (source.call c s) := by
  cases c with
  | peek => exact h.peek
  | next =>
      refine EndsIn.bind h.peek fun ⟨found, s₁⟩ ⟨haccounts, hbounds⟩ => ?_
      exact ⟨haccounts.tracks.accounts haccounts.sound nofun, hbounds⟩

theorem Reached.accounts {text : List Char} (h : Reached text opened s) :
    Accounts (Token.ofText text).items opened s := by
  induction h with
  | start =>
      have hsteady := ofText_steady text
      have hentered : ∀ e ∈ [Expect.streamStart], e ∉ firsts := by decide
      refine ⟨hsteady.sound, .within ?_, nofun⟩
      exact ⟨fun d hd => (Token.ofText_faults hd).stage, List.suffix_refl _, hentered, rfl, rfl,
        nofun, nofun⟩
  | call _ c hcall ih =>
      have hanswers := ih.call c
      rw [hcall] at hanswers
      exact hanswers.1

/-- The states in which a token may be found that the collection does not admit. -/
def admitting : List Expect :=
  [.blockSequenceEntry, .blockMappingKey, .flowSequenceEntry, .flowMappingKey]

theorem Tracks.openMarks_ne_nil (h : Tracks all opened s) (he : e ∈ admitting)
    (hstate : s.state = some e) : s.openMarks ≠ [] := by
  have hadmitting : ∀ e ∈ admitting, e ∉ firsts ∧ collections e = [true] := by decide
  obtain ⟨hfirst, hkinds⟩ := hadmitting e he
  have hnoted := h.noted hstate hfirst
  obtain ⟨_, _, m, -, -, hmarks⟩ := hnoted.innermost (by rw [List.flatMap_cons, hkinds]; rfl)
  rw [hmarks]
  exact List.cons_ne_nil _ _

theorem Tracks.openMarks_eq_nil (h : Tracks all opened s) (hsound : s.Sound)
    (houter : ∀ e, s.state = some e → e ∈ outer) : s.openMarks = [] := by
  have hkinds : ∀ e ∈ outer, e ∉ firsts ∧ collections e = [] := by decide
  cases hstate : s.state with
  | none =>
      cases h with
      | first hstate' => cases hstate.symm.trans hstate'
      | within h =>
          have hopened := h.opened_eq_nil (by simp [stack, hstate, hsound.finished hstate])
          rw [h.marks, hopened]
          rfl
  | some e =>
      have he := houter e hstate
      have hpending := hsound.outside e hstate he
      have hnoted := h.noted hstate (hkinds e he).1
      rw [hnoted.marks, hnoted.opened_eq_nil (by simp [(hkinds e he).2, hpending])]
      rfl

/-- However the events of a text are looked at and taken, the machine has noted, innermost first,
where the open collections start whose opening token it has read. A problem with what stands in a
collection is told with the start of the innermost one, and where such a problem may be found, there
is a start to tell. Nothing is noted where a document starts or ends and at the end of the
stream. -/
theorem Reached.notes {text : List Char} (h : Reached text opened s) :
    (∀ unread ∈ opened, Opening (Token.ofText text).items unread) ∧
    s.openMarks = opened.filterMap s.notedMark ∧
    (∀ c d, source.call c s = .error d → d.Tells (opened.filterMap openMark)) ∧
    (∀ e ∈ admitting, s.state = some e → s.openMarks ≠ []) ∧
    ((∀ e, s.state = some e → e ∈ outer) → s.openMarks = []) ∧
    (∀ c event s', source.call c s = .ok (some event, s') →
      event.kind.boundsDocument = true → s'.openMarks = []) := by
  have haccounts := h.accounts
  have htracks := haccounts.tracks
  refine ⟨htracks.starts, htracks.openMarks_eq, fun c d hcall => ?_, fun e he hstate => ?_,
    fun houter => ?_, fun c event s' hcall hkind => ?_⟩
  · have hanswers := haccounts.call c
    rw [hcall] at hanswers
    exact hanswers
  · exact htracks.openMarks_ne_nil he hstate
  · exact htracks.openMarks_eq_nil haccounts.sound houter
  · have hanswers := haccounts.call c
    rw [hcall] at hanswers
    exact hanswers.2 event rfl hkind

end EventStream

/-! ### The parser in use -/

namespace Parser

open EventStream (Opening openMark admitting outer)

variable {text : List Char} {p p' : Parser} {s : EventStream}

theorem Agrees.call_ok {c : Call} {found : Option Event} (h : p.Agrees s)
    (hcall : Parse.live.call c p = .ok found p') :
    ∃ s', EventStream.source.call c s = .ok (found, s') ∧ p'.Agrees s' := by
  have hmatches := Parse.live_matches h c
  rw [Live.source_call, outcome, hcall] at hmatches
  generalize EventStream.source.call c s = r at hmatches
  cases hmatches with
  | ok h' => exact ⟨_, rfl, h'⟩

/-- The parser tells what is wrong as the machine does, unless the tokens are at an end. -/
theorem Agrees.call_error {c : Call} {d : Diagnostic} (h : p.Agrees s)
    (hcall : Parse.live.call c p = .error d p') :
    EventStream.source.call c s = .error d ∨ ∃ m, d = .plain .events .tokensExhausted m := by
  have hmatches := Parse.live_matches h c
  rw [Live.source_call, outcome, hcall] at hmatches
  generalize EventStream.source.call c s = r at hmatches
  cases hmatches with
  | error => exact .inl rfl
  | exhausted m m' => exact .inr ⟨m, rfl⟩

/-- The states that the parser of a text comes to, however its events are looked at and taken, up to
the first error. -/
def Reached (text : List Char) (p : Parser) : Prop :=
  ∃ calls, (∀ answer ∈ Parse.live.answers (start text) calls, answer.isOk = true) ∧
    Parse.live.after (start text) calls = p

theorem Agrees.after {opened : List (List Token)} {calls : List Call} (h : p.Agrees s)
    (hs : EventStream.Reached text opened s)
    (hok : ∀ answer ∈ Parse.live.answers p calls, answer.isOk = true) :
    ∃ opened' s', EventStream.Reached text opened' s' ∧ (Parse.live.after p calls).Agrees s' := by
  induction calls generalizing opened p s with
  | nil => exact ⟨opened, s, hs, h⟩
  | cons c calls ih =>
      rw [Live.answers] at hok
      rw [Live.after]
      cases hcall : Parse.live.call c p with
      | error d p' =>
          rw [hcall] at hok
          cases hok _ List.mem_cons_self
      | ok found p' =>
          rw [hcall] at hok
          obtain ⟨s', hcall', h'⟩ := h.call_ok hcall
          exact ih h' (hs.call c hcall') fun answer hanswer =>
            hok answer (List.mem_cons_of_mem _ hanswer)

/-- However the events of a text are looked at and taken, up to the first error the parser has
noted, innermost first, where the open collections start whose opening token it has read. A problem
with what stands in a collection is told with the start of the innermost one, and where such a
problem may be found, there is a start to tell. Nothing is noted where a document starts or ends and
at the end of the stream. -/
theorem Reached.open_marks (h : Reached text p) :
    ∃ opened s, EventStream.Reached text opened s ∧ p.Agrees s ∧
      (∀ unread ∈ opened, Opening (Token.ofText text).items unread) ∧
      p.openMarks = opened.filterMap s.notedMark ∧
      (∀ c d p', Parse.live.call c p = .error d p' → d.Tells (opened.filterMap openMark)) ∧
      (∀ e ∈ admitting, p.state = some e → p.openMarks ≠ []) ∧
      ((∀ e, p.state = some e → e ∈ outer) → p.openMarks = []) ∧
      (∀ c event p', Parse.live.call c p = .ok (some event) p' →
        event.kind.boundsDocument = true → p'.openMarks = []) := by
  obtain ⟨calls, hok, rfl⟩ := h
  obtain ⟨opened, s, hs, hp⟩ := (start_agrees text).after .start hok
  obtain ⟨hopening, hmarks, htells, hadmitting, houter, hbounds⟩ := hs.notes
  refine ⟨opened, s, hs, hp, hopening, hp.openMarks.trans hmarks, fun c d p' hcall => ?_, ?_, ?_,
    fun c event p' hcall hkind => ?_⟩
  · rcases hp.call_error hcall with hcall' | ⟨m, rfl⟩
    · exact htells c d hcall'
    · exact tells_of_not rfl
  · rw [hp.state, hp.openMarks]
    exact hadmitting
  · rw [hp.state, hp.openMarks]
    exact houter
  · obtain ⟨s', hcall', hp'⟩ := hp.call_ok hcall
    exact hp'.openMarks.trans (hbounds c event s' hcall' hkind)

/-- Three collections are open before the second string, and the list that is not indented is not
noted. The string is told with the start of the flow sequence. -/
theorem Reached.open_marks_nested :
    ∃ p opened s d p', Reached "a:\n- ['y' 'z']".toList p ∧
      EventStream.Reached "a:\n- ['y' 'z']".toList opened s ∧ p.Agrees s ∧
      opened.filterMap s.notedMark = [⟨5, 1, 2⟩, ⟨0, 0, 0⟩] ∧
      Parse.live.call .next p = .error d p' ∧ d.contextMark = some ⟨5, 1, 2⟩ ∧
      (opened.filterMap openMark).head? = some ⟨5, 1, 2⟩ := by
  have hall : (Parse.live.answers (start "a:\n- ['y' 'z']".toList) (.replicate 7 .next)).all
      (·.isOk) = true := by cbv
  have hmarks : (Parse.live.after (start "a:\n- ['y' 'z']".toList) (.replicate 7 .next)).openMarks =
      [⟨5, 1, 2⟩, ⟨0, 0, 0⟩] := by cbv
  have hcall : outcome Parse.next
      (Parse.live.after (start "a:\n- ['y' 'z']".toList) (.replicate 7 .next)) =
        .error (.within .events .flowSequence ⟨5, 1, 2⟩ (.expectedSequenceEnd "<scalar>")
          ⟨10, 1, 7⟩) := by cbv
  obtain ⟨p', hcall⟩ := outcome_eq_error_iff.mp hcall
  have hreached : Reached "a:\n- ['y' 'z']".toList
      (Parse.live.after (start "a:\n- ['y' 'z']".toList) (.replicate 7 .next)) :=
    ⟨.replicate 7 .next, List.all_eq_true.mp hall, rfl⟩
  obtain ⟨opened, s, hs, hp, -, hopen, htells, -⟩ := hreached.open_marks
  obtain ⟨_, m, -, hm, -, hcontext⟩ := htells .next _ p' hcall rfl rfl
  cases hcontext
  exact ⟨_, opened, s, _, p', hreached, hs, hp, hopen.symm.trans hmarks, hcall, rfl, hm⟩

/-- Behind a quote that is never closed the end of the list is taken for the token that opens it:
its start is noted and told, though only one token opens a collection, and it starts elsewhere. -/
theorem open_marks_behind_error :
    Parse.live.answers (start "- \"a".toList) (.replicate 5 .next) =
      [.ok (some ⟨.streamStart, ⟨0, 0, 0⟩, ⟨0, 0, 0⟩⟩),
        .ok (some ⟨.documentStart false, ⟨0, 0, 0⟩, ⟨0, 0, 0⟩⟩),
        .ok (some ⟨.sequenceStart ⟨none, none⟩ false, ⟨0, 0, 0⟩, ⟨0, 0, 0⟩⟩),
        .error (.within .tokens .quoted ⟨2, 0, 2⟩ .unexpectedEnd ⟨4, 0, 4⟩),
        .error (.within .events .blockCollection ⟨4, 0, 4⟩ (.expectedBlockEnd "<stream end>")
          ⟨4, 0, 4⟩)] ∧
    (Parse.live.after (start "- \"a".toList) (.replicate 4 .next)).openMarks = [⟨0, 0, 0⟩] ∧
    (Parse.live.after (start "- \"a".toList) (.replicate 5 .next)).openMarks =
      [⟨4, 0, 4⟩, ⟨0, 0, 0⟩] ∧
    Scan.live.answers (.start "- \"a".toList) (.replicate 7 .next) =
      [.ok (some ⟨.streamStart, ⟨0, 0, 0⟩, ⟨0, 0, 0⟩⟩),
        .ok (some ⟨.blockSequenceStart, ⟨0, 0, 0⟩, ⟨0, 0, 0⟩⟩),
        .ok (some ⟨.blockEntry, ⟨0, 0, 0⟩, ⟨1, 0, 1⟩⟩),
        .error (.within .tokens .quoted ⟨2, 0, 2⟩ .unexpectedEnd ⟨4, 0, 4⟩),
        .ok (some ⟨.blockEnd, ⟨4, 0, 4⟩, ⟨4, 0, 4⟩⟩),
        .ok (some ⟨.streamEnd, ⟨4, 0, 4⟩, ⟨4, 0, 4⟩⟩), .ok none] := by
  refine ⟨?_, ?_, ?_, ?_⟩ <;> cbv

end Parser

end Playbook
