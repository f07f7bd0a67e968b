import Playbook.Proofs.TokenPositions

/-!
Where the problems of tokens lie. What cuts the tokens of a text short is told with marks of the
text, since it cuts the text with line feeds short at the corresponding place. And whatever was
being read when the problem came up, be it a token or a key that lacks its colon, began before the
problem.
-/

namespace Playbook

/-- The marks of the diagnostic are marks of the text, and the context does not lie behind the
problem. -/
structure Diagnostic.Points (text : List Char) (d : Diagnostic) : Prop where
  problem : d.problemMark.StandsIn text
  context : ∀ m, d.contextMark = some m → m.StandsIn text ∧ m.index ≤ d.problemMark.index

theorem Diagnostic.points_plain {text : List Char} {stage : Stage} {problem : Problem} {m : Mark}
    (h : m.StandsIn text) : (Diagnostic.plain stage problem m).Points text :=
  ⟨h, nofun⟩

/-- The context of the diagnostic does not lie behind its problem. -/
def Diagnostic.InOrder (d : Diagnostic) : Prop :=
  ∀ m, d.contextMark = some m → m.index ≤ d.problemMark.index

theorem Diagnostic.inOrder_of_none {d : Diagnostic} (h : d.contextMark = none) : d.InOrder := by
  intro m hm
  rw [h] at hm
  cases hm

theorem Diagnostic.Mirrors.points {text : List Char} {d d' : Diagnostic}
    (h : Diagnostic.Mirrors (.feeds text) d d') (horder : d'.InOrder) : d'.Points text := by
  refine ⟨h.problemMark.standsIn, fun m hm => ⟨?_, horder m hm⟩⟩
  have hcontext := h.contextMark
  rw [hm] at hcontext
  generalize d.contextMark = context at hcontext
  cases hcontext with
  | some hmark => exact hmark.standsIn

/-- Reading complains of what it finds on its way from where it set out. -/
theorem inOrder_of_mirrors {α : Type} {R : α → α → Prop} {x : Except Diagnostic α}
    {activities : List Activity} {start : Mark} (hfaults : FaultsAmid activities start x)
    (h : Matches (.onward .same start.index) R x x) : Faults Diagnostic.InOrder x := by
  intro d hd
  obtain ⟨activity, -, problem, mark, rfl⟩ := hfaults d hd
  rw [hd] at h
  cases h with
  | error h =>
      intro m hm
      cases hm
      exact h.problemMark.2

section

variable {r : Reader}

theorem Reader.onward_same (r : Reader) : Reader.Mirrors (.onward .same r.mark.index) r r :=
  ⟨rfl, Nat.le_refl _⟩

theorem readName_inOrder {context : Activity} {kind : String → TokenKind} (hpeek : r.peek ≠ '\r') :
    Faults Diagnostic.InOrder (readName context kind r) :=
  inOrder_of_mirrors (readName_faults _ _ r) (readName_mirrors r.onward_same hpeek)

theorem readTag_inOrder (hpeek : r.peek ≠ '\r') : Faults Diagnostic.InOrder (readTag r) :=
  inOrder_of_mirrors (readTag_faults r) (readTag_mirrors r.onward_same hpeek)

theorem readDirective_inOrder (hpeek : r.peek ≠ '\r') :
    Faults Diagnostic.InOrder (readDirective r) :=
  inOrder_of_mirrors (readDirective_faults r) (readDirective_mirrors r.onward_same hpeek)

theorem readQuoted_inOrder {double : Bool} (hpeek : r.peek ≠ '\r') :
    Faults Diagnostic.InOrder (readQuoted double r) :=
  inOrder_of_mirrors (readQuoted_faults double r) (readQuoted_mirrors r.onward_same hpeek)

theorem readBlockScalar_inOrder {folded : Bool} {outer : Int} (hpeek : r.peek ≠ '\r') :
    Faults Diagnostic.InOrder (readBlockScalar folded outer r) :=
  inOrder_of_mirrors (readBlockScalar_faults folded outer r)
    (readBlockScalar_mirrors r.onward_same hpeek)

end

namespace TokenStream

variable {last : Mark} {s s' : TokenStream}

theorem Placed.missingColon (h : s.Placed last) {key : SimpleKey} (hkey : key ∈ s.keys) :
    (s.missingColon key).InOrder := by
  intro m hm
  cases hm
  exact ((h.keys key hkey).after s.mark (by simp)).1

/-- A step that does not read keeps the marks in order and leaves the reader where it is, or comes
to a diagnostic in order. -/
def Settles (last : Mark) (s : TokenStream) (x : Except Diagnostic TokenStream) : Prop :=
  EndsIn (fun s' => s'.Placed last ∧ s'.reader = s.reader) Diagnostic.InOrder x

theorem removeKey_settles (h : s.Placed last) : Settles last s s.removeKey := by
  refine Faults.endsIn ?_ fun s' hremove => ?_
  · unfold removeKey
    split
    · rename_i key hkey
      exact faults_ite (fun _ => faults_error (h.missingColon (List.mem_of_find?_eq_some hkey)))
        fun _ => faults_ok _
    · exact faults_ok _
  · have hdropped := removeKey_dropped hremove
    exact ⟨h.dropped hdropped, hdropped.prepared.reader⟩

theorem dropStaleKeys_settles (h : s.Placed last) : Settles last s s.dropStaleKeys := by
  refine Faults.endsIn ?_ fun s' hdrop => ?_
  · unfold dropStaleKeys
    split
    · rename_i key hkey
      exact faults_error (h.missingColon (List.mem_of_find?_eq_some hkey))
    · exact faults_ok _
  · have hdropped := dropStaleKeys_dropped hdrop
    exact ⟨h.dropped hdropped, hdropped.prepared.reader⟩

theorem saveKey_settles (h : s.Placed last) : Settles last s s.saveKey := by
  refine Faults.endsIn ?_ fun s' hsave => ?_
  · unfold saveKey
    exact faults_ite (fun _ => faults_bind (removeKey_settles h).faults fun _ => faults_ok _)
      fun _ => faults_ok _
  · have hsaved := saveKey_saved hsave
    exact ⟨h.saved hsaved, hsaved.prepared.reader⟩

theorem openBlock_settles (h : s.Placed last) (kind : TokenKind) (refusal : Problem) :
    Settles last s (s.openBlock kind refusal) := by
  refine Faults.endsIn ?_ fun s' hopen => ?_
  · unfold openBlock
    refine faults_ite (fun _ => faults_ok _) fun _ => ?_
    refine faults_ite (fun _ => faults_error (Diagnostic.inOrder_of_none rfl)) fun _ => ?_
    split <;> exact faults_ok _
  · have hmoved := openBlock_moved hopen
    exact ⟨h.moved hmoved, hmoved.prepared.reader⟩

/-! ### Fetching -/

theorem fetchDirective_inOrder (h : s.Placed last) (hpeek : s.reader.peek ≠ '\r') :
    Faults Diagnostic.InOrder s.fetchDirective := by
  have hreader := (s.unwind_moved (-1)).prepared.reader
  refine (removeKey_settles (h.moved (s.unwind_moved (-1)))).faults_bind fun s₁ hs₁ => ?_
  refine faults_bind (readDirective_inOrder ?_) fun _ => faults_ok _
  rwa [hs₁.2, hreader]

theorem fetchKeyed_inOrder {read : Reader → Except Diagnostic (Token × Reader)}
    (hread : ∀ {r : Reader}, r.peek ≠ '\r' → Faults Diagnostic.InOrder (read r))
    (h : s.Placed last) (hpeek : s.reader.peek ≠ '\r') :
    Faults Diagnostic.InOrder (s.fetchKeyed read) := by
  refine (saveKey_settles h).faults_bind fun s₁ hs₁ => ?_
  exact faults_bind (hread (by rwa [hs₁.2])) fun _ => faults_ok _

theorem fetchBlockScalar_inOrder {folded : Bool} (h : s.Placed last)
    (hpeek : s.reader.peek ≠ '\r') :
    Faults Diagnostic.InOrder (s.fetchBlockScalar folded) := by
  refine (removeKey_settles h).faults_bind fun s₁ hs₁ => ?_
  exact faults_bind (readBlockScalar_inOrder (by rwa [hs₁.2])) fun _ => faults_ok _

theorem fetchValue_inOrder (h : s.Placed last) : Faults Diagnostic.InOrder s.fetchValue := by
  unfold fetchValue
  split
  · exact faults_ok _
  · exact faults_bind (openBlock_settles h _ _).faults fun _ => faults_ok _

/-- Nothing starts with a carriage return. -/
theorem fetchSign_of_return (hpeek : s.reader.peek = '\r') :
    s.fetchSign = .error ⟨.tokens, some .nextToken, none, .cannotStartToken '\r', s.mark⟩ := by
  obtain ⟨tail, hrest⟩ := Reader.rest_of_peek hpeek (by decide)
  have hplain : ¬ s.atPlain = true := by
    simp [atPlain, hpeek, isBlankOrEnd, isSpaceOrEnd, isBreakOrEnd, isBreak]
  rw [fetchSign_of_not_indicator hrest (by decide) (by decide), if_neg hplain]

theorem fetchSign_inOrder (h : s.Placed last) : Faults Diagnostic.InOrder s.fetchSign := by
  by_cases hpeek : s.reader.peek = '\r'
  · rw [fetchSign_of_return hpeek]
    exact faults_error (Diagnostic.inOrder_of_none rfl)
  have hremove : ∀ {f : TokenStream → TokenStream},
      Faults Diagnostic.InOrder (s.removeKey >>= fun s₁ => .ok (f s₁)) :=
    faults_bind (removeKey_settles h).faults fun _ => faults_ok _
  have hsave : ∀ {f : TokenStream → TokenStream},
      Faults Diagnostic.InOrder (s.saveKey >>= fun s₁ => .ok (f s₁)) :=
    faults_bind (saveKey_settles h).faults fun _ => faults_ok _
  -- A block is opened and then the key of the place given up.
  have hopen : ∀ {kind : TokenKind} {refusal : Problem} {f : TokenStream → TokenStream},
      Faults Diagnostic.InOrder
        (s.openBlock kind refusal >>= fun s₁ => s₁.removeKey >>= fun s₂ => .ok (f s₂)) :=
    (openBlock_settles h _ _).faults_bind fun s₁ hs₁ =>
      faults_bind (removeKey_settles hs₁.1).faults fun _ => faults_ok _
  have hbranch := s.fetchSign_branch
  generalize s.fetchSign = x at hbranch
  cases hbranch with
  | atEnd =>
      have hplaced := h.moved (s.unwind_moved (-1))
      exact faults_bind (removeKey_settles hplaced).faults fun _ => faults_ok _
  | directive => exact fetchDirective_inOrder h hpeek
  | documentSign => exact faults_ok _
  | flowStart => exact hsave
  | flowEnd => exact hremove
  | flowEntry => exact hremove
  | blockEntry => exact hopen
  | key => exact hopen
  | value => exact fetchValue_inOrder h
  | name => exact fetchKeyed_inOrder readName_inOrder h hpeek
  | tag => exact fetchKeyed_inOrder readTag_inOrder h hpeek
  | blockScalar => exact fetchBlockScalar_inOrder h hpeek
  | quoted => exact fetchKeyed_inOrder readQuoted_inOrder h hpeek
  | plain => exact hsave
  | none => exact faults_error (Diagnostic.inOrder_of_none rfl)

theorem fetch_inOrder (h : s.Placed last) : Faults Diagnostic.InOrder s.fetch :=
  (dropStaleKeys_settles h.skipToToken).faults_bind fun s₁ hs₁ =>
    fetchSign_inOrder (hs₁.1.moved (s₁.unwind_moved _))

/-! ### Handing out -/

theorem needsMore_settles (h : s.Placed last) :
    EndsIn (fun found => found.2.Placed last) Diagnostic.InOrder s.needsMore := by
  unfold needsMore
  split_ifs
  · exact h
  · exact h
  · exact (dropStaleKeys_settles h).bind fun _ hs₁ => hs₁.1

theorem fillFor_inOrder {n : Nat} (h : s.Placed last) :
    Faults Diagnostic.InOrder (fillFor n s) := by
  induction n generalizing s with
  | zero => exact faults_error (Diagnostic.inOrder_of_none rfl)
  | succ n ih =>
      refine (needsMore_settles h).faults_bind ?_
      rintro ⟨more, s₁⟩ hs₁
      refine faults_ite (fun _ => ?_) fun _ => faults_ok _
      intro d hd
      rcases bind_eq_error_iff.mp hd with hd | ⟨s₂, hfetch, hd⟩
      · exact fetch_inOrder hs₁ d hd
      · exact ih (hs₁.fetch hfetch) d hd

theorem next_inOrder (h : s.Standing last) : Faults Diagnostic.InOrder s.next := by
  intro d hd
  rcases bind_eq_error_iff.mp hd with hfill | ⟨s₁, -, hd⟩
  · cases hdone : s.done with
    | true => cases (fill_of_done hdone).symm.trans hfill
    | false => exact fillFor_inOrder (h.2 hdone) d hfill
  · cases hqueue : s₁.queue <;> simp [hqueue] at hd

theorem collect_inOrder {n : Nat} {d : Diagnostic} (h : s.Standing last)
    (hfault : (s.collect n).fault = some d) : d.InOrder := by
  induction n generalizing s last with
  | zero =>
      cases hfault
      exact Diagnostic.inOrder_of_none rfl
  | succ n ih =>
      unfold collect at hfault
      split at hfault
      · rename_i hnext
        cases hfault
        exact next_inOrder h _ hnext
      · cases hfault
      · rename_i hnext
        exact ih (h.next hnext).2.2 hfault

end TokenStream

theorem Token.ofText_stands (text : List Char) :
    ∀ token ∈ (ofText text).items, token.start.StandsIn text ∧ token.stop.StandsIn text :=
  forall_of_forall₂ (ofText_mirrors text).items
    fun _ _ h => ⟨h.start.standsIn, h.stop.standsIn⟩

/-- What cuts the tokens of a text short is told with marks of the text. -/
theorem Token.ofText_points {text : List Char} {d : Diagnostic}
    (h : (ofText text).fault = some d) : d.Points text := by
  have hfault := (ofText_mirrors text).fault
  rw [h] at hfault
  generalize (ofText (lineFeeds text)).fault = fault at hfault
  cases hfault with
  | some hd => exact hd.points (TokenStream.collect_inOrder (TokenStream.standing_start text) h)

end Playbook
