import Playbook.Proofs.MarkOrder
import Playbook.Proofs.TokenRun

/-!
The tokens of a text stand in the order of the text: each starts where the one before it stops or
later. The tokens in front of a key are queued late, but they are put where the key starts; that
this is in order again is what the invariant of the pending keys says.
-/

namespace Playbook

namespace Mark

/-- Marks in the order of the text. -/
def Ordered (marks : List Mark) : Prop := marks.Pairwise (· ≤ ·)

theorem ordered_cons {m : Mark} {marks : List Mark} :
    Ordered (m :: marks) ↔ (∀ m' ∈ marks, m ≤ m') ∧ Ordered marks :=
  List.pairwise_cons

theorem ordered_append {marks marks' : List Mark} :
    Ordered (marks ++ marks') ↔
      Ordered marks ∧ Ordered marks' ∧ ∀ m ∈ marks, ∀ m' ∈ marks', m ≤ m' :=
  List.pairwise_append

theorem Ordered.sublist {marks marks' : List Mark} (h : Ordered marks')
    (hsub : marks.Sublist marks') : Ordered marks :=
  List.Pairwise.sublist hsub h

/-- Marks that are all the same are in order. -/
theorem ordered_of_forall_eq {m : Mark} {marks : List Mark} (h : ∀ m' ∈ marks, m' = m) :
    Ordered marks := by
  rw [List.eq_replicate_of_mem h]
  exact List.pairwise_replicate.mpr (Or.inr (le_refl m))

end Mark

/-- The starts and stops of tokens, in the order of the tokens. -/
def Token.marks (tokens : List Token) : List Mark :=
  tokens.flatMap fun token => [token.start, token.stop]

namespace Token

@[simp] theorem marks_nil : marks [] = [] := rfl

@[simp] theorem marks_cons (token : Token) (tokens : List Token) :
    marks (token :: tokens) = token.start :: token.stop :: marks tokens := rfl

@[simp] theorem marks_append (tokens tokens' : List Token) :
    marks (tokens ++ tokens') = marks tokens ++ marks tokens' :=
  List.flatMap_append

theorem forall_marks {P : Mark → Prop} {tokens : List Token} :
    (∀ m ∈ marks tokens, P m) ↔ ∀ token ∈ tokens, P token.start ∧ P token.stop := by
  simp only [marks, List.mem_flatMap, List.mem_cons, List.not_mem_nil, or_false]
  constructor
  · intro h token htoken
    exact ⟨h _ ⟨token, htoken, Or.inl rfl⟩, h _ ⟨token, htoken, Or.inr rfl⟩⟩
  · rintro h m ⟨token, htoken, rfl | rfl⟩
    · exact (h token htoken).1
    · exact (h token htoken).2

end Token

namespace TokenStream

/-- A pending key divides the queue: what stands in front of the token that it starts with lies
before it, and the rest lies behind. -/
structure KeyPlaced (last : Mark) (s : TokenStream) (key : SimpleKey) : Prop where
  taken_le : s.taken ≤ key.number
  number_le : key.number ≤ s.taken + s.queue.length
  level_le : key.level ≤ s.flowLevel
  before : ∀ m ∈ last :: Token.marks (s.queue.take (key.number - s.taken)), m ≤ key.mark
  after : ∀ m ∈ Token.marks (s.queue.drop (key.number - s.taken)) ++ [s.mark], key.mark ≤ m

theorem KeyPlaced.position_le {last : Mark} {s : TokenStream} {key : SimpleKey}
    (h : s.KeyPlaced last key) : key.number - s.taken ≤ s.queue.length := by
  have hle := h.number_le
  omega

/-- The invariant of a stream whose last token handed out stops at `last`. -/
structure Placed (last : Mark) (s : TokenStream) : Prop where
  ordered : Mark.Ordered (last :: (Token.marks s.queue ++ [s.mark]))
  keys : ∀ key ∈ s.keys, s.KeyPlaced last key
  levels : ∀ key ∈ s.keys, ∀ key' ∈ s.keys, key.level < key'.level →
    key.number ≤ key'.number ∧ key.mark ≤ key'.mark

section Steps

variable {last : Mark} {s s' : TokenStream}

/-- Tokens are queued and the reader moves on, while no key comes up. -/
theorem Placed.extend (added : List Token) (h : s.Placed last)
    (hadded : Mark.Ordered (s.mark :: (Token.marks added ++ [s'.mark])))
    (hqueue : s'.queue = s.queue ++ added) (htaken : s'.taken = s.taken)
    (hkeys : ∀ key ∈ s'.keys, key ∈ s.keys ∧ key.level ≤ s'.flowLevel) : s'.Placed last := by
  have hahead : ∀ m ∈ Token.marks added ++ [s'.mark], s.mark ≤ m :=
    (Mark.ordered_cons.mp hadded).1
  refine ⟨?_, fun key hkey => ?_, ?_⟩
  · have hordered := h.ordered
    rw [← List.cons_append, Mark.ordered_append] at hordered
    obtain ⟨hqueued, -, hbelow⟩ := hordered
    rw [hqueue, Token.marks_append, List.append_assoc, ← List.cons_append, Mark.ordered_append]
    refine ⟨hqueued, (Mark.ordered_cons.mp hadded).2, fun m hm m' hm' => ?_⟩
    exact le_trans (hbelow m hm s.mark (by simp)) (hahead m' hm')
  · obtain ⟨hold, hlevel⟩ := hkeys key hkey
    have hplaced := h.keys key hold
    have hposition := hplaced.position_le
    refine ⟨?_, ?_, hlevel, ?_, ?_⟩
    · rw [htaken]
      exact hplaced.taken_le
    · have hle := hplaced.number_le
      rw [htaken, hqueue, List.length_append]
      omega
    · rw [htaken, hqueue, List.take_append_of_le_length hposition]
      exact hplaced.before
    · rw [htaken, hqueue, List.drop_append_of_le_length hposition, Token.marks_append,
        List.append_assoc]
      intro m hm
      rcases List.mem_append.mp hm with hm | hm
      · exact hplaced.after m (List.mem_append_left _ hm)
      · exact le_trans (hplaced.after s.mark (by simp)) (hahead m hm)
  · intro key hkey key' hkey'
    exact h.levels key (hkeys key hkey).1 key' (hkeys key' hkey').1

theorem Placed.level_le {key : SimpleKey} (h : s.Placed last) (hkey : key ∈ s.keys) :
    key.level ≤ s.flowLevel :=
  (h.keys key hkey).level_le

theorem Placed.dropped (h : s.Placed last) (hdropped : s.KeysDropped s') : s'.Placed last := by
  obtain ⟨hsame, hkeys⟩ := hdropped
  have hmark : s'.mark = s.mark := by rw [hsame]; rfl
  refine h.extend [] ?_ (by rw [hsame]; simp) (by rw [hsame]) fun key hkey => ?_
  · rw [hmark]
    exact Mark.ordered_of_forall_eq (m := s.mark) (by simp)
  · refine ⟨hkeys key hkey, ?_⟩
    rw [hsame]
    exact h.level_le (hkeys key hkey)

theorem Placed.moved (h : s.Placed last) (hmoved : s.BlocksMoved s') : s'.Placed last := by
  obtain ⟨hsame, added, hqueue, hadded⟩ := hmoved
  have hmark : s'.mark = s.mark := by rw [hsame]; rfl
  have hflat : ∀ m ∈ Token.marks added, m = s.mark := Token.forall_marks.mpr hadded
  refine h.extend added ?_ hqueue (by rw [hsame]) fun key hkey => ?_
  · rw [hmark]
    have hall : ∀ m ∈ s.mark :: (Token.marks added ++ [s.mark]), m = s.mark := by
      simpa [or_imp, forall_and] using hflat
    exact Mark.ordered_of_forall_eq hall
  · rw [hsame] at hkey ⊢
    exact ⟨hkey, h.level_le hkey⟩

/-- A key that is saved here has the whole queue in front of it. -/
theorem Placed.saved (h : s.Placed last) (hsaved : s.KeysSaved s') : s'.Placed last := by
  obtain ⟨hsame, hkeys⟩ := hsaved
  have hmark : s'.mark = s.mark := by rw [hsame]; rfl
  have hqueue : s'.queue = s.queue := by rw [hsame]
  have htaken : s'.taken = s.taken := by rw [hsame]
  have hlevel : s'.flowLevel = s.flowLevel := by rw [hsame]
  have hordered := h.ordered
  have hbelow : ∀ m ∈ last :: Token.marks s.queue, m ≤ s.mark := by
    rw [← List.cons_append, Mark.ordered_append] at hordered
    exact fun m hm => hordered.2.2 m hm s.mark (by simp)
  refine ⟨by rw [hqueue, hmark]; exact hordered, fun key hkey => ?_, ?_⟩
  · rcases hkeys key hkey with hold | ⟨hnumber, hkeymark, hkeylevel⟩
    · obtain ⟨h₁, h₂, h₃, h₄, h₅⟩ := h.keys key hold
      refine ⟨?_, ?_, ?_, ?_, ?_⟩
      · rwa [htaken]
      · rwa [htaken, hqueue]
      · rwa [hlevel]
      · rwa [htaken, hqueue]
      · rwa [htaken, hqueue, hmark]
    · have hposition : key.number - s.taken = s.queue.length := by omega
      refine ⟨by omega, by rw [htaken, hqueue, hnumber], by rw [hlevel, hkeylevel], ?_, ?_⟩
      · rw [htaken, hqueue, hposition, List.take_length, hkeymark]
        exact hbelow
      · rw [htaken, hqueue, hposition, List.drop_length, hkeymark, hmark]
        simp
  · intro key hkey key' hkey' hlt
    rcases hkeys key' hkey' with hold' | ⟨hnumber', hmark', hlevel'⟩
    · rcases hkeys key hkey with hold | ⟨-, -, hkeylevel⟩
      · exact h.levels key hold key' hold' hlt
      · have hle := h.level_le hold'
        omega
    · rcases hkeys key hkey with hold | ⟨-, -, hkeylevel⟩
      · rw [hnumber', hmark']
        exact ⟨(h.keys key hold).number_le, (h.keys key hold).after s.mark (by simp)⟩
      · omega

/-- From the first stream to the second, a token that takes up no text is put where a key starts. -/
structure Inserted (key : SimpleKey) (token : Token) (s s' : TokenStream) : Prop where
  queue : s'.queue = s.queue.insertIdx (key.number - s.taken) token
  start : token.start = key.mark
  stop : token.stop = key.mark
  taken : s'.taken = s.taken
  mark : s'.mark = s.mark
  level : s'.flowLevel = s.flowLevel

section Insert

variable {key other : SimpleKey} {token : Token}

theorem KeyPlaced.insertIdx_eq (hkey : s.KeyPlaced last key) (token : Token) :
    s.queue.insertIdx (key.number - s.taken) token =
      s.queue.take (key.number - s.taken) ++ token :: s.queue.drop (key.number - s.taken) := by
  have hinsert := insertIdx_length (s.queue.take (key.number - s.taken))
    (s.queue.drop (key.number - s.taken)) token
  rwa [List.take_append_drop, List.length_take_of_le hkey.position_le] at hinsert

/-- A key that starts no later has the same tokens in front of it, and the new one behind it. -/
theorem Inserted.keyPlaced (h : Inserted key token s s') (hkey : s.KeyPlaced last key)
    (hother : s.KeyPlaced last other) (hnumber : other.number ≤ key.number)
    (hle : other.mark ≤ key.mark) : s'.KeyPlaced last other := by
  have hsplit := h.queue.trans (hkey.insertIdx_eq token)
  have hfront : other.number - s.taken ≤ (s.queue.take (key.number - s.taken)).length := by
    rw [List.length_take_of_le hkey.position_le]
    omega
  refine ⟨?_, ?_, ?_, ?_, ?_⟩
  · rw [h.taken]
    exact hother.taken_le
  · have hlt := hother.number_le
    rw [h.taken, h.queue, List.length_insertIdx_of_le_length hkey.position_le]
    omega
  · rw [h.level]
    exact hother.level_le
  · rw [h.taken, hsplit, List.take_append_of_le_length hfront, List.take_take,
      Nat.min_eq_left (by omega)]
    exact hother.before
  · have hold := hother.after
    conv at hold in s.queue =>
      rw [← List.take_append_drop (key.number - s.taken) s.queue]
    rw [List.drop_append_of_le_length hfront, Token.marks_append] at hold
    rw [h.taken, h.mark, hsplit, List.drop_append_of_le_length hfront, Token.marks_append,
      Token.marks_cons, h.start, h.stop]
    simp only [List.mem_append, List.mem_cons] at hold ⊢
    rintro m ((hm | rfl | rfl | hm) | hm)
    · exact hold m (Or.inl (Or.inl hm))
    · exact hle
    · exact hle
    · exact hold m (Or.inl (Or.inr hm))
    · exact hold m (Or.inr hm)

theorem Inserted.ordered (h : Inserted key token s s') (hkey : s.KeyPlaced last key)
    (hordered : Mark.Ordered (last :: (Token.marks s.queue ++ [s.mark]))) :
    Mark.Ordered (last :: (Token.marks s'.queue ++ [s'.mark])) := by
  conv at hordered in s.queue =>
    rw [← List.take_append_drop (key.number - s.taken) s.queue]
  rw [Token.marks_append, List.append_assoc, ← List.cons_append, Mark.ordered_append] at hordered
  obtain ⟨hfront, hback, hacross⟩ := hordered
  rw [h.queue, hkey.insertIdx_eq token, h.mark, Token.marks_append, List.append_assoc,
    ← List.cons_append, Token.marks_cons, h.start, h.stop, Mark.ordered_append]
  refine ⟨hfront, ?_, ?_⟩
  · rw [List.cons_append, List.cons_append, Mark.ordered_cons, Mark.ordered_cons]
    refine ⟨fun m hm => ?_, hkey.after, hback⟩
    rcases List.mem_cons.mp hm with rfl | hm
    · exact le_refl _
    · exact hkey.after m hm
  · simp only [List.cons_append, List.mem_cons]
    rintro m hm m' (rfl | rfl | hm')
    · exact hkey.before m (List.mem_cons.mpr hm)
    · exact hkey.before m (List.mem_cons.mpr hm)
    · exact hacross m (List.mem_cons.mpr hm) m' hm'

theorem Placed.insert (h : s.Placed last) (hkey : s.KeyPlaced last key)
    (hinserted : Inserted key token s s')
    (hkeys : ∀ other ∈ s'.keys,
      other ∈ s.keys ∧ other.number ≤ key.number ∧ other.mark ≤ key.mark) :
    s'.Placed last ∧ s'.KeyPlaced last key := by
  refine ⟨⟨hinserted.ordered hkey h.ordered, fun other hmem => ?_,
    fun other hmem other' hmem' => ?_⟩,
    hinserted.keyPlaced hkey hkey (Nat.le_refl _) (le_refl _)⟩
  · obtain ⟨hold, hnumber, hle⟩ := hkeys other hmem
    exact hinserted.keyPlaced hkey (h.keys other hold) hnumber hle
  · exact h.levels other (hkeys other hmem).1 other' (hkeys other' hmem').1

end Insert

/-- A token is read from here, and the reader moves on. -/
theorem Placed.push {token : Token} (h : s.Placed last) (htoken : token.Spans s.reader s'.reader)
    (hqueue : s'.queue = s.queue ++ [token]) (htaken : s'.taken = s.taken)
    (hkeys : ∀ key ∈ s'.keys, key ∈ s.keys ∧ key.level ≤ s'.flowLevel) : s'.Placed last := by
  obtain ⟨hstart, hstop⟩ := htoken
  obtain ⟨hlower, hupper⟩ := hstop.le
  refine h.extend [token] ?_ hqueue htaken hkeys
  rw [Token.marks_cons, Token.marks_nil, hstart]
  simp only [Mark.Ordered, List.cons_append, List.nil_append, List.pairwise_cons, List.mem_cons,
    List.not_mem_nil, or_false, forall_eq_or_imp, forall_eq, IsEmpty.forall_iff, implies_true,
    List.Pairwise.nil, and_true]
  exact ⟨⟨le_refl _, hlower, le_trans hlower hupper⟩, ⟨hlower, le_trans hlower hupper⟩, hupper⟩

/-- A sign is read from here. -/
theorem Placed.pushSign {kind : TokenKind} {length : Nat} (h : s.Placed last)
    (hqueue : s'.queue = (s.pushSign kind length).queue)
    (hreader : s'.reader = (s.pushSign kind length).reader) (htaken : s'.taken = s.taken)
    (hkeys : ∀ key ∈ s'.keys, key ∈ s.keys ∧ key.level ≤ s'.flowLevel) : s'.Placed last := by
  refine h.push ⟨rfl, ?_⟩ hqueue htaken hkeys
  rw [hreader]
  exact .last (.advance _ _)

theorem Placed.same_keys (h : s.Placed last) (hkeys : s'.keys = s.keys)
    (hlevel : s.flowLevel ≤ s'.flowLevel) :
    ∀ key ∈ s'.keys, key ∈ s.keys ∧ key.level ≤ s'.flowLevel := by
  intro key hkey
  rw [hkeys] at hkey
  exact ⟨hkey, Nat.le_trans (h.level_le hkey) hlevel⟩

/-- Once the key of the current level is given up, all others belong to levels around it. -/
theorem removeKey_level (h : s.removeKey = .ok s') :
    ∀ key ∈ s'.keys, key.level ≠ s.flowLevel := by
  unfold removeKey at h
  split at h
  · split_ifs at h
    cases h
    intro key hkey
    simpa using (List.mem_filter.mp hkey).2
  · rename_i hnone
    cases h
    intro key hkey
    simpa using List.find?_eq_none.mp hnone key hkey

/-! ### Fetching -/

theorem Placed.fetchEnd (h : s.Placed last) (hfetch : s.fetchEnd = .ok s') : s'.Placed last := by
  obtain ⟨s₁, hremove, hfetch⟩ := bind_eq_ok_iff.mp hfetch
  have h₁ := (h.moved (s.unwind_moved (-1))).dropped (removeKey_dropped hremove)
  cases hfetch
  exact h₁.push ⟨rfl, .first (.refl _)⟩ rfl rfl fun key hkey => by cases hkey

theorem Placed.fetchDirective (h : s.Placed last) (hfetch : s.fetchDirective = .ok s') :
    s'.Placed last := by
  obtain ⟨s₁, hremove, hfetch⟩ := bind_eq_ok_iff.mp hfetch
  obtain ⟨⟨token, reader⟩, hread, hfetch⟩ := bind_eq_ok_iff.mp hfetch
  have h₁ := (h.moved (s.unwind_moved (-1))).dropped (removeKey_dropped hremove)
  cases hfetch
  exact h₁.push (readDirective_spans hread) rfl rfl (h₁.same_keys rfl (Nat.le_refl _))

theorem Placed.fetchDocumentSign (h : s.Placed last) (kind : TokenKind) :
    (s.fetchDocumentSign kind).Placed last := by
  have h₁ := (h.moved (s.unwind_moved (-1))).dropped (forgetKey_dropped _)
  exact h₁.pushSign rfl rfl rfl (h₁.same_keys rfl (Nat.le_refl _))

theorem Placed.fetchFlowStart {kind : TokenKind} (h : s.Placed last)
    (hfetch : s.fetchFlowStart kind = .ok s') : s'.Placed last := by
  obtain ⟨s₁, hsave, hfetch⟩ := bind_eq_ok_iff.mp hfetch
  have h₁ := h.saved (saveKey_saved hsave)
  cases hfetch
  exact h₁.pushSign rfl rfl rfl (h₁.same_keys rfl (Nat.le_succ _))

theorem Placed.fetchFlowEnd {kind : TokenKind} (h : s.Placed last)
    (hfetch : s.fetchFlowEnd kind = .ok s') : s'.Placed last := by
  obtain ⟨s₁, hremove, hfetch⟩ := bind_eq_ok_iff.mp hfetch
  have hdropped := removeKey_dropped hremove
  have hflow : s₁.flowLevel = s.flowLevel := by rw [hdropped.same]
  have h₁ := h.dropped hdropped
  cases hfetch
  refine h₁.pushSign rfl rfl rfl fun key hkey => ⟨hkey, ?_⟩
  have hle := h₁.level_le hkey
  have hne := removeKey_level hremove key hkey
  change key.level ≤ s₁.flowLevel - 1
  omega

theorem Placed.fetchFlowEntry (h : s.Placed last) (hfetch : s.fetchFlowEntry = .ok s') :
    s'.Placed last := by
  obtain ⟨s₁, hremove, hfetch⟩ := bind_eq_ok_iff.mp hfetch
  have h₁ := h.dropped (removeKey_dropped hremove)
  cases hfetch
  exact h₁.pushSign rfl rfl rfl (h₁.same_keys rfl (Nat.le_refl _))

theorem Placed.fetchBlockEntry (h : s.Placed last) (hfetch : s.fetchBlockEntry = .ok s') :
    s'.Placed last := by
  obtain ⟨s₁, hopen, hfetch⟩ := bind_eq_ok_iff.mp hfetch
  obtain ⟨s₂, hremove, hfetch⟩ := bind_eq_ok_iff.mp hfetch
  have h₂ := (h.moved (openBlock_moved hopen)).dropped (removeKey_dropped hremove)
  cases hfetch
  exact h₂.pushSign rfl rfl rfl (h₂.same_keys rfl (Nat.le_refl _))

theorem Placed.fetchKey (h : s.Placed last) (hfetch : s.fetchKey = .ok s') : s'.Placed last := by
  obtain ⟨s₁, hopen, hfetch⟩ := bind_eq_ok_iff.mp hfetch
  obtain ⟨s₂, hremove, hfetch⟩ := bind_eq_ok_iff.mp hfetch
  have h₂ := (h.moved (openBlock_moved hopen)).dropped (removeKey_dropped hremove)
  cases hfetch
  exact h₂.pushSign rfl rfl rfl (h₂.same_keys rfl (Nat.le_refl _))

/-- The tokens that make a key of it are put in front of what the key starts with. -/
theorem Placed.insertKey {key : SimpleKey} (h : s.Placed last) (hkey : s.KeyPlaced last key)
    (hkeys : ∀ other ∈ s.keys, other.number ≤ key.number ∧ other.mark ≤ key.mark) :
    (s.insertKey key).Placed last := by
  have hothers : ∀ other ∈ s.keys,
      other ∈ s.keys ∧ other.number ≤ key.number ∧ other.mark ≤ key.mark :=
    fun other hother => ⟨hother, hkeys other hother⟩
  -- The sign of the key comes first, the start of the mapping is then put in front of it.
  obtain ⟨hsign, hagain⟩ : Placed last _ ∧ KeyPlaced last { s with
      queue := s.queue.insertIdx (key.number - s.taken) ⟨.key, key.mark, key.mark⟩ } key :=
    h.insert hkey ⟨rfl, rfl, rfl, rfl, rfl, rfl⟩ hothers
  unfold TokenStream.insertKey
  dsimp only
  split
  · rename_i s₁ hindent
    unfold indentTo at hindent
    split_ifs at hindent
    cases hindent
    exact And.left (hsign.insert hagain ⟨rfl, rfl, rfl, rfl, rfl, rfl⟩ hothers)
  · exact hsign

theorem Placed.fetchValue (h : s.Placed last) (hfetch : s.fetchValue = .ok s') :
    s'.Placed last := by
  unfold TokenStream.fetchValue at hfetch
  split at hfetch
  · rename_i key hfound
    have hmem : key ∈ s.keys := List.mem_of_find?_eq_some hfound
    have hlevel : key.level = s.flowLevel := by simpa using List.find?_some hfound
    have h₁ : s.forgetKey.Placed last := h.dropped s.forgetKey_dropped
    have hkey : s.forgetKey.KeyPlaced last key := by
      obtain ⟨h₁, h₂, h₃, h₄, h₅⟩ := h.keys key hmem
      exact ⟨h₁, h₂, h₃, h₄, h₅⟩
    have hothers : ∀ other ∈ s.forgetKey.keys,
        other.number ≤ key.number ∧ other.mark ≤ key.mark := by
      intro other hother
      obtain ⟨hold, hne⟩ := List.mem_filter.mp hother
      have hle := h.level_le hold
      simp only [bne_iff_ne, ne_eq] at hne
      exact h.levels other hold key hmem (by omega)
    have h₂ := h₁.insertKey hkey hothers
    cases hfetch
    exact h₂.pushSign rfl rfl rfl (h₂.same_keys rfl (Nat.le_refl _))
  · obtain ⟨s₁, hopen, hfetch⟩ := bind_eq_ok_iff.mp hfetch
    have h₁ := h.moved (openBlock_moved hopen)
    cases hfetch
    exact h₁.pushSign rfl rfl rfl (h₁.same_keys rfl (Nat.le_refl _))

theorem Placed.fetchKeyed {read : Reader → Except Diagnostic (Token × Reader)}
    (hread : ∀ r token r', read r = .ok (token, r') → token.Spans r r')
    (h : s.Placed last) (hfetch : s.fetchKeyed read = .ok s') : s'.Placed last := by
  obtain ⟨s₁, hsave, hfetch⟩ := bind_eq_ok_iff.mp hfetch
  obtain ⟨⟨token, reader⟩, hok, hfetch⟩ := bind_eq_ok_iff.mp hfetch
  have h₁ := h.saved (saveKey_saved hsave)
  cases hfetch
  exact h₁.push (hread _ _ _ hok) rfl rfl (h₁.same_keys rfl (Nat.le_refl _))

theorem Placed.fetchBlockScalar {folded : Bool} (h : s.Placed last)
    (hfetch : s.fetchBlockScalar folded = .ok s') : s'.Placed last := by
  obtain ⟨s₁, hremove, hfetch⟩ := bind_eq_ok_iff.mp hfetch
  obtain ⟨⟨token, reader⟩, hread, hfetch⟩ := bind_eq_ok_iff.mp hfetch
  have h₁ := h.dropped (removeKey_dropped hremove)
  cases hfetch
  exact h₁.push (readBlockScalar_spans hread) rfl rfl (h₁.same_keys rfl (Nat.le_refl _))

theorem Placed.fetchPlain (h : s.Placed last) (hfetch : s.fetchPlain = .ok s') :
    s'.Placed last := by
  obtain ⟨s₁, hsave, hfetch⟩ := bind_eq_ok_iff.mp hfetch
  have h₁ := h.saved (saveKey_saved hsave)
  have hspans := readPlain_spans s₁.inFlow s₁.indent s₁.reader
  rcases hread : readPlain s₁.inFlow s₁.indent s₁.reader with ⟨token, reader, crossed⟩
  rw [hread] at hfetch hspans
  cases hfetch
  exact h₁.push hspans rfl rfl (h₁.same_keys rfl (Nat.le_refl _))

theorem Placed.fetchSign (h : s.Placed last) (hfetch : s.fetchSign = .ok s') :
    s'.Placed last := by
  have hbranch := s.fetchSign_branch
  generalize s.fetchSign = x at hfetch hbranch
  cases hbranch with
  | atEnd => exact h.fetchEnd hfetch
  | directive => exact h.fetchDirective hfetch
  | documentSign =>
      cases hfetch
      exact h.fetchDocumentSign _
  | flowStart => exact h.fetchFlowStart hfetch
  | flowEnd => exact h.fetchFlowEnd hfetch
  | flowEntry => exact h.fetchFlowEntry hfetch
  | blockEntry => exact h.fetchBlockEntry hfetch
  | key => exact h.fetchKey hfetch
  | value => exact h.fetchValue hfetch
  | name => exact h.fetchKeyed (fun _ _ _ => readName_spans) hfetch
  | tag => exact h.fetchKeyed (fun _ _ _ => readTag_spans) hfetch
  | blockScalar => exact h.fetchBlockScalar hfetch
  | quoted => exact h.fetchKeyed (fun _ _ _ => readQuoted_spans) hfetch
  | plain => exact h.fetchPlain hfetch
  | none => cases hfetch

theorem skipToToken_same (s : TokenStream) :
    s.skipToToken = { s with
      reader := s.skipToToken.reader, keyAllowed := s.skipToToken.keyAllowed } := by
  unfold skipToToken
  generalize (if s.mark.index == 0 && s.reader.peek == '\ufeff' then s.reader.next
    else s.reader).skipTrivia = place
  rfl

theorem Placed.skipToToken (h : s.Placed last) : s.skipToToken.Placed last := by
  have hmark := s.skipToToken_leads.mark_le
  have hsame := s.skipToToken_same
  generalize s.skipToToken = s₁ at hmark hsame ⊢
  refine h.extend [] ?_ (by rw [hsame]; simp) (by rw [hsame])
    (h.same_keys (by rw [hsame]) (by rw [hsame]))
  simpa [Mark.Ordered, TokenStream.mark] using hmark

theorem Placed.fetch (h : s.Placed last) (hfetch : s.fetch = .ok s') : s'.Placed last := by
  obtain ⟨s₁, hdrop, hfetch⟩ := bind_eq_ok_iff.mp hfetch
  have h₁ := h.skipToToken.dropped (dropStaleKeys_dropped hdrop)
  exact (h₁.moved (s₁.unwind_moved s₁.mark.column)).fetchSign hfetch

/-! ### Handing out -/

/-- Once a token that cannot turn out to be a key is handed out, the pending keys are behind it. -/
theorem Placed.handed {token : Token} {queue : List Token} (h : s.Placed last)
    (hqueue : s.queue = token :: queue) (hfront : s.frontIsOpen = false) :
    Placed token.stop { s with queue, taken := s.taken + 1 } := by
  have hordered := h.ordered
  rw [hqueue, Token.marks_cons, List.cons_append, Mark.ordered_cons, Mark.ordered_cons] at hordered
  have hlater : ∀ key ∈ s.keys, s.taken + 1 ≤ key.number := by
    intro key hkey
    have hall : s.keys.all (s.taken ≤ ·.number) = true := by
      simpa using fun key hkey => (h.keys key hkey).taken_le
    have hany : s.keys.any (·.number == s.taken) = false := by
      simpa [frontIsOpen, hall] using hfront
    have hne : key.number ≠ s.taken := by simpa using List.any_eq_false.mp hany key hkey
    have hle := (h.keys key hkey).taken_le
    omega
  refine ⟨hordered.2.2, fun key hkey => ?_, h.levels⟩
  obtain ⟨h₁, h₂, h₃, h₄, h₅⟩ := h.keys key hkey
  have hle := hlater key hkey
  have hposition : key.number - s.taken = key.number - (s.taken + 1) + 1 := by omega
  rw [hqueue, List.length_cons] at h₂
  rw [hqueue, hposition, List.take_succ_cons, Token.marks_cons] at h₄
  rw [hqueue, hposition, List.drop_succ_cons] at h₅
  have hnumber : key.number ≤ s.taken + 1 + queue.length := by omega
  refine ⟨hle, hnumber, h₃, fun m hm => h₄ m ?_, h₅⟩
  rcases List.mem_cons.mp hm with rfl | hm
  · simp
  · simp [hm]

end Steps

/-- What holds between two tokens. At the end of the text no key is pending any more. -/
def Standing (last : Mark) (s : TokenStream) : Prop :=
  Mark.Ordered (last :: (Token.marks s.queue ++ [s.mark])) ∧ (s.done = false → s.Placed last)

theorem Standing.fill {last : Mark} {s s' : TokenStream} (h : s.Standing last)
    (hfill : s.fill = .ok s') : s'.Standing last ∧ (s'.done = false → s'.frontIsOpen = false) := by
  have hkeeps := fillFor_keeps (P := Standing last) ?_ ?_ h hfill
  · exact ⟨hkeeps.1, fun hdone => (hkeeps.2 hdone).2⟩
  · intro s s' hdrop hs
    have hdropped := dropStaleKeys_dropped hdrop
    have hsame := hdropped.same
    refine ⟨?_, fun hdone => (hs.2 ?_).dropped hdropped⟩
    · rw [hsame]
      exact hs.1
    · rwa [hsame] at hdone
  · intro s s' hdone hfetch hs
    have hplaced := (hs.2 hdone).fetch hfetch
    exact ⟨hplaced.ordered, fun _ => hplaced⟩

/-- The token that is handed out lies behind the last one, and the rest of the stream behind it. -/
theorem Standing.next {last : Mark} {s s' : TokenStream} {token : Token} (h : s.Standing last)
    (hnext : s.next = .ok (some token, s')) :
    last ≤ token.start ∧ token.start ≤ token.stop ∧ s'.Standing token.stop := by
  obtain ⟨s₁, queue, hfill, hqueue, rfl⟩ := next_eq_some hnext
  obtain ⟨⟨hordered, hplaced⟩, hfront⟩ := h.fill hfill
  rw [hqueue, Token.marks_cons, List.cons_append, List.cons_append, Mark.ordered_cons,
    Mark.ordered_cons] at hordered
  obtain ⟨hlast, hstart, hrest⟩ := hordered
  exact ⟨hlast _ (by simp), hstart _ (by simp), hrest,
    fun hdone => (hplaced hdone).handed hqueue (hfront hdone)⟩

/-- The tokens that a stream hands out are in order. -/
theorem collect_ordered {n : Nat} {last : Mark} {s : TokenStream} (h : s.Standing last) :
    Mark.Ordered (last :: Token.marks (s.collect n).items) := by
  induction n generalizing last s with
  | zero => exact Mark.ordered_of_forall_eq (m := last) (by simp [collect])
  | succ n ih =>
      unfold collect
      split
      · exact Mark.ordered_of_forall_eq (m := last) (by simp)
      · exact Mark.ordered_of_forall_eq (m := last) (by simp)
      · rename_i token s' hnext
        obtain ⟨hlast, hstop, hstanding⟩ := h.next hnext
        have hitems := ih hstanding
        have hbehind := (Mark.ordered_cons.mp hitems).1
        change Mark.Ordered (last :: token.start :: token.stop :: _)
        rw [Mark.ordered_cons, Mark.ordered_cons]
        refine ⟨?_, ?_, hitems⟩
        · simp only [List.mem_cons]
          rintro m (rfl | rfl | hm)
          · exact hlast
          · exact le_trans hlast hstop
          · exact le_trans hlast (le_trans hstop (hbehind m hm))
        · intro m hm
          rcases List.mem_cons.mp hm with rfl | hm
          · exact hstop
          · exact le_trans hstop (hbehind m hm)

theorem standing_start (text : List Char) : (start text).Standing .origin := by
  have hstart : Mark.Ordered [.origin, .origin, .origin, .origin] :=
    Mark.ordered_of_forall_eq (m := .origin) (by simp)
  exact ⟨hstart, fun _ => ⟨hstart, fun _ hkey => (List.not_mem_nil hkey).elim,
    fun _ hkey => (List.not_mem_nil hkey).elim⟩⟩

end TokenStream

/-- The tokens of every text are in order. -/
theorem Token.ofText_ordered (text : List Char) : Mark.Ordered (marks (ofText text).items) :=
  (Mark.ordered_cons.mp (TokenStream.collect_ordered (TokenStream.standing_start text))).2

end Playbook
