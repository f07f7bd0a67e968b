import Playbook.Proofs.LineBreaks

/-!
Two texts that are read alike. A pairing says which of their places correspond: readers at
corresponding places see the same, however a line break is written, and come to corresponding
places again. A text and the same text with line feeds for its carriage returns are read alike, and
so are a text and the same text behind a byte order mark. What holds of a pairing is shown once for
both.
-/

namespace Playbook

/-! ### Further down -/

/-- The mark with `n` more characters and `l` more lines before it. -/
def Mark.shifted (n l : Nat) (m : Mark) : Mark := ⟨m.index + n, m.line + l, m.column⟩

section

variable {n l : Nat}

theorem Mark.shifted_injective : Function.Injective (Mark.shifted n l) := by
  intro m m' h
  cases m
  cases m'
  simpa [shifted] using h

theorem Mark.past_shifted (m : Mark) (c : Char) (rest : List Char) :
    (m.shifted n l).past c rest = (m.past c rest).shifted n l := by
  unfold past
  split_ifs <;> simp only [shifted, Nat.add_right_comm]

namespace Reader

/-- The reader with `n` more characters and `l` more lines behind it. -/
def shifted (n l : Nat) (r : Reader) : Reader := ⟨r.rest, r.mark.shifted n l⟩

theorem shifted_injective : Function.Injective (shifted n l) := by
  intro r r' h
  have hrest : (r.shifted n l).rest = (r'.shifted n l).rest := by rw [h]
  have hmark : (r.shifted n l).mark = (r'.shifted n l).mark := by rw [h]
  cases r
  cases r'
  cases hrest
  cases Mark.shifted_injective hmark
  rfl

@[simp] theorem shifted_rest (r : Reader) : (r.shifted n l).rest = r.rest := rfl

@[simp] theorem peek_shifted (r : Reader) : (r.shifted n l).peek = r.peek := rfl

@[simp] theorem startsWith_shifted (r : Reader) (word : List Char) :
    (r.shifted n l).startsWith word = r.startsWith word := rfl

@[simp] theorem next_shifted (r : Reader) : (r.shifted n l).next = r.next.shifted n l := by
  obtain ⟨_ | ⟨c, rest⟩, m⟩ := r
  · rfl
  · simp only [next, shifted, Mark.past_shifted]

@[simp] theorem advance_shifted (k : Nat) (r : Reader) :
    (r.shifted n l).advance k = (r.advance k).shifted n l := by
  induction k generalizing r with
  | zero => rfl
  | succ k ih => rw [advance, advance, next_shifted, ih]

@[simp] theorem lineBreak?_shifted (r : Reader) :
    (r.shifted n l).lineBreak? = r.lineBreak?.map (Prod.map id (shifted n l)) := by
  simp only [lineBreak?, startsWith_shifted, peek_shifted, advance_shifted, next_shifted]
  split_ifs <;> rfl

end Reader

end

/-! ### Pairings -/

/-- Which places of two texts correspond. -/
structure Pairing where
  mark : Mark → Mark → Prop
  reader : Reader → Reader → Prop
  mark_of_reader {r r' : Reader} : reader r r' → mark r.mark r'.mark
  line {m m' : Mark} : mark m m' → m.line = m'.line
  column {m m' : Mark} : mark m m' → m.column = m'.column
  /-- On one line, marks are as far from each other as those that they correspond to. -/
  distance {k k' m m' : Mark} : mark k k' → mark m m' → k.line = m.line →
    m.index - k.index = m'.index - k'.index
  mark_unique {m₁ m₂ m' : Mark} : mark m₁ m' → mark m₂ m' → m₁ = m₂
  reader_unique {r₁ r₂ r' : Reader} : reader r₁ r' → reader r₂ r' → r₁ = r₂
  rest {r r' : Reader} : reader r r' → r.rest = r'.rest ∨ r.rest = lineFeeds r'.rest
  next {r r' : Reader} : reader r r' → r'.peek ≠ '\r' → reader r.next r'.next
  /-- Both places stand at a line break of the same kind, or neither does. -/
  lineBreak {r r' : Reader} : reader r r' →
    (r.lineBreak? = none ∧ r'.lineBreak? = none) ∨
      ∃ c r₁ r₁', r.lineBreak? = some (c, r₁) ∧ r'.lineBreak? = some (c, r₁') ∧ reader r₁ r₁'
  /-- Both places stand at a byte order mark that starts the text, or neither does. -/
  opening {r r' : Reader} : reader r r' →
    (r.mark.index == 0 && r.peek == '\ufeff') = (r'.mark.index == 0 && r'.peek == '\ufeff')

/-- The marks belong to corresponding places. -/
def Mark.Mirrors (K : Pairing) (m m' : Mark) : Prop := K.mark m m'

/-- The readers stand at corresponding places. -/
def Reader.Mirrors (K : Pairing) (r r' : Reader) : Prop := K.reader r r'

variable {K : Pairing}

namespace Mark.Mirrors

variable {m m' k k' : Mark}

theorem line (h : Mark.Mirrors K m m') : m.line = m'.line := K.line h

theorem column (h : Mark.Mirrors K m m') : m.column = m'.column := K.column h

/-- Only one mark corresponds to a mark. -/
theorem unique {m₁ m₂ : Mark} (h₁ : Mark.Mirrors K m₁ m') (h₂ : Mark.Mirrors K m₂ m') : m₁ = m₂ :=
  K.mark_unique h₁ h₂

theorem distance (hk : Mark.Mirrors K k k') (hm : Mark.Mirrors K m m') (hline : k.line = m.line) :
    m.index - k.index = m'.index - k'.index :=
  K.distance hk hm hline

end Mark.Mirrors

namespace Reader.Mirrors

variable {r r' : Reader}

theorem mark (h : Mirrors K r r') : Mark.Mirrors K r.mark r'.mark := K.mark_of_reader h

theorem unique {r₁ r₂ : Reader} (h₁ : Mirrors K r₁ r') (h₂ : Mirrors K r₂ r') : r₁ = r₂ :=
  K.reader_unique h₁ h₂

theorem next (h : Mirrors K r r') (hpeek : r'.peek ≠ '\r') : Mirrors K r.next r'.next :=
  K.next h hpeek

theorem lineBreak (h : Mirrors K r r') :
    (r.lineBreak? = none ∧ r'.lineBreak? = none) ∨
      ∃ c r₁ r₁', r.lineBreak? = some (c, r₁) ∧ r'.lineBreak? = some (c, r₁') ∧ Mirrors K r₁ r₁' :=
  K.lineBreak h

/-- What is the same for a text with line feeds is the same for both readers. -/
theorem rest_class (h : Mirrors K r r') {α : Type} {f : List Char → α}
    (hf : ∀ text, f (lineFeeds text) = f text) : f r.rest = f r'.rest := by
  rcases K.rest h with hrest | hrest
  · rw [hrest]
  · rw [hrest, hf]

/-- What does not tell a carriage return from a line feed sees the same. -/
theorem peek_class (h : Mirrors K r r') {α : Type} {p : Char → α} (hp : p '\r' = p '\n') :
    p r.peek = p r'.peek := by
  refine h.rest_class (f := fun rest => p (rest.headD nul)) fun rest => ?_
  rw [headD_lineFeeds, asFeed]
  split_ifs with hpeek
  · rw [hpeek, hp]
  · rfl

/-- At a character that is no carriage return, both see the same. -/
theorem peek_eq (h : Mirrors K r r') (hpeek : r'.peek ≠ '\r') : r.peek = r'.peek := by
  rcases K.rest h with hrest | hrest
  · rw [peek, hrest, peek]
  · have hhead : r.peek = asFeed r'.peek := by rw [peek, hrest, headD_lineFeeds, peek]
    rw [hhead, asFeed, if_neg hpeek]

theorem atEnd (h : Mirrors K r r') : r.atEnd = r'.atEnd := by
  refine h.rest_class (f := List.isEmpty) fun rest => ?_
  rw [Bool.eq_iff_iff, List.isEmpty_iff, List.isEmpty_iff, lineFeeds_eq_nil]

theorem advance (h : Mirrors K r r') {stretch : List Char} (hinitial : stretch <+: r'.rest)
    (hreturn : '\r' ∉ stretch) :
    Mirrors K (r.advance stretch.length) (r'.advance stretch.length) := by
  induction stretch generalizing r r' with
  | nil => exact h
  | cons c stretch ih =>
      rw [List.mem_cons, not_or] at hreturn
      obtain ⟨more, hmore⟩ := hinitial
      have hpeek : r'.peek = c := by
        rw [Reader.peek, ← hmore]
        rfl
      refine ih (h.next (by rw [hpeek]; exact Ne.symm hreturn.1)) ?_ hreturn.2
      rw [next_rest, ← hmore]
      exact List.prefix_append stretch more

theorem takeWhile (h : Mirrors K r r') {p : Char → Bool} (hreturn : p '\r' = false)
    (hfeed : p '\n' = false) : r.rest.takeWhile p = r'.rest.takeWhile p :=
  h.rest_class (takeWhile_lineFeeds hreturn hfeed)

/-- Reading as long as there is no line break. -/
theorem advance_takeWhile (h : Mirrors K r r') {p : Char → Bool} (hreturn : p '\r' = false) :
    Mirrors K (r.advance (r'.rest.takeWhile p).length)
      (r'.advance (r'.rest.takeWhile p).length) := by
  refine h.advance (List.takeWhile_prefix p) fun hmem => ?_
  have hyes := List.mem_takeWhile_imp hmem
  rw [hreturn] at hyes
  cases hyes

theorem skipWhile (h : Mirrors K r r') {p : Char → Bool} (hreturn : p '\r' = false)
    (hfeed : p '\n' = false) : Mirrors K (r.skipWhile p) (r'.skipWhile p) := by
  rw [Reader.skipWhile, Reader.skipWhile, h.takeWhile hreturn hfeed]
  exact h.advance_takeWhile hreturn

theorem startsWith (h : Mirrors K r r') {word : List Char} (hreturn : '\r' ∉ word)
    (hfeed : '\n' ∉ word) : r.startsWith word = r'.startsWith word :=
  h.rest_class (isPrefixOf_lineFeeds hreturn hfeed)

/-- Looking ahead over a stretch without line breaks. -/
theorem peekAt_class (h : Mirrors K r r') {stretch : List Char} (hinitial : stretch <+: r'.rest)
    (hreturn : '\r' ∉ stretch) {α : Type} {p : Char → α} (hp : p '\r' = p '\n') :
    p (r.peekAt stretch.length) = p (r'.peekAt stretch.length) := by
  have hahead : ∀ r : Reader, r.peekAt stretch.length = (r.advance stretch.length).peek := by
    intro r
    rw [Reader.peekAt, Reader.peek, advance_rest]
    simp [List.getD_eq_getElem?_getD]
  rw [hahead, hahead, (h.advance hinitial hreturn).peek_class hp]

/-- Both places stand at a word of three characters that a blank follows, or neither does. -/
theorem atWord (h : Mirrors K r r') {word : List Char} (hreturn : '\r' ∉ word)
    (hfeed : '\n' ∉ word) (hlength : word.length = 3) :
    (r.startsWith word && isBlankOrEnd (r.peekAt 3)) =
      (r'.startsWith word && isBlankOrEnd (r'.peekAt 3)) := by
  rw [h.startsWith hreturn hfeed]
  by_cases hword : r'.startsWith word = true
  · have hinitial : word <+: r'.rest := List.isPrefixOf_iff_prefix.mp hword
    have hclass := h.peekAt_class hinitial hreturn (p := isBlankOrEnd) rfl
    rw [hlength] at hclass
    rw [hclass]
  · simp [hword]

theorem atSeparator (h : Mirrors K r r') : r.atSeparator = r'.atSeparator := by
  rw [Reader.atSeparator, Reader.atSeparator, Bool.and_or_distrib_right,
    Bool.and_or_distrib_right, h.atWord (by simp) (by simp) rfl, h.atWord (by simp) (by simp) rfl]

theorem skipComment (h : Mirrors K r r') : Mirrors K r.skipComment r'.skipComment := by
  have hsign : (r.peek == '#') = (r'.peek == '#') := h.peek_class (p := (· == '#')) rfl
  rw [Reader.skipComment, Reader.skipComment, hsign]
  split_ifs
  · exact h.skipWhile rfl rfl
  · exact h

end Reader.Mirrors

/-! ### One text -/

/-- A text and itself. -/
def Pairing.same : Pairing where
  mark := Eq
  reader := Eq
  mark_of_reader h := congrArg Reader.mark h
  line h := congrArg Mark.line h
  column h := congrArg Mark.column h
  distance hk hm _ := by rw [hk, hm]
  mark_unique h₁ h₂ := h₁.trans h₂.symm
  reader_unique h₁ h₂ := h₁.trans h₂.symm
  rest h := Or.inl (congrArg Reader.rest h)
  next h _ := congrArg Reader.next h
  lineBreak {r r'} h := by
    obtain rfl := h
    cases r.lineBreak? with
    | none => exact Or.inl ⟨rfl, rfl⟩
    | some found => exact Or.inr ⟨found.1, found.2, found.2, rfl, rfl, rfl⟩
  opening h := by rw [h]

/-- The places of a pairing from an index on. -/
def Pairing.onward (K : Pairing) (first : Nat) : Pairing where
  mark m m' := K.mark m m' ∧ first ≤ m'.index
  reader r r' := K.reader r r' ∧ first ≤ r'.mark.index
  mark_of_reader h := ⟨K.mark_of_reader h.1, h.2⟩
  line h := K.line h.1
  column h := K.column h.1
  distance hk hm := K.distance hk.1 hm.1
  mark_unique h₁ h₂ := K.mark_unique h₁.1 h₂.1
  reader_unique h₁ h₂ := K.reader_unique h₁.1 h₂.1
  rest h := K.rest h.1
  next h hpeek := ⟨K.next h.1 hpeek, h.2.trans (Reader.Leads.next _).index_le⟩
  lineBreak h := (K.lineBreak h.1).imp_right fun ⟨c, r₁, r₁', hbreak, hbreak', hr₁⟩ =>
    ⟨c, r₁, r₁', hbreak, hbreak', hr₁,
      h.2.trans ((Reader.Leads.next _).trans (.lineBreak hbreak')).index_le⟩
  opening h := K.opening h.1

/-! ### Line feeds for carriage returns -/

/-- The text with line feeds for its carriage returns, and the text. -/
def Pairing.feeds (text : List Char) : Pairing where
  mark := Mark.WithFeeds text
  reader := Reader.WithFeeds text
  mark_of_reader := Reader.WithFeeds.mark
  line := Mark.WithFeeds.line
  column := Mark.WithFeeds.column
  distance := Mark.WithFeeds.distance
  mark_unique := Mark.WithFeeds.unique
  reader_unique := Reader.WithFeeds.unique
  rest h := Or.inr h.rest
  next := Reader.WithFeeds.next
  lineBreak := Reader.WithFeeds.lineBreak
  opening := Reader.WithFeeds.opening

/-! ### Behind a byte order mark -/

/-- The reader does not stand at a byte order mark that starts a text. -/
def Reader.Unmarked (r : Reader) : Prop := r.mark.index = 0 → r.peek ≠ '\ufeff'

theorem Reader.Unmarked.leads {r r' : Reader} (h : r.Unmarked) (hleads : r.Leads r') :
    r'.Unmarked := by
  obtain ⟨k, rfl⟩ := hleads
  induction k generalizing r with
  | zero => exact h
  | succ k ih =>
      refine ih (r := r.next) fun hindex => ?_
      cases hrest : r.rest with
      | nil =>
          have hsame : r.next = r := by simp [next, hrest]
          rw [hsame] at hindex ⊢
          exact h hindex
      | cons c rest =>
          rw [next_index hrest] at hindex
          exact absurd hindex (Nat.succ_ne_zero _)

/-- A text that starts with no byte order mark, and the same text behind one. -/
def Pairing.behindMark : Pairing where
  mark m m' := m' = m.shifted 1 0
  reader r r' := r.Unmarked ∧ r' = r.shifted 1 0
  mark_of_reader h := congrArg Reader.mark h.2
  line h := (congrArg Mark.line h).symm
  column h := (congrArg Mark.column h).symm
  distance hk hm _ := by rw [hk, hm, Mark.shifted, Mark.shifted, Nat.add_sub_add_right]
  mark_unique h₁ h₂ := Mark.shifted_injective (h₁.symm.trans h₂)
  reader_unique h₁ h₂ := Reader.shifted_injective (h₁.2.symm.trans h₂.2)
  rest h := Or.inl (congrArg Reader.rest h.2).symm
  next h _ := ⟨h.1.leads (.next _), by rw [h.2, Reader.next_shifted]⟩
  lineBreak {r r'} h := by
    obtain ⟨hr, rfl⟩ := h
    rw [Reader.lineBreak?_shifted]
    cases hbreak : r.lineBreak? with
    | none => exact Or.inl ⟨rfl, rfl⟩
    | some found =>
        obtain ⟨c, r₁⟩ := found
        exact Or.inr ⟨c, r₁, _, rfl, rfl, hr.leads (.trans (.next r) (.lineBreak hbreak)), rfl⟩
  opening {r r'} h := by
    obtain ⟨hr, rfl⟩ := h
    have hstart : (r.mark.index == 0 && r.peek == '\ufeff') = false := by
      rw [Bool.and_eq_false_imp]
      intro hindex
      exact beq_false_of_ne (hr (beq_iff_eq.mp hindex))
    rw [hstart]
    rfl

end Playbook
