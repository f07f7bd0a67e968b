import Mathlib.Data.List.Infix
import Mathlib.Data.List.TakeWhile
import Playbook.Catalog.Documentation

/-!
The documentation in the source of a module. It is found exactly where it is written: the first
time that the label is assigned something, between the quotes behind the equals sign. Where the
label is mentioned only, or compared, there is none.
-/

namespace Playbook

/-! ### Searching -/

section Search

variable {part text body rest : List Char}

/-- A part that closes a text stands in the two of them together at the end only. -/
def Closes (part body : List Char) : Prop := ∀ i < body.length, ¬ part <+: (body ++ part).drop i

instance (part body : List Char) : Decidable (Closes part body) :=
  inferInstanceAs (Decidable (∀ i < body.length, ¬ part <+: (body ++ part).drop i))

theorem closes_cons_iff {c : Char} :
    Closes part (c :: body) ↔ ¬ part <+: c :: (body ++ part) ∧ Closes part body := by
  unfold Closes
  rw [List.length_cons, Nat.forall_lt_succ_left]
  rfl

/-- More text behind the part does not matter: an occurrence that starts before it ends in it. -/
theorem prefix_closed_iff {c : Char} (rest : List Char) :
    part <+: c :: (body ++ (part ++ rest)) ↔ part <+: c :: (body ++ part) := by
  rw [← List.append_assoc, ← List.cons_append]
  apply List.isPrefix_append_of_length
  rw [List.length_cons, List.length_append]
  omega

/-- What stands before the first occurrence of a part is what the part closes. -/
theorem textBefore?_eq_some_iff : textBefore? part text = some body ↔
    Closes part body ∧ ∃ rest, text = body ++ (part ++ rest) := by
  induction text generalizing body with
  | nil =>
      rw [textBefore?]
      constructor
      · intro h
        split_ifs at h with hpart
        cases h
        exact ⟨fun i hi => absurd hi (Nat.not_lt_zero i), [], by simpa using hpart⟩
      · rintro ⟨-, rest, hrest⟩
        obtain ⟨rfl, hpart⟩ := List.append_eq_nil_iff.mp hrest.symm
        rw [(List.append_eq_nil_iff.mp hpart).1]
        rfl
  | cons c text ih =>
      rw [textBefore?]
      constructor
      · intro h
        split_ifs at h with hpart
        · obtain ⟨rest, hrest⟩ := List.isPrefixOf_iff_prefix.mp hpart
          cases h
          exact ⟨fun i hi => absurd hi (Nat.not_lt_zero i), rest, hrest.symm⟩
        · obtain ⟨body, hbody, rfl⟩ := Option.map_eq_some_iff.mp h
          obtain ⟨hcloses, rest, rfl⟩ := ih.mp hbody
          rw [List.isPrefixOf_iff_prefix, prefix_closed_iff] at hpart
          exact ⟨closes_cons_iff.mpr ⟨hpart, hcloses⟩, rest, rfl⟩
      · rintro ⟨hcloses, rest, hrest⟩
        cases body with
        | nil => rw [if_pos (List.isPrefixOf_iff_prefix.mpr ⟨rest, hrest.symm⟩)]
        | cons b body =>
            rw [List.cons_append] at hrest
            obtain ⟨rfl, rfl⟩ := List.cons.inj hrest
            obtain ⟨hpart, hcloses⟩ := closes_cons_iff.mp hcloses
            rw [← prefix_closed_iff rest, ← List.isPrefixOf_iff_prefix] at hpart
            rw [if_neg hpart, ih.mpr ⟨hcloses, rest, rfl⟩]
            rfl

theorem trimStart_eq_iff : trimStart text = rest ↔
    ∃ white, text = white ++ rest ∧ (∀ c ∈ white, isWhiteSpace c = true) ∧
      ∀ c ∈ rest.head?, isWhiteSpace c = false := by
  unfold trimStart
  constructor
  · rintro rfl
    refine ⟨text.takeWhile isWhiteSpace, List.takeWhile_append_dropWhile.symm,
      fun c hc => List.mem_takeWhile_imp hc, ?_⟩
    intro c hc
    have hhead := List.head?_dropWhile_not isWhiteSpace text
    rwa [hc] at hhead
  · rintro ⟨white, rfl, hwhite, hrest⟩
    rw [List.dropWhile_append_of_pos hwhite]
    cases rest with
    | nil => rfl
    | cons c rest => rw [List.dropWhile_cons_of_neg (by rw [hrest c rfl]; exact Bool.false_ne_true)]

end Search

namespace Documentation

/-! ### Assignments -/

/-- Behind white space stands an equals sign and not a second one. -/
def Assigns (text : List Char) : Prop :=
  ∃ white rest, (∀ c ∈ white, isWhiteSpace c = true) ∧ text = white ++ '=' :: rest ∧
    rest.head? ≠ some '='

/-- The label stands at a place of a source, and behind it something is assigned. -/
def AssignsAt (source : List Char) (i : Nat) : Prop :=
  label <+: source.drop i ∧ Assigns (source.drop (i + label.length))

variable {source text value : List Char}

theorem assigned?_of_trim {rest : List Char} (h : trimStart text = '=' :: rest)
    (hsecond : rest.head? ≠ some '=') : assigned? text = some (trimStart rest) := by
  unfold assigned?
  rw [h]
  split
  · rename_i heq
    cases heq
    exact absurd rfl hsecond
  · rename_i heq
    cases heq
    rfl
  · rename_i hother
    exact absurd rfl (hother rest)

theorem assigned?_eq_some_iff : assigned? text = some value ↔
    ∃ white rest, (∀ c ∈ white, isWhiteSpace c = true) ∧ text = white ++ '=' :: rest ∧
      rest.head? ≠ some '=' ∧ trimStart rest = value := by
  constructor
  · intro h
    unfold assigned? at h
    split at h
    · cases h
    · rename_i rest hsecond htrim
      obtain ⟨white, htext, hwhite, -⟩ := trimStart_eq_iff.mp htrim
      refine ⟨white, rest, hwhite, htext, ?_, Option.some.inj h⟩
      intro hhead
      obtain ⟨tail, rfl⟩ := List.head?_eq_some_iff.mp hhead
      exact hsecond tail rfl
    · cases h
  · rintro ⟨white, rest, hwhite, rfl, hsecond, rfl⟩
    have htrim : trimStart (white ++ '=' :: rest) = '=' :: rest := by
      refine trimStart_eq_iff.mpr ⟨white, rfl, hwhite, ?_⟩
      rintro c ⟨⟩
      decide
    exact assigned?_of_trim htrim hsecond

theorem assigns_iff : Assigns text ↔ (assigned? text).isSome = true := by
  rw [Option.isSome_iff_exists]
  constructor
  · rintro ⟨white, rest, hwhite, htext, hsecond⟩
    exact ⟨_, assigned?_eq_some_iff.mpr ⟨white, rest, hwhite, htext, hsecond, rfl⟩⟩
  · rintro ⟨value, h⟩
    obtain ⟨white, rest, hwhite, htext, hsecond, -⟩ := assigned?_eq_some_iff.mp h
    exact ⟨white, rest, hwhite, htext, hsecond⟩

instance (text : List Char) : Decidable (Assigns text) := decidable_of_iff' _ assigns_iff

instance (source : List Char) (i : Nat) : Decidable (AssignsAt source i) :=
  inferInstanceAs (Decidable (_ ∧ _))

/-! ### The first assignment -/

theorem assignsAt_succ_iff {c : Char} {i : Nat} :
    AssignsAt (c :: source) (i + 1) ↔ AssignsAt source i := by
  rw [AssignsAt, AssignsAt, Nat.add_right_comm, List.drop_succ_cons, List.drop_succ_cons]

theorem assignsAt_zero_iff :
    AssignsAt source 0 ↔ ∃ text, source = label ++ text ∧ Assigns text := by
  rw [AssignsAt, List.drop_zero, Nat.zero_add]
  constructor
  · rintro ⟨⟨text, rfl⟩, hassigns⟩
    rw [List.drop_left] at hassigns
    exact ⟨text, rfl, hassigns⟩
  · rintro ⟨text, rfl, hassigns⟩
    rw [List.drop_left]
    exact ⟨List.prefix_append label text, hassigns⟩

theorem assignment?_of_assigned (h : assigned? text = some value) :
    assignment? (label ++ text) = some value := by
  obtain ⟨c, rest, hcons⟩ : ∃ c rest, label ++ text = c :: rest := ⟨_, _, rfl⟩
  have hlabel : label.isPrefixOf (c :: rest) = true :=
    List.isPrefixOf_iff_prefix.mpr (hcons ▸ List.prefix_append label text)
  have hdrop : (c :: rest).drop label.length = text := by rw [← hcons, List.drop_left]
  rw [hcons, assignment?, if_pos hlabel, hdrop, h]

theorem assignment?_cons_of_not {c : Char} (h : ¬ AssignsAt (c :: source) 0) :
    assignment? (c :: source) = assignment? source := by
  have hnone : (if label.isPrefixOf (c :: source) then
      assigned? ((c :: source).drop label.length) else none) = none := by
    split_ifs with hlabel
    · rw [← Option.not_isSome_iff_eq_none, ← assigns_iff]
      intro hassigns
      exact h ⟨List.isPrefixOf_iff_prefix.mp hlabel, by rwa [Nat.zero_add]⟩
    · rfl
  rw [assignment?, hnone]

theorem assignment?_eq_some_iff : assignment? source = some value ↔
    ∃ before text, source = before ++ (label ++ text) ∧ assigned? text = some value ∧
      ∀ i < before.length, ¬ AssignsAt source i := by
  constructor
  · intro h
    induction source with
    | nil => cases h
    | cons c rest ih =>
        by_cases hat : AssignsAt (c :: rest) 0
        · obtain ⟨text, hsource, hassigns⟩ := assignsAt_zero_iff.mp hat
          obtain ⟨found, hfound⟩ := Option.isSome_iff_exists.mp (assigns_iff.mp hassigns)
          rw [hsource, assignment?_of_assigned hfound] at h
          exact ⟨[], text, hsource, hfound.trans h, fun i hi => absurd hi (Nat.not_lt_zero i)⟩
        · rw [assignment?_cons_of_not hat] at h
          obtain ⟨before, text, hrest, hvalue, hfirst⟩ := ih h
          refine ⟨c :: before, text, congrArg (c :: ·) hrest, hvalue, fun i hi => ?_⟩
          cases i with
          | zero => exact hat
          | succ i =>
              rw [assignsAt_succ_iff]
              exact hfirst i (Nat.lt_of_succ_lt_succ hi)
  · rintro ⟨before, text, rfl, hvalue, hfirst⟩
    induction before with
    | nil => exact assignment?_of_assigned hvalue
    | cons c before ih =>
        rw [List.cons_append] at hfirst ⊢
        rw [assignment?_cons_of_not (hfirst 0 (Nat.succ_pos _))]
        exact ih fun i hi hat => hfirst (i + 1) (Nat.succ_lt_succ hi) (assignsAt_succ_iff.mpr hat)

theorem assignment?_eq_none (h : ∀ i < source.length, ¬ AssignsAt source i) :
    assignment? source = none := by
  induction source with
  | nil => rfl
  | cons c rest ih =>
      rw [assignment?_cons_of_not (h 0 (Nat.succ_pos _))]
      exact ih fun i hi hat => h (i + 1) (Nat.succ_lt_succ hi) (assignsAt_succ_iff.mpr hat)

/-! ### String literals -/

/-- A quote stands at the start of a text, and does not begin a triple quote there if it is only one
character. -/
structure Opens (quote text : List Char) : Prop where
  mem : quote ∈ quotes
  start : quote <+: text
  single : quote.length = 1 → ∀ triple ∈ quotes, triple.length = 3 → ¬ triple <+: text

theorem length_of_mem_quotes {quote : List Char} (h : quote ∈ quotes) :
    quote.length = 1 ∨ quote.length = 3 := by
  revert quote
  decide

theorem Opens.unique {quote quote' : List Char} (h : Opens quote text) (h' : Opens quote' text) :
    quote = quote' := by
  have hsame : quote.length = quote'.length := by
    rcases length_of_mem_quotes h.mem with hone | hthree <;>
      rcases length_of_mem_quotes h'.mem with hone' | hthree'
    · rw [hone, hone']
    · exact absurd h'.start (h.single hone _ h'.mem hthree')
    · exact absurd h.start (h'.single hone' _ h.mem hthree)
    · rw [hthree, hthree']
  exact (List.prefix_of_prefix_length_le h.start h'.start hsame.le).eq_of_length hsame

theorem triples_first : (∀ quote ∈ quotes, quote.length = 3 → quote ∈ quotes.take 2) ∧
    ∀ quote ∈ quotes.take 2, quote.length = 3 := by
  decide

/-- Triple quotes are tried first. -/
theorem opens_of_find? {quote : List Char}
    (h : quotes.find? (·.isPrefixOf text) = some quote) : Opens quote text := by
  have hstart : quote.isPrefixOf text = true := by simpa using List.find?_some h
  refine ⟨List.mem_of_find?_eq_some h, List.isPrefixOf_iff_prefix.mp hstart, ?_⟩
  intro hone triple hmem hthree htriple
  -- A triple quote here would have been found among the first two.
  have hearly : ((quotes.take 2).find? (·.isPrefixOf text)).isSome = true :=
    List.find?_isSome.mpr
      ⟨triple, triples_first.1 triple hmem hthree, List.isPrefixOf_iff_prefix.mpr htriple⟩
  obtain ⟨early, hearly⟩ := Option.isSome_iff_exists.mp hearly
  rw [← List.take_append_drop 2 quotes, List.find?_append, hearly] at h
  cases h
  have hlong := triples_first.2 quote (List.mem_of_find?_eq_some hearly)
  omega

theorem find?_quotes_iff {quote : List Char} :
    quotes.find? (·.isPrefixOf text) = some quote ↔ Opens quote text := by
  refine ⟨opens_of_find?, fun h => ?_⟩
  obtain ⟨found, hfound⟩ : ∃ found, quotes.find? (·.isPrefixOf text) = some found :=
    Option.isSome_iff_exists.mp
      (List.find?_isSome.mpr ⟨quote, h.mem, List.isPrefixOf_iff_prefix.mpr h.start⟩)
  rw [hfound, (opens_of_find? hfound).unique h]

theorem stringBody?_eq_some_iff {body : List Char} : stringBody? text = some body ↔
    ∃ quote rest, text = quote ++ (body ++ (quote ++ rest)) ∧ Opens quote text ∧
      Closes quote body := by
  rw [stringBody?, Option.bind_eq_some_iff]
  constructor
  · rintro ⟨quote, hquote, hbody⟩
    have hopens := find?_quotes_iff.mp hquote
    obtain ⟨tail, rfl⟩ := hopens.start
    rw [List.drop_left] at hbody
    obtain ⟨hcloses, rest, rfl⟩ := textBefore?_eq_some_iff.mp hbody
    exact ⟨quote, rest, rfl, hopens, hcloses⟩
  · rintro ⟨quote, rest, rfl, hopens, hcloses⟩
    refine ⟨quote, find?_quotes_iff.mpr hopens, ?_⟩
    rw [List.drop_left]
    exact textBefore?_eq_some_iff.mpr ⟨hcloses, rest, rfl⟩

theorem Opens.exists_cons {quote : List Char} (h : Opens quote text) :
    ∃ c ∈ ['\'', '"'], ∃ rest, text = c :: rest := by
  obtain ⟨rest, rfl⟩ := h.start
  have hmem := h.mem
  simp only [quotes, List.mem_cons, List.not_mem_nil, or_false] at hmem
  rcases hmem with rfl | rfl | rfl | rfl
  · exact ⟨'\'', by decide, _, rfl⟩
  · exact ⟨'"', by decide, _, rfl⟩
  · exact ⟨'\'', by decide, _, rfl⟩
  · exact ⟨'"', by decide, _, rfl⟩

/-! ### Raw strings -/

/-- The marks of a raw string, and none. -/
def rawMarks : List (List Char) := [[], ['r'], ['R']]

theorem exists_rawMark (value : List Char) :
    ∃ raw ∈ rawMarks, value = raw ++ dropRawMark value := by
  unfold dropRawMark
  split
  · exact ⟨['r'], by decide, rfl⟩
  · exact ⟨['R'], by decide, rfl⟩
  · exact ⟨[], by decide, rfl⟩

theorem dropRawMark_append {raw quote : List Char} (hraw : raw ∈ rawMarks)
    (hopens : Opens quote text) : dropRawMark (raw ++ text) = text := by
  simp only [rawMarks, List.mem_cons, List.not_mem_nil, or_false] at hraw
  rcases hraw with rfl | rfl | rfl
  · obtain ⟨c, hc, rest, rfl⟩ := hopens.exists_cons
    simp only [List.mem_cons, List.not_mem_nil, or_false] at hc
    rcases hc with rfl | rfl <;> rfl
  · rfl
  · rfl

/-- A string starts neither with white space nor with an equals sign. -/
theorem exists_cons_string {raw quote : List Char} (hraw : raw ∈ rawMarks)
    (hopens : Opens quote text) :
    ∃ c rest, raw ++ text = c :: rest ∧ isWhiteSpace c = false ∧ c ≠ '=' := by
  simp only [rawMarks, List.mem_cons, List.not_mem_nil, or_false] at hraw
  rcases hraw with rfl | rfl | rfl
  · obtain ⟨c, hc, rest, rfl⟩ := hopens.exists_cons
    simp only [List.mem_cons, List.not_mem_nil, or_false] at hc
    refine ⟨c, rest, rfl, ?_⟩
    rcases hc with rfl | rfl <;> decide
  · exact ⟨'r', text, rfl, by decide, by decide⟩
  · exact ⟨'R', text, rfl, by decide, by decide⟩

/-! ### The form of a documented source -/

/-- The parts of a source: what stands before the label, the white space on both sides of the equals
sign, a mark of a raw string, a quote, the text in quotes and what follows them. -/
structure Parts where
  before : List Char
  left : List Char
  right : List Char
  raw : List Char
  quote : List Char
  body : List Char
  rest : List Char

namespace Parts

/-- The string from its first quote on. -/
def string (p : Parts) : List Char := p.quote ++ (p.body ++ (p.quote ++ p.rest))

/-- The parts put together. -/
def whole (p : Parts) : List Char :=
  p.before ++ (label ++ (p.left ++ '=' :: (p.right ++ (p.raw ++ p.string))))

/-- The parts are an assignment of a string to the label, and nothing is assigned to it before. -/
structure Documents (p : Parts) : Prop where
  left : ∀ c ∈ p.left, isWhiteSpace c = true
  right : ∀ c ∈ p.right, isWhiteSpace c = true
  raw : p.raw ∈ rawMarks
  opens : Opens p.quote p.string
  closes : Closes p.quote p.body
  first : ∀ i < p.before.length, ¬ AssignsAt p.whole i

theorem Documents.block?_eq {p : Parts} (h : p.Documents) : block? p.whole = some p.body := by
  obtain ⟨c, more, hcons, hwhite, hequals⟩ := exists_cons_string h.raw h.opens
  have htrim : trimStart (p.right ++ (p.raw ++ p.string)) = p.raw ++ p.string := by
    refine trimStart_eq_iff.mpr ⟨p.right, rfl, h.right, ?_⟩
    rw [hcons]
    rintro d ⟨⟩
    exact hwhite
  have hsecond : (p.right ++ (p.raw ++ p.string)).head? ≠ some '=' := by
    intro hhead
    cases hright : p.right with
    | nil =>
        rw [hright, hcons] at hhead
        cases hhead
        exact hequals rfl
    | cons d right =>
        rw [hright] at hhead
        cases hhead
        have hspace := h.right '=' (hright ▸ List.mem_cons_self)
        exact absurd hspace (by decide)
  have hassigned := assigned?_eq_some_iff.mpr ⟨p.left, _, h.left, rfl, hsecond, htrim⟩
  have hassignment : assignment? p.whole = some (p.raw ++ p.string) :=
    assignment?_eq_some_iff.mpr ⟨p.before, _, rfl, hassigned, h.first⟩
  rw [block?, hassignment, Option.bind_some, dropRawMark_append h.raw h.opens]
  exact stringBody?_eq_some_iff.mpr ⟨p.quote, p.rest, rfl, h.opens, h.closes⟩

end Parts

theorem exists_documents {body : List Char} (h : block? source = some body) :
    ∃ p : Parts, p.Documents ∧ p.whole = source ∧ p.body = body := by
  obtain ⟨value, hvalue, hstring⟩ := Option.bind_eq_some_iff.mp h
  obtain ⟨before, text, hsource, hassigned, hfirst⟩ := assignment?_eq_some_iff.mp hvalue
  obtain ⟨left, behind, hleft, rfl, -, htrim⟩ := assigned?_eq_some_iff.mp hassigned
  obtain ⟨right, rfl, hright, -⟩ := trimStart_eq_iff.mp htrim
  obtain ⟨raw, hraw, hmark⟩ := exists_rawMark value
  obtain ⟨quote, rest, htext, hopens, hcloses⟩ := stringBody?_eq_some_iff.mp hstring
  rw [htext] at hmark hopens
  rw [hmark] at hsource
  subst hsource
  exact ⟨⟨before, left, right, raw, quote, body, rest⟩,
    ⟨hleft, hright, hraw, hopens, hcloses, hfirst⟩, rfl, rfl⟩

/-- The documentation of a source is the text in quotes of the first assignment to the label,
whatever stands around it and whatever mentions and comparisons come before. Where nothing is
assigned to the label there is no documentation. -/
theorem block?_exact (source : List Char) :
    (∀ body, block? source = some body ↔
      ∃ p : Parts, p.Documents ∧ p.whole = source ∧ p.body = body) ∧
    ((∀ i < source.length, ¬ AssignsAt source i) → block? source = none) := by
  refine ⟨fun body => ⟨exists_documents, ?_⟩, fun h => ?_⟩
  · rintro ⟨p, hp, rfl, rfl⟩
    exact hp.block?_eq
  · rw [block?, assignment?_eq_none h]
    rfl

/-- A mention, a comparison, and a raw string in triple quotes that holds quotes of both kinds. With
the mention and the comparison alone there is no documentation. -/
theorem block?_exact_raw :
    let mentions := "# DOCUMENTATION\nif DOCUMENTATION == 1: pass\n".toList
    let body := "it's \"\"raw\"\" ".toList
    let p : Parts := ⟨mentions, " ".toList, "\n ".toList, ['r'], "\"\"\"".toList, body,
      "\nDOCUMENTATION = ''\n".toList⟩
    p.Documents ∧ block? p.whole = some body ∧ block? mentions = none := by
  intro mentions body p
  have hdocuments : p.Documents := by
    refine ⟨?_, ?_, by decide, ⟨by decide, List.prefix_append _ _, ?_⟩, ?_, ?_⟩
    · exact List.all_eq_true.mp (by decide)
    · exact List.all_eq_true.mp (by decide)
    · exact fun hone => absurd hone (by decide)
    · decide +kernel
    · decide +kernel
  have hblock := ((block?_exact p.whole).1 body).mpr ⟨p, hdocuments, rfl, rfl⟩
  exact ⟨hdocuments, hblock, (block?_exact mentions).2 (by decide +kernel)⟩

end Documentation

end Playbook
