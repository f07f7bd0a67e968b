import Playbook.Proofs.LineStart
import Playbook.Proofs.TokenBudget
import Playbook.Proofs.TokenOrder
import Playbook.Proofs.TokenQueue

/-!
A fetch taken apart. Each of the ways to fetch a token is a row of a few changes, the same ones for
all of them: `Act` lists these. So what every fetch keeps is shown by looking at each change once,
and what holds of every state that a stream comes to, however its tokens are looked at and taken, is
shown by looking at the changes and at the handing out of a token.
-/

namespace Playbook

namespace TokenKind

/-- A block collection starts. -/
def startsBlock : TokenKind → Bool
  | .blockSequenceStart | .blockMappingStart => true
  | _ => false

def endsBlock : TokenKind → Bool
  | .blockEnd => true
  | _ => false

/-- The token stands for text, and not for a change of the indentation. -/
def Written (kind : TokenKind) : Prop := kind.startsBlock = false ∧ kind.endsBlock = false

end TokenKind

namespace TokenStream

open Reader

/-- The stream at its next token: what lies before it is skipped, keys that are stale there are
dropped, and the blocks that end before it are closed. -/
def approach (s : TokenStream) : Except Diagnostic TokenStream := do
  let s ← s.skipToToken.dropStaleKeys
  return s.unwind s.mark.column

theorem fetch_eq_approach (s : TokenStream) : s.fetch = s.approach >>= fetchSign := by
  unfold fetch approach
  cases s.skipToToken.dropStaleKeys <;> rfl

/-- One of the changes that a fetch is made of. -/
inductive Act (s : TokenStream) : TokenStream → Prop
  /-- The reader moves on between two tokens. -/
  | skip {reader : Reader} (keyAllowed : Bool) (hleads : s.reader.Leads reader) :
      s.Act { s with reader, keyAllowed }
  /-- Pending keys are given up. -/
  | drop (keep : SimpleKey → Bool) : s.Act { s with keys := s.keys.filter keep }
  /-- Blocks end. -/
  | unwind {column : Int} (hcolumn : -1 ≤ column) : s.Act (s.unwind column)
  /-- A block starts at the current column. -/
  | indent {kind : TokenKind} (hkind : kind.startsBlock = true)
      (hlt : s.indent < (s.mark.column : Int)) :
      s.Act ({ s with indent := s.mark.column, indents := s.indent :: s.indents }.pushHere kind)
  /-- A pending key turns out to be one. -/
  | insert {key : SimpleKey} (hkey : s.key? = some key) : s.Act (s.forgetKey.insertKey key)
  /-- A token is read that starts no key. -/
  | read {token : Token} {reader : Reader} (keyAllowed : Bool) (hkind : token.kind.Written)
      (hleads : s.reader.Leads reader) : s.Act { s.pushRead token reader with keyAllowed }
  /-- A token is read that may start a key. -/
  | note {token : Token} {reader : Reader} (required keyAllowed : Bool)
      (hkind : token.kind.Written) (hstart : token.start = s.mark)
      (hleads : s.reader.Leads reader) (hparts : s.reader.Parts reader) :
      s.Act { s.pushRead token reader with
        keyAllowed
        keys := ⟨s.flowLevel, s.taken + s.queue.length, required, s.mark⟩ :: s.forgetKey.keys }
  /-- A bracket is opened. -/
  | enter : s.Act { s with flowLevel := s.flowLevel + 1 }
  /-- A bracket is closed, and inside of it no key is pending. -/
  | leave (hkeys : ∀ key ∈ s.keys, key.level ≠ s.flowLevel) :
      s.Act { s with flowLevel := s.flowLevel - 1 }
  /-- The end of the text is read. -/
  | finish (hindent : s.inFlow = false → s.indent ≤ -1) :
      s.Act { s.pushHere .streamEnd with done := true, keyAllowed := false, keys := [] }

/-- Changes before the end of the text, one after the other. -/
def Acts : TokenStream → TokenStream → Prop :=
  Relation.ReflTransGen fun s s' => s.done = false ∧ s.Act s'

theorem Acts.keeps {P : TokenStream → Prop} {s s' : TokenStream} (h : s.Acts s')
    (hact : ∀ s s', s.done = false → s.Act s' → P s → P s') (hs : P s) : P s' := by
  induction h with
  | refl => exact hs
  | tail _ hstep ih => exact hact _ _ hstep.1 hstep.2 ih

section Fetch

variable {s s' s₁ : TokenStream}

theorem Act.acts (h : s.Act s') (hdone : s.done = false) : s.Acts s' := .single ⟨hdone, h⟩

theorem Acts.act (h : s.Acts s₁) (hdone : s₁.done = false) (hact : s₁.Act s') : s.Acts s' :=
  .tail h ⟨hdone, hact⟩

theorem unwind_done (s : TokenStream) (column : Int) : (s.unwind column).done = s.done := by
  rw [(s.unwind_moved column).same]

theorem skipToToken_acts (hdone : s.done = false) (h : s.skipToToken.dropStaleKeys = .ok s') :
    s.Acts s' ∧ s'.done = false := by
  obtain ⟨-, rfl⟩ := dropStaleKeys_eq_ok_iff.mp h
  have hskip : s.Act s.skipToToken := .skip s.skipToToken.keyAllowed s.skipToToken_leads
  exact ⟨(hskip.acts hdone).act hdone (.drop _), hdone⟩

theorem approach_acts (hdone : s.done = false) (h : s.approach = .ok s') :
    s.Acts s' ∧ s'.done = false := by
  obtain ⟨s₁, hdrop, h⟩ := bind_eq_ok_iff.mp h
  obtain ⟨hacts, hdone₁⟩ := skipToToken_acts hdone hdrop
  cases h
  exact ⟨hacts.act hdone₁ (.unwind (by omega)), (s₁.unwind_done _).trans hdone₁⟩

theorem removeKey_eq (h : s.removeKey = .ok s') : s' = s.forgetKey := by
  unfold removeKey at h
  split at h
  · split_ifs at h
    exact (Except.ok.inj h).symm
  · rename_i hnone
    have hkeys : s.keys.filter (·.level != s.flowLevel) = s.keys := by
      rw [List.filter_eq_self]
      intro key hkey
      have hlevel := List.find?_eq_none.mp hnone key hkey
      simpa using hlevel
    rw [← Except.ok.inj h, forgetKey, hkeys]

theorem Acts.removeKey (h : s.Acts s₁) (hdone : s₁.done = false) (hremove : s₁.removeKey = .ok s') :
    s.Acts s' ∧ s'.done = false := by
  rw [removeKey_eq hremove]
  exact ⟨h.act hdone (.drop _), hdone⟩

/-- The token that is read next is noted as a possible key, or read without. -/
theorem saveKey_acts (token : Token) {reader : Reader} (hdone : s.done = false)
    (hsave : s.saveKey = .ok s₁) (keyAllowed : Bool) (hkind : token.kind.Written)
    (hstart : token.start = s.mark) (hleads : s.reader.Leads reader)
    (hparts : s.reader.Parts reader) :
    s.Acts { s₁.pushRead token reader with keyAllowed } ∧ s₁.done = false := by
  unfold saveKey at hsave
  split_ifs at hsave
  · obtain ⟨s₂, hremove, hsave⟩ := bind_eq_ok_iff.mp hsave
    rw [removeKey_eq hremove] at hsave
    cases hsave
    exact ⟨(Act.note _ keyAllowed hkind hstart hleads hparts).acts hdone, hdone⟩
  · cases hsave
    exact ⟨(Act.read keyAllowed hkind hleads).acts hdone, hdone⟩

theorem openBlock_acts {kind : TokenKind} {refusal : Problem} (hdone : s.done = false)
    (hkind : kind.startsBlock = true) (h : s.openBlock kind refusal = .ok s') :
    s.Acts s' ∧ s'.done = false := by
  unfold openBlock at h
  split_ifs at h
  · cases h
    exact ⟨.refl, hdone⟩
  · unfold indentTo at h
    split_ifs at h with hlt
    · cases h
      exact ⟨(Act.indent hkind hlt).acts hdone, hdone⟩
    · cases h
      exact ⟨.refl, hdone⟩

/-- A sign is read that starts no key. -/
theorem Acts.sign {kind : TokenKind} (h : s.Acts s₁) (hdone : s₁.done = false)
    (hkind : kind.Written) (length : Nat) (keyAllowed : Bool) :
    s.Acts { s₁.pushSign kind length with keyAllowed } :=
  h.act hdone (.read keyAllowed hkind (.advance _ _))

theorem closeBlocks_le {column : Int} (hcolumn : -1 ≤ column) (mark : Mark) (indent : Int)
    (indents : List Int) (queue : List Token) :
    (closeBlocks column mark indent indents queue).1 ≤ column := by
  induction indents generalizing indent queue with
  | nil =>
      unfold closeBlocks
      split_ifs with hgt
      · exact hcolumn
      · exact Int.not_lt.mp hgt
  | cons outer indents ih =>
      unfold closeBlocks
      split_ifs with hgt
      · exact ih outer _
      · exact Int.not_lt.mp hgt

theorem unwind_indent_le {column : Int} (hcolumn : -1 ≤ column) (hflow : s.inFlow = false) :
    (s.unwind column).indent ≤ column := by
  rw [unwind, if_neg (by simp [hflow])]
  exact closeBlocks_le hcolumn _ _ _ _

theorem unwind_inFlow (s : TokenStream) (column : Int) : (s.unwind column).inFlow = s.inFlow := by
  rw [(s.unwind_moved column).same]
  rfl

theorem fetchEnd_acts (hdone : s.done = false) (h : s.fetchEnd = .ok s') : s.Acts s' := by
  obtain ⟨s₁, hremove, h⟩ := bind_eq_ok_iff.mp h
  have hclosed : s.Acts (s.unwind (-1)) := (Act.unwind (by omega)).acts hdone
  obtain ⟨hacts, hdone₁⟩ := hclosed.removeKey ((s.unwind_done _).trans hdone) hremove
  cases h
  refine hacts.act hdone₁ (.finish fun hflow => ?_)
  rw [removeKey_eq hremove] at hflow ⊢
  exact unwind_indent_le (by omega) ((s.unwind_inFlow _).symm.trans hflow)

theorem fetchDirective_acts (hdone : s.done = false) (h : s.fetchDirective = .ok s') :
    s.Acts s' := by
  obtain ⟨s₁, hremove, h⟩ := bind_eq_ok_iff.mp h
  obtain ⟨⟨token, reader⟩, hread, h⟩ := bind_eq_ok_iff.mp h
  have hclosed : s.Acts (s.unwind (-1)) := (Act.unwind (by omega)).acts hdone
  obtain ⟨hacts, hdone₁⟩ := hclosed.removeKey ((s.unwind_done _).trans hdone) hremove
  obtain ⟨name, params, hkind⟩ := readDirective_kind hread
  have hwritten : token.kind.Written := hkind ▸ ⟨rfl, rfl⟩
  cases h
  exact hacts.act hdone₁ (.read false hwritten ((Leads.next _).trans (readDirective_leads hread)))

theorem fetchDocumentSign_acts {kind : TokenKind} (hdone : s.done = false)
    (hkind : kind.Written) : s.Acts (s.fetchDocumentSign kind) := by
  have hclosed : s.Acts (s.unwind (-1)) := (Act.unwind (by omega)).acts hdone
  have hdone₁ : (s.unwind (-1)).done = false := (s.unwind_done _).trans hdone
  exact (hclosed.act hdone₁ (.drop _)).sign hdone₁ hkind 3 false

theorem fetchFlowStart_acts {kind : TokenKind} (hdone : s.done = false)
    (hend : s.reader.atEnd = false) (hpeek : s.reader.peek ≠ '\ufeff') (hkind : kind.Written)
    (h : s.fetchFlowStart kind = .ok s') : s.Acts s' := by
  obtain ⟨s₁, hsave, h⟩ := bind_eq_ok_iff.mp h
  have hreader : s₁.reader = s.reader := by rw [(saveKey_saved hsave).same]
  have hparts := parts_of_next hend hpeek (.refl _)
  obtain ⟨hacts, hdone₁⟩ := saveKey_acts ⟨kind, s₁.mark, s₁.reader.next.mark⟩ hdone hsave true
    hkind (congrArg Reader.mark hreader) (.next _) hparts
  rw [← hreader] at hacts
  cases h
  exact hacts.act hdone₁ .enter

theorem fetchFlowEnd_acts {kind : TokenKind} (hdone : s.done = false) (hkind : kind.Written)
    (h : s.fetchFlowEnd kind = .ok s') : s.Acts s' := by
  obtain ⟨s₁, hremove, h⟩ := bind_eq_ok_iff.mp h
  have hlevel := removeKey_level hremove
  obtain rfl := removeKey_eq hremove
  cases h
  exact (((Act.drop _).acts hdone).act hdone (.leave hlevel)).sign hdone hkind 1 false

theorem fetchFlowEntry_acts (hdone : s.done = false) (h : s.fetchFlowEntry = .ok s') :
    s.Acts s' := by
  obtain ⟨s₁, hremove, h⟩ := bind_eq_ok_iff.mp h
  obtain ⟨hacts, hdone₁⟩ := Acts.removeKey .refl hdone hremove
  cases h
  exact hacts.sign hdone₁ ⟨rfl, rfl⟩ 1 true

theorem fetchBlockEntry_acts (hdone : s.done = false) (h : s.fetchBlockEntry = .ok s') :
    s.Acts s' := by
  obtain ⟨s₁, hopen, h⟩ := bind_eq_ok_iff.mp h
  obtain ⟨s₂, hremove, h⟩ := bind_eq_ok_iff.mp h
  obtain ⟨hacts, hdone₁⟩ := openBlock_acts hdone rfl hopen
  obtain ⟨hacts, hdone₂⟩ := hacts.removeKey hdone₁ hremove
  cases h
  exact hacts.sign hdone₂ ⟨rfl, rfl⟩ 1 true

theorem fetchKey_acts (hdone : s.done = false) (h : s.fetchKey = .ok s') : s.Acts s' := by
  obtain ⟨s₁, hopen, h⟩ := bind_eq_ok_iff.mp h
  obtain ⟨s₂, hremove, h⟩ := bind_eq_ok_iff.mp h
  obtain ⟨hacts, hdone₁⟩ := openBlock_acts hdone rfl hopen
  obtain ⟨hacts, hdone₂⟩ := hacts.removeKey hdone₁ hremove
  cases h
  exact hacts.sign hdone₂ ⟨rfl, rfl⟩ 1 _

theorem fetchValue_acts (hdone : s.done = false) (h : s.fetchValue = .ok s') : s.Acts s' := by
  unfold fetchValue at h
  split at h
  · rename_i key hkey
    have hdone₁ : (s.forgetKey.insertKey key).done = false := by
      rw [insertKey_moved]
      exact hdone
    cases h
    exact ((Act.insert hkey).acts hdone).sign hdone₁ ⟨rfl, rfl⟩ 1 false
  · obtain ⟨s₁, hopen, h⟩ := bind_eq_ok_iff.mp h
    obtain ⟨hacts, hdone₁⟩ := openBlock_acts hdone rfl hopen
    cases h
    exact hacts.sign hdone₁ ⟨rfl, rfl⟩ 1 _

theorem fetchKeyed_acts {read : Reader → Except Diagnostic (Token × Reader)}
    (hread : ∀ r token r', read r = .ok (token, r') →
      token.kind.Written ∧ token.start = r.mark ∧ r.next.Leads r')
    (hdone : s.done = false) (hend : s.reader.atEnd = false) (hpeek : s.reader.peek ≠ '\ufeff')
    (h : s.fetchKeyed read = .ok s') : s.Acts s' := by
  obtain ⟨s₁, hsave, h⟩ := bind_eq_ok_iff.mp h
  obtain ⟨⟨token, reader⟩, hok, h⟩ := bind_eq_ok_iff.mp h
  have hreader : s₁.reader = s.reader := by rw [(saveKey_saved hsave).same]
  obtain ⟨hkind, hstart, hleads⟩ := hread _ _ _ hok
  rw [hreader] at hstart hleads
  cases h
  exact (saveKey_acts _ hdone hsave false hkind hstart ((Leads.next _).trans hleads)
    (parts_of_next hend hpeek hleads)).1

theorem fetchBlockScalar_acts {folded : Bool} (hdone : s.done = false)
    (h : s.fetchBlockScalar folded = .ok s') : s.Acts s' := by
  obtain ⟨s₁, hremove, h⟩ := bind_eq_ok_iff.mp h
  obtain ⟨⟨token, reader⟩, hread, h⟩ := bind_eq_ok_iff.mp h
  obtain ⟨hacts, hdone₁⟩ := Acts.removeKey .refl hdone hremove
  obtain ⟨text, style, hkind⟩ := readBlockScalar_kind hread
  have hwritten : token.kind.Written := hkind ▸ ⟨rfl, rfl⟩
  cases h
  exact hacts.act hdone₁ (.read true hwritten ((Leads.next _).trans (readBlockScalar_leads hread)))

theorem fetchPlain_acts (hdone : s.done = false) (hplain : s.atPlain = true)
    (h : s.fetchPlain = .ok s') : s.Acts s' := by
  obtain ⟨s₁, hsave, h⟩ := bind_eq_ok_iff.mp h
  obtain ⟨hhash, hpiece⟩ := plainPiece_of_atPlain hplain
  have hsame := (saveKey_saved hsave).same
  have hread : readPlain s₁.inFlow s₁.indent s₁.reader = readPlain s.inFlow s.indent s.reader := by
    rw [hsame]
    rfl
  rw [hread] at h
  cases h
  exact (saveKey_acts _ hdone hsave _ ⟨rfl, rfl⟩ rfl
    ((Leads.next _).trans (readPlain_leads hhash hpiece)) (readPlain_parts hhash hpiece)).1

/-- A byte order mark inside of the text is read as part of a plain scalar. -/
theorem fetchSign_of_peek_mark (hpeek : s.reader.peek = '\ufeff') :
    s.fetchSign = s.fetchPlain ∧ s.atPlain = true := by
  have hplain : s.atPlain = true := by
    rw [atPlain, hpeek]
    rfl
  obtain ⟨tail, hrest⟩ := rest_of_peek hpeek (by decide)
  rw [fetchSign_of_not_indicator hrest (by decide) (by decide), if_pos hplain]
  exact ⟨rfl, hplain⟩

theorem fetchSign_acts (hdone : s.done = false) (h : s.fetchSign = .ok s') : s.Acts s' := by
  by_cases hpeek : s.reader.peek = '\ufeff'
  · obtain ⟨hplain, hat⟩ := fetchSign_of_peek_mark hpeek
    exact fetchPlain_acts hdone hat (hplain.symm.trans h)
  have hbranch := s.fetchSign_branch
  generalize s.fetchSign = x at h hbranch
  cases hbranch with
  | atEnd => exact fetchEnd_acts hdone h
  | directive => exact fetchDirective_acts hdone h
  | documentSign _ hkind =>
      cases h
      exact fetchDocumentSign_acts hdone (by rcases hkind with rfl | rfl <;> exact ⟨rfl, rfl⟩)
  | flowStart hend hkind =>
      exact fetchFlowStart_acts hdone hend hpeek
        (by rcases hkind with rfl | rfl <;> exact ⟨rfl, rfl⟩) h
  | flowEnd _ hkind =>
      exact fetchFlowEnd_acts hdone (by rcases hkind with rfl | rfl <;> exact ⟨rfl, rfl⟩) h
  | flowEntry => exact fetchFlowEntry_acts hdone h
  | blockEntry => exact fetchBlockEntry_acts hdone h
  | key => exact fetchKey_acts hdone h
  | value => exact fetchValue_acts hdone h
  | name hend hkind =>
      refine fetchKeyed_acts (fun r token r' hread => ?_) hdone hend hpeek h
      obtain ⟨name, hname⟩ := readName_kind hread
      refine ⟨?_, (readName_spans hread).start, readName_leads hread⟩
      rcases hkind with rfl | rfl <;> exact hname ▸ ⟨rfl, rfl⟩
  | tag hend =>
      refine fetchKeyed_acts (fun r token r' hread => ?_) hdone hend hpeek h
      obtain ⟨handle, suffix, hkind⟩ := readTag_kind hread
      exact ⟨hkind ▸ ⟨rfl, rfl⟩, (readTag_spans hread).start, readTag_leads hread⟩
  | blockScalar => exact fetchBlockScalar_acts hdone h
  | quoted hend =>
      refine fetchKeyed_acts (fun r token r' hread => ?_) hdone hend hpeek h
      obtain ⟨text, style, hkind⟩ := readQuoted_kind hread
      exact ⟨hkind ▸ ⟨rfl, rfl⟩, (readQuoted_spans hread).start, readQuoted_leads hread⟩
  | plain _ hplain => exact fetchPlain_acts hdone hplain h
  | none => cases h

theorem fetch_acts (hdone : s.done = false) (h : s.fetch = .ok s') : s.Acts s' := by
  rw [fetch_eq_approach] at h
  obtain ⟨s₁, happroach, h⟩ := bind_eq_ok_iff.mp h
  obtain ⟨hacts, hdone₁⟩ := approach_acts hdone happroach
  exact hacts.trans (fetchSign_acts hdone₁ h)

/-! ### Filling the queue -/

/-- The two things that are done to fill the queue. -/
def Turn (s s' : TokenStream) : Prop :=
  s.done = false ∧ (s.dropStaleKeys = .ok s' ∨ s.fetch = .ok s')

def Turns : TokenStream → TokenStream → Prop := Relation.ReflTransGen Turn

theorem Turns.keeps {P : TokenStream → Prop} (h : s.Turns s')
    (hturn : ∀ s s', s.Turn s' → P s → P s') (hs : P s) : P s' := by
  induction h with
  | refl => exact hs
  | tail _ hstep ih => exact hturn _ _ hstep ih

theorem Turn.acts (h : s.Turn s') : s.Acts s' := by
  obtain ⟨hdone, hdrop | hfetch⟩ := h
  · obtain ⟨-, rfl⟩ := dropStaleKeys_eq_ok_iff.mp hdrop
    exact (Act.drop _).acts hdone
  · exact fetch_acts hdone hfetch

theorem needsMore_turns {more : Bool} (h : s.needsMore = .ok (more, s')) :
    s.Turns s' ∧ (more = true → s'.done = false) ∧
      (more = false → s'.done = false → s'.frontIsOpen = false) := by
  unfold needsMore at h
  split_ifs at h with hdone
  · cases h
    refine ⟨.refl, nofun, fun _ hopen => ?_⟩
    rw [hdone] at hopen
    cases hopen
  · cases h
    exact ⟨.refl, fun _ => by simpa using hdone, nofun⟩
  · have hdone : s.done = false := by simpa using hdone
    obtain ⟨s₁, hdrop, h⟩ := bind_eq_ok_iff.mp h
    have hsame := (dropStaleKeys_dropped hdrop).same
    cases h
    refine ⟨.single ⟨hdone, Or.inl hdrop⟩, fun _ => ?_, fun hfront _ => hfront⟩
    rw [hsame]
    exact hdone

/-- When the queue is filled, the first token cannot turn out to be a key, unless the text is at its
end. -/
theorem fillFor_turns {n : Nat} (h : fillFor n s = .ok s') :
    s.Turns s' ∧ (s'.done = false → s'.frontIsOpen = false) := by
  induction n generalizing s with
  | zero => cases h
  | succ n ih =>
      obtain ⟨⟨more, s₁⟩, hmore, h⟩ := bind_eq_ok_iff.mp h
      obtain ⟨hturns, hopen, hfront⟩ := needsMore_turns hmore
      cases more with
      | false =>
          cases h
          exact ⟨hturns, hfront rfl⟩
      | true =>
          obtain ⟨s₂, hfetch, h⟩ := bind_eq_ok_iff.mp h
          obtain ⟨hrest, hfront'⟩ := ih h
          exact ⟨(hturns.tail ⟨hopen rfl, Or.inr hfetch⟩).trans hrest, hfront'⟩

end Fetch

/-! ### The states that a stream comes to -/

/-- The states that the stream of a text comes to between two fetches, however its tokens are looked
at and taken, each with the tokens that have been handed out by then. -/
inductive Reached (text : List Char) : List Token → TokenStream → Prop
  | start : Reached text [] (start text)
  | peek {handed : List Token} {s s' : TokenStream} {found : Option Token}
      (h : Reached text handed s) (hpeek : s.peek = .ok (found, s')) : Reached text handed s'
  | next {handed : List Token} {s s' : TokenStream} {found : Option Token}
      (h : Reached text handed s) (hnext : s.next = .ok (found, s')) :
      Reached text (handed ++ found.toList) s'
  /-- Amid a call, it is known whether the first token can be handed out. -/
  | look {handed : List Token} {s s' : TokenStream} {more : Bool}
      (h : Reached text handed s) (hmore : s.needsMore = .ok (more, s')) : Reached text handed s'
  /-- Amid a call, a token has been fetched because the first one cannot be handed out yet. -/
  | fetch {handed : List Token} {s s₁ s' : TokenStream}
      (h : Reached text handed s) (hmore : s.needsMore = .ok (true, s₁))
      (hfetch : s₁.fetch = .ok s') : Reached text handed s'

section Reached

variable {text : List Char} {handed : List Token} {s s' : TokenStream}

/-- What holds at the start and is kept by every turn and by handing out a token holds in every
state that a stream comes to. -/
theorem Reached.keeps_turns {P : List Token → TokenStream → Prop} (h : Reached text handed s)
    (hstart : P [] (TokenStream.start text))
    (hturn : ∀ handed s s', s.Turn s' → P handed s → P handed s')
    (hhand : ∀ handed s token queue, s.queue = token :: queue →
      (s.done = false → s.frontIsOpen = false) → P handed s →
      P (handed ++ [token]) { s with queue, taken := s.taken + 1 }) : P handed s := by
  induction h with
  | start => exact hstart
  | peek _ hpeek ih =>
      obtain ⟨s₁, hfill, hpeek⟩ := bind_eq_ok_iff.mp hpeek
      cases hpeek
      exact (fillFor_turns hfill).1.keeps (hturn _) ih
  | @next _ _ _ found _ hnext ih =>
      cases found with
      | none =>
          rw [Option.toList_none, List.append_nil]
          exact (fillFor_turns (next_eq_none hnext).1).1.keeps (hturn _) ih
      | some token =>
          obtain ⟨s₁, queue, hfill, hqueue, rfl⟩ := next_eq_some hnext
          obtain ⟨hturns, hfront⟩ := fillFor_turns hfill
          exact hhand _ _ _ _ hqueue hfront (hturns.keeps (hturn _) ih)
  | look _ hmore ih => exact (needsMore_turns hmore).1.keeps (hturn _) ih
  | fetch _ hmore hfetch ih =>
      obtain ⟨hturns, hopen, -⟩ := needsMore_turns hmore
      exact hturn _ _ _ ⟨hopen rfl, Or.inr hfetch⟩ (hturns.keeps (hturn _) ih)

theorem Reached.keeps {P : List Token → TokenStream → Prop} (h : Reached text handed s)
    (hstart : P [] (TokenStream.start text))
    (hact : ∀ handed s s', s.done = false → s.Act s' → P handed s → P handed s')
    (hhand : ∀ handed s token queue, s.queue = token :: queue →
      (s.done = false → s.frontIsOpen = false) → P handed s →
      P (handed ++ [token]) { s with queue, taken := s.taken + 1 }) : P handed s :=
  h.keeps_turns hstart (fun _ _ _ hturn => hturn.acts.keeps (hact _)) hhand

theorem Reached.hands {tokens : List Token} (h : Reached text handed s)
    (hhands : s.Hands tokens s') :
    Reached text (handed ++ tokens) s' := by
  induction hhands generalizing handed with
  | nil =>
      rw [List.append_nil]
      exact h
  | cons hnext _ ih =>
      have hlast := ih (h.next hnext)
      rwa [List.append_assoc] at hlast

end Reached

end TokenStream

end Playbook
