import Playbook.Proofs.TokenQueue
import Playbook.Proofs.ScalarValue

/-!
A token stream as seen from the text around it: what is still to be read, which blocks are open and
which tokens were read so far. Reading a stretch of text is a relation between two such views, and
stretches that follow each other compose.
-/

namespace Playbook

namespace TokenStream

/-! ### The way to the next token -/

/-- The stream right before its next token, with the blocks closed that end there. -/
def settled (s : TokenStream) : TokenStream := s.skipToToken.unwind s.skipToToken.mark.column

theorem unwind_eq {s : TokenStream} (h : s.inFlow = false) (column : Int) :
    s.unwind column = { s with
      indent := (closeBlocks column s.mark s.indent s.indents s.queue).1
      indents := (closeBlocks column s.mark s.indent s.indents s.queue).2.1
      queue := (closeBlocks column s.mark s.indent s.indents s.queue).2.2 } := by
  rw [unwind, h]
  rfl

theorem unwind_close {s : TokenStream} {outer column : Int} {indents : List Int}
    (h : s.inFlow = false) (hindents : s.indents = outer :: indents) (hlt : column < s.indent) :
    s.unwind column = ({ s with
      indent := outer, indents
      queue := s.queue ++ [⟨.blockEnd, s.mark, s.mark⟩] } : TokenStream).unwind column := by
  have h' : ({ s with
      indent := outer, indents
      queue := s.queue ++ [⟨.blockEnd, s.mark, s.mark⟩] } : TokenStream).inFlow = false := h
  rw [unwind_eq h, unwind_eq h', hindents, closeBlocks, if_pos hlt]
  rfl

theorem unwind_keys (s : TokenStream) (keys : List SimpleKey) (column : Int) :
    ({ s with keys }).unwind column = { s.unwind column with keys } := by
  have hflow : ({ s with keys }).inFlow = s.inFlow := rfl
  unfold unwind
  rw [hflow]
  cases s.inFlow with
  | true => rfl
  | false => rfl

theorem dropStaleKeys_unwind (s : TokenStream) (column : Int) :
    (s.unwind column).dropStaleKeys = (fun s => s.unwind column) <$> s.dropStaleKeys := by
  have hsame := (s.unwind_moved column).same
  have hkeys : (s.unwind column).keys = s.keys := by rw [hsame]
  have hmark : (s.unwind column).mark = s.mark := by
    rw [hsame]
    rfl
  unfold dropStaleKeys
  rw [hkeys, hmark]
  cases s.keys.find? fun key => key.isStale s.mark && key.required with
  | some key =>
      have hmissing : (s.unwind column).missingColon key = s.missingColon key := by
        simp only [missingColon, hmark]
      exact congrArg Except.error hmissing
  | none => exact congrArg Except.ok (s.unwind_keys _ column).symm

theorem fetch_eq (s : TokenStream) : s.fetch = s.settled.dropStaleKeys >>= fetchSign := by
  unfold fetch settled
  rw [dropStaleKeys_unwind]
  cases hdrop : s.skipToToken.dropStaleKeys with
  | error d => rfl
  | ok s₁ =>
      have hmark : s₁.mark = s.skipToToken.mark := by
        rw [(dropStaleKeys_dropped hdrop).same]
        rfl
      rw [ok_bind, hmark]
      rfl

theorem settled_done (s : TokenStream) : s.settled.done = s.done := by
  rw [settled, (s.skipToToken.unwind_moved _).same]
  rfl

theorem Fetch.of_settled {s s' s'' : TokenStream} (h : s.Fetch s'')
    (hsettled : s'.settled = s.settled) : s'.Fetch s'' := by
  obtain ⟨hdone, hfetch⟩ := h
  refine ⟨?_, ?_⟩
  · rw [← settled_done, hsettled, settled_done, hdone]
  · rw [fetch_eq, hsettled, ← fetch_eq, hfetch]

/-- Reading leads to a stream that goes on like the given one. -/
def Goes (s s' : TokenStream) : Prop := ∃ s'', s.Fetches s'' ∧ s''.settled = s'.settled

theorem Goes.of_settled {s s' : TokenStream} (h : s.settled = s'.settled) : s.Goes s' :=
  ⟨s, .refl, h⟩

theorem Goes.of_fetch {s s' : TokenStream} (h : s.Fetch s') : s.Goes s' := ⟨s', .single h, rfl⟩

theorem Goes.trans {s s' s'' : TokenStream} (h : s.Goes s') (h' : s'.Goes s'') : s.Goes s'' := by
  obtain ⟨s₁, hfetches, hsettled⟩ := h
  obtain ⟨s₂, hfetches', hsettled'⟩ := h'
  rcases Relation.ReflTransGen.cases_head hfetches' with rfl | ⟨s₃, hfetch, hrest⟩
  · exact ⟨s₁, hfetches, hsettled.trans hsettled'⟩
  · exact ⟨s₂, hfetches.trans (.head (hfetch.of_settled hsettled) hrest), hsettled'⟩

/-! ### Views -/

/-- What the text around it makes of a stream. -/
structure View where
  /-- What is still to be read. -/
  text : List Char
  column : Nat
  /-- How many brackets are open. -/
  level : Nat
  /-- The columns of the open blocks, innermost first. -/
  blocks : List Nat
  /-- Whether it is known that a key may start here. -/
  keyAllowed : Bool
  /-- The tokens read so far. -/
  kinds : List TokenKind

/-- The stream has the given view, and nothing is left unfinished: no pending key is required. -/
structure Shows (s : TokenStream) (v : View) : Prop where
  text : s.reader.rest = v.text
  column : s.mark.column = v.column
  done : s.done = false
  level : s.flowLevel = v.level
  blocks : s.indent :: s.indents = v.blocks.map Int.ofNat ++ [-1]
  keyAllowed : v.keyAllowed = true → s.keyAllowed = true
  kinds : s.queue.map Token.kind = v.kinds
  keys : ∀ key ∈ s.keys, key.required = false

theorem Shows.reader_eq {s : TokenStream} {v : View} (hs : s.Shows v) :
    s.reader = ⟨v.text, s.mark⟩ := by
  rw [← hs.text]
  rfl

/-- Reading leads from the one view to the other. -/
def Scans (v v' : View) : Prop := ∀ s : TokenStream, s.Shows v → ∃ s', s.Goes s' ∧ s'.Shows v'

theorem Scans.refl (v : View) : Scans v v := fun s hs => ⟨s, .of_settled rfl, hs⟩

theorem Scans.trans {v v' v'' : View} (h : Scans v v') (h' : Scans v' v'') : Scans v v'' := by
  intro s hs
  obtain ⟨s', hgoes, hs'⟩ := h s hs
  obtain ⟨s'', hgoes', hs''⟩ := h' s' hs'
  exact ⟨s'', hgoes.trans hgoes', hs''⟩

/-! ### Moves within the white space -/

/-- There is no byte order mark at the head of a text of printable characters. -/
theorem skipToToken_eq {s : TokenStream} {reader : Reader} {crossed : Bool}
    (hmark : s.reader.peek ≠ '\ufeff') (hskip : s.reader.skipTrivia = (reader, crossed)) :
    s.skipToToken =
      { s with reader, keyAllowed := s.keyAllowed || (crossed && !s.inFlow) } := by
  have hpeek : (s.mark.index == 0 && s.reader.peek == '\ufeff') = false := by simp [hmark]
  simp only [skipToToken, hpeek, Bool.false_eq_true, if_false, hskip]

theorem skipToToken_spaces {s : TokenStream} (n : Nat) {text : List Char} (htext : Starts text)
    (hrest : s.reader.rest = Value.spaces n ++ text) :
    s.skipToToken = { s with reader := ⟨text, s.mark.ahead n⟩ } := by
  have hreader : s.reader = ⟨Value.spaces n ++ text, s.mark⟩ := by rw [← hrest]; rfl
  have hmark : s.reader.peek ≠ '\ufeff' := by
    rw [hreader]
    exact htext.ne_byteOrderMark n
  have hskip := Reader.skipTrivia_spaces n htext s.mark
  rw [← hreader] at hskip
  rw [skipToToken_eq hmark hskip]
  simp

theorem skipToToken_self {s : TokenStream} (hrest : Starts s.reader.rest) : s.skipToToken = s :=
  skipToToken_spaces 0 hrest rfl

theorem skipToToken_line {s : TokenStream} (n : Nat) {text : List Char} (htext : Starts text)
    (hrest : s.reader.rest = '\n' :: (Value.spaces n ++ text)) (hlevel : s.flowLevel = 0) :
    s.skipToToken = { s with reader := ⟨text, s.mark.nextLine.ahead n⟩, keyAllowed := true } := by
  have hreader : s.reader = ⟨'\n' :: (Value.spaces n ++ text), s.mark⟩ := by rw [← hrest]; rfl
  have hmark : s.reader.peek ≠ '\ufeff' := by
    rw [hreader]
    exact (by decide : '\n' ≠ '\ufeff')
  have hskip := Reader.skipTrivia_line n htext s.mark
  rw [← hreader] at hskip
  rw [skipToToken_eq hmark hskip]
  simp [inFlow, hlevel]

/-- A move that reads no token. -/
theorem Scans.of_settled {v v' : View} (h : ∀ s : TokenStream, s.Shows v →
    ∃ s' : TokenStream, s.settled = s'.settled ∧ s'.Shows v') : Scans v v' := by
  intro s hs
  obtain ⟨s', hsettled, hs'⟩ := h s hs
  exact ⟨s', .of_settled hsettled, hs'⟩

theorem settled_of_skipToToken {s s' : TokenStream} (h : s.skipToToken = s'.skipToToken) :
    s.settled = s'.settled := by
  rw [settled, settled, h]

section Moves

variable {column level : Nat} {blocks : List Nat} {allowed : Bool} {kinds : List TokenKind}

theorem scans_spaces (n : Nat) {text : List Char} (htext : Starts text) :
    Scans ⟨Value.spaces n ++ text, column, level, blocks, allowed, kinds⟩
      ⟨text, column + n, level, blocks, allowed, kinds⟩ := by
  refine Scans.of_settled fun s hs => ?_
  refine ⟨{ s with reader := ⟨text, s.mark.ahead n⟩ }, settled_of_skipToToken ?_, ?_⟩
  · rw [skipToToken_spaces n htext hs.text, skipToToken_self htext]
  · exact ⟨rfl, congrArg (· + n) hs.column, hs.done, hs.level, hs.blocks, hs.keyAllowed, hs.kinds,
      hs.keys⟩

theorem scans_line (n : Nat) {text : List Char} (htext : Starts text) :
    Scans ⟨'\n' :: (Value.spaces n ++ text), column, 0, blocks, allowed, kinds⟩
      ⟨text, n, 0, blocks, true, kinds⟩ := by
  refine Scans.of_settled fun s hs => ?_
  refine ⟨{ s with reader := ⟨text, s.mark.nextLine.ahead n⟩, keyAllowed := true },
    settled_of_skipToToken ?_, ?_⟩
  · rw [skipToToken_line n htext hs.text hs.level, skipToToken_self htext]
  · exact ⟨rfl, Nat.zero_add n, hs.done, hs.level, hs.blocks, fun _ => rfl, hs.kinds, hs.keys⟩

/-- A token that is indented less than the innermost block closes it. -/
theorem scans_close {n : Nat} {text : List Char} (htext : Starts text) (hn : column < n) :
    Scans ⟨text, column, 0, n :: blocks, allowed, kinds⟩
      ⟨text, column, 0, blocks, allowed, kinds ++ [.blockEnd]⟩ := by
  refine Scans.of_settled fun s hs => ?_
  obtain ⟨hindent, hindents⟩ := List.cons.inj hs.blocks
  obtain ⟨outer, indents, houter⟩ :
      ∃ outer indents, blocks.map Int.ofNat ++ [-1] = outer :: indents :=
    List.exists_cons_of_ne_nil (by simp)
  have htext : Starts s.reader.rest := by
    rw [hs.text]
    exact htext
  refine ⟨{ s with
    indent := outer, indents, queue := s.queue ++ [⟨.blockEnd, s.mark, s.mark⟩] }, ?_, ?_⟩
  · have hflow : s.inFlow = false := by simp [inFlow, hs.level]
    have hlt : (s.mark.column : Int) < s.indent := by
      rw [hs.column, hindent]
      exact Int.ofNat_lt.mpr hn
    rw [settled, settled, skipToToken_self htext, skipToToken_self (by exact htext)]
    exact unwind_close hflow (hindents.trans houter) hlt
  · exact ⟨hs.text, hs.column, hs.done, hs.level, houter.symm, hs.keyAllowed, by simp [hs.kinds],
      hs.keys⟩

end Moves

/-- Outside of brackets no block is indented further than what comes next. -/
def View.Within (v : View) : Prop := v.level = 0 → ∀ n ∈ v.blocks.head?, n ≤ v.column

/-- Outside of brackets what comes next is indented further than every block. -/
def View.Inside (v : View) : Prop := v.level = 0 → ∀ n ∈ v.blocks.head?, n < v.column

theorem View.Inside.within {v : View} (h : v.Inside) : v.Within := by
  intro hlevel n hn
  exact Nat.le_of_lt (h hlevel n hn)

theorem Shows.indent_eq {s : TokenStream} {v : View} (hs : s.Shows v) :
    s.indent = (v.blocks.head?.map Int.ofNat).getD (-1) := by
  have hblocks := hs.blocks
  cases hfirst : v.blocks with
  | nil =>
      rw [hfirst] at hblocks
      exact (List.cons.inj hblocks).1
  | cons n blocks =>
      rw [hfirst] at hblocks
      exact (List.cons.inj hblocks).1

theorem Shows.level_eq_zero {s : TokenStream} {v : View} (hs : s.Shows v)
    (hflow : s.inFlow = false) : v.level = 0 := by
  rw [← hs.level]
  simpa [inFlow] using hflow

theorem Shows.indent_le {s : TokenStream} {v : View} (hs : s.Shows v) (h : v.Within)
    (hflow : s.inFlow = false) : s.indent ≤ (s.mark.column : Int) := by
  have hwithin := h (hs.level_eq_zero hflow)
  rw [hs.indent_eq, hs.column]
  cases hhead : v.blocks.head? with
  | none =>
      change (-1 : Int) ≤ v.column
      omega
  | some n => exact Int.ofNat_le.mpr (hwithin n hhead)

theorem Shows.indent_lt {s : TokenStream} {v : View} (hs : s.Shows v) (h : v.Inside)
    (hflow : s.inFlow = false) : s.indent < (s.mark.column : Int) := by
  have hinside := h (hs.level_eq_zero hflow)
  rw [hs.indent_eq, hs.column]
  cases hhead : v.blocks.head? with
  | none =>
      change (-1 : Int) < v.column
      omega
  | some n => exact Int.ofNat_lt.mpr (hinside n hhead)

theorem settled_eq {s : TokenStream} (hrest : Starts s.reader.rest)
    (hindent : s.inFlow = false → s.indent ≤ (s.mark.column : Int)) : s.settled = s := by
  rw [settled, skipToToken_self hrest]
  cases hflow : s.inFlow with
  | true => rw [unwind, if_pos hflow]
  | false =>
      have hle := Int.not_lt.mpr (hindent hflow)
      have hclose : closeBlocks s.mark.column s.mark s.indent s.indents s.queue =
          (s.indent, s.indents, s.queue) := by
        cases s.indents with
        | nil => rw [closeBlocks, if_neg hle]
        | cons outer indents => rw [closeBlocks, if_neg hle]
      rw [unwind_eq hflow, hclose]

/-- Before a token is read, keys are dropped at most. -/
theorem Shows.fetch_eq {s : TokenStream} {v : View} (hs : s.Shows v) (htext : Starts v.text)
    (hwithin : v.Within) :
    ∃ keys, s.fetch = fetchSign { s with keys } ∧ Shows { s with keys } v := by
  have hsettled : s.settled = s := settled_eq (by rwa [hs.text]) (hs.indent_le hwithin)
  have hdrop : s.dropStaleKeys =
      .ok { s with keys := s.keys.filter fun key => !key.isStale s.mark } :=
    dropStaleKeys_eq_ok_iff.mpr ⟨fun key hkey _ => hs.keys key hkey, rfl⟩
  refine ⟨s.keys.filter fun key => !key.isStale s.mark, ?_, hs.text, hs.column, hs.done, hs.level,
    hs.blocks, hs.keyAllowed, hs.kinds, fun key hkey => hs.keys key (List.mem_filter.mp hkey).1⟩
  rw [TokenStream.fetch_eq, hsettled, hdrop]
  rfl

/-- A move that reads one token. -/
theorem Scans.of_fetchSign {v v' : View} (htext : Starts v.text) (hwithin : v.Within)
    (h : ∀ s : TokenStream, s.Shows v → ∃ s', s.fetchSign = .ok s' ∧ s'.Shows v') :
    Scans v v' := by
  intro s hs
  obtain ⟨keys, hfetch, hs₁⟩ := hs.fetch_eq htext hwithin
  obtain ⟨s', hsign, hs'⟩ := h _ hs₁
  exact ⟨s', .of_fetch ⟨hs.done, hfetch.trans hsign⟩, hs'⟩

/-! ### Pending keys -/

theorem Shows.keysDropped {s s' : TokenStream} {v : View} (hs : s.Shows v)
    (h : s.KeysDropped s') : s'.Shows v := by
  obtain ⟨hsame, hkeys⟩ := h
  rw [hsame]
  exact ⟨hs.text, hs.column, hs.done, hs.level, hs.blocks, hs.keyAllowed, hs.kinds,
    fun key hkey => hs.keys key (hkeys key hkey)⟩

theorem exists_removeKey {s : TokenStream} (hkeys : ∀ key ∈ s.keys, key.required = false) :
    ∃ s', s.removeKey = .ok s' ∧ s.KeysDropped s' := by
  have hok : ∃ s', s.removeKey = .ok s' := by
    unfold removeKey
    cases hfound : s.key? with
    | none => exact ⟨s, rfl⟩
    | some key =>
        have hrequired := hkeys key (List.mem_of_find?_eq_some hfound)
        exact ⟨s.forgetKey, by simp [hrequired]⟩
  obtain ⟨s', hremove⟩ := hok
  exact ⟨s', hremove, removeKey_dropped hremove⟩

/-- The key that may start here. -/
def keyHere (s : TokenStream) : SimpleKey :=
  ⟨s.flowLevel, s.taken + s.queue.length, !s.inFlow && s.indent == (s.mark.column : Int), s.mark⟩

/-- Where a key may start, it is noted in front of the others. -/
theorem Shows.saveKey {s : TokenStream} {v : View} (hs : s.Shows v) :
    ∃ keys, (∀ key ∈ keys, key.required = false) ∧
      s.saveKey = .ok { s with keys := if s.keyAllowed then s.keyHere :: keys else keys } := by
  obtain ⟨s', hremove, hdropped⟩ := exists_removeKey hs.keys
  unfold TokenStream.saveKey
  by_cases hallowed : s.keyAllowed = true
  · refine ⟨s'.keys, (hs.keysDropped hdropped).keys, ?_⟩
    have hsame := hdropped.same
    rw [if_pos hallowed, if_pos hallowed, hremove, ok_bind, hsame]
    rfl
  · refine ⟨s.keys, hs.keys, ?_⟩
    rw [if_neg hallowed, if_neg hallowed]

theorem Shows.saveKey_inside {s : TokenStream} {v : View} (hs : s.Shows v) (h : v.Inside) :
    ∃ s', s.saveKey = .ok s' ∧ s'.Shows v := by
  obtain ⟨keys, hkeys, hsave⟩ := hs.saveKey
  refine ⟨_, hsave, hs.text, hs.column, hs.done, hs.level, hs.blocks, hs.keyAllowed, hs.kinds, ?_⟩
  have hnew : s.keyHere.required = false := by
    unfold keyHere
    cases hflow : s.inFlow with
    | true => rfl
    | false => simpa using (hs.indent_lt h hflow).ne
  dsimp only
  split_ifs
  · exact List.forall_mem_cons.mpr ⟨hnew, hkeys⟩
  · exact hkeys

end TokenStream

end Playbook
