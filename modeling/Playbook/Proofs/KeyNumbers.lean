import Playbook.Proofs.FetchActs
import Playbook.Proofs.TokenFault

/-!
The numbers of pending keys. A key is noted with the number of its first token, counted from the
start of the text, while the queue loses tokens at its front and gains some in the middle. Yet the
number always leads to that token: it is still in the queue, at the place that is left when the
tokens handed out are counted off. So what makes a key of it is put inside the queue, and never in
front of a token that is gone.
-/

namespace Playbook

/-- One of the keys is further inside than the other, and behind it. -/
def SimpleKey.Apart (key other : SimpleKey) : Prop :=
  (key.level < other.level ∧ key.number < other.number) ∨
    (other.level < key.level ∧ other.number < key.number)

instance : Std.Symm SimpleKey.Apart := ⟨fun _ _ => Or.symm⟩

namespace TokenStream

open Reader

variable {s s' : TokenStream} {key : SimpleKey}

/-- The token that a pending key starts with waits in the queue, at the place that its number says.
-/
structure KeyWaits (s : TokenStream) (key : SimpleKey) : Prop where
  level_le : key.level ≤ s.flowLevel
  taken_le : s.taken ≤ key.number
  token : ∃ token, s.queue[key.number - s.taken]? = some token ∧ token.start = key.mark
  mark_le : key.mark ≤ s.mark

theorem KeyWaits.position_lt (h : s.KeyWaits key) : key.number - s.taken < s.queue.length := by
  obtain ⟨token, htoken, -⟩ := h.token
  exact (List.getElem?_eq_some_iff.mp htoken).1

theorem KeyWaits.number_lt (h : s.KeyWaits key) : key.number < s.taken + s.queue.length := by
  have hlt := h.position_lt
  omega

theorem KeyWaits.extend {added : List Token} (h : s.KeyWaits key)
    (hqueue : s'.queue = s.queue ++ added) (htaken : s'.taken = s.taken)
    (hleads : s.reader.Leads s'.reader) (hlevel : key.level ≤ s'.flowLevel) : s'.KeyWaits key := by
  refine ⟨hlevel, htaken ▸ h.taken_le, ?_, le_trans h.mark_le hleads.mark_le⟩
  rw [hqueue, htaken, List.getElem?_append_left h.position_lt]
  exact h.token

/-- The pending keys wait in the queue, the inner ones behind the outer ones. At the end of the text
none is left. -/
structure Numbered (s : TokenStream) : Prop where
  keys : ∀ key ∈ s.keys, s.KeyWaits key
  levels : s.keys.Pairwise fun inner outer =>
    outer.level < inner.level ∧ outer.number < inner.number
  ended : s.done = true → s.keys = []

theorem Numbered.apart {other : SimpleKey} (h : s.Numbered) (hkey : key ∈ s.keys)
    (hother : other ∈ s.keys) (hne : key ≠ other) : key.Apart other := by
  have hapart : s.keys.Pairwise SimpleKey.Apart := h.levels.imp Or.inr
  exact hapart.forall hkey hother hne

theorem Numbered.number_lt {other : SimpleKey} (h : s.Numbered) (hkey : key ∈ s.keys)
    (hother : other ∈ s.keys) (hlevel : key.level < other.level) : key.number < other.number := by
  rcases h.apart hkey hother (by rintro rfl; exact absurd hlevel (lt_irrefl _)) with hlt | hlt
  · exact hlt.2
  · omega

/-- Tokens are queued and the reader moves on, while no key comes up. -/
theorem Numbered.extend (added : List Token) (h : s.Numbered) (hopen : s'.done = false)
    (hqueue : s'.queue = s.queue ++ added) (htaken : s'.taken = s.taken)
    (hleads : s.reader.Leads s'.reader) (hkeys : s'.keys.Sublist s.keys)
    (hlevel : ∀ key ∈ s'.keys, key.level ≤ s'.flowLevel) : s'.Numbered := by
  refine ⟨fun key hkey => ?_, h.levels.sublist hkeys, fun hdone => ?_⟩
  · exact (h.keys key (hkeys.subset hkey)).extend hqueue htaken hleads (hlevel key hkey)
  · rw [hopen] at hdone
    cases hdone

theorem Numbered.level_le (h : s.Numbered) : ∀ key ∈ s.keys, key.level ≤ s.flowLevel :=
  fun key hkey => (h.keys key hkey).level_le

theorem level_lt_of_mem_forgetKey (h : s.Numbered) (hkey : key ∈ s.forgetKey.keys) :
    key ∈ s.keys ∧ key.level < s.flowLevel := by
  obtain ⟨hmem, hne⟩ := List.mem_filter.mp hkey
  have hle := h.level_le key hmem
  simp only [bne_iff_ne, ne_eq] at hne
  exact ⟨hmem, by omega⟩

/-- What makes a key of a pending one: its sign, and the start of a mapping if the key opens one. -/
theorem insertKey_cases (hposition : key.number - s.taken ≤ s.queue.length) :
    ∃ before after, s.queue = before ++ after ∧ before.length = key.number - s.taken ∧
      (s.insertKey key = { s with queue := before ++ ⟨.key, key.mark, key.mark⟩ :: after } ∨
        s.indent < (key.mark.column : Int) ∧
        s.insertKey key = { s with
          indent := key.mark.column, indents := s.indent :: s.indents,
          queue := before ++ ⟨.blockMappingStart, key.mark, key.mark⟩ ::
            ⟨.key, key.mark, key.mark⟩ :: after }) := by
  have hlength := List.length_take_of_le hposition
  refine ⟨s.queue.take (key.number - s.taken), s.queue.drop (key.number - s.taken),
    (List.take_append_drop _ _).symm, hlength, ?_⟩
  have hinsert : ∀ (after : List Token) (token : Token),
      (s.queue.take (key.number - s.taken) ++ after).insertIdx (key.number - s.taken) token =
        s.queue.take (key.number - s.taken) ++ token :: after := by
    intro after token
    have hfront := insertIdx_length (s.queue.take (key.number - s.taken)) after token
    rwa [hlength] at hfront
  have hsign := hinsert (s.queue.drop (key.number - s.taken)) ⟨.key, key.mark, key.mark⟩
  rw [List.take_append_drop] at hsign
  unfold insertKey indentTo
  dsimp only
  rw [hsign]
  split
  · rename_i hindent
    split_ifs at hindent with hflow hlt
    cases hindent
    rw [hinsert]
    exact Or.inr ⟨hlt, rfl⟩
  · exact Or.inl rfl

/-- Keys around the one that is found start before it, and are not moved. -/
theorem Numbered.insert (hopen : s.done = false) (hkey : s.key? = some key) (h : s.Numbered) :
    (s.forgetKey.insertKey key).Numbered := by
  have hmem : key ∈ s.keys := List.mem_of_find?_eq_some hkey
  have hlevel : key.level = s.flowLevel := by simpa using List.find?_some hkey
  have hwaits := h.keys key hmem
  obtain ⟨before, after, hqueue, hlength, hcases⟩ :=
    insertKey_cases (s := s.forgetKey) (Nat.le_of_lt hwaits.position_lt)
  have hqueue : s.queue = before ++ after := hqueue
  have hlength : before.length = key.number - s.taken := hlength
  obtain ⟨more, hmore⟩ : ∃ more, (s.forgetKey.insertKey key).queue = before ++ more := by
    rcases hcases with heq | ⟨-, heq⟩
    · exact ⟨_, congrArg TokenStream.queue heq⟩
    · exact ⟨_, congrArg TokenStream.queue heq⟩
  have hsame := s.forgetKey.insertKey_moved key
  have htaken : (s.forgetKey.insertKey key).taken = s.taken := by rw [hsame]; rfl
  have hkeys : (s.forgetKey.insertKey key).keys = s.forgetKey.keys := by rw [hsame]
  refine ⟨fun other hother => ?_, ?_, fun hdone => ?_⟩
  · rw [hkeys] at hother
    obtain ⟨hold, hlt⟩ := level_lt_of_mem_forgetKey h hother
    have hnumber := h.number_lt hold hmem (by omega)
    obtain ⟨hle, htakenle, htoken, hmark⟩ := h.keys other hold
    have hposition : other.number - s.taken < before.length := by omega
    rw [hqueue, List.getElem?_append_left hposition] at htoken
    refine ⟨by rw [hsame]; exact hle, by rw [hsame]; exact htakenle, ?_,
      by rw [hsame]; exact hmark⟩
    rw [hmore, htaken, List.getElem?_append_left hposition]
    exact htoken
  · rw [hkeys]
    exact h.levels.filter _
  · rw [hsame] at hdone
    exact absurd (hopen.symm.trans hdone) (by decide)

/-- The key that is noted is the innermost one, and behind all tokens of the queue. -/
theorem Numbered.note {token : Token} {reader : Reader} (required keyAllowed : Bool)
    (hopen : s.done = false) (h : s.Numbered) (hstart : token.start = s.mark)
    (hleads : s.reader.Leads reader) :
    Numbered { s.pushRead token reader with
      keyAllowed
      keys := ⟨s.flowLevel, s.taken + s.queue.length, required, s.mark⟩ :: s.forgetKey.keys } := by
  refine ⟨?_, List.pairwise_cons.mpr ⟨fun outer houter => ?_, h.levels.filter _⟩, fun hdone => ?_⟩
  · refine List.forall_mem_cons.mpr ⟨⟨Nat.le_refl _, Nat.le_add_right _ _, ⟨token, ?_, hstart⟩,
      hleads.mark_le⟩, fun key hkey => ?_⟩
    · change (s.queue ++ [token])[s.taken + s.queue.length - s.taken]? = some token
      simp
    · obtain ⟨hold, hlt⟩ := level_lt_of_mem_forgetKey h hkey
      exact (h.keys key hold).extend rfl rfl hleads (Nat.le_of_lt hlt)
  · obtain ⟨hold, hlt⟩ := level_lt_of_mem_forgetKey h houter
    exact ⟨hlt, (h.keys outer hold).number_lt⟩
  · exact absurd (hopen.symm.trans hdone) (by decide)

theorem Numbered.act (hdone : s.done = false) (hact : s.Act s') (h : s.Numbered) :
    s'.Numbered := by
  cases hact with
  | skip _ hleads =>
      exact h.extend [] hdone (List.append_nil _).symm rfl hleads (List.Sublist.refl _) h.level_le
  | drop keep =>
      refine h.extend [] hdone (List.append_nil _).symm rfl (.refl _) List.filter_sublist ?_
      exact fun key hkey => h.level_le key (List.mem_filter.mp hkey).1
  | @unwind column =>
      obtain ⟨hsame, added, hqueue, -⟩ := s.unwind_moved column
      refine h.extend added ?_ hqueue ?_ ?_ ?_ ?_
      all_goals rw [hsame]
      · exact hdone
      · exact .refl _
      · exact h.level_le
  | indent => exact h.extend [_] hdone rfl rfl (.refl _) (List.Sublist.refl _) h.level_le
  | insert hkey => exact h.insert hdone hkey
  | read _ _ hleads => exact h.extend [_] hdone rfl rfl hleads (List.Sublist.refl _) h.level_le
  | note required keyAllowed _ hstart hleads =>
      exact h.note required keyAllowed hdone hstart hleads
  | enter =>
      exact h.extend [] hdone (List.append_nil _).symm rfl (.refl _) (List.Sublist.refl _)
        fun key hkey => Nat.le_succ_of_le (h.level_le key hkey)
  | leave hkeys =>
      refine h.extend [] hdone (List.append_nil _).symm rfl (.refl _) (List.Sublist.refl _) ?_
      intro key hkey
      have hle := h.level_le key hkey
      have hne := hkeys key hkey
      change key.level ≤ s.flowLevel - 1
      omega
  | finish => exact ⟨nofun, List.Pairwise.nil, fun _ => rfl⟩

theorem Numbered.keyed (h : s.Numbered) : s.Keyed := by
  refine ⟨fun key hkey => (h.keys key hkey).taken_le, fun key hkey => ?_⟩
  rcases (Mark.le_def.mp (h.keys key hkey).mark_le).2 with hlt | ⟨heq, -⟩
  · exact Nat.le_of_lt hlt
  · exact Nat.le_of_eq heq

/-- When a token that cannot turn out to be a key is handed out, the places move up by one. -/
theorem Numbered.handed {token : Token} {queue : List Token} (h : s.Numbered)
    (hqueue : s.queue = token :: queue) (hfront : s.done = false → s.frontIsOpen = false) :
    Numbered { s with queue, taken := s.taken + 1 } := by
  have hlater : ∀ key ∈ s.keys, s.taken + 1 ≤ key.number := by
    by_cases hdone : s.done = true
    · simp [h.ended hdone]
    · exact (h.keyed.handed (hfront (by simpa using hdone)) queue).taken_le
  refine ⟨fun key hkey => ?_, h.levels, h.ended⟩
  obtain ⟨hlevel, -, htoken, hmark⟩ := h.keys key hkey
  have hle := hlater key hkey
  have hposition : key.number - s.taken = key.number - (s.taken + 1) + 1 := by omega
  rw [hqueue, hposition, List.getElem?_cons_succ] at htoken
  exact ⟨hlevel, hle, htoken, hmark⟩

variable {text : List Char} {handed : List Token}

theorem Reached.numbered (h : Reached text handed s) : s.Numbered := by
  apply h.keeps (P := fun _ s => s.Numbered)
  · exact ⟨nofun, List.Pairwise.nil, fun _ => rfl⟩
  · exact fun _ _ _ hdone hact hs => hs.act hdone hact
  · exact fun _ _ _ _ hqueue hfront hs => hs.handed hqueue hfront

/-! ### Tokens that are gone -/

/-- The stream as it were if the tokens had not been handed out. -/
def holdAll (handed : List Token) (s : TokenStream) : TokenStream := handed.foldr hold s

theorem holdAll_eq (handed : List Token) (s : TokenStream) :
    s.holdAll handed =
      { s with queue := handed ++ s.queue, taken := s.taken - handed.length } := by
  induction handed with
  | nil => rfl
  | cons token handed ih =>
      change hold token (s.holdAll handed) = _
      rw [ih]
      rfl

theorem holdAll_taken_pos (h : handed.length < s.taken) : 0 < (s.holdAll handed).taken := by
  rw [holdAll_eq]
  exact Nat.sub_pos_of_lt h

theorem Keyed.hold {token : Token} (hs : s.Keyed) : (s.hold token).Keyed :=
  ⟨fun key hkey => Nat.le_trans (Nat.sub_le _ _) (hs.taken_le key hkey), hs.line_le⟩

theorem Keyed.holdAll (hs : s.Keyed) : (s.holdAll handed).Keyed := by
  induction handed with
  | nil => exact hs
  | cons token handed ih => exact ih.hold

theorem Turn.hold {token : Token} (hs : s.Keyed) (htaken : 0 < s.taken) (h : s.Turn s') :
    (s.hold token).Turn (s'.hold token) := by
  obtain ⟨hdone, hdrop | hfetch⟩ := h
  · refine ⟨hdone, Or.inl ?_⟩
    rw [dropStaleKeys_hold, hdrop]
    rfl
  · refine ⟨hdone, Or.inr ?_⟩
    rw [fetch_hold htaken hs.taken_le, hfetch]
    rfl

theorem Turn.holdAll (hs : s.Keyed) (htaken : handed.length ≤ s.taken) (h : s.Turn s') :
    (s.holdAll handed).Turn (s'.holdAll handed) := by
  induction handed with
  | nil => exact h
  | cons token handed ih =>
      rw [List.length_cons] at htaken
      exact (ih (by omega)).hold hs.holdAll (holdAll_taken_pos htaken)

theorem Turn.taken (h : s.Turn s') : s'.taken = s.taken := by
  obtain ⟨-, hdrop | hfetch⟩ := h
  · rw [(dropStaleKeys_dropped hdrop).same]
  · exact (fetch_fetched hfetch).taken

theorem fetches_of_holdAll {e : TokenStream} (hs : s.Keyed) (htaken : handed.length ≤ s.taken)
    (h : (s.holdAll handed).Fetches e) : ∃ s', s.Fetches s' ∧ e = s'.holdAll handed := by
  induction handed generalizing e with
  | nil => exact ⟨e, h, rfl⟩
  | cons token handed ih =>
      rw [List.length_cons] at htaken
      obtain ⟨e₁, hfetches, rfl⟩ :=
        fetches_of_hold (fun _ => hs.holdAll) (holdAll_taken_pos htaken) h
      obtain ⟨s', hrest, rfl⟩ := ih (by omega) hfetches
      exact ⟨s', hrest, rfl⟩

/-- If nothing had been handed out, the tokens that were would stand in front of the queue. -/
theorem Reached.comesOf (h : Reached text handed s) :
    s.taken = handed.length ∧ (TokenStream.start text).ComesOf (s.holdAll handed) := by
  have hall : s.Numbered ∧ s.taken = handed.length ∧
      (TokenStream.start text).ComesOf (s.holdAll handed) := by
    apply h.keeps_turns (P := fun handed s => s.Numbered ∧ s.taken = handed.length ∧
      (TokenStream.start text).ComesOf (s.holdAll handed))
    · have hstart : Reached text [] (.start text) := .start
      exact ⟨hstart.numbered, rfl, keyed_start text, _, .refl, Or.inl rfl⟩
    · rintro handed s s' hturn ⟨hs, htaken, hcomes⟩
      refine ⟨hturn.acts.keeps (fun _ _ hdone hact => Numbered.act hdone hact) hs,
        hturn.taken.trans htaken, ?_⟩
      obtain ⟨hdone, hdrop | hfetch⟩ := hturn.holdAll hs.keyed (Nat.le_of_eq htaken.symm)
      · exact hcomes.dropped hdrop
      · exact hcomes.fetch (keyed_start text) hdone hfetch
    · rintro handed s token queue hqueue hfront ⟨hs, htaken, hcomes⟩
      refine ⟨hs.handed hqueue hfront, by simp [htaken], ?_⟩
      have hsame : holdAll (handed ++ [token]) { s with queue, taken := s.taken + 1 } =
          s.holdAll handed := by
        rw [holdAll_eq, holdAll_eq, hqueue]
        simp
      rw [hsame]
      exact hcomes
  exact hall.2

/-- Reading on without handing anything out leaves the tokens handed out in front of the queue. -/
theorem Reached.handed_prefix (h : Reached text handed s) :
    ∃ e, (TokenStream.start text).Fetches e ∧ e.queue = handed ++ s.queue ∧
      ∀ e', e.Fetches e' → handed <+: e'.queue := by
  obtain ⟨htaken, -, e, hfetches, hcomes⟩ := h.comesOf
  have hkeyed := h.numbered.keyed
  have hheld := holdAll_eq handed s
  have hsame : e.queue = (s.holdAll handed).queue ∧ e.done = (s.holdAll handed).done ∧
      (s.holdAll handed).fetch = e.fetch := by
    rcases hcomes with heq | hdrop
    · rw [heq]
      exact ⟨rfl, rfl, rfl⟩
    · have hdropped := (dropStaleKeys_dropped hdrop).same
      refine ⟨by rw [hdropped], by rw [hdropped], ?_⟩
      exact fetch_of_dropStaleKeys (hfetches.keyed (keyed_start text)) hdrop
  obtain ⟨hqueue, hdone, hfetch⟩ := hsame
  rw [hheld] at hqueue
  refine ⟨e, hfetches, hqueue, fun e' hlater => ?_⟩
  rcases Relation.ReflTransGen.cases_head hlater with rfl | ⟨e₁, hfirst, hrest⟩
  · rw [hqueue]
    exact List.prefix_append _ _
  · have hheld' : (s.holdAll handed).Fetches e' :=
      .head ⟨hdone.symm.trans hfirst.1, hfetch.trans hfirst.2⟩ hrest
    obtain ⟨s', -, rfl⟩ := fetches_of_holdAll hkeyed (Nat.le_of_eq htaken.symm) hheld'
    rw [holdAll_eq]
    exact List.prefix_append _ _

/-- Pending keys in every state that a stream comes to. A key belongs to an open bracket, keys
further inside have larger numbers, and the token with the number of a key is in the queue and
starts where the key was noted. So the place where a key is put is a place of the queue, keys lie
behind the reader whenever their length is measured, and what is put in later never comes before a
token that was handed out. -/
theorem Reached.pending_keys (h : Reached text handed s) :
    s.taken = handed.length ∧
    (∀ key ∈ s.keys, key.level ≤ s.flowLevel ∧
      s.taken ≤ key.number ∧ key.number < s.taken + s.queue.length ∧
      (∃ token, s.queue[key.number - s.taken]? = some token ∧ token.start = key.mark) ∧
      key.mark.index ≤ s.mark.index ∧ key.mark.index ≤ s.skipToToken.mark.index) ∧
    (∀ key ∈ s.keys, ∀ key' ∈ s.keys, (key.level < key'.level → key.number < key'.number) ∧
      (key.level = key'.level → key = key')) ∧
    (∀ t key, s.done = false → s.approach = .ok t → t.key? = some key →
      t.taken ≤ key.number ∧ key.number - t.taken < t.queue.length) ∧
    ∃ e, (TokenStream.start text).Fetches e ∧ e.queue = handed ++ s.queue ∧
      ∀ e', e.Fetches e' → handed <+: e'.queue := by
  have hnumbered := h.numbered
  refine ⟨h.comesOf.1, fun key hkey => ?_, fun key hkey key' hkey' => ⟨?_, ?_⟩,
    fun t key hdone happroach hkey => ?_, h.handed_prefix⟩
  · have hwaits := hnumbered.keys key hkey
    have hindex : key.mark.index ≤ s.mark.index := (Mark.le_def.mp hwaits.mark_le).1
    exact ⟨hwaits.level_le, hwaits.taken_le, hwaits.number_lt, hwaits.token, hindex,
      Nat.le_trans hindex s.skipToToken_leads.index_le⟩
  · exact hnumbered.number_lt hkey hkey'
  · intro hlevel
    by_contra hne
    rcases hnumbered.apart hkey hkey' hne with hlt | hlt <;> omega
  · have ht : t.Numbered := (approach_acts hdone happroach).1.keeps
      (fun _ _ hdone hact => Numbered.act hdone hact) hnumbered
    have hwaits := ht.keys key (List.mem_of_find?_eq_some hkey)
    exact ⟨hwaits.taken_le, hwaits.position_lt⟩

/-- Before the colon of `[[a: b` three keys are pending, and the innermost one is found. -/
theorem Reached.pending_keys_nested :
    ∃ s t key, Reached "[[a: b".toList [⟨.streamStart, .origin, .origin⟩] s ∧
      s.keys.map (·.number) = [3, 2, 1] ∧ s.done = false ∧ s.approach = .ok t ∧
      t.key? = some key ∧ t.taken ≤ key.number ∧ key.number - t.taken < t.queue.length := by
  obtain ⟨s₁, s₂, s₃, s, t, key, hnext, hmore₁, hfetch₁, hmore₂, hfetch₂, hmore₃, hfetch₃, hkeys,
      hdone, happroach, hkey⟩ :
      ∃ s₁ s₂ s₃ s t key, (TokenStream.start "[[a: b".toList).next =
          .ok (some ⟨.streamStart, .origin, .origin⟩, s₁) ∧
        s₁.needsMore = .ok (true, s₁) ∧ s₁.fetch = .ok s₂ ∧
        s₂.needsMore = .ok (true, s₂) ∧ s₂.fetch = .ok s₃ ∧
        s₃.needsMore = .ok (true, s₃) ∧ s₃.fetch = .ok s ∧ s.keys.map (·.number) = [3, 2, 1] ∧
        s.done = false ∧ s.approach = .ok t ∧ t.key? = some key :=
    ⟨_, _, _, _, _, _, rfl, rfl, rfl, rfl, rfl, rfl, rfl, rfl, rfl, rfl, rfl⟩
  have hs : Reached "[[a: b".toList [⟨.streamStart, .origin, .origin⟩] s :=
    (((Reached.start.next hnext).fetch hmore₁ hfetch₁).fetch hmore₂ hfetch₂).fetch hmore₃ hfetch₃
  exact ⟨s, t, key, hs, hkeys, hdone, happroach, hkey,
    hs.pending_keys.2.2.2.1 t key hdone happroach hkey⟩

end TokenStream

end Playbook
