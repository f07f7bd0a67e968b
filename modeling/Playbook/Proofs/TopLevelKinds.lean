import Playbook.Proofs.Classification

/-!
What the keys of the items of the list at the top say about the kind of a further item. A kind is
left if it accepts every key in use that any of the kinds accepts, and if none is left so are all.
Hence neither the order of the items and their keys nor the keys that tell no kinds apart matter.
-/

namespace Playbook

/-- The kinds that stand in the list at the top. -/
def EntityKind.top : List EntityKind := [.play, .block, .task]

namespace Context

/-- A key in use: a string key of an item that is a mapping. -/
def Uses (items : List Value) (key : String) : Prop :=
  ∃ m : Mapping, Value.map m ∈ items ∧ Key.str key ∈ m.keys

variable {items items' : List Value} {key : String}

theorem mem_names_iff_uses :
    key ∈ (items.filterMap Value.map?).flatMap Mapping.names ↔ Uses items key := by
  have hmap : ∀ (v : Value) (m : Mapping), v.map? = some m ↔ v = .map m := by
    intro v m
    cases v <;> simp [Value.map?]
  simp [Uses, List.mem_flatMap, List.mem_filterMap, hmap, Mapping.mem_names_iff]

theorem uses_append : Uses (items ++ items') key ↔ Uses items key ∨ Uses items' key := by
  simp only [Uses, List.mem_append, or_and_right, exists_or]

theorem uses_cons {v : Value} :
    Uses (v :: items) key ↔
      (∃ m : Mapping, v = .map m ∧ Key.str key ∈ m.keys) ∨ Uses items key := by
  simp only [Uses, List.mem_cons, or_and_right, exists_or, @eq_comm _ v]

namespace TopKinds

variable {directives : DirectiveCatalog} {kinds : TopKinds} {kind : EntityKind}

/-- Whether an item may have the kind. -/
def allows (kinds : TopKinds) : EntityKind → Bool
  | .play => kinds.play
  | .block => kinds.block
  | .task => kinds.task
  | .role => false

theorem ext_allows {kinds' : TopKinds}
    (h : ∀ kind ∈ EntityKind.top, kinds.allows kind = kinds'.allows kind) : kinds = kinds' := by
  simp only [EntityKind.top, List.forall_mem_cons, allows] at h
  obtain ⟨hplay, hblock, htask, -⟩ := h
  cases kinds
  cases kinds'
  simp_all

theorem allows_all (hkind : kind ∈ EntityKind.top) : all.allows kind = true := by
  cases kind <;> simp_all [EntityKind.top, all, allows]

theorem isEmpty_iff :
    kinds.isEmpty = true ↔ ∀ kind ∈ EntityKind.top, ¬ kinds.allows kind = true := by
  simp [isEmpty, EntityKind.top, allows, and_assoc]

/-- At least one of the kinds accepts the key. -/
def Known (directives : DirectiveCatalog) (key : String) : Prop :=
  ∃ kind ∈ EntityKind.top, directives.accepts kind key = true

theorem accepting_allows (hkind : kind ∈ EntityKind.top) :
    (accepting directives key).allows kind = directives.accepts kind key := by
  cases kind <;> simp_all [EntityKind.top, accepting, allows]

theorem accepting_isEmpty_iff :
    (accepting directives key).isEmpty = true ↔ ¬ Known directives key := by
  rw [isEmpty_iff, Known]
  simp only [not_exists, not_and]
  exact forall₂_congr fun kind hkind => by rw [accepting_allows hkind]

theorem allows_inter {kinds' : TopKinds} :
    (kinds.inter kinds').allows kind = (kinds.allows kind && kinds'.allows kind) := by
  cases kind <;> simp [inter, allows]

/-- One key strikes out the kinds that do not accept it, unless none does. -/
theorem narrow_allows (hkind : kind ∈ EntityKind.top) :
    (narrow directives kinds key).allows kind = true ↔
      kinds.allows kind = true ∧ (Known directives key → directives.accepts kind key = true) := by
  unfold narrow
  dsimp only
  by_cases hknown : Known directives key
  · have hsome : ¬ (accepting directives key).isEmpty = true := by
      rw [accepting_isEmpty_iff]
      exact not_not_intro hknown
    simp [hsome, allows_inter, accepting_allows hkind, hknown]
  · rw [if_pos (accepting_isEmpty_iff.mpr hknown)]
    simp [hknown]

theorem foldl_narrow_allows (hkind : kind ∈ EntityKind.top) (keys : List String) :
    (keys.foldl (narrow directives) kinds).allows kind = true ↔ kinds.allows kind = true ∧
      ∀ key ∈ keys, Known directives key → directives.accepts kind key = true := by
  induction keys generalizing kinds with
  | nil => simp
  | cons key keys ih =>
      rw [List.foldl_cons, ih, narrow_allows hkind, List.forall_mem_cons, and_assoc]

/-- A kind accepts all known keys in use. -/
def Fits (directives : DirectiveCatalog) (items : List Value) (kind : EntityKind) : Prop :=
  ∀ key, Uses items key → Known directives key → directives.accepts kind key = true

theorem ofItems_allows_iff (hkind : kind ∈ EntityKind.top) :
    (ofItems directives items).allows kind = true ↔
      Fits directives items kind ∨ ∀ kind' ∈ EntityKind.top, ¬ Fits directives items kind' := by
  have hleft : ∀ kind ∈ EntityKind.top, (((items.filterMap Value.map?).flatMap Mapping.names).foldl
      (narrow directives) all).allows kind = true ↔ Fits directives items kind := by
    intro kind hkind
    rw [foldl_narrow_allows hkind, and_iff_right (allows_all hkind)]
    exact forall_congr' fun key => imp_congr_left mem_names_iff_uses
  have hnone := isEmpty_iff.trans (forall₂_congr fun kind hkind => not_congr (hleft kind hkind))
  unfold ofItems
  dsimp only
  split_ifs with hempty
  · exact iff_of_true (allows_all hkind) (Or.inr (hnone.mp hempty))
  · rw [hleft kind hkind, or_iff_left (fun h => hempty (hnone.mpr h))]

theorem exists_allows (directives : DirectiveCatalog) (items : List Value) :
    ∃ kind ∈ EntityKind.top, (ofItems directives items).allows kind = true := by
  by_cases hfits : ∃ kind ∈ EntityKind.top, Fits directives items kind
  · obtain ⟨kind, hkind, hfits⟩ := hfits
    exact ⟨kind, hkind, (ofItems_allows_iff hkind).mpr (Or.inl hfits)⟩
  · have hplay : .play ∈ EntityKind.top := by simp [EntityKind.top]
    refine ⟨.play, hplay, (ofItems_allows_iff hplay).mpr (Or.inr ?_)⟩
    simpa using hfits

/-! ### What does not matter -/

/-- The key tells no kinds apart: none accepts it, or each does. -/
def Silent (directives : DirectiveCatalog) (key : String) : Prop :=
  (∀ kind ∈ EntityKind.top, directives.accepts kind key = false) ∨
    ∀ kind ∈ EntityKind.top, directives.accepts kind key = true

theorem silent_of_unknown (h : directives.get? key = .none) : Silent directives key :=
  Or.inl fun kind _ => by simp [DirectiveCatalog.accepts, h]

theorem accepts_of_silent (hkind : kind ∈ EntityKind.top) (hsilent : Silent directives key)
    (hknown : Known directives key) : directives.accepts kind key = true := by
  obtain ⟨kind', hkind', haccepts⟩ := hknown
  rcases hsilent with hnone | hall
  · rw [hnone kind' hkind'] at haccepts
    cases haccepts
  · exact hall kind hkind

/-- The flags are those of any items that use the same keys, up to silent ones. -/
theorem ofItems_congr
    (h : ∀ key, ¬ Silent directives key → (Uses items key ↔ Uses items' key)) :
    ofItems directives items = ofItems directives items' := by
  have hfits : ∀ kind ∈ EntityKind.top,
      (Fits directives items kind ↔ Fits directives items' kind) := by
    intro kind hkind
    refine forall_congr' fun key => ?_
    by_cases hsilent : Silent directives key
    · have haccepts := accepts_of_silent hkind hsilent
      exact iff_of_true (fun _ => haccepts) fun _ => haccepts
    · rw [h key hsilent]
  apply ext_allows
  intro kind hkind
  rw [Bool.eq_iff_iff, ofItems_allows_iff hkind, ofItems_allows_iff hkind, hfits kind hkind]
  exact or_congr_right (forall₂_congr fun kind' hkind' => not_congr (hfits kind' hkind'))

theorem uses_of_perm (h : items.Perm items') : Uses items key ↔ Uses items' key :=
  exists_congr fun _ => and_congr_left' h.mem_iff

theorem uses_of_not_map {before after : List Value} {v : Value} (h : v.map? = .none) :
    Uses (before ++ v :: after) key ↔ Uses (before ++ after) key := by
  have hv : ¬ ∃ m : Mapping, v = .map m ∧ Key.str key ∈ m.keys := by
    rintro ⟨m, rfl, -⟩
    cases h
  rw [uses_append, uses_append, uses_cons, or_iff_right hv]

theorem uses_map {before after : List Value} {m : Mapping} :
    Uses (before ++ .map m :: after) key ↔ Key.str key ∈ m.keys ∨ Uses (before ++ after) key := by
  rw [uses_append, uses_append, uses_cons, or_left_comm]
  simp

end TopKinds

/-- At the top the flags of the items are those of the context, but that a mapping with a key of
blocks is no task. -/
theorem classify_of_atTop {trail : List Value} (h : AtTop trail items)
    (directives : DirectiveCatalog) (modules : ModuleCatalog) :
    let kinds := TopKinds.ofItems directives items
    let context := classify trail directives modules
    context.play = kinds.play ∧ context.block = kinds.block ∧
      context.task = (kinds.task && !insideBlock trail) ∧ context.moduleName = kinds.task := by
  have hlength : trail.length < 4 := by
    obtain ⟨-, htwo | ⟨hthree, -⟩⟩ := h <;> omega
  have hlist : listKey? trail = .none := if_pos (by omega)
  have hafter : afterModuleNameKey trail = false := by
    simp [afterModuleNameKey, Nat.not_le.mpr hlength]
  simp [classify, topItems?_eq_some_iff.mpr h, hlist, hafter]

/-- The kinds of a new item of the list at the top. A kind is among them exactly if it accepts every
key in use that some kind accepts, or if no kind does, so that there is always one. They depend on
the set of keys in use alone, and of these on none that no kind or each accepts. -/
theorem TopKinds.ofItems_narrows (directives : DirectiveCatalog) (items : List Value) :
    let kinds := ofItems directives items
    (∀ kind ∈ EntityKind.top, kinds.allows kind = true ↔
      Fits directives items kind ∨ ∀ kind' ∈ EntityKind.top, ¬ Fits directives items kind') ∧
    (∃ kind ∈ EntityKind.top, kinds.allows kind = true) ∧
    (∀ items', (∀ key, ¬ Silent directives key → (Uses items key ↔ Uses items' key)) →
      ofItems directives items' = kinds) ∧
    (∀ items', items.Perm items' → ofItems directives items' = kinds) ∧
    (∀ before after v, items = before ++ after → v.map? = .none →
      ofItems directives (before ++ v :: after) = kinds) ∧
    (∀ (before after : List Value) (m m' : Mapping), items = before ++ .map m :: after →
      (∀ key, Key.str key ∈ m.keys ↔ Key.str key ∈ m'.keys) →
      ofItems directives (before ++ .map m' :: after) = kinds) ∧
    (∀ (before after : List Value) (m m' : Mapping) (key : String) (v : Value),
      items = before ++ .map (m ++ m') :: after →
      directives.get? key = .none ∨ Silent directives key →
      ofItems directives (before ++ .map (m ++ (.str key, v) :: m') :: after) = kinds) ∧
    ∀ trail modules, AtTop trail items →
      let context := classify trail directives modules
      context.play = kinds.play ∧ context.block = kinds.block ∧
        context.task = (kinds.task && !insideBlock trail) := by
  refine ⟨fun kind => ofItems_allows_iff, exists_allows directives items, ?_, ?_, ?_, ?_, ?_, ?_⟩
  · intro items' h
    exact (ofItems_congr h).symm
  · intro items' hperm
    exact (ofItems_congr fun key _ => uses_of_perm hperm).symm
  · rintro before after v rfl hv
    exact ofItems_congr fun key _ => uses_of_not_map hv
  · rintro before after m m' rfl hkeys
    apply ofItems_congr
    intro key _
    rw [uses_map, uses_map, hkeys]
  · rintro before after m m' key v rfl hkey
    have hsilent : Silent directives key := hkey.elim silent_of_unknown id
    apply ofItems_congr
    intro key' htelling
    have hne : key' ≠ key := fun heq => htelling (heq ▸ hsilent)
    simp [uses_map, Mapping.keys, hne]
  · intro trail modules htop
    obtain ⟨hplay, hblock, htask, -⟩ := classify_of_atTop htop directives modules
    exact ⟨hplay, hblock, htask⟩

/-- Items that leave no kind leave all, in either order and with a key that nobody knows. -/
theorem TopKinds.ofItems_narrows_conflict :
    let directives : DirectiveCatalog :=
      .ofEntries [⟨"hosts", .ofList [.play]⟩, ⟨"register", .ofList [.task]⟩]
    let play : Value := .map [(.str "hosts", .null)]
    let task : Value := .map [(.str "register", .null)]
    ofItems directives [play, task] = all ∧ ofItems directives [task, play] = all ∧
      ofItems directives [play, .map [(.str "register", .null), (.str "mystery", .null)]] = all ∧
      (classify [.seq [play, task], .str "x"] directives .empty).block = true := by
  intro directives play task
  have hall : ofItems directives [play, task] = all := by decide
  obtain ⟨-, -, -, hperm, -, -, hsilent, htop⟩ := ofItems_narrows directives [play, task]
  refine ⟨hall, (hperm _ (.swap _ _ _)).trans hall, ?_, ?_⟩
  · exact (hsilent [play] [] [(.str "register", .null)] [] "mystery" .null rfl
      (Or.inl (by decide))).trans hall
  · have hflags := (htop [.seq [play, task], .str "x"] .empty ⟨rfl, Or.inl rfl⟩).2.1
    rwa [hall] at hflags

end Context

end Playbook
