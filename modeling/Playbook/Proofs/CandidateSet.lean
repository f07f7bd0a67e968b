import Mathlib.Data.Prod.Lex
import Playbook.Proofs.NameOrder

/-!
The candidates for a context. They are exactly the directives, modules and parameters that the
context asks for and whose names contain the pattern, each once, and come in the order of their
sorts and, within a sort, of the bytes of their names. So a longer pattern only takes some away.
-/

namespace Playbook

theorem occursIn_iff {part text : List Char} : occursIn part text = true ↔ part <:+: text := by
  induction text with
  | nil => simp [occursIn]
  | cons c rest ih =>
      rw [occursIn, Bool.or_eq_true, List.isPrefixOf_iff_prefix, ih, List.infix_cons_iff]

/-- Whether a context asks for the keys of a kind. -/
def Context.asksFor (context : Context) : EntityKind → Bool
  | .play => context.play
  | .task => context.task
  | .block => context.block
  | .role => context.role

/-- What was learnt about a module is found again. -/
theorem ParameterCatalog.lookup_learnt {parameters learnt : ParameterCatalog} {disk : Disk}
    {m : ModuleInfo} {names : Option (List String)}
    (h : parameters.lookup disk m = .ok (names, learnt)) :
    learnt.lookup disk m = .ok (names, learnt) := by
  unfold lookup at h
  split at h
  · rename_i htable
    cases h
    simp [lookup, htable]
  · rename_i htable hpath
    cases h
    simp [lookup, htable, hpath]
  · rename_i path htable hpath
    split_ifs at h with hreads
    · cases h
      simp [lookup, htable, hpath, hreads]
    · split at h
      · rename_i hcache
        cases h
        simp [lookup, htable, hpath, hreads, hcache]
      · cases hread : read disk path with
        | error e =>
            rw [hread] at h
            cases h
        | ok found =>
            rw [hread] at h
            cases h
            simp [lookup, htable, hpath, hreads]

namespace Candidate

variable {context : Context} {catalogs : Catalogs} {disk : Disk} {pattern : String} {c : Candidate}

/-! ### What is offered -/

/-- What a context, the catalogs and a pattern ask to be offered. -/
inductive Offered (context : Context) (catalogs : Catalogs) (disk : Disk) (pattern : String) :
    Candidate → Prop
  | directive {d : Directive} {kind : EntityKind} (hd : d ∈ catalogs.directives.entries)
      (hasks : context.asksFor kind = true)
      (haccepts : catalogs.directives.accepts kind d.name = true)
      (hpart : pattern.toList <:+: d.name.toList) :
      Offered context catalogs disk pattern (.directive d)
  | moduleName {m : ModuleInfo} (hasks : context.moduleName = true)
      (hm : m ∈ catalogs.modules.entries) (hpart : pattern.toList <:+: m.name.toList) :
      Offered context catalogs disk pattern (.moduleName m)
  | parameter {m : ModuleInfo} {names : List String} {learnt : ParameterCatalog} {name : String}
      (hasks : context.argumentsOf = some m)
      (hlookup : catalogs.parameters.lookup disk m = .ok (some names, learnt))
      (hname : name ∈ names) (hpart : pattern.toList <:+: name.toList) :
      Offered context catalogs disk pattern (.parameter m.name name)

theorem Offered.mono {longer : String} (hpart : pattern.toList <:+: longer.toList)
    (h : Offered context catalogs disk longer c) : Offered context catalogs disk pattern c := by
  cases h with
  | directive hd hasks haccepts hlonger =>
      exact .directive hd hasks haccepts (hpart.trans hlonger)
  | moduleName hasks hm hlonger => exact .moduleName hasks hm (hpart.trans hlonger)
  | parameter hasks hlookup hname hlonger =>
      exact .parameter hasks hlookup hname (hpart.trans hlonger)

/-- The request that asks for the keys of a kind. -/
def Request.ofKind : EntityKind → Request
  | .play => .play
  | .role => .role
  | .block => .block
  | .task => .task

theorem mem_answers_ofKind {kind : EntityKind} :
    c ∈ (Request.ofKind kind).answers catalogs pattern ↔
      ∃ d ∈ catalogs.directives.entries, pattern.toList <:+: d.name.toList ∧
        d.kinds.contains kind = true ∧ directive d = c := by
  cases kind <;>
    simp [Request.ofKind, Request.answers, DirectiveCatalog.ofKind, hasPart, occursIn_iff,
      and_assoc]

theorem mem_answers_moduleName : c ∈ Request.moduleName.answers catalogs pattern ↔
    ∃ m ∈ catalogs.modules.entries, pattern.toList <:+: m.name.toList ∧ moduleName m = c := by
  simp [Request.answers, hasPart, occursIn_iff, and_assoc]

theorem mem_ofFlags_iff : c ∈ ofFlags context catalogs pattern ↔
    (∃ kind, context.asksFor kind = true ∧ c ∈ (Request.ofKind kind).answers catalogs pattern) ∨
      context.moduleName = true ∧ c ∈ Request.moduleName.answers catalogs pattern := by
  simp only [ofFlags, List.mem_flatMap, List.mem_filter]
  constructor
  · rintro ⟨request, ⟨-, hmade⟩, hc⟩
    cases request with
    | play => exact Or.inl ⟨.play, hmade, hc⟩
    | task => exact Or.inl ⟨.task, hmade, hc⟩
    | block => exact Or.inl ⟨.block, hmade, hc⟩
    | role => exact Or.inl ⟨.role, hmade, hc⟩
    | moduleName => exact Or.inr ⟨hmade, hc⟩
  · rintro (⟨kind, hasks, hc⟩ | ⟨hasks, hc⟩)
    · refine ⟨.ofKind kind, ⟨?_, ?_⟩, hc⟩
      · cases kind <;> decide
      · cases kind <;> exact hasks
    · exact ⟨.moduleName, ⟨by decide, hasks⟩, hc⟩

theorem mem_ofArguments_iff {m : ModuleInfo} : c ∈ (ofArguments m catalogs disk pattern).1 ↔
    ∃ names learnt, catalogs.parameters.lookup disk m = .ok (some names, learnt) ∧
      ∃ name ∈ names, pattern.toList <:+: name.toList ∧ parameter m.name name = c := by
  unfold ofArguments
  split <;> simp_all [hasPart, occursIn_iff, and_assoc]

/-- All that is collected, in the order in which it is found. -/
def found (context : Context) (catalogs : Catalogs) (disk : Disk) (pattern : String) :
    List Candidate :=
  ofFlags context catalogs pattern ++
    (context.argumentsOf.map fun m => (ofArguments m catalogs disk pattern).1).getD []

theorem collect_eq : (collect context catalogs disk pattern).1 =
    (found context catalogs disk pattern).foldl (fun sorted c => insertNew before c sorted) [] := by
  unfold collect found
  cases context.argumentsOf <;> rfl

theorem mem_found_iff : c ∈ found context catalogs disk pattern ↔
    Offered context catalogs disk pattern c := by
  rw [found, List.mem_append, mem_ofFlags_iff]
  constructor
  · rintro ((⟨kind, hasks, hc⟩ | ⟨hasks, hc⟩) | hc)
    · obtain ⟨d, hd, hpart, hkind, rfl⟩ := mem_answers_ofKind.mp hc
      exact .directive hd hasks ((DirectiveCatalog.accepts_iff hd).mpr hkind) hpart
    · obtain ⟨m, hm, hpart, rfl⟩ := mem_answers_moduleName.mp hc
      exact .moduleName hasks hm hpart
    · cases harguments : context.argumentsOf with
      | none => simp [harguments] at hc
      | some m =>
          rw [harguments] at hc
          obtain ⟨names, learnt, hlookup, name, hname, hpart, rfl⟩ := mem_ofArguments_iff.mp hc
          exact .parameter harguments hlookup hname hpart
  · intro h
    cases h with
    | directive hd hasks haccepts hpart =>
        have hkind := (DirectiveCatalog.accepts_iff hd).mp haccepts
        exact Or.inl (Or.inl ⟨_, hasks, mem_answers_ofKind.mpr ⟨_, hd, hpart, hkind, rfl⟩⟩)
    | moduleName hasks hm hpart =>
        exact Or.inl (Or.inr ⟨hasks, mem_answers_moduleName.mpr ⟨_, hm, hpart, rfl⟩⟩)
    | parameter hasks hlookup hname hpart =>
        rw [hasks]
        exact Or.inr (mem_ofArguments_iff.mpr ⟨_, _, hlookup, _, hname, hpart, rfl⟩)

/-! ### In which order -/

/-- Directives come first, parameters last. -/
def rank : Candidate → Nat
  | directive _ => 0
  | moduleName _ => 1
  | parameter _ _ => 2

/-- The module that a parameter belongs to. -/
def owner : Candidate → String
  | parameter owner _ => owner
  | _ => ""

/-- What the order of candidates looks at. -/
def place (c : Candidate) : Nat ×ₗ String ×ₗ String := toLex (c.rank, toLex (c.owner, c.name))

theorem place_lt_iff (a b : Candidate) : a.place < b.place ↔
    a.rank < b.rank ∨ a.rank = b.rank ∧ (a.owner < b.owner ∨ a.owner = b.owner ∧ a.name < b.name) :=
  Prod.Lex.toLex_lt_toLex.trans (or_congr_right (and_congr_right fun _ => Prod.Lex.toLex_lt_toLex))

theorem before_iff (a b : Candidate) : before a b = true ↔ a.place < b.place := by
  rw [place_lt_iff]
  cases a <;> cases b <;> simp [before, rank, owner, name, -String.lt_iff_ltb]

/-- One candidate comes before another by its sort or, within a sort, by the bytes of its name. -/
def Precedes (a b : Candidate) : Prop :=
  a.rank < b.rank ∨ a.rank = b.rank ∧ bytes a.name < bytes b.name

/-- All parameters that are offered belong to one module. -/
theorem Offered.owner_eq {a b : Candidate} (ha : Offered context catalogs disk pattern a)
    (hb : Offered context catalogs disk pattern b) (hrank : a.rank = b.rank) :
    a.owner = b.owner := by
  cases ha <;> cases hb <;> simp_all [rank, owner]

theorem Offered.precedes {a b : Candidate} (ha : Offered context catalogs disk pattern a)
    (hb : Offered context catalogs disk pattern b) (hlt : a.place < b.place) : a.Precedes b := by
  rcases (place_lt_iff a b).mp hlt with hrank | ⟨hrank, howner | ⟨-, hname⟩⟩
  · exact Or.inl hrank
  · exact absurd (ha.owner_eq hb hrank) (ne_of_lt howner)
  · exact Or.inr ⟨hrank, bytes_lt hname⟩

theorem Offered.eq_of_place_eq {a b : Candidate} (ha : Offered context catalogs disk pattern a)
    (hb : Offered context catalogs disk pattern b) (h : a.place = b.place) : a = b := by
  obtain ⟨hrank, howner, hname⟩ : a.rank = b.rank ∧ a.owner = b.owner ∧ a.name = b.name := by
    simpa [place] using h
  cases ha with
  | directive hd =>
      cases hb with
      | directive hd' => rw [catalogs.directives.ascending.eq_of_key_eq hd hd' hname]
      | moduleName => cases hrank
      | parameter => cases hrank
  | moduleName _ hm =>
      cases hb with
      | directive => cases hrank
      | moduleName _ hm' => rw [catalogs.modules.ascending.eq_of_key_eq hm hm' hname]
      | parameter => cases hrank
  | parameter =>
      cases hb with
      | directive => cases hrank
      | moduleName => cases hrank
      | parameter => exact congrArg₂ Candidate.parameter howner hname

theorem collect_ascending : Ascending place (collect context catalogs disk pattern).1 := by
  rw [collect_eq]
  exact Ascending.insertAll before_iff _ List.Pairwise.nil

theorem mem_collect_iff : c ∈ (collect context catalogs disk pattern).1 ↔
    Offered context catalogs disk pattern c := by
  rw [collect_eq, mem_insertAll_iff before_iff, mem_found_iff]
  · simp
  -- A candidate is dropped only if one in its place is there already, and that is itself.
  · intro a ha b hb
    rw [mem_found_iff] at ha hb
    exact ha.eq_of_place_eq (hb.resolve_left List.not_mem_nil)

/-! ### From one request to the next -/

/-- The catalogs after a request differ at most in what is kept about parameters, and not in what
they answer for the module in question. -/
theorem collect_keeps (context : Context) (catalogs : Catalogs) (disk : Disk) (pattern : String) :
    ∃ learnt, (collect context catalogs disk pattern).2 = { catalogs with parameters := learnt } ∧
      ∀ m names, context.argumentsOf = some m →
        ((∃ more, learnt.lookup disk m = .ok (some names, more)) ↔
          ∃ more, catalogs.parameters.lookup disk m = .ok (some names, more)) := by
  unfold collect
  cases hasks : context.argumentsOf with
  | none =>
      refine ⟨catalogs.parameters, rfl, fun m names h => ?_⟩
      cases h
  | some m =>
      cases hlookup : catalogs.parameters.lookup disk m with
      | error e =>
          refine ⟨catalogs.parameters, ?_, fun _ _ _ => Iff.rfl⟩
          simp [ofArguments, hlookup]
      | ok answer =>
          obtain ⟨names, learnt⟩ := answer
          refine ⟨learnt, ?_, ?_⟩
          · cases names <;> simp [ofArguments, hlookup]
          · rintro _ names' ⟨⟩
            simp [hlookup, ParameterCatalog.lookup_learnt hlookup]

theorem Offered.of_collect {longer : String}
    (h : Offered context (collect context catalogs disk pattern).2 disk longer c) :
    Offered context catalogs disk longer c := by
  obtain ⟨learnt, hcatalogs, hlookups⟩ := collect_keeps context catalogs disk pattern
  rw [hcatalogs] at h
  cases h with
  | directive hd hasks haccepts hpart => exact .directive hd hasks haccepts hpart
  | moduleName hasks hm hpart => exact .moduleName hasks hm hpart
  | parameter hasks hlookup hname hpart =>
      obtain ⟨more, hlookup⟩ := (hlookups _ _ hasks).mp ⟨_, hlookup⟩
      exact .parameter hasks hlookup hname hpart

/-- What is offered is exactly what the context asks for, each candidate once and in order. A longer
pattern only takes candidates away, also when the catalogs have learnt from the request before; of
directives and modules they learn nothing. -/
theorem collect_exact (context : Context) (catalogs : Catalogs) (disk : Disk) (pattern : String) :
    (collect context catalogs disk pattern).1.Pairwise Precedes ∧
    (collect context catalogs disk pattern).1.Nodup ∧
    (∀ c, c ∈ (collect context catalogs disk pattern).1 ↔
      Offered context catalogs disk pattern c) ∧
    (∀ longer : String, pattern.toList <:+: longer.toList →
      (collect context catalogs disk longer).1.Sublist
        (collect context catalogs disk pattern).1 ∧
      (collect context (collect context catalogs disk pattern).2 disk longer).1.Sublist
        (collect context catalogs disk pattern).1) ∧
    (collect context catalogs disk pattern).2.directives = catalogs.directives ∧
    (collect context catalogs disk pattern).2.modules = catalogs.modules := by
  have hkept : (collect context catalogs disk pattern).2.directives = catalogs.directives ∧
      (collect context catalogs disk pattern).2.modules = catalogs.modules := by
    obtain ⟨learnt, hcatalogs, -⟩ := collect_keeps context catalogs disk pattern
    rw [hcatalogs]
    exact ⟨rfl, rfl⟩
  refine ⟨?_, ?_, fun c => mem_collect_iff, ?_, hkept⟩
  · refine List.Pairwise.imp_of_mem ?_ collect_ascending
    intro a b ha hb hlt
    rw [mem_collect_iff] at ha hb
    exact ha.precedes hb hlt
  · exact collect_ascending.map_nodup.of_map
  · intro longer hpart
    constructor
    · refine collect_ascending.sublist collect_ascending ?_
      intro c hc
      rw [mem_collect_iff] at hc ⊢
      exact hc.mono hpart
    · refine collect_ascending.sublist collect_ascending ?_
      intro c hc
      rw [mem_collect_iff] at hc
      rw [mem_collect_iff]
      exact hc.of_collect.mono hpart

/-- Keys, modules and parameters at once. A directive of two of the kinds that are asked for comes
once, and capital letters come first. -/
theorem collect_exact_mixed :
    let copy : ModuleInfo := ⟨"copy", none⟩
    let context : Context := ⟨true, true, false, false, true, some copy⟩
    let both : Directive := ⟨"become", .ofList [.play, .task]⟩
    let catalogs : Catalogs := ⟨.ofEntries [⟨"name", .ofList [.block]⟩, both],
      .ofList [⟨"yum", none⟩, copy, ⟨"apt", none⟩], .ofTable [("copy", ["owner", "dest", "Mode"])]⟩
    (collect context catalogs ⟨[], []⟩ "").1 =
        [.directive both, .moduleName ⟨"apt", none⟩, .moduleName copy, .moduleName ⟨"yum", none⟩,
          .parameter "copy" "Mode", .parameter "copy" "dest", .parameter "copy" "owner"] ∧
      (collect context catalogs ⟨[], []⟩ "o").1.Sublist
        (collect context catalogs ⟨[], []⟩ "").1 ∧
      Offered context catalogs ⟨[], []⟩ "o" (.parameter "copy" "owner") := by
  intro copy context both catalogs
  refine ⟨by decide, ?_, ?_⟩
  · obtain ⟨-, -, -, hlonger, -⟩ := collect_exact context catalogs ⟨[], []⟩ ""
    exact (hlonger "o" List.nil_infix).1
  · obtain ⟨-, -, hmem, -⟩ := collect_exact context catalogs ⟨[], []⟩ "o"
    exact (hmem _).mp (by decide)

end Candidate

end Playbook
