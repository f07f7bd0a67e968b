import Mathlib.Data.List.Basic
import Playbook.Completion.Context

/-!
What a judged trail says of itself. Each kind in the context is traced back to the entries of the
trail that let it in, counted from the start for an item of the list at the top and from the end for
all else. A trail that leads below the top is judged by its last four entries alone.
-/

namespace Playbook

namespace ModuleCatalog

theorem get?_name {catalog : ModuleCatalog} {name : String} {m : ModuleInfo}
    (h : catalog.get? name = some m) : m.name = name := by
  have hm := List.find?_some h
  exact beq_iff_eq.mp hm

end ModuleCatalog

namespace Mapping

theorem mem_names_iff {m : Mapping} {name : String} : name ∈ m.names ↔ Key.str name ∈ m.keys := by
  have hstr : ∀ key : Key, key.str? = some name ↔ key = .str name := by
    intro key
    cases key <;> simp [Key.str?]
  simp [names, List.mem_filterMap, hstr]

end Mapping

namespace Context

variable {trail : List Value} {directives : DirectiveCatalog} {modules : ModuleCatalog}

/-! ### Entries counted from the end -/

theorem fromEnd_succ_eq_some_iff {n : Nat} {v : Value} :
    fromEnd trail (n + 1) = some v ↔
      ∃ before after, trail = before ++ v :: after ∧ after.length = n := by
  have hrev : fromEnd trail (n + 1) = trail.reverse[n]? := rfl
  rw [hrev]
  constructor
  · intro h
    obtain ⟨hlt, hv⟩ := List.getElem?_eq_some_iff.mp h
    have hsplit : trail.reverse = trail.reverse.take n ++ v :: trail.reverse.drop (n + 1) := by
      rw [← hv, List.getElem_cons_drop, List.take_append_drop]
    refine ⟨(trail.reverse.drop (n + 1)).reverse, (trail.reverse.take n).reverse, ?_, ?_⟩
    · simpa using congrArg List.reverse hsplit
    · simp only [List.length_reverse] at hlt
      simp only [List.length_reverse, List.length_take]
      omega
  · rintro ⟨before, after, rfl, rfl⟩
    simp

theorem nameFromEnd_eq_some_iff {n : Nat} {name : String} :
    nameFromEnd trail n = some name ↔ fromEnd trail n = some (.str name) := by
  have hstr : ∀ v : Value, v.str? = some name ↔ v = .str name := by
    intro v
    cases v <;> simp [Value.str?]
  simp [nameFromEnd, Option.bind_eq_some_iff, hstr]

theorem nameFromEnd_two_eq_some_iff {name : String} :
    nameFromEnd trail 2 = some name ↔ ∃ before last, trail = before ++ [.str name, last] := by
  rw [nameFromEnd_eq_some_iff, fromEnd_succ_eq_some_iff]
  simp only [List.length_eq_one_iff]
  grind

/-- A trail with an entry `n` places from the end keeps it when all but the last `k ≥ n` go. -/
theorem fromEnd_drop {k n : Nat} (hn : 0 < n) (hk : n ≤ k) :
    fromEnd (trail.drop (trail.length - k)) n = fromEnd trail n := by
  have hlt : n - 1 < k := by omega
  rw [fromEnd, fromEnd, ← List.take_reverse, List.getElem?_take_of_lt hlt]

/-- Behind the entries of `after` from the end stands the last entry before them. -/
theorem fromEnd_append {before after : List Value} {n : Nat} (h : after.length + 1 = n) :
    fromEnd (before ++ after) n = before.getLast? := by
  subst h
  simp [fromEnd, List.getElem?_append_right, List.getLast?_eq_head?_reverse, List.head?_eq_getElem?]

/-! ### The list at the top -/

/-- The trail leads to a new item of the list `items` at the top, or to a new key of one. -/
def AtTop (trail : List Value) (items : List Value) : Prop :=
  trail.head? = some (.seq items) ∧
    (trail.length = 2 ∨ trail.length = 3 ∧ ∃ m : Mapping, trail[1]? = some (.map m) ∧ m ≠ [])

theorem topItems?_eq_some_iff {items : List Value} :
    topItems? trail = some items ↔ AtTop trail items := by
  fun_cases topItems? trail with
  | case1 found last => simp [AtTop]
  | case2 found entry entries last => simp [AtTop]
  | case3 other hitem hkey =>
    simp only [reduceCtorEq, false_iff]
    rintro ⟨hhead, htwo | ⟨hthree, m, hm, hne⟩⟩
    · obtain ⟨first, last, rfl⟩ := List.length_eq_two.mp htwo
      simp only [List.head?_cons, Option.some.injEq] at hhead
      exact hitem _ _ (by rw [hhead])
    · obtain ⟨first, second, last, rfl⟩ := List.length_eq_three.mp hthree
      obtain ⟨entry, entries, rfl⟩ := List.exists_cons_of_ne_nil hne
      simp only [List.head?_cons, Option.some.injEq, List.getElem?_cons_succ,
        List.getElem?_cons_zero] at hhead hm
      exact hkey _ _ _ _ (by rw [hhead, hm])

theorem topItems?_of_length (h : 4 ≤ trail.length) : topItems? trail = .none := by
  apply Option.eq_none_iff_forall_ne_some.mpr
  intro items htop
  obtain ⟨-, htwo | ⟨hthree, -⟩⟩ := topItems?_eq_some_iff.mp htop <;> omega

theorem classify_play_iff : (classify trail directives modules).play = true ↔
    ∃ items, AtTop trail items ∧ (TopKinds.ofItems directives items).play = true := by
  simp [classify, Option.any_eq_true, topItems?_eq_some_iff]

/-! ### The list around the cursor -/

theorem length_of_listKey? {name : String} (h : listKey? trail = some name) : 5 ≤ trail.length := by
  by_contra hshort
  simp [listKey?, Nat.lt_of_not_le hshort] at h

/-- A list of roles takes nothing else. -/
theorem classify_of_role (h : (classify trail directives modules).role = true) :
    (classify trail directives modules).play = false ∧
      (classify trail directives modules).task = false ∧
      (classify trail directives modules).block = false := by
  obtain ⟨name, hkey, hname⟩ := (Option.any_eq_true ..).mp h
  obtain rfl : name = "roles" := by simpa [roleLists] using hname
  have htop : topItems? trail = .none :=
    topItems?_of_length (Nat.le_of_succ_le (length_of_listKey? hkey))
  simp [classify, htop, hkey, taskLists, blockLists]

/-- The next-to-last entry is a mapping with a key that only blocks have. -/
theorem exists_of_insideBlock (h : insideBlock trail = true) :
    ∃ (before : List Value) (m : Mapping) (last : Value) (name : String),
      trail = before ++ [.map m, last] ∧ name ∈ blockLists ∧ Key.str name ∈ m.keys := by
  obtain ⟨m, hm, hany⟩ := (Option.any_eq_true ..).mp h
  obtain ⟨v, hv, hmap⟩ := Option.bind_eq_some_iff.mp hm
  obtain rfl : v = .map m := by
    cases v <;> simp_all [Value.map?]
  obtain ⟨before, after, rfl, hafter⟩ := fromEnd_succ_eq_some_iff.mp hv
  obtain ⟨last, rfl⟩ := List.length_eq_one_iff.mp hafter
  obtain ⟨name, hname, hblock⟩ := List.any_eq_true.mp hany
  exact ⟨before, m, last, name, rfl, by simpa using hblock, Mapping.mem_names_iff.mp hname⟩

theorem exists_of_afterModuleNameKey (h : afterModuleNameKey trail = true) :
    4 ≤ trail.length ∧ ∃ (before : List Value) (name : String) (last : Value),
      trail = before ++ [.str name, last] ∧ name ∈ moduleNameKeys := by
  simp only [afterModuleNameKey, Bool.and_eq_true, decide_eq_true_eq, Option.any_eq_true] at h
  obtain ⟨hlen, name, hname, hkey⟩ := h
  obtain ⟨before, last, hsplit⟩ := nameFromEnd_two_eq_some_iff.mp hname
  exact ⟨hlen, before, name, last, hsplit, by simpa using hkey⟩

/-- The name of a module without a task is what stands behind a key for it, or what the keys of a
block have ruled out as a task. -/
theorem afterModuleNameKey_or_insideBlock
    (hname : (classify trail directives modules).moduleName = true)
    (htask : (classify trail directives modules).task = false) :
    afterModuleNameKey trail = true ∨ insideBlock trail = true := by
  simp only [classify, Bool.or_eq_true, Bool.and_eq_false_iff, Bool.not_eq_false'] at hname htask
  grind

/-! ### The module whose arguments are typed -/

/-- The entry `key` stands where the key before the cursor is: next to last, or third to last if
what is next to last is no text. -/
def KeyBefore (trail before : List Value) (key : String) : Prop :=
  ∃ last, trail = before ++ [.str key, last] ∨
    ∃ inner, inner.str? = .none ∧ trail = before ++ [.str key, inner, last]

/-- The trail names a module: by the key before the cursor, or by a key beside it if that key is the
one for separate arguments. -/
def NamesModule (trail : List Value) (name : String) : Prop :=
  ∃ before key, KeyBefore trail before key ∧
    if key = argumentsKey then
      ∃ m : Mapping, before.getLast? = some (.map m) ∧ Key.str name ∈ m.keys
    else name = key

/-- The keys of the mapping that an entry may be. -/
def keysOf (entry : Option Value) : List String :=
  ((entry.bind Value.map?).map Mapping.names).getD []

theorem mem_keysOf_iff {entry : Option Value} {name : String} :
    name ∈ keysOf entry ↔ ∃ m : Mapping, entry = some (.map m) ∧ Key.str name ∈ m.keys := by
  rcases entry with _ | v
  · simp [keysOf]
  · cases v <;> simp [keysOf, Value.map?, Mapping.mem_names_iff]

theorem moduleKeys_of_keyBefore {before : List Value} {key : String} (hlen : 4 ≤ trail.length)
    (h : KeyBefore trail before key) :
    moduleKeys trail = if key = argumentsKey then keysOf before.getLast? else [key] := by
  obtain ⟨last, rfl | ⟨inner, hinner, rfl⟩⟩ := h
  · have htwo : nameFromEnd (before ++ [.str key, last]) 2 = some key :=
      nameFromEnd_two_eq_some_iff.mpr ⟨before, last, rfl⟩
    have hthree : fromEnd (before ++ [.str key, last]) 3 = before.getLast? := fromEnd_append rfl
    simp only [moduleKeys, if_neg (Nat.not_lt.mpr hlen), htwo, hthree, beq_iff_eq, keysOf]
  · have htwo : nameFromEnd (before ++ [.str key, inner, last]) 2 = .none := by
      have hin : fromEnd (before ++ [.str key, inner, last]) 2 = some inner :=
        fromEnd_succ_eq_some_iff.mpr ⟨before ++ [.str key], [last], by simp, rfl⟩
      simp [nameFromEnd, hin, hinner]
    have hthree : nameFromEnd (before ++ [.str key, inner, last]) 3 = some key :=
      nameFromEnd_eq_some_iff.mpr (fromEnd_succ_eq_some_iff.mpr ⟨before, [inner, last], rfl, rfl⟩)
    have hfour : fromEnd (before ++ [.str key, inner, last]) 4 = before.getLast? :=
      fromEnd_append rfl
    simp only [moduleKeys, if_neg (Nat.not_lt.mpr hlen), htwo, hthree, hfour, beq_iff_eq, keysOf]

theorem exists_keyBefore (h : moduleKeys trail ≠ []) :
    4 ≤ trail.length ∧ ∃ before key, KeyBefore trail before key := by
  have hlen : 4 ≤ trail.length := by
    by_contra hshort
    exact h (if_pos (Nat.lt_of_not_le hshort))
  refine ⟨hlen, ?_⟩
  rcases htwo : nameFromEnd trail 2 with _ | key
  · rcases hthree : nameFromEnd trail 3 with _ | key
    · simp [moduleKeys, Nat.not_lt.mpr hlen, htwo, hthree] at h
    · rw [nameFromEnd_eq_some_iff, fromEnd_succ_eq_some_iff] at hthree
      obtain ⟨before, after, rfl, hafter⟩ := hthree
      obtain ⟨inner, last, rfl⟩ := List.length_eq_two.mp hafter
      have hin : fromEnd (before ++ [.str key, inner, last]) 2 = some inner :=
        fromEnd_succ_eq_some_iff.mpr ⟨before ++ [.str key], [last], by simp, rfl⟩
      have hinner : inner.str? = .none := by simpa [nameFromEnd, hin] using htwo
      exact ⟨before, key, last, .inr ⟨inner, hinner, rfl⟩⟩
  · obtain ⟨before, last, rfl⟩ := nameFromEnd_two_eq_some_iff.mp htwo
    exact ⟨before, key, last, .inl rfl⟩

theorem mem_moduleKeys_iff {name : String} :
    name ∈ moduleKeys trail ↔ 4 ≤ trail.length ∧ NamesModule trail name := by
  have hnames : ∀ {before key}, 4 ≤ trail.length → KeyBefore trail before key →
      (name ∈ moduleKeys trail ↔
        if key = argumentsKey then
          ∃ m : Mapping, before.getLast? = some (.map m) ∧ Key.str name ∈ m.keys
        else name = key) := by
    intro before key hlen hkey
    rw [moduleKeys_of_keyBefore hlen hkey]
    by_cases hargs : key = argumentsKey <;> simp [hargs, mem_keysOf_iff]
  constructor
  · intro hmem
    obtain ⟨hlen, before, key, hkey⟩ := exists_keyBefore (List.ne_nil_of_mem hmem)
    exact ⟨hlen, before, key, hkey, (hnames hlen hkey).mp hmem⟩
  · rintro ⟨hlen, before, key, hkey, hname⟩
    exact (hnames hlen hkey).mpr hname

theorem argumentsOf_eq_some {m : ModuleInfo}
    (h : (classify trail directives modules).argumentsOf = some m) :
    modules.get? m.name = some m ∧ NamesModule trail m.name := by
  obtain ⟨name, hmem, hget⟩ := List.exists_of_findSome?_eq_some h
  obtain rfl := ModuleCatalog.get?_name hget
  exact ⟨hget, (mem_moduleKeys_iff.mp hmem).2⟩

theorem argumentsOf_eq_none_iff : (classify trail directives modules).argumentsOf = .none ↔
    ∀ name, 4 ≤ trail.length → NamesModule trail name → modules.get? name = .none := by
  simp only [classify, List.findSome?_eq_none_iff, mem_moduleKeys_iff, and_imp]

/-! ### Locality -/

/-- Below the top, the last four entries of a trail decide. -/
theorem classify_congr {trail' : List Value} (hlen : 5 ≤ trail.length) (hlen' : 5 ≤ trail'.length)
    (h : trail.drop (trail.length - 4) = trail'.drop (trail'.length - 4)) :
    classify trail directives modules = classify trail' directives modules := by
  have hfrom : ∀ n, 0 < n → n ≤ 4 → fromEnd trail n = fromEnd trail' n := by
    intro n hpos hle
    rw [← fromEnd_drop hpos hle, h, fromEnd_drop hpos hle]
  have hname : ∀ n, 0 < n → n ≤ 4 → nameFromEnd trail n = nameFromEnd trail' n := by
    intro n hpos hle
    rw [nameFromEnd, nameFromEnd, hfrom n hpos hle]
  have htop : topItems? trail = topItems? trail' := by
    rw [topItems?_of_length (Nat.le_of_succ_le hlen), topItems?_of_length (Nat.le_of_succ_le hlen')]
  have hlist : listKey? trail = listKey? trail' := by
    simp [listKey?, Nat.not_lt.mpr hlen, Nat.not_lt.mpr hlen', hname]
  have hafter : afterModuleNameKey trail = afterModuleNameKey trail' := by
    simp [afterModuleNameKey, Nat.le_of_succ_le hlen, Nat.le_of_succ_le hlen', hname]
  have hkeys : moduleKeys trail = moduleKeys trail' := by
    have hge := Nat.not_lt.mpr (Nat.le_of_succ_le hlen)
    have hge' := Nat.not_lt.mpr (Nat.le_of_succ_le hlen')
    simp [moduleKeys, hge, hge', hname, hfrom]
  have hinside : insideBlock trail = insideBlock trail' := by
    simp [insideBlock, hfrom]
  simp only [classify, htop, hlist, hafter, hkeys, hinside]

/-- What the judgement of a trail rests on. A play is offered exactly where the list at the top
takes one; a list of roles takes roles alone; the name of a module without a task, and the module
whose arguments are typed, are named by entries near the end; and below the top the last four
entries decide. -/
theorem classify_sound (trail trail' : List Value) (directives : DirectiveCatalog)
    (modules : ModuleCatalog) :
    let context := classify trail directives modules
    (context.play = true ↔
      ∃ items, AtTop trail items ∧ (TopKinds.ofItems directives items).play = true) ∧
    (context.role = true → context.play = false ∧ context.task = false ∧ context.block = false) ∧
    (context.moduleName = true → context.task = false →
      (4 ≤ trail.length ∧ ∃ (before : List Value) (name : String) (last : Value),
        trail = before ++ [.str name, last] ∧ name ∈ ["action", "local_action"]) ∨
      ∃ (before : List Value) (m : Mapping) (last : Value) (name : String),
        trail = before ++ [.map m, last] ∧ name ∈ ["block", "rescue", "always"] ∧
          Key.str name ∈ m.keys) ∧
    (∀ m, context.argumentsOf = some m →
      modules.get? m.name = some m ∧ NamesModule trail m.name) ∧
    (context.argumentsOf = .none ↔
      ∀ name, 4 ≤ trail.length → NamesModule trail name → modules.get? name = .none) ∧
    (5 ≤ trail.length → 5 ≤ trail'.length →
      trail.drop (trail.length - 4) = trail'.drop (trail'.length - 4) →
        context = classify trail' directives modules) := by
  intro context
  refine ⟨classify_play_iff, classify_of_role, ?_, fun m => argumentsOf_eq_some,
    argumentsOf_eq_none_iff, classify_congr⟩
  intro hname htask
  apply (afterModuleNameKey_or_insideBlock hname htask).imp
  · exact exists_of_afterModuleNameKey
  · exact exists_of_insideBlock

/-- Separate arguments: the module is named by the key beside theirs, however deep the task is. -/
theorem classify_sound_separate_arguments :
    let modules : ModuleCatalog := .ofList [⟨"copy", .none⟩]
    let task : Value := .map [(.str "name", .null), (.str "copy", .null), (.str "args", .null)]
    let shallow : List Value := [.seq [], task, .str "args", .map [], .str "de"]
    let deep : List Value :=
      [.seq [], .map [], .str "tasks", .seq [], task, .str "args", .map [], .str "de"]
    (classify shallow .empty modules).argumentsOf = some ⟨"copy", .none⟩ ∧
      NamesModule shallow "copy" ∧ classify shallow .empty modules = classify deep .empty modules := by
  intro modules task shallow deep
  have hargs : (classify shallow .empty modules).argumentsOf = some ⟨"copy", .none⟩ := by decide
  obtain ⟨-, -, -, hnames, -, hlocal⟩ := classify_sound shallow deep .empty modules
  exact ⟨hargs, (hnames _ hargs).2, hlocal (by decide) (by decide) rfl⟩

end Context

end Playbook
