import Mathlib.Data.List.Basic
import Playbook.Workspace

/-!
What is kept about the files of modules. However lookups are interleaved with changes to files, a
lookup by file answers what the file documented when it was first read without a failure. Failures
are not kept, and modules in the table are answered from it alone.
-/

namespace Playbook

namespace ParameterCatalog

/-! ### Runs -/

/-- What may happen while the catalogs are in use. -/
inductive Happening
  | lookup (m : ModuleInfo)
  | write (path : String) (entry : DiskEntry)
  | remove (path : String)

/-- A lookup with what it met: the disk as it was then, the catalog before and after it. -/
structure Visit where
  disk : Disk
  before : ParameterCatalog
  info : ModuleInfo
  answer : Except CatalogError (Option (List String))
  after : ParameterCatalog

/-- Look a module up. A lookup that fails hands out no catalog, so the old one stays in use. -/
def visit (catalog : ParameterCatalog) (disk : Disk) (m : ModuleInfo) : Visit :=
  match catalog.lookup disk m with
  | .ok (names, learnt) => ⟨disk, catalog, m, .ok names, learnt⟩
  | .error e => ⟨disk, catalog, m, .error e, catalog⟩

/-- The lookups of a run. -/
def visits : ParameterCatalog → Disk → List Happening → List Visit
  | _, _, [] => []
  | catalog, disk, .lookup m :: rest =>
      visit catalog disk m :: visits (visit catalog disk m).after disk rest
  | catalog, disk, .write path entry :: rest => visits catalog (disk.write path entry) rest
  | catalog, disk, .remove path :: rest => visits catalog (disk.remove path) rest

/-- What a lookup can do. -/
inductive Visit.Made (catalog : ParameterCatalog) (disk : Disk) (m : ModuleInfo) : Visit → Prop
  | tabled {names : List String} (htable : catalog.table.lookup m.name = some names) :
      Made catalog disk m ⟨disk, catalog, m, .ok (some names), catalog⟩
  | nowhere (htable : catalog.table.lookup m.name = none) (hpath : m.path = none) :
      Made catalog disk m ⟨disk, catalog, m, .ok none, catalog⟩
  | kept {path : String} {names : Option (List String)}
      (htable : catalog.table.lookup m.name = none) (hpath : m.path = some path)
      (hcache : catalog.cache.lookup (Path.identity path) = some names) :
      Made catalog disk m ⟨disk, catalog, m, .ok names, catalog⟩
  | failed {path : String} {e : CatalogError}
      (htable : catalog.table.lookup m.name = none) (hpath : m.path = some path)
      (hcache : catalog.cache.lookup (Path.identity path) = none)
      (hread : read disk path = .error e) :
      Made catalog disk m ⟨disk, catalog, m, .error e, catalog⟩
  | learnt {path : String} {names : Option (List String)}
      (htable : catalog.table.lookup m.name = none) (hpath : m.path = some path)
      (hcache : catalog.cache.lookup (Path.identity path) = none)
      (hread : read disk path = .ok names) :
      Made catalog disk m ⟨disk, catalog, m, .ok names,
        { catalog with cache := (Path.identity path, names) :: catalog.cache }⟩

theorem visit_made {catalog : ParameterCatalog} (hfiles : catalog.readsFiles = true) (disk : Disk)
    (m : ModuleInfo) : Visit.Made catalog disk m (visit catalog disk m) := by
  unfold visit lookup
  cases htable : catalog.table.lookup m.name with
  | some names => exact .tabled htable
  | none =>
      cases hpath : m.path with
      | none => exact .nowhere htable hpath
      | some path =>
          dsimp only
          rw [if_neg (by rw [hfiles]; decide)]
          cases hcache : catalog.cache.lookup (Path.identity path) with
          | some names => exact .kept htable hpath hcache
          | none =>
              cases hread : read disk path with
              | error e => exact .failed htable hpath hcache hread
              | ok names => exact .learnt htable hpath hcache hread

/-! ### The first success -/

variable {table : List (String × List String)} {past : List Visit} {catalog : ParameterCatalog}
  {v : Visit} {place : Path.Identity}

/-- The lookup is by file, as the table does not name the module, and it succeeds. -/
def Visit.succeedsAt (table : List (String × List String)) (place : Path.Identity) (v : Visit) :
    Bool :=
  (table.lookup v.info.name).isNone && v.info.path.map Path.identity == some place && v.answer.isOk

theorem Visit.succeedsAt_iff : v.succeedsAt table place = true ↔
    table.lookup v.info.name = none ∧
      (∃ path, v.info.path = some path ∧ Path.identity path = place) ∧
      ∃ names, v.answer = .ok names := by
  cases hanswer : v.answer <;>
    simp [succeedsAt, hanswer, Except.isOk, Except.toBool, Option.map_eq_some_iff]

/-- The first of some lookups that succeeds for a file. -/
def first? (table : List (String × List String)) (place : Path.Identity) (visits : List Visit) :
    Option Visit :=
  visits.find? (·.succeedsAt table place)

theorem first?_snoc (past : List Visit) (v : Visit) : first? table place (past ++ [v]) =
    (first? table place past).or (if v.succeedsAt table place then some v else none) := by
  rw [first?, first?, List.find?_append, List.find?_singleton]

/-- What a lookup answers after some others. -/
structure Visit.Answers (table : List (String × List String)) (earlier : List Visit) (v : Visit) :
    Prop where
  /-- The table answers for the modules that it names, and nothing is learnt. -/
  tabled : ∀ names, table.lookup v.info.name = some names →
    v.answer = .ok (some (sortNames names)) ∧ v.after = v.before
  /-- A module without a file is not known. -/
  nowhere : table.lookup v.info.name = none → v.info.path = none →
    v.answer = .ok none ∧ v.after = v.before
  /-- A file is answered for by what was read from it at the first success. -/
  known : ∀ path u, table.lookup v.info.name = none → v.info.path = some path →
    first? table (Path.identity path) earlier = some u →
      ∃ path' names, u.info.path = some path' ∧ Path.identity path' = Path.identity path ∧
        read u.disk path' = .ok names ∧ v.answer = .ok names ∧ v.after = v.before
  /-- Without a success so far the file is read. -/
  unread : ∀ path, table.lookup v.info.name = none → v.info.path = some path →
    first? table (Path.identity path) earlier = none → v.answer = read v.disk path
  /-- Nothing is learnt from a failure. -/
  failed : ∀ e, v.answer = .error e → v.after = v.before

namespace Visit.Answers

theorem of_table {names : List String} (htable : table.lookup v.info.name = some names)
    (hanswer : v.answer = .ok (some (sortNames names))) (hafter : v.after = v.before) :
    v.Answers table past where
  tabled names' h := by
    rw [htable] at h
    cases h
    exact ⟨hanswer, hafter⟩
  nowhere h := by rw [htable] at h; cases h
  known _ _ h := by rw [htable] at h; cases h
  unread _ h := by rw [htable] at h; cases h
  failed _ _ := hafter

theorem of_nowhere (htable : table.lookup v.info.name = none) (hpath : v.info.path = none)
    (hanswer : v.answer = .ok none) (hafter : v.after = v.before) : v.Answers table past where
  tabled _ h := by rw [htable] at h; cases h
  nowhere _ _ := ⟨hanswer, hafter⟩
  known _ _ _ h := by rw [hpath] at h; cases h
  unread _ _ h := by rw [hpath] at h; cases h
  failed _ _ := hafter

/-- A file for which there was a success. -/
theorem of_known {path path' : String} {names : Option (List String)} {u : Visit}
    (htable : table.lookup v.info.name = none) (hpath : v.info.path = some path)
    (hfirst : first? table (Path.identity path) past = some u) (hpath' : u.info.path = some path')
    (hsame : Path.identity path' = Path.identity path) (hread : read u.disk path' = .ok names)
    (hanswer : v.answer = .ok names) (hafter : v.after = v.before) : v.Answers table past where
  tabled _ h := by rw [htable] at h; cases h
  nowhere _ h := by rw [hpath] at h; cases h
  known _ _ _ h h' := by
    rw [hpath] at h
    cases h
    rw [hfirst] at h'
    cases h'
    exact ⟨path', names, hpath', hsame, hread, hanswer, hafter⟩
  unread _ _ h h' := by
    rw [hpath] at h
    cases h
    rw [hfirst] at h'
    cases h'
  failed _ _ := hafter

/-- A file for which there was none. -/
theorem of_unread {path : String} (htable : table.lookup v.info.name = none)
    (hpath : v.info.path = some path) (hfirst : first? table (Path.identity path) past = none)
    (hanswer : v.answer = read v.disk path)
    (hafter : ∀ e, v.answer = .error e → v.after = v.before) : v.Answers table past where
  tabled _ h := by rw [htable] at h; cases h
  nowhere _ h := by rw [hpath] at h; cases h
  known _ _ _ h h' := by
    rw [hpath] at h
    cases h
    rw [hfirst] at h'
    cases h'
  unread _ _ h _ := by
    rw [hpath] at h
    cases h
    exact hanswer
  failed := hafter

end Visit.Answers

/-- A catalog keeps of each file what was read at the first success, and nothing else. -/
structure Remembers (table : List (String × List String)) (past : List Visit)
    (catalog : ParameterCatalog) : Prop where
  table_eq : catalog.table = (ofTableAndFiles table).table
  files : catalog.readsFiles = true
  unread : ∀ place, first? table place past = none → catalog.cache.lookup place = none
  learnt : ∀ place u, first? table place past = some u →
    ∃ path names, u.info.path = some path ∧ Path.identity path = place ∧
      read u.disk path = .ok names ∧ catalog.cache.lookup place = some names

theorem remembers_start (table : List (String × List String)) :
    Remembers table [] (ofTableAndFiles table) where
  table_eq := rfl
  files := rfl
  unread _ _ := rfl
  learnt _ _ h := by cases h

theorem lookup_ofTableAndFiles (table : List (String × List String)) (name : String) :
    (ofTableAndFiles table).table.lookup name = (table.lookup name).map sortNames := by
  induction table with
  | nil => rfl
  | cons entry table ih =>
      obtain ⟨other, names⟩ := entry
      change List.lookup name ((other, sortNames names) :: (ofTableAndFiles table).table) = _
      rw [List.lookup_cons, List.lookup_cons, ih]
      cases name == other <;> rfl

namespace Remembers

theorem lookup_table (h : Remembers table past catalog) (name : String) :
    catalog.table.lookup name = (table.lookup name).map sortNames := by
  rw [h.table_eq, lookup_ofTableAndFiles]

theorem lookup_eq_none (h : Remembers table past catalog) {name : String}
    (hname : catalog.table.lookup name = none) : table.lookup name = none := by
  rw [h.lookup_table] at hname
  exact Option.map_eq_none_iff.mp hname

/-- A file of which something is kept was looked up with success. -/
theorem first?_eq_none_iff (h : Remembers table past catalog) :
    first? table place past = none ↔ catalog.cache.lookup place = none := by
  refine ⟨h.unread place, fun hcache => ?_⟩
  cases hfirst : first? table place past with
  | none => rfl
  | some u =>
      obtain ⟨path, names, -, -, -, hkept⟩ := h.learnt place u hfirst
      rw [hcache] at hkept
      cases hkept

/-! ### One lookup -/

theorem answers (h : Remembers table past catalog) (disk : Disk) (m : ModuleInfo) :
    (visit catalog disk m).Answers table past := by
  have hmade := visit_made h.files disk m
  generalize ParameterCatalog.visit catalog disk m = v at hmade
  cases hmade with
  | tabled htable =>
      rw [h.lookup_table] at htable
      obtain ⟨names, hnames, rfl⟩ := Option.map_eq_some_iff.mp htable
      exact .of_table hnames rfl rfl
  | nowhere htable hpath => exact .of_nowhere (h.lookup_eq_none htable) hpath rfl rfl
  | @kept path names htable hpath hcache =>
      cases hfirst : first? table (Path.identity path) past with
      | none =>
          rw [h.first?_eq_none_iff.mp hfirst] at hcache
          cases hcache
      | some u =>
          obtain ⟨path', found, hpath', hsame, hread, hkept⟩ := h.learnt _ u hfirst
          rw [hcache] at hkept
          cases hkept
          exact .of_known (h.lookup_eq_none htable) hpath hfirst hpath' hsame hread rfl rfl
  | failed htable hpath hcache hread =>
      exact .of_unread (h.lookup_eq_none htable) hpath (h.first?_eq_none_iff.mpr hcache) hread.symm
        fun _ _ => rfl
  | learnt htable hpath hcache hread =>
      refine .of_unread (h.lookup_eq_none htable) hpath (h.first?_eq_none_iff.mpr hcache) hread.symm
        fun _ he => ?_
      cases he

/-- A lookup is added to the past with the catalog as it was, unless it is the first success for a
file. -/
theorem snoc (h : Remembers table past catalog)
    (hold : ∀ place, v.succeedsAt table place = true → catalog.cache.lookup place ≠ none) :
    Remembers table (past ++ [v]) catalog := by
  have hfirst : ∀ place, first? table place (past ++ [v]) = first? table place past := by
    intro place
    rw [first?_snoc]
    split_ifs with hsucceeds
    · obtain ⟨u, hu⟩ : ∃ u, first? table place past = some u :=
        Option.ne_none_iff_exists'.mp fun hnone =>
          hold place hsucceeds (h.first?_eq_none_iff.mp hnone)
      rw [hu]
      rfl
    · exact Option.or_none
  refine ⟨h.table_eq, h.files, fun place => ?_, fun place => ?_⟩
  · rw [hfirst]
    exact h.unread place
  · rw [hfirst]
    exact h.learnt place

/-- The first success for a file is added to the past with what it read. -/
theorem learn (h : Remembers table past catalog) {path : String} {names : Option (List String)}
    (hpath : v.info.path = some path) (hcache : catalog.cache.lookup (Path.identity path) = none)
    (hread : read v.disk path = .ok names)
    (hsucceeds : ∀ place, v.succeedsAt table place = true ↔ place = Path.identity path) :
    Remembers table (past ++ [v])
      { catalog with cache := (Path.identity path, names) :: catalog.cache } := by
  have hother : ∀ place, place ≠ Path.identity path →
      List.lookup place ((Path.identity path, names) :: catalog.cache) =
          catalog.cache.lookup place ∧
        first? table place (past ++ [v]) = first? table place past := by
    intro place hne
    rw [List.lookup_cons, beq_false_of_ne hne, first?_snoc,
      if_neg fun hplace => hne ((hsucceeds place).mp hplace), Option.or_none]
    exact ⟨rfl, rfl⟩
  have hsame : first? table (Path.identity path) (past ++ [v]) = some v := by
    rw [first?_snoc, h.first?_eq_none_iff.mpr hcache, if_pos ((hsucceeds _).mpr rfl)]
    rfl
  refine ⟨h.table_eq, h.files, fun place hnone => ?_, fun place u hu => ?_⟩
  · by_cases hplace : place = Path.identity path
    · rw [hplace, hsame] at hnone
      cases hnone
    · rw [(hother place hplace).2] at hnone
      exact (hother place hplace).1.trans (h.unread place hnone)
  · by_cases hplace : place = Path.identity path
    · subst hplace
      rw [hsame] at hu
      cases hu
      exact ⟨path, names, hpath, rfl, hread, List.lookup_cons_self⟩
    · rw [(hother place hplace).2] at hu
      obtain ⟨path', found, hpath', hidentity, hfound, hkept⟩ := h.learnt place u hu
      exact ⟨path', found, hpath', hidentity, hfound, (hother place hplace).1.trans hkept⟩

theorem visit (h : Remembers table past catalog) (disk : Disk) (m : ModuleInfo) :
    Remembers table (past ++ [visit catalog disk m]) (visit catalog disk m).after := by
  have hmade := visit_made h.files disk m
  generalize ParameterCatalog.visit catalog disk m = v at hmade
  cases hmade with
  | tabled htable =>
      refine h.snoc fun place hsucceeds => ?_
      obtain ⟨hnone, -⟩ := Visit.succeedsAt_iff.mp hsucceeds
      rw [h.lookup_table, show table.lookup m.name = none from hnone] at htable
      cases htable
  | nowhere htable hpath =>
      refine h.snoc fun place hsucceeds => ?_
      obtain ⟨-, ⟨path, hsome, -⟩, -⟩ := Visit.succeedsAt_iff.mp hsucceeds
      cases hpath.symm.trans hsome
  | kept htable hpath hcache =>
      refine h.snoc fun place hsucceeds => ?_
      obtain ⟨-, ⟨path, hsome, rfl⟩, -⟩ := Visit.succeedsAt_iff.mp hsucceeds
      cases hpath.symm.trans hsome
      rw [hcache]
      exact Option.some_ne_none _
  | failed htable hpath hcache hread =>
      refine h.snoc fun place hsucceeds => ?_
      obtain ⟨-, -, names, hanswer⟩ := Visit.succeedsAt_iff.mp hsucceeds
      cases hanswer
  | @learnt path names htable hpath hcache hread =>
      -- The only lookup that changes the cache; it succeeds for its own file and for no other.
      refine h.learn hpath hcache hread fun place => Visit.succeedsAt_iff.trans ?_
      constructor
      · rintro ⟨-, ⟨path', hsome, rfl⟩, -⟩
        cases hpath.symm.trans hsome
        rfl
      · rintro rfl
        exact ⟨h.lookup_eq_none htable, ⟨path, hpath, rfl⟩, names, rfl⟩

/-! ### Whole runs -/

theorem visits (h : Remembers table past catalog) {disk : Disk} {happenings : List Happening}
    {earlier later : List Visit}
    (hvisits : visits catalog disk happenings = earlier ++ v :: later) :
    v.Answers table (past ++ earlier) := by
  -- The lookup in question is the first of those to come, or the first of them joins the past.
  induction happenings generalizing past catalog disk earlier with
  | nil => simp [ParameterCatalog.visits] at hvisits
  | cons happening rest ih =>
      cases happening with
      | write path entry => exact ih h hvisits
      | remove path => exact ih h hvisits
      | lookup m =>
          rw [ParameterCatalog.visits] at hvisits
          cases earlier with
          | nil =>
              obtain ⟨rfl, -⟩ := List.cons.inj hvisits
              rw [List.append_nil]
              exact h.answers disk m
          | cons first earlier =>
              obtain ⟨rfl, hrest⟩ := List.cons.inj hvisits
              rw [List.append_cons]
              exact ih (h.visit disk m) hrest

end Remembers

end ParameterCatalog

namespace Catalogs

theorem load_parameters {disk : Disk} {config : Config} {library : Option String}
    {catalogs : Catalogs} (h : load disk config library = .ok catalogs) :
    catalogs.parameters = .ofTableAndFiles config.parameters := by
  unfold load at h
  split at h
  · rename_i path _
    cases hread : DirectiveCatalog.ofFile disk path with
    | error e =>
        rw [hread] at h
        cases h
    | ok directives =>
        rw [hread] at h
        cases h
        rfl
  · cases h
    rfl

/-- The lookups of any run with one set of catalogs, whatever is written and removed meanwhile. A
module in the table is answered from it. The file of another module is answered for by what was read
when it was first looked up with success, also if it had no documentation then; until then each
lookup reads it anew, and a failure changes nothing. -/
theorem load_answers {start disk : Disk} {config : Config} {library : Option String}
    {catalogs : Catalogs} (hload : load start config library = .ok catalogs)
    {happenings : List ParameterCatalog.Happening} {earlier later : List ParameterCatalog.Visit}
    {v : ParameterCatalog.Visit}
    (hvisits : catalogs.parameters.visits disk happenings = earlier ++ v :: later) :
    v.Answers config.parameters earlier := by
  rw [load_parameters hload] at hvisits
  exact (ParameterCatalog.remembers_start config.parameters).visits hvisits

/-- A file that is not there at first, then is empty, and then has a documentation. It is answered
for as it was when it was empty. -/
theorem load_answers_empty_file :
    let ping : ModuleInfo := ⟨"ping", some "ping.py"⟩
    let documented := "DOCUMENTATION = 'options: \x7bdata: 1\x7d'".toUTF8
    let happenings : List ParameterCatalog.Happening :=
      [.lookup ping, .write "ping.py" (.file .empty), .lookup ping,
        .write "ping.py" (.file documented), .lookup ping]
    ∃ catalogs missing empty full, load .empty .default none = .ok catalogs ∧
      catalogs.parameters.visits .empty happenings = [missing, empty, full] ∧
      missing.answer.toOption = none ∧ empty.answer.toOption = some none ∧
      full.answer = .ok none ∧
      (ParameterCatalog.read full.disk "ping.py").toOption = some (some ["data"]) := by
  intro ping documented happenings
  let catalogs : Catalogs := ⟨.builtin, .scan .empty (Config.default.searchPaths none),
    .ofTableAndFiles Config.default.parameters⟩
  let missing := catalogs.parameters.visit .empty ping
  let empty := missing.after.visit (Disk.empty.write "ping.py" (.file .empty)) ping
  let full := empty.after.visit (empty.disk.write "ping.py" (.file documented)) ping
  have hload : load .empty .default none = .ok catalogs := rfl
  have hvisits : catalogs.parameters.visits .empty happenings =
      [missing, empty] ++ full :: [] := rfl
  have hfirst : ParameterCatalog.first? Config.default.parameters (Path.identity "ping.py")
      [missing, empty] = some empty := by
    rw [ParameterCatalog.first?, List.find?_cons_of_neg (by decide +kernel),
      List.find?_cons_of_pos (by decide +kernel)]
  obtain ⟨path, names, hpath, -, hread, hanswer, -⟩ :=
    (load_answers hload hvisits).known "ping.py" empty rfl rfl hfirst
  cases (hpath : some "ping.py" = some path)
  have hnone : (ParameterCatalog.read empty.disk "ping.py").toOption = some none := by
    decide +kernel
  rw [hread] at hnone
  cases hnone
  exact ⟨catalogs, missing, empty, full, hload, hvisits, by decide +kernel, by decide +kernel,
    hanswer, by decide +kernel⟩

end Catalogs

end Playbook
