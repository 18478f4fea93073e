import PackageAudit.Proofs.Shape.Declarations
import PackageAudit.Proofs.Shape.Differences
/-!
A comparison finds the exact difference.

A shape is built by declarations one after the other, or it is read from a text and then declared entry by
entry. Either way its packages stand in the order in which they were first named, each once, with the
dependencies that were declared of them. So a comparison, which goes through lists of names, compares sets:
what it lists of one side is that side in its own order without the other.
-/

namespace PackageAudit

namespace Declaration

/-- The packages of a declaration in the order in which a shape gets them. -/
def inOrder : Declaration → List String
  | .package name => [name]
  | .dependency source target => [target, source]

/-- What a package and its dependencies amount to when they are read from a text. -/
def ofEntry (entry : String × List String) : List Declaration :=
  .package entry.1 :: entry.2.map (.dependency entry.1)

end Declaration

/-- The packages that are declared, as they are first named. -/
def declaredNames (declarations : List Declaration) : List String :=
  (declarations.flatMap Declaration.inOrder).eraseDups

/-- What a package is declared to depend upon, itself left out. -/
def declaredEfferents (declarations : List Declaration) : String → List String :=
  requestedTargets false (declarations.flatMap Declaration.requests)

/-- What is found where some declarations are compared with a graph: a complete account of the packages and
of the dependencies that only one side has. -/
structure ShapeDifference.Exact (difference : ShapeDifference) (declarations : List Declaration)
    (graph : PackageGraph) : Prop where
  missing : difference.missingPackages =
    (declaredNames declarations).filter (· ∉ graph.packageNames)
  unexpected : difference.unexpectedPackages =
    graph.packageNames.filter (· ∉ declaredNames declarations)
  inOrder : (difference.efferentDifferences.map (·.package)).Sublist (declaredNames declarations)
  differing : ∀ name, name ∈ difference.efferentDifferences.map (·.package) ↔
    name ∈ declaredNames declarations ∧ name ∈ graph.packageNames ∧
      ∃ efferent, ¬(graph.DependsByName name efferent ↔
        efferent ∈ declaredEfferents declarations name)
  entries : ∀ entry ∈ difference.efferentDifferences,
    ∃ index, graph.indexOf? entry.package = some index ∧
      entry.unexpected = (graph.efferentNames index).filter
        (· ∉ declaredEfferents declarations entry.package) ∧
      entry.missing = (declaredEfferents declarations entry.package).filter
        (· ∉ graph.efferentNames index)
  distinct : difference.missingPackages.Nodup ∧ difference.unexpectedPackages.Nodup ∧
    (difference.efferentDifferences.map (·.package)).Nodup ∧
    ∀ entry ∈ difference.efferentDifferences, entry.unexpected.Nodup ∧ entry.missing.Nodup

theorem nodup_eraseDups (names : List String) : names.eraseDups.Nodup := by
  induction names using List.reverseRecOn with
  | nil => exact List.nodup_nil
  | append_singleton names last ih =>
    rw [eraseDups_concat]
    split
    next => exact ih
    next fresh => exact List.concat_eq_append ▸ ih.concat fresh

/-- Nothing is left to report where the packages are the same and agree on all dependencies. -/
theorem ShapeDifference.Exact.isEmpty_iff {difference : ShapeDifference}
    {declarations : List Declaration} {graph : PackageGraph}
    (exact : difference.Exact declarations graph) : difference.isEmpty = true ↔
      (∀ name, name ∈ declaredNames declarations ↔ name ∈ graph.packageNames) ∧
      ∀ name ∈ graph.packageNames, ∀ efferent, graph.DependsByName name efferent ↔
        efferent ∈ declaredEfferents declarations name := by
  have settled : difference.efferentDifferences = [] ↔ ∀ name,
      name ∉ difference.efferentDifferences.map (·.package) := by
    rw [← List.map_eq_nil_iff, List.eq_nil_iff_forall_not_mem]
  simp only [isEmpty, Bool.and_eq_true, List.isEmpty_iff, exact.missing, exact.unexpected,
    List.filter_eq_nil_iff, decide_eq_true_eq, not_not, settled, exact.differing]
  constructor
  · rintro ⟨⟨known, declared⟩, agreed⟩
    refine ⟨fun name => ⟨known name, declared name⟩, fun name present efferent => ?_⟩
    -- A dependency that one side lacks would give its package an entry.
    by_contra apart
    exact agreed name ⟨declared name present, present, efferent, apart⟩
  · rintro ⟨same, agreed⟩
    refine ⟨⟨fun name => (same name).mp, fun name => (same name).mpr⟩, ?_⟩
    rintro name ⟨-, present, efferent, apart⟩
    exact apart (agreed name present efferent)

namespace Shape

/-- How a shape comes about, and what has been declared of it. -/
inductive Built : List Declaration → Shape → Prop where
  | declared (declarations : List Declaration) : Built declarations (ofDeclarations declarations)
  /-- Read from a text that holds an object of packages with lists of dependencies. -/
  | read {text : String} {value : Json} {entries : List (String × List String)} {shape : Shape}
      (parsed : Json.read? text = some value) (typed : Json.map? Json.texts? value = some entries)
      (shaped : ofJsonText? text = some shape) : Built (entries.flatMap Declaration.ofEntry) shape

/-! ### What is declared -/

theorem declareAll_eq (shape : Shape) (entry : String × List String) :
    shape.declareAll entry = (Declaration.ofEntry entry).foldl Declaration.onShape shape := by
  rw [declareAll, Declaration.ofEntry, List.foldl_cons, List.foldl_map]
  rfl

theorem Built.eq_ofDeclarations {declarations : List Declaration} {shape : Shape}
    (built : Built declarations shape) : shape = ofDeclarations declarations := by
  cases built with
  | declared => rfl
  | read parsed typed shaped =>
    rw [ofJsonText?, parsed, Option.bind_some, ofJson?, typed, Option.map_some] at shaped
    rw [ofDeclarations, List.foldl_flatMap, ← Option.some.inj shaped]
    congr 1
    funext shape entry
    exact declareAll_eq shape entry

theorem names_declare_eq {shape : Shape} {known : List String} (held : shape.names = known.eraseDups)
    (name : String) : (shape.declare name).names = (known ++ [name]).eraseDups := by
  rw [names_declare, eraseDups_concat, held]
  split <;> simp

/-- The names of a shape stand in the order in which they were declared. -/
theorem names_ofDeclarations (declarations : List Declaration) :
    (ofDeclarations declarations).names = declaredNames declarations := by
  induction declarations using List.reverseRecOn with
  | nil => rfl
  | append_singleton declarations last ih =>
    rw [ofDeclarations_concat, declaredNames, List.flatMap_append, List.flatMap_singleton]
    cases last with
    | package name => exact names_declare_eq ih name
    | dependency source target =>
      rw [Declaration.onShape, names_dependsUpon, Declaration.inOrder, List.append_cons]
      exact names_declare_eq (names_declare_eq ih target) source

/-! ### What a comparison lists -/

section Compare

variable {shape : Shape} {graph : PackageGraph} {entry : EfferentDifference}

/-- How the package of an entry in a shape differs from it, if the graph has the package at all. -/
private def differenceOf? (graph : PackageGraph) (declared : String × List String) :
    Option EfferentDifference :=
  (graph.indexOf? declared.1).bind fun index =>
    efferentDifference? graph index declared.1 declared.2

private theorem efferentDifferences_compare (shape : Shape) (graph : PackageGraph) :
    (shape.compare graph).efferentDifferences = shape.packages.filterMap (differenceOf? graph) := rfl

theorem eq_of_efferentDifference? {index : Nat} {name : String} {expected : List String}
    (found : efferentDifference? graph index name expected = some entry) :
    entry.package = name ∧ entry.unexpected = (graph.efferentNames index).filter (· ∉ expected) ∧
      entry.missing = expected.filter (· ∉ graph.efferentNames index) := by
  simp only [efferentDifference?] at found
  split at found
  · cases found
  · cases found
    exact ⟨rfl, rfl, rfl⟩

/-- An entry bears the name of what it is about. -/
private theorem package_of_differenceOf? {declared : String × List String}
    (found : differenceOf? graph declared = some entry) : entry.package = declared.1 := by
  obtain ⟨index, -, listed⟩ := Option.bind_eq_some_iff.mp found
  exact (eq_of_efferentDifference? listed).1

/-- The entries are about those of the declared packages that differ, in the same order. -/
private theorem packages_compare (shape : Shape) (graph : PackageGraph) :
    (shape.compare graph).efferentDifferences.map (·.package) =
      (shape.packages.filter fun declared => (differenceOf? graph declared).isSome).map (·.1) := by
  -- An entry is left out exactly where there is no difference, and else it bears the declared name.
  rw [efferentDifferences_compare]
  induction shape.packages with
  | nil => rfl
  | cons declared rest ih =>
    rw [List.filterMap_cons, List.filter_cons]
    cases found : differenceOf? graph declared with
    | none => simpa using ih
    | some entry => simp [package_of_differenceOf? found, ih]

theorem mem_efferentNames_iff (wellFormed : graph.WellFormed) {name : String} {index : Nat}
    (found : graph.indexOf? name = some index) (efferent : String) :
    efferent ∈ graph.efferentNames index ↔ graph.DependsByName name efferent := by
  have named := (wellFormed.indexOf?_iff name index).mp found
  rw [wellFormed.mem_efferentNames_iff (PackageGraph.lt_size_of_getElem? named),
    PackageGraph.nameOf_of_getElem? named]

/-- A package has an entry if both sides have it and the two do not agree on all of its dependencies. -/
private theorem differenceOf?_isSome_iff (wellFormed : graph.WellFormed)
    (declared : String × List String) :
    (differenceOf? graph declared).isSome = true ↔ declared.1 ∈ graph.packageNames ∧
      ∃ efferent, ¬(graph.DependsByName declared.1 efferent ↔ efferent ∈ declared.2) := by
  rw [differenceOf?]
  cases found : graph.indexOf? declared.1 with
  | none =>
    have absent := (wellFormed.indexOf?_eq_none_iff declared.1).mp found
    simp [absent]
  | some index =>
    have present : declared.1 ∈ graph.packageNames :=
      List.mem_of_getElem? ((wellFormed.indexOf?_iff declared.1 index).mp found)
    rw [Option.bind_some, ← not_iff_not, Bool.not_eq_true, Option.isSome_eq_false_iff,
      Option.isNone_iff_eq_none, efferentDifference?_eq_none_iff]
    simp [present, mem_efferentNames_iff wellFormed found]

end Compare

/-! ### The comparison of declarations with a graph -/

section Exact

variable {graph : PackageGraph} (declarations : List Declaration)

theorem missingPackages_compare (wellFormed : graph.WellFormed) :
    ((ofDeclarations declarations).compare graph).missingPackages =
      (declaredNames declarations).filter (· ∉ graph.packageNames) := by
  rw [← names_ofDeclarations]
  apply List.filter_congr
  intro name _
  rw [Bool.eq_iff_iff, Option.isNone_iff_eq_none, wellFormed.indexOf?_eq_none_iff, decide_eq_true_eq]

theorem unexpectedPackages_compare (graph : PackageGraph) :
    ((ofDeclarations declarations).compare graph).unexpectedPackages =
      graph.packageNames.filter (· ∉ declaredNames declarations) := by
  rw [← names_ofDeclarations]
  apply List.filter_congr
  intro name _
  rw [Bool.eq_iff_iff, decide_eq_true_eq, ← efferentsOf?_isSome_iff, Bool.not_eq_true,
    Option.isSome_eq_false_iff]

theorem packages_compare_sublist (graph : PackageGraph) :
    (((ofDeclarations declarations).compare graph).efferentDifferences.map (·.package)).Sublist
      (declaredNames declarations) := by
  rw [packages_compare, ← names_ofDeclarations]
  exact List.filter_sublist.map _

theorem mem_packages_compare_iff (wellFormed : graph.WellFormed) (name : String) :
    name ∈ ((ofDeclarations declarations).compare graph).efferentDifferences.map (·.package) ↔
      name ∈ declaredNames declarations ∧ name ∈ graph.packageNames ∧
        ∃ efferent, ¬(graph.DependsByName name efferent ↔
          efferent ∈ declaredEfferents declarations name) := by
  have records := (ofDeclarations_records declarations).1
  rw [packages_compare, ← names_ofDeclarations, List.mem_map]
  constructor
  · rintro ⟨declared, member, rfl⟩
    obtain ⟨present, differs⟩ := List.mem_filter.mp member
    obtain ⟨inGraph, efferent, apart⟩ := (differenceOf?_isSome_iff wellFormed declared).mp differs
    rw [records.efferents declared present] at apart
    exact ⟨List.mem_map_of_mem present, inGraph, efferent, apart⟩
  · rintro ⟨known, inGraph, efferent, apart⟩
    obtain ⟨declared, present, rfl⟩ := List.mem_map.mp known
    refine ⟨declared, List.mem_filter.mpr ⟨present, ?_⟩, rfl⟩
    refine (differenceOf?_isSome_iff wellFormed declared).mpr ⟨inGraph, efferent, ?_⟩
    rwa [records.efferents declared present]

theorem entry_compare {entry : EfferentDifference}
    (member : entry ∈ ((ofDeclarations declarations).compare graph).efferentDifferences) :
    ∃ index, graph.indexOf? entry.package = some index ∧
      entry.unexpected = (graph.efferentNames index).filter
        (· ∉ declaredEfferents declarations entry.package) ∧
      entry.missing = (declaredEfferents declarations entry.package).filter
        (· ∉ graph.efferentNames index) := by
  obtain ⟨declared, present, found⟩ := List.mem_filterMap.mp member
  obtain ⟨index, indexed, listed⟩ := Option.bind_eq_some_iff.mp found
  obtain ⟨same, unexpected, missing⟩ := eq_of_efferentDifference? listed
  rw [(ofDeclarations_records declarations).1.efferents declared present] at unexpected missing
  rw [same]
  exact ⟨index, indexed, unexpected, missing⟩

theorem compare_ofDeclarations_exact (wellFormed : graph.WellFormed) :
    ((ofDeclarations declarations).compare graph).Exact declarations graph where
  missing := missingPackages_compare declarations wellFormed
  unexpected := unexpectedPackages_compare declarations graph
  inOrder := packages_compare_sublist declarations graph
  differing := mem_packages_compare_iff declarations wellFormed
  entries _ := entry_compare declarations
  distinct := by
    have distinct : (declaredNames declarations).Nodup := nodup_eraseDups _
    rw [missingPackages_compare declarations wellFormed, unexpectedPackages_compare]
    refine ⟨distinct.filter _, wellFormed.names_nodup.filter _,
      distinct.sublist (packages_compare_sublist declarations graph), fun entry member => ?_⟩
    -- Filtering keeps apart what a graph and its declarations each hold once.
    obtain ⟨index, -, unexpected, missing⟩ := entry_compare declarations member
    rw [unexpected, missing]
    exact ⟨(wellFormed.nodup_names (wellFormed.efferents_lt index)
      (wellFormed.efferents_nodup index)).filter _, (nodup_eraseDups _).filter _⟩

end Exact

/-- Built in any way and compared with any graph that operations lead to, a shape yields the exact difference
of what is declared and what the graph holds. It fits if the two have the same packages with the same
dependencies. -/
theorem compare_exact {declarations : List Declaration} {shape : Shape}
    (built : Built declarations shape) {allowSelf : Bool} {operations : List GraphOperation}
    {graph : PackageGraph} {requests : List (String × String)}
    (run : GraphOperation.Run allowSelf operations graph requests) :
    (shape.compare graph).Exact declarations graph ∧
    (shape.fits graph = true ↔
      (∀ name, name ∈ declaredNames declarations ↔ name ∈ graph.packageNames) ∧
      ∀ name ∈ graph.packageNames, ∀ efferent, graph.DependsByName name efferent ↔
        efferent ∈ declaredEfferents declarations name) := by
  have exact := compare_ofDeclarations_exact declarations run.records.1.wellFormed
  rw [← built.eq_ofDeclarations] at exact
  exact ⟨exact, exact.isEmpty_iff⟩

/-- Read from a text, with a package that the graph lacks, one that the text leaves out, and one that
depends upon something else in either. -/
theorem compare_exact_read :
    ∃ shape graph requests,
      Built [.package "jms", .package "web", .dependency "web" "ejb"] shape ∧
      GraphOperation.Run false [.dependsUpon "web" "util", .declare "ejb"] graph requests ∧
      shape.compare graph = ⟨["jms"], ["util"], [⟨"web", ["util"], ["ejb"]⟩]⟩ ∧
      (shape.compare graph).Exact [.package "jms", .package "web", .dependency "web" "ejb"] graph := by
  have built := @Built.read "\x7b\"web\": [\"ejb\"], \"jms\": []\x7d" _ [("jms", []), ("web", ["ejb"])] _
    rfl rfl rfl
  have run := GraphOperation.Run.step (.declare "ejb") (.step (.dependsUpon "web" "util")
    (@GraphOperation.Run.empty false) trivial) trivial
  exact ⟨_, _, _, built, run, by decide, (compare_exact built run).1⟩

end Shape

end PackageAudit
