import PackageAudit.Proofs.Graph.Requests
/-!
What a graph holds under a name.

Numbers depend on the order in which packages are declared, so what the operations leave behind is
followed by name. A name without a package counts as holding what a new package holds; then declaring
a package changes nothing but which names there are, and recording a dependency changes neither the
classes nor the volatility of any package.
-/

namespace PackageAudit.PackageGraph

variable {graph : PackageGraph} {index : Nat} {source owner name : String}

theorem WellFormed.package?_isSome_iff (wellFormed : graph.WellFormed) (name : String) :
    (graph.package? name).isSome = true ↔ name ∈ graph.packageNames := by
  rw [Option.isSome_iff_exists]
  constructor
  · rintro ⟨package, found⟩
    obtain ⟨index, known, -⟩ := Option.bind_eq_some_iff.mp found
    exact List.mem_of_getElem? ((wellFormed.indexOf?_iff name index).mp known)
  · intro member
    obtain ⟨index, named⟩ := List.mem_iff_getElem?.mp member
    have inRange := lt_size_of_getElem? named
    have known := (wellFormed.indexOf?_iff name index).mpr named
    exact ⟨graph.packages[index], Option.bind_eq_some_iff.mpr
      ⟨index, known, List.getElem?_eq_getElem inRange⟩⟩

/-! ### Fields that dependencies leave alone -/

section Held

variable {α : Type} (field : Package → α)

/-- What the package of a name holds in a field. -/
def held (graph : PackageGraph) (name : String) : α :=
  ((graph.package? name).map field).getD (field { name := name })

theorem held_of_package? {package : Package} (found : graph.package? name = some package) :
    graph.held field name = field package := by
  rw [held, found, Option.map_some, Option.getD_some]

/-- A field that is the same in all new packages and in which no dependency is written down. -/
structure Uncoupled : Prop where
  fresh : ∀ name other : String, field { name := name } = field { name := other }
  efferent : ∀ (package : Package) (target : Nat), field (package.addEfferent target) = field package
  afferent : ∀ (package : Package) (source : Nat), field (package.addAfferent source) = field package

theorem uncoupled_classes : Uncoupled (·.classes) :=
  ⟨fun _ _ => rfl, fun _ _ => rfl, fun _ _ => rfl⟩

theorem uncoupled_volatility : Uncoupled (·.volatility) :=
  ⟨fun _ _ => rfl, fun _ _ => rfl, fun _ _ => rfl⟩

variable {field}

theorem package?_modify (graph : PackageGraph) (index : Nat) (change : Package → Package)
    (name : String) : (graph.modify index change).package? name =
      (graph.package? name).map fun package =>
        if graph.indexOf? name = some index then change package else package := by
  simp only [package?, indexOf?_modify]
  cases graph.indexOf? name with
  | none => rfl
  | some found =>
    simp only [Option.bind_some, modify, List.getElem?_modify, Option.some.injEq,
      eq_comm (a := index)]
    rfl

theorem held_modify (graph : PackageGraph) (index : Nat) (change : Package → Package) (name : String)
    (keeps : ∀ package, field (change package) = field package) :
    (graph.modify index change).held field name = graph.held field name := by
  have same : (fun package => field (if graph.indexOf? name = some index then change package
      else package)) = field := by
    funext package
    split
    · exact keeps package
    · rfl
  rw [held, package?_modify, Option.map_map, held, Function.comp_def, same]

/-- Changing the package of a name changes what the name holds, and nothing else. -/
theorem WellFormed.held_modify_named (wellFormed : graph.WellFormed)
    (named : graph.packageNames[index]? = some owner) (change : Package → Package)
    (effect : α → α) (changes : ∀ package, field (change package) = effect (field package))
    (name : String) : (graph.modify index change).held field name =
      if name = owner then effect (graph.held field name) else graph.held field name := by
  have here : graph.indexOf? name = some index ↔ name = owner := by
    rw [wellFormed.indexOf?_iff, named, Option.some.injEq, eq_comm]
  -- Each name has a package of its own, so no other name sees the change.
  by_cases same : name = owner
  · subst same
    obtain ⟨package, found⟩ := Option.isSome_iff_exists.mp
      ((wellFormed.package?_isSome_iff name).mpr (List.mem_of_getElem? named))
    simp only [held, package?_modify, found, here.mpr rfl, if_true, Option.map_some,
      Option.getD_some]
    exact changes package
  · simp only [held, package?_modify, here, same, if_false, Option.map_id']

theorem Uncoupled.held_declare (uncoupled : Uncoupled field) (graph : PackageGraph)
    (declared name : String) : (graph.declare declared).1.held field name = graph.held field name := by
  cases found : graph.indexOf? declared with
  | some index => rw [declare_of_known found]
  | none =>
    have packages : (graph.declare declared).1.packages = graph.packages ++ [{ name := declared }] := by
      rw [declare_of_unknown found]
    simp only [held, package?, indexOf?_declare_of_unknown found, packages]
    -- The new package holds what its name held before there was one.
    by_cases same : name = declared
    · simp [same, found, size]
    · simp only [same, if_false]
      cases graph.indexOf? name with
      | none => rfl
      | some index =>
        exact read_concat_getElem? field (uncoupled.fresh declared name) graph.packages index

theorem Uncoupled.held_link (uncoupled : Uncoupled field) (graph : PackageGraph)
    (source target : Nat) (name : String) :
    (graph.link source target).1.held field name = graph.held field name := by
  rcases link_cases graph source target with ⟨-, after⟩ | ⟨-, after⟩ <;> rw [after]
  rw [held_modify _ _ (·.addAfferent source) _ fun package => uncoupled.afferent package source,
    held_modify _ _ (·.addEfferent target) _ fun package => uncoupled.efferent package target]

theorem Uncoupled.held_foldl_linkNamed (uncoupled : Uncoupled field) (index : Nat)
    (targets : List String) (graph : PackageGraph) (name : String) :
    (targets.foldl (·.linkNamed index ·) graph).held field name = graph.held field name := by
  induction targets generalizing graph with
  | nil => rfl
  | cons target rest ih =>
    rw [List.foldl_cons, ih, linkNamed, uncoupled.held_link, uncoupled.held_declare]

end Held

/-! ### What a folded class leaves behind -/

theorem WellFormed.mem_packageNames_declare (wellFormed : graph.WellFormed) (declared name : String) :
    name ∈ (graph.declare declared).1.packageNames ↔ name ∈ graph.packageNames ∨ name = declared := by
  rw [packageNames_declare, List.mem_append]
  cases found : graph.indexOf? declared with
  | some index =>
    have known := List.mem_of_getElem? ((wellFormed.indexOf?_iff declared index).mp found)
    simp only [Option.isSome_some, if_true, List.not_mem_nil, or_false]
    exact ⟨.inl, fun either => either.elim id fun same => same ▸ known⟩
  | none => simp

theorem WellFormed.linkNamed (wellFormed : graph.WellFormed)
    (named : graph.packageNames[index]? = some source) (target : String) :
    (graph.linkNamed index target).WellFormed :=
  (wellFormed.declare target).link
    (lt_size_of_getElem? ((declare_continues graph target).getElem? named))
    (lt_size_of_getElem? (wellFormed.declared target))

theorem WellFormed.mem_packageNames_foldl_linkNamed (wellFormed : graph.WellFormed)
    (named : graph.packageNames[index]? = some source) (targets : List String) (name : String) :
    name ∈ (targets.foldl (·.linkNamed index ·) graph).packageNames ↔
      name ∈ graph.packageNames ∨ name ∈ targets := by
  induction targets generalizing graph with
  | nil => simp
  | cons target rest ih =>
    rw [List.foldl_cons, ih (wellFormed.linkNamed named target)
      ((linkNamed_continues graph index target).getElem? named), PackageGraph.linkNamed,
      packageNames_link, wellFormed.mem_packageNames_declare, List.mem_cons, or_assoc]

theorem WellFormed.mem_packageNames_foldInto (wellFormed : graph.WellFormed) (owner : String)
    (record : ClassRecord) (targets : List String) (name : String) :
    name ∈ (graph.foldInto owner record targets).1.packageNames ↔
      name ∈ graph.packageNames ∨ name = owner ∨ name ∈ targets := by
  have added := (wellFormed.declare owner).addClass (graph.declare owner).2 record
  have names := packageNames_modify (graph.declare owner).1 (graph.declare owner).2
    (·.addClass record) (fun _ => rfl)
  have named := wellFormed.declared owner
  rw [← names] at named
  exact (added.mem_packageNames_foldl_linkNamed named targets name).trans
    (by rw [PackageGraph.addClass, names, wellFormed.mem_packageNames_declare, or_assoc])

theorem WellFormed.classes_foldInto (wellFormed : graph.WellFormed) (owner : String)
    (record : ClassRecord) (targets : List String) (name : String) :
    (graph.foldInto owner record targets).1.held (·.classes) name =
      graph.held (·.classes) name ++ if name = owner then [record] else [] := by
  rw [foldInto, uncoupled_classes.held_foldl_linkNamed, PackageGraph.addClass,
    (wellFormed.declare owner).held_modify_named (wellFormed.declared owner) (·.addClass record)
      (· ++ [record]) fun _ => rfl, uncoupled_classes.held_declare]
  split
  · rfl
  · rw [List.append_nil]

theorem volatility_foldInto (graph : PackageGraph) (owner : String) (record : ClassRecord)
    (targets : List String) (name : String) :
    (graph.foldInto owner record targets).1.held (·.volatility) name =
      graph.held (·.volatility) name := by
  rw [foldInto, uncoupled_volatility.held_foldl_linkNamed, PackageGraph.addClass,
    held_modify _ _ (·.addClass record) _ (fun _ => rfl), uncoupled_volatility.held_declare]

/-! ### Setting a volatility -/

theorem WellFormed.mem_packageNames_setVolatility (wellFormed : graph.WellFormed)
    (declared : String) (volatility : Nat) (name : String) :
    name ∈ (graph.setVolatility declared volatility).1.packageNames ↔
      name ∈ graph.packageNames ∨ name = declared := by
  rw [← wellFormed.mem_packageNames_declare]
  rw [PackageGraph.setVolatility, packageNames_modify _ _ (fun package => { package with volatility })
    (fun _ => rfl)]

theorem classes_setVolatility (graph : PackageGraph) (declared : String) (volatility : Nat)
    (name : String) : (graph.setVolatility declared volatility).1.held (·.classes) name =
      graph.held (·.classes) name := by
  rw [setVolatility, held_modify _ _ (fun package => { package with volatility }) _ (fun _ => rfl),
    uncoupled_classes.held_declare]

theorem WellFormed.volatility_setVolatility (wellFormed : graph.WellFormed) (declared : String)
    (volatility : Nat) (name : String) :
    (graph.setVolatility declared volatility).1.held (·.volatility) name =
      if name = declared then volatility else graph.held (·.volatility) name := by
  rw [PackageGraph.setVolatility,
    (wellFormed.declare declared).held_modify_named (wellFormed.declared declared)
      (fun package => { package with volatility }) (fun _ => volatility) fun _ => rfl,
    uncoupled_volatility.held_declare]

end PackageAudit.PackageGraph
