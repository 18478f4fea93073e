import PackageAudit.Proofs.Analyzer.Runs
import PackageAudit.Proofs.Text.Search
/-!
Names that stand for their sub-packages.

A name is replaced by the first component that it lies within. Where components lie within one
another, the order of the list decides: a narrower one that comes first keeps its sub-packages, while
its own classes go to the wider one; after a wider one it gets nothing at all. By `settled_iff` this
is the only way for a sub-package of a component to remain, and `outside_components_iff` carries that
over to the graph.
-/

namespace PackageAudit

/-! ### Components and sub-packages -/

theorem isWithin_iff (component name : String) :
    isWithin component name = true ↔ ∃ rest, name = component ++ "." ++ rest := by
  rw [isWithin]
  constructor
  · intro within
    split at within
    next rest found =>
      rw [Text.after?_eq_some_iff] at found
      cases rest with
      | nil => cases within
      | cons c rest =>
        obtain rfl : c = '.' := by simpa using within
        refine ⟨String.ofList rest, String.toList_inj.mp ?_⟩
        simp [found]
    next => cases within
  · rintro ⟨rest, rfl⟩
    have found : Text.after? component.toList (component ++ "." ++ rest).toList =
        some ('.' :: rest.toList) := by
      rw [Text.after?_eq_some_iff]
      simp
    rw [found]
    rfl

theorem isWithin_trans {wider component name : String} (outer : isWithin wider component = true)
    (inner : isWithin component name = true) : isWithin wider name = true := by
  obtain ⟨rest, rfl⟩ := (isWithin_iff _ _).mp outer
  obtain ⟨further, rfl⟩ := (isWithin_iff _ _).mp inner
  exact (isWithin_iff _ _).mpr ⟨rest ++ "." ++ further, by simp only [String.append_assoc]⟩

theorem length_lt_of_isWithin {component name : String} (within : isWithin component name = true) :
    component.length < name.length := by
  obtain ⟨rest, rfl⟩ := (isWithin_iff _ _).mp within
  have dot : ".".length = 1 := rfl
  rw [String.length_append, String.length_append]
  omega

theorem not_isWithin_self (component : String) : ¬isWithin component component = true :=
  fun within => Nat.lt_irrefl _ (length_lt_of_isWithin within)

private theorem eq_or_isWithin {one other : String} {more rest further : List Char}
    (longer : other.toList = one.toList ++ more) (same : '.' :: rest = more ++ '.' :: further) :
    one = other ∨ isWithin one other = true := by
  cases more with
  | nil => exact .inl (String.toList_inj.mp (by rw [longer, List.append_nil]))
  | cons c more =>
    obtain ⟨rfl, -⟩ := List.cons.inj same
    refine .inr ((isWithin_iff _ _).mpr ⟨String.ofList more, String.toList_inj.mp ?_⟩)
    simp [longer]

/-- Of two components that a name lies within, one lies within the other. -/
theorem isWithin_nested {one other name : String} (here : isWithin one name = true)
    (there : isWithin other name = true) :
    one = other ∨ isWithin one other = true ∨ isWithin other one = true := by
  obtain ⟨rest, rfl⟩ := (isWithin_iff _ _).mp here
  obtain ⟨further, same⟩ := (isWithin_iff _ _).mp there
  have chars : one.toList ++ '.' :: rest.toList = other.toList ++ '.' :: further.toList := by
    simpa using congrArg String.toList same
  obtain ⟨more, longer, same⟩ | ⟨more, longer, same⟩ := List.append_eq_append_iff.mp chars
  · exact (eq_or_isWithin longer same).imp_right .inl
  · exact (eq_or_isWithin longer same).imp Eq.symm .inr

/-! ### The first component of several -/

theorem coalesce_cases (components : List String) (name : String) :
    (∃ before component after, components = before ++ component :: after ∧
      isWithin component name = true ∧ (∀ earlier ∈ before, ¬isWithin earlier name = true) ∧
      coalesce components name = component) ∨
    ((∀ component ∈ components, ¬isWithin component name = true) ∧
      coalesce components name = name) := by
  cases first : components.find? (isWithin · name) with
  | some component =>
    obtain ⟨within, before, after, split, outside⟩ := List.find?_eq_some_iff_append.mp first
    refine .inl ⟨before, component, after, split, within, fun earlier member => ?_, ?_⟩
    · simpa using outside earlier member
    · rw [coalesce, first, Option.getD_some]
  | none =>
    refine .inr ⟨List.find?_eq_none.mp first, ?_⟩
    rw [coalesce, first, Option.getD_none]

theorem coalesce_eq_self_iff (components : List String) (name : String) :
    coalesce components name = name ↔
      ∀ component ∈ components, ¬isWithin component name = true := by
  obtain ⟨before, component, after, rfl, within, -, same⟩ | ⟨outside, same⟩ :=
    coalesce_cases components name
  · rw [same]
    constructor
    · rintro rfl
      exact absurd within (not_isWithin_self component)
    · exact fun outside => absurd within (outside component List.mem_append_cons_self)
  · exact ⟨fun _ => outside, fun _ => same⟩

/-- A component may lie within one listed after it only if it also lies within one listed before. -/
def Settled (components : List String) : Prop :=
  ∀ before component after, components = before ++ component :: after →
    (∃ wider ∈ after, isWithin wider component = true) →
    ∃ earlier ∈ before, isWithin earlier component = true

/-- Listing wider components first is enough. -/
theorem Settled.of_pairwise {components : List String}
    (widerFirst : components.Pairwise fun earlier later => ¬isWithin later earlier = true) :
    Settled components := by
  rintro before component after rfl ⟨wider, member, within⟩
  have later := (List.pairwise_cons.mp (List.pairwise_append.mp widerFirst).2.1).1
  exact absurd within (later wider member)

theorem Settled.outside {components : List String} (settled : Settled components) (name : String) :
    ∀ component ∈ components, ¬isWithin component (coalesce components name) = true := by
  obtain ⟨before, chosen, after, split, within, first, same⟩ | ⟨outside, same⟩ :=
    coalesce_cases components name
  · -- Whatever the chosen component lies within has the name within it as well.
    have notBefore : ∀ earlier ∈ before, ¬isWithin earlier chosen = true :=
      fun earlier member inner => first earlier member (isWithin_trans inner within)
    intro wider member above
    rw [same] at above
    rw [split, List.mem_append, List.mem_cons] at member
    obtain member | rfl | member := member
    · exact notBefore wider member above
    · exact not_isWithin_self wider above
    · obtain ⟨earlier, member, inner⟩ := settled before chosen after split ⟨wider, member, above⟩
      exact notBefore earlier member inner
  · rwa [same]

/-- If nothing listed before a component has it within, its own sub-packages get no further. -/
theorem coalesce_dotted {before after : List String} {component : String}
    (first : ∀ earlier ∈ before, ¬isWithin earlier component = true) :
    coalesce (before ++ component :: after) (component ++ ".") = component := by
  have own : isWithin component (component ++ ".") = true :=
    (isWithin_iff _ _).mpr ⟨"", by rw [String.append_empty]⟩
  rw [coalesce, List.find?_append]
  cases found : before.find? (isWithin · (component ++ ".")) with
  | none =>
    rw [Option.none_or, List.find?_cons_of_pos (p := (isWithin · (component ++ "."))) own,
      Option.getD_some]
  | some earlier =>
    rw [Option.some_or, Option.getD_some]
    have member := List.mem_of_find?_eq_some found
    have within : isWithin earlier (component ++ ".") = true :=
      List.find?_some (p := (isWithin · (component ++ "."))) found
    -- The component may be listed twice, but nothing fits between it and the name.
    obtain same | outer | inner := isWithin_nested within own
    · exact same
    · exact absurd outer (first earlier member)
    · have longer := length_lt_of_isWithin inner
      have shorter := length_lt_of_isWithin within
      have dot : ".".length = 1 := rfl
      rw [String.length_append] at shorter
      omega

theorem settled_iff (components : List String) :
    Settled components ↔
      ∀ name, ∀ component ∈ components, ¬isWithin component (coalesce components name) = true := by
  refine ⟨Settled.outside, fun outside => ?_⟩
  rintro before component after rfl ⟨wider, member, within⟩
  by_contra none
  have first : ∀ earlier ∈ before, ¬isWithin earlier component = true :=
    fun earlier member inner => none ⟨earlier, member, inner⟩
  have above := outside (component ++ ".") wider
    (List.mem_append_right before (List.mem_cons_of_mem component member))
  rw [coalesce_dotted first] at above
  exact above within

/-- In a settled list the outermost components take all of their sub-packages. -/
theorem Settled.coalesce_eq {components : List String} (settled : Settled components)
    {component : String} (member : component ∈ components)
    (outermost : ∀ wider ∈ components, ¬isWithin wider component = true) {name : String}
    (within : isWithin component name = true) : coalesce components name = component := by
  have outside := settled.outside name component member
  obtain ⟨before, chosen, after, rfl, inner, -, same⟩ | ⟨none, -⟩ :=
    coalesce_cases components name
  · rw [same] at outside ⊢
    obtain same | above | below := isWithin_nested inner within
    · exact same
    · exact absurd above (outermost chosen List.mem_append_cons_self)
    · exact absurd below outside
  · exact absurd within (none component member)

namespace Analyzer

def soleClass (package : String) : ClassRecord := ⟨package, package, none, false, []⟩

theorem package?_run_soleClass (components : List String) (package : String) :
    ((run { components } [.foldRecord (soleClass package)]).graph.package?
      (coalesce components package)).isSome = true := by
  have accounts := accounts_run { components } [.foldRecord (soleClass package)]
  rw [accounts.records.wellFormed.package?_isSome_iff, accounts.names]
  exact .inr (.inr ⟨_, .head _, .inl rfl⟩)

/-- Exactly if the list of components is settled, no class ever brings a sub-package of a component
into the graph, and exactly then a name that was replaced is not replaced again. All sub-packages of
a component that lies within no other then end up in it. -/
theorem outside_components_iff (components : List String) :
    (Settled components ↔
      ∀ (config : Config) (calls : List AnalyzerCall),
        (∀ offered ∈ AnalyzerCall.offered (.ofConfig config) calls,
          offered.settings.components = components) →
        ∀ name, ((run config calls).graph.package? name).isSome = true →
          name ∉ config.volatility.map Prod.fst → name ∉ calls.flatMap AnalyzerCall.declared →
          ∀ component ∈ components, ∀ rest, name ≠ component ++ "." ++ rest) ∧
    (Settled components ↔
      ∀ name, coalesce components (coalesce components name) = coalesce components name) ∧
    (Settled components →
      ∀ component ∈ components,
        (∀ wider ∈ components, ∀ rest, component ≠ wider ++ "." ++ rest) →
        ∀ rest, coalesce components (component ++ "." ++ rest) = component) := by
  refine ⟨⟨?_, fun outside => ?_⟩, ?_, ?_⟩
  · intro settled config calls fixed name created notConfigured notDeclared component member rest
      same
    have accounts := accounts_run config calls
    rw [accounts.records.wellFormed.package?_isSome_iff, accounts.names] at created
    obtain ⟨offered, folded, reaches⟩ :=
      (created.resolve_left notConfigured).resolve_left notDeclared
    have inForce := fixed offered (List.mem_of_mem_filter folded)
    -- Owner and targets are both names that components have replaced.
    obtain ⟨original, rfl⟩ : ∃ original, name = coalesce components original := by
      obtain rfl | target := reaches
      · exact ⟨_, by rw [OfferedClass.owner, inForce]⟩
      · obtain ⟨original, -, -, rfl⟩ := (offered.mem_targets name).mp target
        exact ⟨original, by rw [inForce]⟩
    exact settled.outside original component member ((isWithin_iff _ _).mpr ⟨rest, same⟩)
  · rw [settled_iff]
    intro name component member within
    obtain ⟨rest, same⟩ := (isWithin_iff _ _).mp within
    refine outside { components } [.foldRecord (soleClass name)] ?_ _
      (package?_run_soleClass components name) List.not_mem_nil List.not_mem_nil component member
      rest same
    rintro offered (_ | ⟨_, ⟨⟩⟩)
    rfl
  · rw [settled_iff]
    exact forall_congr' fun name => (coalesce_eq_self_iff components _).symm
  · intro settled component member outermost rest
    refine settled.coalesce_eq member (fun wider listed within => ?_)
      ((isWithin_iff _ _).mpr ⟨rest, rfl⟩)
    obtain ⟨further, same⟩ := (isWithin_iff _ _).mp within
    exact outermost wider listed further same

theorem outside_components_iff_wider_first :
    Settled ["a", "a.b"] ∧
      coalesce ["a", "a.b"] (coalesce ["a", "a.b"] "a.b.c") = coalesce ["a", "a.b"] "a.b.c" ∧
      coalesce ["a", "a.b"] ("a" ++ "." ++ "b") = "a" := by
  have settled : Settled ["a", "a.b"] := .of_pairwise (by decide +kernel)
  obtain ⟨-, idempotent, outermost⟩ := outside_components_iff ["a", "a.b"]
  refine ⟨settled, idempotent.mp settled _, outermost settled "a" (.head _) ?_ "b"⟩
  intro wider member rest same
  have alone : ∀ wider ∈ ["a", "a.b"], ¬isWithin wider "a" = true := by decide +kernel
  exact alone wider member ((isWithin_iff wider "a").mpr ⟨rest, same⟩)

/-- The sub-packages of `a.b` stop there, but `a.b` itself goes to `a`. -/
theorem component_listed_before_wider :
    let config : Config := { components := ["a.b", "a"] }
    let calls := [AnalyzerCall.foldRecord ⟨"a.b.c.C", "a.b.c", none, false, ["a.b"]⟩]
    (∀ offered ∈ AnalyzerCall.offered (.ofConfig config) calls,
      offered.settings.components = config.components) ∧
    (run config calls).graph.packageNames = ["a.b", "a"] ∧
    ((run config calls).graph.package? "a.b").isSome = true ∧
    config.volatility = [] ∧ calls.flatMap AnalyzerCall.declared = [] ∧
    "a" ∈ config.components ∧ "a.b" = "a" ++ "." ++ "b" ∧
    coalesce config.components "a.b.c" = "a.b" ∧
    coalesce config.components (coalesce config.components "a.b.c") = "a" := by
  refine ⟨?_, by decide +kernel, by decide +kernel, rfl, rfl, by decide +kernel, by decide +kernel,
    by decide +kernel, by decide +kernel⟩
  rintro offered (_ | ⟨_, ⟨⟩⟩)
  rfl

end Analyzer

end PackageAudit
