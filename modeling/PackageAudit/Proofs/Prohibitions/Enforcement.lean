import Mathlib.Data.List.Infix
import PackageAudit.Prohibitions
import PackageAudit.Proofs.Text.Search
/-!
Which prohibitions a check enforces.

Registering keeps every prohibition but those of a package against itself, so nothing is lost in the
rules. What is checked is less: a package is held against one rule alone, the first whose owner
contains its name. A rule therefore binds its own owner as long as no owner registered before it
contains that owner's name; otherwise the earlier rule stands in its place, whatever it forbids.
-/

namespace PackageAudit

theorem PackageRule.package_forbid (rule : PackageRule) (pattern : String) :
    (rule.forbid pattern).package = rule.package := by
  unfold PackageRule.forbid
  split <;> rfl

theorem PackageRule.mem_forbidden_forbid (rule : PackageRule) (pattern other : String) :
    other ∈ (rule.forbid pattern).forbidden ↔
      other ∈ rule.forbidden ∨ other = pattern ∧ pattern ≠ rule.package := by
  unfold PackageRule.forbid
  split
  next known =>
    -- What is left out is the owner's own name or stands in the rule already.
    refine ⟨.inl, ?_⟩
    rintro (held | ⟨rfl, foreign⟩)
    · exact held
    · exact known.resolve_left foreign
  next fresh =>
    obtain ⟨foreign, _⟩ := not_or.mp fresh
    simp [foreign]

namespace Prohibitions

/-! ### Registering -/

/-- Registers an owner, or a pattern that an owner must not depend upon. -/
inductive Registration where
  | owner (package : String)
  | prohibition (package pattern : String)
  deriving DecidableEq

def Registration.apply (prohibitions : Prohibitions) : Registration → Prohibitions
  | .owner package => prohibitions.declare package
  | .prohibition package pattern => prohibitions.forbid package pattern

/-- The rules after some registrations. -/
def ofRegistrations (registrations : List Registration) : Prohibitions :=
  registrations.foldl Registration.apply empty

/-- Some rule of the owner holds the pattern. -/
def Forbids (prohibitions : Prohibitions) (package pattern : String) : Prop :=
  ∃ rule ∈ prohibitions.rules, rule.package = package ∧ pattern ∈ rule.forbidden

section Steps

variable (prohibitions : Prohibitions) (owner : String)

theorem mem_rules_declare (rule : PackageRule) :
    rule ∈ (prohibitions.declare owner).rules ↔ rule ∈ prohibitions.rules ∨
      (∀ other ∈ prohibitions.rules, other.package ≠ owner) ∧ rule = { package := owner } := by
  unfold declare
  split
  next known =>
    obtain ⟨other, member, same⟩ := List.any_eq_true.mp known
    refine ⟨.inl, ?_⟩
    rintro (held | ⟨unknown, _⟩)
    · exact held
    · exact absurd (beq_iff_eq.mp same) (unknown other member)
  next unknown =>
    have fresh : ∀ other ∈ prohibitions.rules, other.package ≠ owner := by
      simpa using unknown
    simp only [List.mem_append, List.mem_singleton]
    exact or_congr_right (and_iff_right fresh).symm

theorem exists_mem_rules_declare :
    ∃ rule ∈ (prohibitions.declare owner).rules, rule.package = owner := by
  by_cases known : ∃ rule ∈ prohibitions.rules, rule.package = owner
  · obtain ⟨rule, member, same⟩ := known
    exact ⟨rule, (prohibitions.mem_rules_declare owner rule).mpr (.inl member), same⟩
  · have fresh : ∀ other ∈ prohibitions.rules, other.package ≠ owner := by
      simpa using known
    have declared := (prohibitions.mem_rules_declare owner _).mpr (.inr ⟨fresh, rfl⟩)
    exact ⟨_, declared, rfl⟩

theorem forbids_declare (package pattern : String) :
    (prohibitions.declare owner).Forbids package pattern ↔
      prohibitions.Forbids package pattern := by
  constructor
  · rintro ⟨rule, member, same, held⟩
    rcases (prohibitions.mem_rules_declare owner rule).mp member with earlier | ⟨_, rfl⟩
    · exact ⟨rule, earlier, same, held⟩
    · cases held
  · rintro ⟨rule, member, same, held⟩
    exact ⟨rule, (prohibitions.mem_rules_declare owner rule).mpr (.inl member), same, held⟩

/-- A prohibition enters under its owner, unless it is against the owner itself. -/
theorem forbids_forbid (new package pattern : String) :
    (prohibitions.forbid owner new).Forbids package pattern ↔
      prohibitions.Forbids package pattern ∨
        (package = owner ∧ pattern = new) ∧ pattern ≠ package := by
  rw [← prohibitions.forbids_declare owner]
  constructor
  · rintro ⟨_, member, same, held⟩
    obtain ⟨rule, declared, rfl⟩ := List.mem_map.mp member
    split at same
    next own =>
      rw [PackageRule.package_forbid] at same
      rw [if_pos own, PackageRule.mem_forbidden_forbid] at held
      rcases held with earlier | ⟨rfl, foreign⟩
      · exact .inl ⟨rule, declared, same, earlier⟩
      · exact .inr ⟨⟨same ▸ own, rfl⟩, same ▸ foreign⟩
    next other =>
      rw [if_neg other] at held
      exact .inl ⟨rule, declared, same, held⟩
  · rintro (⟨rule, declared, same, held⟩ | ⟨⟨rfl, rfl⟩, foreign⟩)
    · refine ⟨_, List.mem_map_of_mem declared, ?_⟩
      split
      next own =>
        exact ⟨(rule.package_forbid new).trans same,
          (rule.mem_forbidden_forbid new pattern).mpr (.inl held)⟩
      next other => exact ⟨same, held⟩
    · obtain ⟨rule, declared, rfl⟩ := prohibitions.exists_mem_rules_declare package
      refine ⟨_, List.mem_map_of_mem declared, ?_⟩
      rw [if_pos rfl]
      exact ⟨rule.package_forbid pattern, (rule.mem_forbidden_forbid pattern pattern).mpr
        (.inr ⟨rfl, foreign⟩)⟩

end Steps

/-- By induction on the registrations, the last of which is looked at first. -/
theorem forbids_ofRegistrations (registrations : List Registration) (package pattern : String) :
    (ofRegistrations registrations).Forbids package pattern ↔
      .prohibition package pattern ∈ registrations ∧ pattern ≠ package := by
  induction registrations using List.reverseRecOn with
  | nil => simp [ofRegistrations, Forbids, empty]
  | append_singleton registrations last ih =>
    have step : ofRegistrations (registrations ++ [last]) =
        last.apply (ofRegistrations registrations) := by
      rw [ofRegistrations, List.foldl_append]
      rfl
    rw [step, List.mem_append, List.mem_singleton, or_and_right, ← ih]
    cases last with
    | owner owner =>
      rw [Registration.apply, forbids_declare]
      simp
    | prohibition owner new =>
      rw [Registration.apply, forbids_forbid, Registration.prohibition.injEq]

/-! ### Checking -/

theorem ruleFor?_eq_some_iff (prohibitions : Prohibitions) (name : String) (rule : PackageRule) :
    prohibitions.ruleFor? name = some rule ↔ name.toList <:+: rule.package.toList ∧
      ∃ before after, prohibitions.rules = before ++ rule :: after ∧
        ∀ earlier ∈ before, ¬ name.toList <:+: earlier.package.toList := by
  simp only [ruleFor?, List.find?_eq_some_iff_append, Text.contains_iff, Bool.not_eq_true',
    Bool.eq_false_iff, ne_eq]

theorem firstForbidden?_eq_none_iff (owner : String) (efferents patterns : List String) :
    firstForbidden? owner efferents patterns = none ↔
      ∀ pattern ∈ patterns, ∀ efferent ∈ efferents, patternMatches pattern efferent = false := by
  simp [firstForbidden?]

/-- A check passes if no package depends upon anything that the rule found for it forbids. -/
theorem firstOffence?_eq_none_iff (prohibitions : Prohibitions) (graph : PackageGraph) :
    prohibitions.firstOffence? graph = none ↔ ∀ index ∈ graph.indices, ∀ rule,
      prohibitions.ruleFor? (graph.nameOf index) = some rule → ∀ pattern ∈ rule.forbidden,
        ∀ efferent ∈ graph.efferentNames index, patternMatches pattern efferent = false := by
  simp only [firstOffence?, offence?, List.findSome?_eq_none_iff, Option.bind_eq_none_iff,
    firstForbidden?_eq_none_iff]

/-- Some package depends upon what the rule that is applied to it forbids. -/
def Violated (prohibitions : Prohibitions) (graph : PackageGraph) : Prop :=
  ∃ index ∈ graph.indices, ∃ rule, prohibitions.ruleFor? (graph.nameOf index) = some rule ∧
    ∃ pattern ∈ rule.forbidden, ∃ efferent ∈ graph.efferentNames index,
      patternMatches pattern efferent = true

theorem firstOffence?_eq_none_iff_not_violated (prohibitions : Prohibitions) (graph : PackageGraph) :
    prohibitions.firstOffence? graph = none ↔ ¬prohibitions.Violated graph := by
  rw [firstOffence?_eq_none_iff]
  simp [Violated]

/-- The rules hold all that was registered, but for prohibitions of a package against itself. When a
check passes, no package violates its own rule, as long as its name occurs in no owner registered
before. -/
theorem passed_check_enforces (registrations : List Registration) (graph : PackageGraph) :
    let prohibitions := ofRegistrations registrations
    (∀ package pattern,
      (∃ rule ∈ prohibitions.rules, rule.package = package ∧ pattern ∈ rule.forbidden) ↔
        .prohibition package pattern ∈ registrations ∧ pattern ≠ package) ∧
    (prohibitions.firstOffence? graph = none → ∀ before rule after,
      prohibitions.rules = before ++ rule :: after →
      (∀ earlier ∈ before, ¬ rule.package.toList <:+: earlier.package.toList) →
      ∀ index ∈ graph.indices, graph.nameOf index = rule.package →
        ∀ pattern ∈ rule.forbidden, ∀ efferent ∈ graph.efferentNames index,
          patternMatches pattern efferent = false) := by
  intro prohibitions
  refine ⟨forbids_ofRegistrations registrations, ?_⟩
  intro passed before rule after registered unshadowed index member named
  -- The name of the owner occurs in itself, so this rule is the first that is found for it.
  refine (prohibitions.firstOffence?_eq_none_iff graph).mp passed index member rule ?_
  rw [named, ruleFor?_eq_some_iff]
  exact ⟨List.infix_rfl, before, after, registered, unshadowed⟩

/-- A rule whose owner occurs in one registered later, and a package that keeps to it. -/
theorem passed_check_enforces_first_rule :
    let registrations : List Registration :=
      [.prohibition "app" "java.sql*", .owner "app.ui", .prohibition "app" "app"]
    let graph := ((PackageGraph.empty false).dependsUpon "app" "java.util").1
    (ofRegistrations registrations).firstOffence? graph = none ∧
      (ofRegistrations registrations).rules = [] ++ ⟨"app", ["java.sql*"]⟩ :: [⟨"app.ui", []⟩] ∧
      0 ∈ graph.indices ∧ graph.nameOf 0 = "app" ∧ graph.efferentNames 0 = ["java.util"] ∧
      patternMatches "java.sql*" "java.util" = false := by
  intro registrations graph
  have passed : (ofRegistrations registrations).firstOffence? graph = none := by decide +kernel
  have registered : (ofRegistrations registrations).rules =
      [] ++ ⟨"app", ["java.sql*"]⟩ :: [⟨"app.ui", []⟩] := by decide +kernel
  have member : 0 ∈ graph.indices := by decide +kernel
  have named : graph.nameOf 0 = "app" := by decide +kernel
  have efferents : graph.efferentNames 0 = ["java.util"] := by decide +kernel
  refine ⟨passed, registered, member, named, efferents, ?_⟩
  exact (passed_check_enforces registrations graph).2 passed [] _ _ registered nofun 0 member named
    "java.sql*" (.head _) "java.util" (efferents ▸ .head _)

/-- An owner that is registered first and contains the name of another takes the place of its rule:
the check passes although the package depends upon what its own rule forbids. -/
theorem passed_check_with_shadowed_rule :
    let registrations : List Registration := [.owner "app.ui", .prohibition "app" "java.sql"]
    let graph := ((PackageGraph.empty false).dependsUpon "app" "java.sql").1
    (ofRegistrations registrations).firstOffence? graph = none ∧
      ¬ ∀ rule ∈ (ofRegistrations registrations).rules, ∀ index ∈ graph.indices,
        graph.nameOf index = rule.package → ∀ pattern ∈ rule.forbidden,
          ∀ efferent ∈ graph.efferentNames index, patternMatches pattern efferent = false := by
  intro registrations graph
  refine ⟨by decide +kernel, fun enforced => ?_⟩
  have kept := enforced ⟨"app", ["java.sql"]⟩ (by decide +kernel) 0 (by decide +kernel)
    (by decide +kernel) "java.sql" (.head _) "java.sql" (by decide +kernel)
  exact absurd kept (by decide +kernel)

end Prohibitions

end PackageAudit
