import PackageAudit.Proofs.Analyzer.Components
import PackageAudit.Proofs.Analyzer.Reports
import PackageAudit.Proofs.Filter.Decisions
/-!
Filtered packages stay out of the graph.

A name is filtered as it is found, but enters the graph under the component that stands for it, which no
rule is asked about. That is safe as long as the filter only excludes: whatever pattern covers a component
covers all that lies within it, so a name that no pattern covers lies within no component that one covers.
A filter that also includes can let the name pass and reject the component.
-/

namespace PackageAudit

/-- A pattern that covers a package covers its sub-packages. -/
theorem FilterRule.patternMatches_of_isWithin {pattern component name : String}
    (within : isWithin component name = true) (covered : patternMatches pattern component = true) :
    patternMatches pattern name = true := by
  obtain ⟨rest, rfl⟩ := (isWithin_iff _ _).mp within
  rw [patternMatches_iff] at covered ⊢
  cases covered with
  | beginning start more =>
    rw [String.append_assoc, String.append_assoc]
    exact .beginning start _
  | package plain => exact .subpackage plain rest
  | subpackage plain more =>
    rw [String.append_assoc, String.append_assoc]
    exact .subpackage plain _

namespace PackageFilter

variable {filter : PackageFilter} {components : List String} {name : String}

/-- No rule accepts anything, so a name is accepted only for want of a rule. -/
def OnlyExcludes (filter : PackageFilter) : Prop := ∀ rule ∈ filter.rules, rule.accepts = false

theorem OnlyExcludes.add (only : filter.OnlyExcludes) (pattern : String) :
    (filter.add false pattern).OnlyExcludes := by
  unfold PackageFilter.add
  dsimp only
  split
  · exact only
  · intro rule member
    rcases List.mem_append.mp member with old | new
    · exact only rule old
    · rw [List.mem_singleton.mp new]

theorem OnlyExcludes.excluding (only : filter.OnlyExcludes) (patterns : List String) :
    (filter.excluding patterns).OnlyExcludes := by
  induction patterns generalizing filter with
  | nil => exact only
  | cons pattern rest ih => exact ih (only.add pattern)

theorem OnlyExcludes.accept_iff (only : filter.OnlyExcludes) :
    filter.accept name = true ↔ ∀ rule ∈ filter.rules, ¬rule.covers name = true := by
  rw [accept]
  cases first : filter.rules.find? (·.covers name) with
  | some rule =>
    have member := List.mem_of_find?_eq_some first
    have covered : rule.covers name = true :=
      List.find?_some (p := fun rule : FilterRule => rule.covers name) first
    simp only [only rule member, Bool.false_eq_true, false_iff]
    exact fun none => none rule member covered
  | none => simpa using List.find?_eq_none.mp first

/-- What stands for an accepted name is accepted as well. -/
theorem OnlyExcludes.accept_coalesce (only : filter.OnlyExcludes)
    (accepted : filter.accept name = true) : filter.accept (coalesce components name) = true := by
  obtain ⟨_, component, _, -, within, -, same⟩ | ⟨-, same⟩ := coalesce_cases components name
  · rw [only.accept_iff] at accepted
    rw [same, only.accept_iff]
    intro rule member covered
    exact accepted rule member (FilterRule.patternMatches_of_isWithin within covered)
  · rwa [same]

end PackageFilter

theorem Config.onlyExcludes_filter (config : Config) : config.filter.OnlyExcludes := by
  have none : PackageFilter.all.OnlyExcludes := fun _ member => by cases member
  exact none.excluding config.ignore

theorem OfferedClass.accept_of_isFolded {offered : OfferedClass}
    (only : offered.settings.filter.OnlyExcludes) (isFolded : offered.isFolded = true) {name : String}
    (reached : name = offered.owner ∨ name ∈ offered.targets) :
    offered.settings.filter.accept name = true := by
  obtain rfl | target := reached
  · exact only.accept_coalesce (Bool.and_eq_true_iff.mp isFolded).2
  · obtain ⟨reference, -, accepted, rfl⟩ := (offered.mem_targets name).mp target
    exact only.accept_coalesce accepted

namespace Analyzer

/-- A filter stays in force until another one is set. -/
theorem filter_after {calls : List AnalyzerCall} (kept : ∀ filter, .setFilter filter ∉ calls)
    (settings : AnalysisSettings) :
    (calls.foldl AnalysisSettings.after settings).filter = settings.filter ∧
      ∀ offered ∈ AnalyzerCall.offered settings calls, offered.settings.filter = settings.filter := by
  induction calls generalizing settings with
  | nil => exact ⟨rfl, by simp [AnalyzerCall.offered]⟩
  | cons call rest ih =>
    have same : (settings.after call).filter = settings.filter := by
      cases call with
      | setFilter filter => exact absurd List.mem_cons_self (kept filter)
      | _ => rfl
    obtain ⟨later, offeredLater⟩ :=
      ih (fun filter member => kept filter (List.mem_cons_of_mem _ member)) (settings.after call)
    refine ⟨later.trans same, ?_⟩
    intro offered member
    rcases List.mem_append.mp member with now | afterwards
    · obtain ⟨record, -, rfl⟩ := List.mem_map.mp now
      rfl
    · exact (offeredLater offered afterwards).trans same

/-- As long as the filter of the configuration is in force, no call folds a class into a package that
the filter rejects, be it under its own name or under that of a component. So whatever a report gives by
name is accepted, unless the configuration names it or it was created up front. -/
theorem created_packages_accepted (config : Config) (calls : List AnalyzerCall)
    (kept : ∀ filter, .setFilter filter ∉ calls) :
    let analyzer := run config calls
    (∀ (call : AnalyzerCall) (name : String),
      name ∈ (call.apply analyzer).graph.packageNames → name ∉ analyzer.graph.packageNames →
        name ∉ call.declared → config.filter.accept name = true) ∧
    ∀ name ∈ analyzer.report.mentioned, config.filter.accept name = true ∨
      name ∈ config.volatility.map Prod.fst ∨ name ∈ calls.flatMap AnalyzerCall.declared := by
  intro analyzer
  have accounts := accounts_run config calls
  obtain ⟨inForce, wasInForce⟩ := filter_after kept (.ofConfig config)
  have accepts {offered : OfferedClass} (filtered : offered.settings.filter = config.filter)
      (isFolded : offered.isFolded = true) {name : String}
      (reached : name = offered.owner ∨ name ∈ offered.targets) :
      config.filter.accept name = true := by
    rw [← filtered]
    exact offered.accept_of_isFolded (filtered ▸ config.onlyExcludes_filter) isFolded reached
  constructor
  · intro call name created fresh notDeclared
    rw [accounts.names, not_or, not_or] at fresh
    rw [(accounts.apply call).names] at created
    -- What is new comes from the classes of this call.
    obtain configured | declared | ⟨offered, folded, reached⟩ := created
    · exact absurd configured fresh.1
    · rcases List.mem_append.mp declared with before | now
      · exact absurd before fresh.2.1
      · exact absurd now notDeclared
    · rcases List.mem_append.mp folded with before | now
      · exact absurd ⟨offered, before, reached⟩ fresh.2.2
      · obtain ⟨brought, isFolded⟩ := List.mem_filter.mp now
        obtain ⟨record, -, rfl⟩ := List.mem_map.mp brought
        exact accepts inForce isFolded reached
  · intro name mentioned
    have created := mem_packageNames_of_mentioned accounts.records.wellFormed mentioned
    rw [accounts.names] at created
    obtain configured | declared | ⟨offered, folded, reached⟩ := created
    · exact .inr (.inl configured)
    · exact .inr (.inr declared)
    · obtain ⟨member, isFolded⟩ := List.mem_filter.mp folded
      exact .inl (accepts (wasInForce offered member) isFolded reached)

/-- The name `app` comes from packages within it, one of which is ignored; `java.lang` is ignored too, and
stands in the graph only for its volatility. -/
theorem created_packages_accepted_component :
    let config : Config := { ignore := ["app.test", "java*"], volatility := [("java.lang", 0)] }
    let calls : List AnalyzerCall := [.setComponents "app, core", .addPackage "javax"]
    let call : AnalyzerCall :=
      .foldRecord ⟨"app.ui.One", "app.ui", none, false, ["app.test", "core.db", "java.io"]⟩
    (call.apply (run config calls)).graph.packageNames = ["java.lang", "javax", "app", "core"] ∧
      config.filter.accept "app" = true ∧ config.filter.accept "core" = true ∧
      config.filter.accept "java.lang" = false ∧ config.filter.accept "javax" = false ∧
      ∀ name ∈ (run config calls).report.mentioned, config.filter.accept name = true ∨
        name ∈ ["java.lang"] ∨ name ∈ ["javax"] := by
  intro config calls call
  have kept : ∀ filter, AnalyzerCall.setFilter filter ∉ calls := by
    intro filter member
    simp only [calls, List.mem_cons, List.not_mem_nil, reduceCtorEq, or_self] at member
  have names : (call.apply (run config calls)).graph.packageNames =
      ["java.lang", "javax", "app", "core"] := by decide +kernel
  have before : (run config calls).graph.packageNames = ["java.lang", "javax"] := by decide +kernel
  obtain ⟨created, mentioned⟩ := created_packages_accepted config calls kept
  refine ⟨names, ?_, ?_, by decide +kernel, by decide +kernel, mentioned⟩
  · exact created call "app" (by simp [names]) (by simp [before]) List.not_mem_nil
  · exact created call "core" (by simp [names]) (by simp [before]) List.not_mem_nil

end Analyzer

end PackageAudit
