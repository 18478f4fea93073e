import PackageAudit.Graph.Basic
import PackageAudit.Json.Decode
import PackageAudit.Json.Reader
/-!
Forbidden dependencies.

A rule names an owner and the patterns of packages that it must not depend upon; a pattern with a
final star stands for every name with that beginning. The rule for a package is the first whose
owner contains the package's name. A check reports one offence: the first package that offends, with
the first of its rule's patterns that is met and the first dependency that meets it.
-/

namespace PackageAudit

structure ForbiddenDependency where
  efferent : String
  package : String
  deriving DecidableEq, Repr

def ForbiddenDependency.message (offence : ForbiddenDependency) : String :=
  s!"Package {offence.package} can't depend on {offence.efferent}"

structure PackageRule where
  package : String
  forbidden : List String := []
  deriving DecidableEq, Repr

namespace PackageRule

/-- Adds a pattern, unless it is there already or names the owner itself. -/
def forbid (rule : PackageRule) (pattern : String) : PackageRule :=
  if pattern = rule.package ∨ pattern ∈ rule.forbidden then rule
  else { rule with forbidden := rule.forbidden ++ [pattern] }

def ofJson? (value : Json) : Option PackageRule := do
  let fields ← value.fields? ["package", "forbidden"]
  return {
    package := ← fields.required 0 Json.text?
    forbidden := ← fields.orDefault 1 [] Json.texts? }

def toJson (rule : PackageRule) : Json :=
  .record [("package", .text rule.package), ("forbidden", .texts rule.forbidden)]

end PackageRule

structure Prohibitions where
  rules : List PackageRule := []
  deriving DecidableEq, Repr

namespace Prohibitions

def empty : Prohibitions := {}

/-- Registers an owner without patterns, where it is new. -/
def declare (prohibitions : Prohibitions) (package : String) : Prohibitions :=
  if prohibitions.rules.any (·.package == package) then prohibitions
  else ⟨prohibitions.rules ++ [{ package := package }]⟩

def forbid (prohibitions : Prohibitions) (package pattern : String) : Prohibitions :=
  ⟨(prohibitions.declare package).rules.map fun rule =>
    if rule.package = package then rule.forbid pattern else rule⟩

def rule? (prohibitions : Prohibitions) (package : String) : Option PackageRule :=
  prohibitions.rules.find? (·.package == package)

/-- The rule that is applied to a package. -/
def ruleFor? (prohibitions : Prohibitions) (name : String) : Option PackageRule :=
  prohibitions.rules.find? fun rule => Text.contains name rule.package

def register (prohibitions : Prohibitions) (rule : PackageRule) : Prohibitions :=
  rule.forbidden.foldl (·.forbid rule.package ·) (prohibitions.declare rule.package)

/-- The rules of a JSON array, where rules for the same owner are merged. -/
def ofJson? (value : Json) : Option Prohibitions :=
  (Json.list? PackageRule.ofJson? value).map (·.foldl register empty)

def ofJsonText? (text : String) : Option Prohibitions := (Json.read? text).bind ofJson?

def toJson (prohibitions : Prohibitions) : Json :=
  .array (prohibitions.rules.map PackageRule.toJson)

def patternMatches (pattern efferent : String) : Bool :=
  match Text.withoutLast? '*' pattern with
  | some beginning => Text.startsWith beginning efferent
  | none => efferent == pattern

/-- The first forbidden dependency among some, by the order of the patterns. -/
def firstForbidden? (owner : String) (efferents patterns : List String) :
    Option ForbiddenDependency :=
  (patterns.findSome? fun pattern => efferents.find? (patternMatches pattern)).map
    fun efferent => { efferent, package := owner }

def offence? (prohibitions : Prohibitions) (graph : PackageGraph) (index : Nat) :
    Option ForbiddenDependency :=
  let owner := graph.nameOf index
  (prohibitions.ruleFor? owner).bind fun rule =>
    firstForbidden? owner (graph.efferentNames index) rule.forbidden

/-- The first forbidden dependency of any package, in the order of the graph. -/
def firstOffence? (prohibitions : Prohibitions) (graph : PackageGraph) :
    Option ForbiddenDependency :=
  graph.indices.findSome? (prohibitions.offence? graph)

end Prohibitions

end PackageAudit
