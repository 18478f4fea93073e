import PackageAudit.Graph.Basic
import PackageAudit.Json.Decode
import PackageAudit.Json.Reader
/-!
The expected shape of a package graph.

A shape declares packages and what each depends upon; every package that is depended upon is
declared as well. Comparing a graph with it lists what one has and the other lacks: packages first,
and then for each package that both have the dependencies in which they differ.
-/

namespace PackageAudit

structure Shape where
  /-- Each declared package with its dependencies, in the order of declaration. -/
  packages : List (String × List String) := []
  deriving DecidableEq, Repr

structure EfferentDifference where
  package : String
  unexpected : List String
  missing : List String
  deriving DecidableEq, Repr

structure ShapeDifference where
  missingPackages : List String := []
  unexpectedPackages : List String := []
  efferentDifferences : List EfferentDifference := []
  deriving DecidableEq, Repr

def ShapeDifference.isEmpty (difference : ShapeDifference) : Bool :=
  difference.missingPackages.isEmpty && difference.unexpectedPackages.isEmpty &&
    difference.efferentDifferences.isEmpty

namespace Shape

def empty : Shape := {}

def efferentsOf? (shape : Shape) (name : String) : Option (List String) :=
  shape.packages.lookup name

def declare (shape : Shape) (name : String) : Shape :=
  if (shape.efferentsOf? name).isSome then shape else ⟨shape.packages ++ [(name, [])]⟩

/-- Declares two packages and that the first depends upon the second. The target is declared first,
and a package that depends upon itself is only declared. -/
def dependsUpon (shape : Shape) (source target : String) : Shape :=
  let declared := (shape.declare target).declare source
  if source = target then declared
  else ⟨declared.packages.map fun (name, efferents) =>
    if name = source ∧ target ∉ efferents then (name, efferents ++ [target])
    else (name, efferents)⟩

def declareAll (shape : Shape) (entry : String × List String) : Shape :=
  entry.2.foldl (·.dependsUpon entry.1 ·) (shape.declare entry.1)

/-- The shape of a JSON object from packages to dependencies, declared in ascending order. -/
def ofJson? (value : Json) : Option Shape :=
  (Json.map? Json.texts? value).map (·.foldl declareAll empty)

def ofJsonText? (text : String) : Option Shape := (Json.read? text).bind ofJson?

/-- How a package of the graph differs from its declaration, if it does. -/
def efferentDifference? (graph : PackageGraph) (index : Nat) (name : String)
    (expected : List String) : Option EfferentDifference :=
  let actual := graph.efferentNames index
  let unexpected := actual.filter (· ∉ expected)
  let missing := expected.filter (· ∉ actual)
  if unexpected.isEmpty && missing.isEmpty then none
  else some { package := name, unexpected, missing }

def compare (shape : Shape) (graph : PackageGraph) : ShapeDifference where
  missingPackages := (shape.packages.map (·.1)).filter fun name => (graph.indexOf? name).isNone
  unexpectedPackages := (graph.packages.map (·.name)).filter fun name =>
    (shape.efferentsOf? name).isNone
  efferentDifferences := shape.packages.filterMap fun (name, expected) =>
    (graph.indexOf? name).bind fun index => efferentDifference? graph index name expected

def fits (shape : Shape) (graph : PackageGraph) : Bool := (shape.compare graph).isEmpty

end Shape

end PackageAudit
