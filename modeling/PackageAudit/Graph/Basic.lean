import PackageAudit.ClassRecord
/-!
The package dependency graph.

Packages are numbered in the order in which they are first named, and a table of names finds the
number of a package. A dependency is written down with both of its packages: the target joins the
efferents of the source and the source joins the afferents of the target, each at the end of its
list, so both lists stand in the order in which the dependencies were first asked for.
-/

namespace PackageAudit

structure Package where
  name : String
  classes : List ClassRecord := []
  abstractClasses : Nat := 0
  /-- The packages that this one depends upon. -/
  efferents : List Nat := []
  /-- The packages that depend upon this one. -/
  afferents : List Nat := []
  volatility : Nat := 1
  deriving DecidableEq, Repr

namespace Package

def addClass (package : Package) (record : ClassRecord) : Package :=
  { package with
    abstractClasses := package.abstractClasses + if record.isAbstract then 1 else 0
    classes := package.classes ++ [record] }

def addEfferent (package : Package) (target : Nat) : Package :=
  { package with efferents := package.efferents ++ [target] }

def addAfferent (package : Package) (source : Nat) : Package :=
  { package with afferents := package.afferents ++ [source] }

end Package

structure PackageGraph where
  packages : List Package := []
  /-- The number of every package, by its name. -/
  byName : List (String × Nat) := []
  /-- Whether a package may depend upon itself. -/
  allowSelf : Bool := false
  deriving DecidableEq, Repr

namespace PackageGraph

def empty (allowSelf : Bool) : PackageGraph := { allowSelf := allowSelf }

def size (graph : PackageGraph) : Nat := graph.packages.length

def indices (graph : PackageGraph) : List Nat := List.range graph.size

def indexOf? (graph : PackageGraph) (name : String) : Option Nat := graph.byName.lookup name

def package? (graph : PackageGraph) (name : String) : Option Package :=
  (graph.indexOf? name).bind fun index => graph.packages[index]?

def nameOf (graph : PackageGraph) (index : Nat) : String :=
  match graph.packages[index]? with
  | some package => package.name
  | none => ""

def names (graph : PackageGraph) (indices : List Nat) : List String := indices.map graph.nameOf

/-- The packages that one package depends upon. -/
def efferents (graph : PackageGraph) (index : Nat) : List Nat :=
  match graph.packages[index]? with
  | some package => package.efferents
  | none => []

/-- The packages that depend upon one package. -/
def afferents (graph : PackageGraph) (index : Nat) : List Nat :=
  match graph.packages[index]? with
  | some package => package.afferents
  | none => []

def efferentNames (graph : PackageGraph) (index : Nat) : List String :=
  graph.names (graph.efferents index)

def afferentNames (graph : PackageGraph) (index : Nat) : List String :=
  graph.names (graph.afferents index)

def classCount (graph : PackageGraph) : Nat :=
  graph.packages.foldr (fun package count => package.classes.length + count) 0

def dependencyCount (graph : PackageGraph) : Nat :=
  graph.packages.foldr (fun package count => package.efferents.length + count) 0

/-- The number of the package with a name, which is created where it is new. -/
def declare (graph : PackageGraph) (name : String) : PackageGraph × Nat :=
  match graph.indexOf? name with
  | some index => (graph, index)
  | none =>
    ({ graph with
       packages := graph.packages ++ [{ name := name }]
       byName := (name, graph.size) :: graph.byName }, graph.size)

def modify (graph : PackageGraph) (index : Nat) (change : Package → Package) : PackageGraph :=
  { graph with packages := graph.packages.modify index change }

/-- Records a dependency, and tells whether it is new. A self dependency counts only where the graph
allows it. -/
def link (graph : PackageGraph) (source target : Nat) : PackageGraph × Bool :=
  if source = target ∧ graph.allowSelf = false then (graph, false)
  -- The afferents are not looked through, as they mirror the efferents.
  else if target ∈ graph.efferents source then (graph, false)
  else ((graph.modify source (·.addEfferent target)).modify target (·.addAfferent source), true)

def dependsUpon (graph : PackageGraph) (source target : String) : PackageGraph × Bool :=
  let (graph, sourceIndex) := graph.declare source
  let (graph, targetIndex) := graph.declare target
  graph.link sourceIndex targetIndex

def addClass (graph : PackageGraph) (index : Nat) (record : ClassRecord) : PackageGraph :=
  graph.modify index (·.addClass record)

/-- Declares a package and sets how much change in it matters. -/
def setVolatility (graph : PackageGraph) (name : String) (volatility : Nat) :
    PackageGraph × Nat :=
  let (graph, index) := graph.declare name
  (graph.modify index fun package => { package with volatility }, index)

/-- Declares a target and records that the package of a number depends upon it. -/
def linkNamed (graph : PackageGraph) (source : Nat) (target : String) : PackageGraph :=
  let (graph, targetIndex) := graph.declare target
  (graph.link source targetIndex).1

/-- Adds a class to its owner and a dependency on each target, in order. -/
def foldInto (graph : PackageGraph) (owner : String) (record : ClassRecord)
    (targets : List String) : PackageGraph × Nat :=
  let (graph, index) := graph.declare owner
  (targets.foldl (·.linkNamed index ·) (graph.addClass index record), index)

def fold (graph : PackageGraph) (record : ClassRecord) : PackageGraph × Nat :=
  graph.foldInto record.packageName record record.referencedPackages

/-- Adds a class under mapped names. A class whose own package is dropped changes nothing, and
dropped references are left out. -/
def foldMapped (graph : PackageGraph) (map : String → Option String) (record : ClassRecord) :
    Option (PackageGraph × Nat) :=
  (map record.packageName).map fun owner =>
    graph.foldInto owner record (record.referencedPackages.filterMap map)

end PackageGraph

end PackageAudit
