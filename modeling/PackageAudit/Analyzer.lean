import PackageAudit.ClassFile.Decode
import PackageAudit.Config
import PackageAudit.Graph.Cycle
import PackageAudit.Graph.Metrics
import PackageAudit.Report.Basic
/-!
The analysis of class files.

Units are decoded and folded into the package graph in order. A unit that cannot be decoded leaves
nothing but a failure behind, and a class is left out whole if inner classes are switched off and it
is one, or if the filter rejects its package. Names are filtered as they are found and then replaced
by the component that stands for them.
-/

namespace PackageAudit

open ClassFile (DecodeError)

/-- The bytes of a class file, and what to call it. -/
structure ClassUnit where
  id : String
  bytes : List UInt8

structure DecodeFailure where
  id : String
  error : DecodeError
  deriving DecidableEq, Repr

structure AnalysisOutcome where
  folded : Nat := 0
  /-- Decoded and left out. -/
  skipped : Nat := 0
  failures : List DecodeFailure := []
  deriving DecidableEq, Repr

structure Analyzer where
  graph : PackageGraph
  filter : PackageFilter
  components : List String
  analyzeInnerClasses : Bool
  /-- Of all units so far. -/
  failures : List DecodeFailure := []
  deriving DecidableEq, Repr

/-- Whether a name is that of a proper sub-package of a component. -/
def isWithin (component name : String) : Bool :=
  match Text.after? component.toList name.toList with
  | some rest => rest.head? == some '.'
  | none => false

/-- The first component that a name lies within, or the name itself. -/
def coalesce (components : List String) (name : String) : String :=
  (components.find? (isWithin · name)).getD name

namespace Analyzer

/-- Packages with a configured volatility exist from the start. -/
def ofConfig (config : Config) : Analyzer where
  graph := config.volatility.foldl (fun graph (name, volatility) =>
    (graph.setVolatility name volatility).1) (.empty config.allowSelfDependency)
  filter := config.filter
  components := config.components
  analyzeInnerClasses := config.analyzeInnerClasses

def setFilter (analyzer : Analyzer) (filter : PackageFilter) : Analyzer :=
  { analyzer with filter }

def setComponents (analyzer : Analyzer) (list : String) : Analyzer :=
  { analyzer with components := Text.splitList list }

def setInnerClasses (analyzer : Analyzer) (analyzed : Bool) : Analyzer :=
  { analyzer with analyzeInnerClasses := analyzed }

def addPackage (analyzer : Analyzer) (name : String) : Analyzer × Nat :=
  let (graph, index) := analyzer.graph.declare name
  ({ analyzer with graph }, index)

/-- The name under which a package enters the graph, if the filter accepts it. -/
def graphName? (analyzer : Analyzer) (name : String) : Option String :=
  if analyzer.filter.accept name then some (coalesce analyzer.components name) else none

/-- Folds a class and answers the number of its package, unless the class is left out. -/
def foldRecord (analyzer : Analyzer) (record : ClassRecord) : Option (Analyzer × Nat) :=
  -- A class that is left out does not even declare its package.
  if !analyzer.analyzeInnerClasses && record.isInnerClass then none
  else (analyzer.graph.foldMapped analyzer.graphName? record).map fun (graph, index) =>
    ({ analyzer with graph }, index)

def analyzeUnit (state : Analyzer × AnalysisOutcome) (unit : ClassUnit) :
    Analyzer × AnalysisOutcome :=
  let (analyzer, outcome) := state
  match ClassFile.decode unit.bytes with
  | .error error =>
    let failure : DecodeFailure := { id := unit.id, error }
    ({ analyzer with failures := analyzer.failures ++ [failure] },
      { outcome with failures := outcome.failures ++ [failure] })
  | .ok record =>
    match analyzer.foldRecord record with
    | some (analyzer, _) => (analyzer, { outcome with folded := outcome.folded + 1 })
    | none => (analyzer, { outcome with skipped := outcome.skipped + 1 })

def analyze (analyzer : Analyzer) (units : List ClassUnit) : Analyzer × AnalysisOutcome :=
  units.foldl analyzeUnit (analyzer, {})

def containsCycles (analyzer : Analyzer) : Bool := analyzer.graph.containsCycles

def packageReport (graph : PackageGraph) (index : Nat) (package : Package) : PackageReport :=
  let metrics := graph.metrics index package
  { name := package.name
    totalClasses := metrics.classes
    concreteClasses := metrics.concreteClasses
    abstractClasses := metrics.abstractClasses
    afferentCoupling := metrics.afferentCoupling
    efferentCoupling := metrics.efferentCoupling
    abstractness := metrics.abstractness
    instability := metrics.instability
    distance := metrics.distance
    volatility := metrics.volatility
    efferents := graph.efferentNames index
    afferents := graph.afferentNames index
    cycle := graph.names (graph.cyclePath index).path }

def report (analyzer : Analyzer) : AnalysisReport :=
  let graph := analyzer.graph
  let packages := graph.packages.zipIdx.map fun (package, index) =>
    packageReport graph index package
  let cycleGroups := graph.cycleGroups.map graph.names
  { version
    command := "analyze"
    totalClasses := graph.classCount
    totalPackages := graph.size
    containsCycles := !cycleGroups.isEmpty
    packages := packages.mergeSort fun a b => decide (a.name ≤ b.name)
    cycleGroups
    failures := analyzer.failures.map fun failure =>
      { id := failure.id, error := failure.error.message } }

def check (analyzer : Analyzer) (prohibitions : Prohibitions) (expected : Option Shape) :
    CheckReport :=
  let report : CheckReport :=
    { version
      command := "check"
      status := ""
      rulesChecked := prohibitions.rules.length
      violation := prohibitions.firstOffence? analyzer.graph
      shapeDifference := expected.map (·.compare analyzer.graph) }
  { report with status := if report.passed then "ok" else "violation" }

end Analyzer

end PackageAudit
