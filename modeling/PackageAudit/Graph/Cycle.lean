import PackageAudit.Graph.Basic
/-!
Dependency cycles.

The collecting walk follows dependencies depth first, in the order in which they were recorded. A
package that already stands in the path closes a cycle: it is appended once more and not entered. A
package whose walk closed no cycle is taken out again and remembered, for it can reach neither a
cycle nor anything that still stands in the path. So the path lists every cycle that the start can
reach, one after the other in the order of the walk. The finding walk asks only whether there is
one, and stops at the first.

Packages that reach one another form a cyclic group; a package alone forms one if it depends upon
itself.
-/

namespace PackageAudit

/-- What a collecting walk has seen: its path, latest first, and the packages that lead nowhere. -/
structure CycleWalk where
  path : List Nat
  acyclic : List Nat

namespace CycleWalk

/-- Walks from one package, and tells whether a cycle was closed. The fuel bounds how many packages
are entered inside one another. -/
def collect (efferents : Nat → List Nat) : Nat → Nat → CycleWalk → CycleWalk × Bool
  | 0, _, walk => (walk, false)
  | fuel + 1, node, walk =>
    if node ∈ walk.path then ({ walk with path := node :: walk.path }, true)
    else if node ∈ walk.acyclic then (walk, false)
    else
      let entered : CycleWalk := { walk with path := node :: walk.path }
      -- All efferents are walked to, also those behind one that closed a cycle.
      let (left, found) := (efferents node).foldl (fun (walk, found) efferent =>
        let (walk, closed) := collect efferents fuel efferent walk
        (walk, found || closed)) (entered, false)
      if found then (left, true)
      -- Whatever was entered from here has been taken out already.
      else ({ path := left.path.tail, acyclic := node :: left.acyclic }, false)

/-- Whether a cycle is closed by walking from a package behind those on the path, and the packages
then known to lead nowhere. -/
def find (efferents : Nat → List Nat) :
    Nat → List Nat → Nat → List Nat → Bool × List Nat
  | 0, _, _, acyclic => (false, acyclic)
  | fuel + 1, path, node, acyclic =>
    if node ∈ path then (true, acyclic)
    else if node ∈ acyclic then (false, acyclic)
    else
      -- Nothing is walked to behind the first efferent that closes a cycle.
      let (found, acyclic) := (efferents node).foldl (fun (found, acyclic) efferent =>
        if found then (true, acyclic)
        else find efferents fuel (node :: path) efferent acyclic) (false, acyclic)
      if found then (true, acyclic) else (false, node :: acyclic)

end CycleWalk

structure CyclePath where
  containsCycle : Bool
  path : List Nat
  deriving DecidableEq, Repr

namespace PackageGraph

/-- The packages that can be reached, in addition to those seen, by way of those pending. -/
def reachFrom (graph : PackageGraph) : Nat → List Nat → List Nat → List Nat
  | 0, _, seen => seen
  | _ + 1, [], seen => seen
  | fuel + 1, node :: pending, seen =>
    if node ∈ seen then graph.reachFrom fuel pending seen
    else graph.reachFrom fuel (graph.efferents node ++ pending) (node :: seen)

/-- The packages that one package reaches, itself included. Every step takes a pending package, and
only its start and its dependencies are ever pending. -/
def reachable (graph : PackageGraph) (start : Nat) : List Nat :=
  graph.reachFrom (graph.dependencyCount + 2) [start] []

/-- Every cycle that can be reached from a package, in the order of the walk. -/
def cyclePath (graph : PackageGraph) (start : Nat) : CyclePath :=
  let (walk, found) := CycleWalk.collect graph.efferents (graph.size + 1) start ⟨[], []⟩
  ⟨found, walk.path.reverse⟩

def reachesCycle (graph : PackageGraph) (start : Nat) : Bool :=
  (CycleWalk.find graph.efferents (graph.size + 1) [] start []).1

def containsCycles (graph : PackageGraph) : Bool := graph.indices.any graph.reachesCycle

/-- The components of the graph: packages that reach one another, all together. -/
def components (graph : PackageGraph) : List (List Nat) :=
  let reaches := graph.indices.map fun index => (index, graph.reachable index)
  reaches.filterMap fun (index, forward) =>
    let component := reaches.filterMap fun (other, back) =>
      if forward.contains other && back.contains index then some other else none
    -- Each of its members finds the component, and the first one lists it.
    if component.head? = some index then some component else none

/-- Whether the packages of a component stand on a cycle. One alone does if it depends upon itself. -/
def isCyclic (graph : PackageGraph) : List Nat → Bool
  | [single] => (graph.efferents single).contains single
  | _ => true

/-- The cyclic ones of the components of a graph, which may be given in any order: each in ascending
order, by their first members. -/
def cyclicGroups (graph : PackageGraph) (components : List (List Nat)) : List (List Nat) :=
  let groups := (components.filter graph.isCyclic).map fun component =>
    component.mergeSort fun one other => decide (one ≤ other)
  groups.mergeSort fun one other => decide (one.headD 0 ≤ other.headD 0)

def cycleGroups (graph : PackageGraph) : List (List Nat) := graph.cyclicGroups graph.components

end PackageGraph

end PackageAudit
