import PackageAudit.Graph.Basic
/-!
Coupling metrics of a package.

Abstractness is the share of abstract classes and instability the share of outgoing dependencies;
both are zero where there is nothing to share. The distance from the balance of the two, weighed by
the volatility of the package, tells how badly the package is placed. Metrics are reported as doubles,
but what they are does not depend on the arithmetic that computes them, so it is a parameter.
-/

namespace PackageAudit

/-- The numbers that metrics are computed in, and how. -/
structure Arithmetic (α : Type) where
  ofNat : Nat → α
  add : α → α → α
  sub : α → α → α
  mul : α → α → α
  div : α → α → α
  abs : α → α

def Arithmetic.binary64 : Arithmetic Float where
  ofNat := Float.ofNat
  add := (· + ·)
  sub := (· - ·)
  mul := (· * ·)
  div := (· / ·)
  abs := Float.abs

structure Metrics where
  classes : Nat
  abstractClasses : Nat
  afferentCoupling : Nat
  efferentCoupling : Nat
  volatility : Nat
  deriving DecidableEq, Repr

namespace Metrics

def concreteClasses (metrics : Metrics) : Nat := metrics.classes - metrics.abstractClasses

def coupling (metrics : Metrics) : Nat := metrics.efferentCoupling + metrics.afferentCoupling

section Computed

variable {α : Type} (arithmetic : Arithmetic α)

/-- The share of a part in a whole, zero where the whole is empty. -/
def share (part whole : Nat) : α :=
  if whole = 0 then arithmetic.ofNat 0
  else arithmetic.div (arithmetic.ofNat part) (arithmetic.ofNat whole)

def abstractnessIn (metrics : Metrics) : α :=
  share arithmetic metrics.abstractClasses metrics.classes

def instabilityIn (metrics : Metrics) : α :=
  share arithmetic metrics.efferentCoupling metrics.coupling

def distanceIn (metrics : Metrics) : α :=
  let balance := arithmetic.add (metrics.abstractnessIn arithmetic) (metrics.instabilityIn arithmetic)
  arithmetic.mul (arithmetic.abs (arithmetic.sub balance (arithmetic.ofNat 1)))
    (arithmetic.ofNat metrics.volatility)

end Computed

def abstractness (metrics : Metrics) : Float := metrics.abstractnessIn .binary64

def instability (metrics : Metrics) : Float := metrics.instabilityIn .binary64

def distance (metrics : Metrics) : Float := metrics.distanceIn .binary64

end Metrics

namespace PackageGraph

def metrics (graph : PackageGraph) (index : Nat) (package : Package) : Metrics where
  classes := package.classes.length
  abstractClasses := package.abstractClasses
  afferentCoupling := (graph.afferents index).length
  efferentCoupling := (graph.efferents index).length
  volatility := package.volatility

end PackageGraph

end PackageAudit
