import PackageAudit.Prohibitions
import PackageAudit.Shape
/-!
What an analysis and a check report.
-/

namespace PackageAudit

def version : String := "0.1.0"

structure PackageReport where
  name : String
  totalClasses : Nat
  concreteClasses : Nat
  abstractClasses : Nat
  afferentCoupling : Nat
  efferentCoupling : Nat
  abstractness : Float
  instability : Float
  distance : Float
  volatility : Nat
  efferents : List String
  afferents : List String
  /-- Every cycle that the package can reach, as one path; empty if there is none. -/
  cycle : List String

structure FailureReport where
  id : String
  error : String
  deriving DecidableEq, Repr

structure AnalysisReport where
  version : String
  command : String
  totalClasses : Nat
  totalPackages : Nat
  containsCycles : Bool
  /-- In ascending order of names. -/
  packages : List PackageReport
  cycleGroups : List (List String)
  failures : List FailureReport

namespace AnalysisReport

/-- The packages that can reach a cycle. -/
def cyclicPackages (report : AnalysisReport) : List PackageReport :=
  report.packages.filter (! ·.cycle.isEmpty)

end AnalysisReport

structure CheckReport where
  version : String
  command : String
  status : String
  rulesChecked : Nat
  violation : Option ForbiddenDependency
  shapeDifference : Option ShapeDifference
  deriving DecidableEq, Repr

namespace CheckReport

/-- A check passes without a violation and without a difference from the expected shape. -/
def passed (report : CheckReport) : Bool :=
  report.violation.isNone && report.shapeDifference.all (·.isEmpty)

end CheckReport

end PackageAudit
