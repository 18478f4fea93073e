import PackageAudit.Json.Decode
import PackageAudit.Json.Number
import PackageAudit.Json.Writer
import PackageAudit.Report.Human
/-!
Reports as JSON, and the choice between that and the form for people.

An analysis and a check are written field by field in a fixed order, and can be read back. The
report on cycles is a selection from an analysis, whose fields stand in alphabetical order. Every
report can be had in both forms.
-/

namespace PackageAudit

def PackageReport.toJson (report : PackageReport) : Json :=
  .record [
    ("name", .text report.name),
    ("total_classes", .nat report.totalClasses),
    ("concrete_classes", .nat report.concreteClasses),
    ("abstract_classes", .nat report.abstractClasses),
    ("afferent_coupling", .nat report.afferentCoupling),
    ("efferent_coupling", .nat report.efferentCoupling),
    ("abstractness", .float report.abstractness),
    ("instability", .float report.instability),
    ("distance", .float report.distance),
    ("volatility", .nat report.volatility),
    ("efferents", .texts report.efferents),
    ("afferents", .texts report.afferents),
    ("cycle", .texts report.cycle)]

/-- Reads a package report, given a reader for its three metrics. -/
def PackageReport.ofJson? (metric : Json → Option Float) (value : Json) :
    Option PackageReport := do
  let fields ← value.fields? ["name", "total_classes", "concrete_classes", "abstract_classes",
    "afferent_coupling", "efferent_coupling", "abstractness", "instability", "distance",
    "volatility", "efferents", "afferents", "cycle"]
  let count := Json.natBelow? UInt64.size
  return {
    name := ← fields.required 0 Json.text?
    totalClasses := ← fields.required 1 count
    concreteClasses := ← fields.required 2 count
    abstractClasses := ← fields.required 3 count
    afferentCoupling := ← fields.required 4 count
    efferentCoupling := ← fields.required 5 count
    abstractness := ← fields.required 6 metric
    instability := ← fields.required 7 metric
    distance := ← fields.required 8 metric
    volatility := ← fields.required 9 (Json.natBelow? UInt32.size)
    efferents := ← fields.required 10 Json.texts?
    afferents := ← fields.required 11 Json.texts?
    cycle := ← fields.required 12 Json.texts? }

def FailureReport.toJson (report : FailureReport) : Json :=
  .record [("id", .text report.id), ("error", .text report.error)]

def FailureReport.ofJson? (value : Json) : Option FailureReport := do
  let fields ← value.fields? ["id", "error"]
  return { id := ← fields.required 0 Json.text?, error := ← fields.required 1 Json.text? }

namespace AnalysisReport

def toJson (report : AnalysisReport) : Json :=
  .record [
    ("version", .text report.version),
    ("command", .text report.command),
    ("total_classes", .nat report.totalClasses),
    ("total_packages", .nat report.totalPackages),
    ("contains_cycles", .bool report.containsCycles),
    ("packages", .array (report.packages.map PackageReport.toJson)),
    ("cycle_groups", .array (report.cycleGroups.map Json.texts)),
    ("failures", .array (report.failures.map FailureReport.toJson))]

def ofJson? (metric : Json → Option Float) (value : Json) : Option AnalysisReport := do
  let fields ← value.fields? ["version", "command", "total_classes", "total_packages",
    "contains_cycles", "packages", "cycle_groups", "failures"]
  let count := Json.natBelow? UInt64.size
  return {
    version := ← fields.required 0 Json.text?
    command := ← fields.required 1 Json.text?
    totalClasses := ← fields.required 2 count
    totalPackages := ← fields.required 3 count
    containsCycles := ← fields.required 4 Json.bool?
    packages := ← fields.required 5 (Json.list? (PackageReport.ofJson? metric))
    cycleGroups := ← fields.required 6 (Json.list? Json.texts?)
    failures := ← fields.required 7 (Json.list? FailureReport.ofJson?) }

/-- The report on cycles: the groups, and the path of every package that can reach one. -/
def cyclesToJson (report : AnalysisReport) : Json :=
  .record [
    ("command", .text "cycles"),
    ("contains_cycles", .bool report.containsCycles),
    ("cycle_groups", .array (report.cycleGroups.map Json.texts)),
    ("cycles", .array (report.cyclicPackages.map fun package =>
      .record [("cycle", .texts package.cycle), ("package", .text package.name)])),
    ("version", .text report.version)]

end AnalysisReport

namespace ForbiddenDependency

def toJson (offence : ForbiddenDependency) : Json :=
  .record [("efferent", .text offence.efferent), ("package", .text offence.package)]

def ofJson? (value : Json) : Option ForbiddenDependency := do
  let fields ← value.fields? ["efferent", "package"]
  return { efferent := ← fields.required 0 Json.text?, package := ← fields.required 1 Json.text? }

end ForbiddenDependency

namespace EfferentDifference

def toJson (difference : EfferentDifference) : Json :=
  .record [
    ("package", .text difference.package),
    ("unexpected", .texts difference.unexpected),
    ("missing", .texts difference.missing)]

def ofJson? (value : Json) : Option EfferentDifference := do
  let fields ← value.fields? ["package", "unexpected", "missing"]
  return {
    package := ← fields.required 0 Json.text?
    unexpected := ← fields.required 1 Json.texts?
    missing := ← fields.required 2 Json.texts? }

end EfferentDifference

namespace ShapeDifference

def toJson (difference : ShapeDifference) : Json :=
  .record [
    ("missing_packages", .texts difference.missingPackages),
    ("unexpected_packages", .texts difference.unexpectedPackages),
    ("efferent_differences", .array (difference.efferentDifferences.map EfferentDifference.toJson))]

def ofJson? (value : Json) : Option ShapeDifference := do
  let fields ← value.fields? ["missing_packages", "unexpected_packages", "efferent_differences"]
  return {
    missingPackages := ← fields.required 0 Json.texts?
    unexpectedPackages := ← fields.required 1 Json.texts?
    efferentDifferences := ← fields.required 2 (Json.list? EfferentDifference.ofJson?) }

end ShapeDifference

namespace CheckReport

def toJson (report : CheckReport) : Json :=
  .record [
    ("version", .text report.version),
    ("command", .text report.command),
    ("status", .text report.status),
    ("rules_checked", .nat report.rulesChecked),
    ("violation", (report.violation.map ForbiddenDependency.toJson).getD .null),
    ("dependency_match", (report.shapeDifference.map ShapeDifference.toJson).getD .null)]

def ofJson? (value : Json) : Option CheckReport := do
  let fields ← value.fields? ["version", "command", "status", "rules_checked", "violation",
    "dependency_match"]
  return {
    version := ← fields.required 0 Json.text?
    command := ← fields.required 1 Json.text?
    status := ← fields.required 2 Json.text?
    rulesChecked := ← fields.required 3 (Json.natBelow? UInt64.size)
    violation := ← fields.nullable 4 ForbiddenDependency.ofJson?
    shapeDifference := ← fields.nullable 5 ShapeDifference.ofJson? }

end CheckReport

inductive ReportFormat where
  | human
  | json
  deriving DecidableEq, Repr

namespace ReportFormat

def analysis : ReportFormat → AnalysisReport → String
  | .human, report => report.toText
  | .json, report => report.toJson.pretty 0

def cycles : ReportFormat → AnalysisReport → String
  | .human, report => report.cyclesToText
  | .json, report => report.cyclesToJson.pretty 0

def check : ReportFormat → CheckReport → String
  | .human, report => report.toText
  | .json, report => report.toJson.pretty 0

end ReportFormat

end PackageAudit
