import PackageAudit.Decimal.Binary64
import PackageAudit.Report.Basic
/-!
Reports for people.

Every report is a list of lines. The name column of the table is as wide as the longest name needs,
measured in bytes of UTF-8, but is filled up by characters; so numbers may stand further right
behind names beyond ASCII, and no name is cut.
-/

namespace PackageAudit

def padRight (width : Nat) (text : String) : String :=
  text ++ String.ofList (List.replicate (width - text.length) ' ')

def padLeft (width : Nat) (text : String) : String :=
  String.ofList (List.replicate (width - text.length) ' ') ++ text

/-- The default package has an empty name, which is shown as a word. -/
def displayName (name : String) : String := if name = "" then "(default)" else name

def ofLines (lines : List String) : String := String.join (lines.map (· ++ "\n"))

/-- A row of the table: counts take four places, metrics six and the volatility three. -/
def tableRow (nameWidth : Nat) (name : String) (counts metrics : List String)
    (volatility : String) : String :=
  padRight nameWidth name ++ "  " ++ String.intercalate " "
    (counts.map (padLeft 4) ++ metrics.map (padLeft 6) ++ [padLeft 3 volatility])

def PackageReport.line (nameWidth : Nat) (report : PackageReport) : String :=
  tableRow nameWidth (displayName report.name)
    [toString report.totalClasses, toString report.concreteClasses,
      toString report.abstractClasses, toString report.afferentCoupling,
      toString report.efferentCoupling]
    [Decimal.fixedText report.abstractness, Decimal.fixedText report.instability,
      Decimal.fixedText report.distance]
    (toString report.volatility) ++
  (if report.cycle.isEmpty then "" else "  cyclic")

namespace AnalysisReport

/-- The width of the name column, whose heading is one of its entries. -/
def nameWidth (report : AnalysisReport) : Nat :=
  (report.packages.map fun package => (displayName package.name).utf8ByteSize).foldl max
    "Package".utf8ByteSize

def table (report : AnalysisReport) : List String :=
  if report.packages.isEmpty then []
  else
    tableRow report.nameWidth "Package" ["TC", "CC", "AC", "Ca", "Ce"] ["A", "I", "D"] "V" ::
      report.packages.map (·.line report.nameWidth)

/-- A blank line, a heading with a count, and the entries; nothing at all without entries. -/
def titled (heading : String) (entries : List String) : List String :=
  if entries.isEmpty then []
  else ["", s!"{heading} ({entries.length}):"] ++ entries.map ("  " ++ ·)

def lines (report : AnalysisReport) : List String :=
  report.table ++
    titled "Cycles"
      (report.cycleGroups.map fun group => String.intercalate ", " (group.map displayName)) ++
    titled "Unreadable class files"
      (report.failures.map fun failure => s!"{failure.id}: {failure.error}") ++
    ["", s!"{report.totalClasses} class(es) in {report.totalPackages} package(s)" ++
      (if report.containsCycles then ", cycles present" else "")]

def toText (report : AnalysisReport) : String := ofLines report.lines

def cycleLines (report : AnalysisReport) : List String :=
  if report.cyclicPackages.isEmpty then ["No package dependency cycles."]
  else report.cyclicPackages.flatMap fun package =>
    [displayName package.name ++ ":",
      "  " ++ String.intercalate " -> " (package.cycle.map displayName)]

def cyclesToText (report : AnalysisReport) : String := ofLines report.cycleLines

end AnalysisReport

def EfferentDifference.lines (difference : EfferentDifference) : List String :=
  let dependency (efferent : String) :=
    s!"{displayName difference.package} -> {displayName efferent}"
  difference.unexpected.map (fun efferent => "UNEXPECTED DEPENDENCY: " ++ dependency efferent) ++
    difference.missing.map (fun efferent => "MISSING DEPENDENCY: " ++ dependency efferent)

def ShapeDifference.lines (difference : ShapeDifference) : List String :=
  difference.missingPackages.map (fun name => "MISSING PACKAGE: " ++ displayName name) ++
    difference.unexpectedPackages.map (fun name => "UNEXPECTED PACKAGE: " ++ displayName name) ++
    difference.efferentDifferences.flatMap (·.lines)

namespace CheckReport

def lines (report : CheckReport) : List String :=
  (report.violation.map fun offence => "FORBIDDEN: " ++ offence.message).toList ++
    (report.shapeDifference.map (·.lines)).getD [] ++
    (if report.passed then [s!"ok: {report.rulesChecked} rule(s) satisfied"] else [])

def toText (report : CheckReport) : String := ofLines report.lines

end CheckReport

end PackageAudit
