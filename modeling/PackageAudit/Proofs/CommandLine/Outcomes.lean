import PackageAudit.Proofs.Analyzer.Checks
import PackageAudit.Proofs.Analyzer.Cycles
import PackageAudit.Proofs.CommandLine.Refusals
import PackageAudit.Proofs.Report.Texts
/-!
How commands end.

A command that audits class files ends in one of three ways. It is refused if something that it was told
to use cannot be used; all of that is looked at before anything is written, so a refused command writes
nothing. Otherwise it writes a report, and it fails if what it was asked to look out for is in the graph
of the analyzed classes, whatever the form of the report. What a command looks out for is said here in
terms of the graph alone, while a command asks its report.
-/

namespace PackageAudit.CommandLine

/-! ### What commands look out for -/

namespace Outcome.Settles

variable {outcome : Outcome} {refused fails : Prop}

end Outcome.Settles

end PackageAudit.CommandLine
