import PackageAudit.ClassFile.Builder
import PackageAudit.Main
import PackageAudit.Proofs.ClassFile.Extension
import PackageAudit.Proofs.ClassFile.RoundTrip
import PackageAudit.Proofs.Graph.CyclePath
import PackageAudit.Proofs.Graph.Requests
import PackageAudit.Proofs.Graph.CycleGroups
import PackageAudit.Proofs.Graph.CycleSearch
import PackageAudit.Proofs.Graph.ExhaustiveWalk
import PackageAudit.Proofs.Analyzer.Runs
import PackageAudit.Proofs.Analyzer.Cycles
import PackageAudit.Proofs.Analyzer.InputOrder
import PackageAudit.Proofs.ClassFile.SignatureGrammar
import PackageAudit.Proofs.ClassFile.PoolReading
import PackageAudit.Proofs.ClassFile.FileSyntax
import PackageAudit.Proofs.ClassFile.FileRecognition
import PackageAudit.Proofs.ClassFile.ReferencedPackages
import PackageAudit.Proofs.ClassFile.ErrorReports
import PackageAudit.Proofs.Prohibitions.Enforcement
import PackageAudit.Proofs.ClassFile.Overlooking
import PackageAudit.Proofs.ClassFile.References
import PackageAudit.Proofs.ClassFile.SkippedBytes
import PackageAudit.Proofs.Shape.Declarations
import PackageAudit.Proofs.Json.ReadBack
import PackageAudit.Proofs.Prohibitions.ReadBack
import PackageAudit.Proofs.Analyzer.Batches
import PackageAudit.Proofs.Analyzer.Components
import PackageAudit.Proofs.Analyzer.Reports
import PackageAudit.Proofs.Analyzer.Filtered
import PackageAudit.Proofs.ClassFile.FormalParameters
import PackageAudit.Proofs.Report.Texts
import PackageAudit.Proofs.Shape.Differences
import PackageAudit.Proofs.CommandLine.Outcomes
import PackageAudit.Proofs.ClassFile.ScannedNames
import PackageAudit.Proofs.Graph.RepeatedPackages
import PackageAudit.Proofs.Text.ReadBack
import PackageAudit.Proofs.Shape.ExactDifference
import PackageAudit.Proofs.Filter.Decisions
import PackageAudit.Proofs.Text.Blank
import PackageAudit.Proofs.Prohibitions.FirstOffence
import PackageAudit.Proofs.Analyzer.Checks
import PackageAudit.Proofs.Report.CheckFindings
import PackageAudit.Proofs.ClassFile.NestingLimit
import PackageAudit.Proofs.ClassFile.PoolSweep
import PackageAudit.Proofs.ClassFile.OwnPackage
import PackageAudit.Proofs.Graph.MetricBounds
import PackageAudit.Proofs.Config.Properties
