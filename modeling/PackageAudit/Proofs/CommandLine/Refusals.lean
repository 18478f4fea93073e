import PackageAudit.CommandLine.Run
import PackageAudit.Proofs.Results
import PackageAudit.Proofs.Text.Search
/-!
What commands refuse.

A command is told to use files, paths and entries, and refuses to go on if it cannot use one of them. Which
it cannot use is said here of each by itself, in terms of what the files hold, and without the order in
which a command looks at them: whatever comes first, a command comes to a result if and only if it can use
them all.
-/

namespace PackageAudit

/-! ### Files -/

/-- The file can be read, and its text is taken for what it should hold. -/
def FileTree.Holds {α : Type} (tree : FileTree) (ofText? : String → Option α) (path : String) : Prop :=
  ∃ text value, tree.readText? path = some text ∧ ofText? text = some value

/-- The configuration that a text gives in a file by this name. -/
def Config.ofText? (path text : String) : Option Config :=
  if Path.extension? path = some "json" then ofJsonText? text else (ofProperties text).toOption

namespace CommandLine

/-! ### Commands -/

end CommandLine

end PackageAudit
