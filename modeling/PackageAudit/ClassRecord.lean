import PackageAudit.Json.Decode
import PackageAudit.Text.Search
/-!
What the analysis keeps of one class: its names, its source file, whether it is abstract, and the
packages that its code refers to.

A record built by `ClassRecord.ofReferences` never lists its own package and holds its references
as a set, so folding a class does not depend on how often or in which order its references were
found.
-/

namespace PackageAudit

structure ClassRecord where
  qualifiedName : String
  packageName : String
  sourceFile : Option String
  isAbstract : Bool
  referencedPackages : List String
  deriving DecidableEq, Repr

/-- The package of a dotted class name: what stands before its last dot. -/
def packageOf (qualifiedName : String) : String := Text.beforeLast '.' qualifiedName

namespace ClassRecord

def ofReferences (qualifiedName : String) (sourceFile : Option String) (isAbstract : Bool)
    (references : List String) : ClassRecord :=
  let own := packageOf qualifiedName
  { qualifiedName, packageName := own, sourceFile, isAbstract
    referencedPackages := Text.distinctSorted (references.filter (· != own)) }

section OfReferences

variable (qualifiedName : String) (sourceFile : Option String) (isAbstract : Bool)
  (references : List String)

@[simp]
theorem qualifiedName_ofReferences :
    (ofReferences qualifiedName sourceFile isAbstract references).qualifiedName = qualifiedName :=
  rfl

@[simp]
theorem packageName_ofReferences :
    (ofReferences qualifiedName sourceFile isAbstract references).packageName =
      packageOf qualifiedName :=
  rfl

theorem mem_referencedPackages_ofReferences (name : String) :
    name ∈ (ofReferences qualifiedName sourceFile isAbstract references).referencedPackages ↔
      name ≠ packageOf qualifiedName ∧ name ∈ references := by
  simp only [ofReferences, Text.mem_distinctSorted, List.mem_filter, bne_iff_ne, and_comm]

end OfReferences

def simpleName (record : ClassRecord) : String := Text.afterLast '.' record.qualifiedName

/-- A record as it was written, with nothing computed anew but the order of its references. -/
def ofJson? (value : Json) : Option ClassRecord := do
  let fields ← value.fields?
    ["qualified_name", "package_name", "source_file", "is_abstract", "referenced_packages"]
  return {
    qualifiedName := ← fields.required 0 Json.text?
    packageName := ← fields.required 1 Json.text?
    sourceFile := ← fields.nullable 2 Json.text?
    isAbstract := ← fields.required 3 Json.bool?
    referencedPackages := Text.distinctSorted (← fields.required 4 Json.texts?) }

/-- Inner classes are those whose simple name holds a dollar sign. -/
def isInnerClass (record : ClassRecord) : Bool := record.simpleName.toList.contains '$'

end ClassRecord

end PackageAudit
