import Mathlib.Data.List.Infix
import PackageAudit.Proofs.ClassFile.ReferencedPackages
import PackageAudit.Proofs.ClassFile.ScannedNames
import PackageAudit.Proofs.Text.Search
/-!
The package of a class by its own name.

A record leaves out the package of its class, which it takes from the name written with dots: what stands
before the last dot. The class is mentioned by its constant like any other, and there the package is what
stands before the last slash. No name is checked, so the two need not be the same: a dot in the simple name
makes the former longer, and the name of an array leads to the packages of its elements. Exactly for such
names a class is listed as referring to a package of its own.
-/

namespace PackageAudit.ClassFile

/-- The last dot of the name with dots is the last slash. So no dot stands behind that slash, and none at all
where there is no slash, unless it is the first character and nothing stands before it. The name of an array
leads to element types instead: either there are none, or they are in no package and neither is the array. -/
def NamesOnePackage (name : String) : Prop :=
  if name.toList.head? = some '[' then
    Signature.classNames name = [] ∨ ('/' ∉ name.toList ∧ '.' ∉ name.toList)
  else if '/' ∈ name.toList then '.' ∉ (Text.afterLast '/' name).toList
  else '.' ∉ name.toList.tail

instance (name : String) : Decidable (NamesOnePackage name) := by
  unfold NamesOnePackage
  infer_instance

/-! ### The two readings of a name -/

section Names

variable {name : String} {before simple : List Char}

/-- The character that stands in a name with dots for one in a name with slashes. -/
private def dotted (c : Char) : Char := if c = '/' then '.' else c

private theorem toList_replaceChar (name : String) :
    (Text.replaceChar '/' '.' name).toList = name.toList.map dotted :=
  String.toList_ofList

private theorem dot_mem_map_dotted (cs : List Char) : '.' ∈ cs.map dotted ↔ '/' ∈ cs ∨ '.' ∈ cs := by
  have replaced (c : Char) : dotted c = '.' ↔ c = '/' ∨ c = '.' := by
    rw [dotted]
    split <;> simp [*]
  simp [List.mem_map, replaced, and_or_left, exists_or]

theorem packageOfInternal_of_not_mem (absent : '/' ∉ name.toList) : packageOfInternal name = "" := by
  rw [packageOfInternal, Text.beforeLast_of_not_mem absent]
  rfl

private theorem toList_packageOfInternal (split : name.toList = before ++ '/' :: simple)
    (last : '/' ∉ simple) : (packageOfInternal name).toList = before.map dotted := by
  rw [packageOfInternal, toList_replaceChar, Text.beforeLast_of_split split last, String.toList_ofList]

private theorem map_dotted_split (split : name.toList = before ++ '/' :: simple) :
    (Text.replaceChar '/' '.' name).toList = before.map dotted ++ '.' :: simple.map dotted := by
  rw [toList_replaceChar, split, List.map_append, List.map_cons]
  rfl

/-- Behind the last slash a dot is the last dot of the name with dots. -/
theorem packageOfInternal_eq_iff (split : name.toList = before ++ '/' :: simple)
    (last : '/' ∉ simple) :
    packageOfInternal name = packageOf (Text.replaceChar '/' '.' name) ↔ '.' ∉ simple := by
  have whole := map_dotted_split split
  have unslashed : '.' ∈ simple.map dotted ↔ '.' ∈ simple := by
    rw [dot_mem_map_dotted, or_iff_right last]
  rw [← String.toList_inj, toList_packageOfInternal split last, packageOf]
  constructor
  · intro same member
    -- A dot behind the slash comes later than the slash, so more stands before it.
    obtain ⟨between, behind, inner⟩ := List.append_of_mem (unslashed.mpr member)
    rw [inner, ← List.cons_append, ← List.append_assoc] at whole
    have longer := Text.prefix_beforeLast whole
    rw [← same] at longer
    simpa using longer.length_le
  · intro absent
    rw [Text.beforeLast_of_split whole (unslashed.not.mpr absent), String.toList_ofList]

theorem packageOf_eq_empty_iff (name : String) :
    packageOf (Text.replaceChar '/' '.' name) = "" ↔ '/' ∉ name.toList.tail ∧ '.' ∉ name.toList.tail := by
  rw [packageOf, Text.beforeLast_eq_empty_iff, toList_replaceChar, ← List.map_tail, dot_mem_map_dotted,
    not_or]

/-- The package of an element type is shorter than what stands before the last dot of the array, unless the
type is in no package. -/
theorem packageOfInternal_element {type : String}
    (stands : Signature.StandsIn type.toList name.toList)
    (same : packageOfInternal type = packageOf (Text.replaceChar '/' '.' name)) :
    packageOfInternal type = "" := by
  by_cases member : '/' ∈ type.toList
  · obtain ⟨inner, simple, split, last⟩ := Text.exists_split_at_last member
    obtain ⟨before, ending, later, whole, -⟩ := stands
    have outer : name.toList = (before ++ 'L' :: inner) ++ '/' :: (simple ++ ending :: later) := by
      rw [whole, split]
      simp
    have longer := (Text.prefix_beforeLast (map_dotted_split outer)).length_le
    rw [← packageOf, ← same, toList_packageOfInternal split last] at longer
    simp only [List.length_map, List.length_append, List.length_cons] at longer
    omega
  · exact packageOfInternal_of_not_mem member

/-- The packages that a class name mentions are all that of the class exactly for these names. -/
theorem packages_className_eq_iff (name : String) :
    (∀ package ∈ (Mention.className name).packages,
        package = packageOf (Text.replaceChar '/' '.' name)) ↔ NamesOnePackage name := by
  rw [Mention.packages, NamesOnePackage]
  split
  next array =>
    obtain ⟨rest, whole⟩ := List.head?_eq_some_iff.mp array
    have nothing : packageOf (Text.replaceChar '/' '.' name) = "" ↔
        '/' ∉ name.toList ∧ '.' ∉ name.toList := by
      rw [packageOf_eq_empty_iff, whole]
      simp
    -- With an element type the array is in the same package only if both are in none.
    rw [List.forall_mem_map, ← nothing]
    constructor
    · intro same
      cases types : Signature.classNames name with
      | nil => exact .inl rfl
      | cons type others =>
        have member : type ∈ Signature.classNames name := types ▸ .head _
        have here := same type member
        rw [← here]
        exact .inr (packageOfInternal_element (Signature.standsIn_of_mem_classNames member) here)
    · rintro (none | empty) type member
      · rw [none] at member
        cases member
      · obtain ⟨before, ending, later, stands, -⟩ := Signature.standsIn_of_mem_classNames member
        have unslashed : '/' ∉ name.toList := (nothing.mp empty).1
        rw [stands] at unslashed
        rw [empty, packageOfInternal_of_not_mem fun inside => unslashed (by simp [inside])]
  next plain =>
    rw [List.forall_mem_singleton]
    split
    next slashed =>
      obtain ⟨before, simple, split, last⟩ := Text.exists_split_at_last slashed
      rw [packageOfInternal_eq_iff split last, Text.afterLast_of_split split last, String.toList_ofList]
    next unslashed =>
      rw [packageOfInternal_of_not_mem unslashed, eq_comm, packageOf_eq_empty_iff]
      exact and_iff_right fun member => unslashed (List.mem_of_mem_tail member)

end Names

/-! ### Records -/

/-- The packages that the name of a class leads to are listed unless they are that of the record. -/
theorem FileTree.mem_referencedPackages_of_name (file : FileTree) {found : List Mention}
    (swept : ∀ mention, mention ∈ found ↔ ConstantMentions file.constants mention) {package : String}
    (derived : package ∈ (Mention.className file.body.thisClass.name.text).packages) :
    package ∈ (file.body.record found).referencedPackages ↔
      package ≠ (file.body.record found).packageName := by
  have refers : file.RefersTo package :=
    (file.refersTo_iff package).mpr ⟨_, derived, .inl file.body.thisClass.mentioned⟩
  rw [file.mem_referencedPackages swept]
  exact and_iff_left refers

/-- Of the packages that the name of a class leads to, a record lists those that are not its own. So a class
is not listed as referring to a package of its own name exactly if its name leads to one package only. -/
theorem decode_own_package {bytes : List UInt8} {record : ClassRecord}
    (decoded : decode bytes = .ok record) :
    (∃ (file : FileTree) (rest : List UInt8), bytes = file.encode ++ rest) ∧
      ∀ (file : FileTree) (rest : List UInt8), bytes = file.encode ++ rest →
        let name := file.body.thisClass.name.text
        let derived := (Mention.className name).packages
        record.qualifiedName = Text.replaceChar '/' '.' name ∧
        (∀ package ∈ derived, package ∈ record.referencedPackages ↔ package ≠ record.packageName) ∧
        ((∀ package ∈ derived, package ∉ record.referencedPackages) ↔ NamesOnePackage name) := by
  refine ⟨FileTree.exists_of_decode decoded, ?_⟩
  rintro file rest rfl name derived
  obtain ⟨found, swept, rfl⟩ := file.record_of_decode decoded
  have listed : ∀ package ∈ derived, package ∈ (file.body.record found).referencedPackages ↔
      package ≠ (file.body.record found).packageName :=
    fun package member => file.mem_referencedPackages_of_name swept member
  have own : (file.body.record found).packageName = packageOf (Text.replaceChar '/' '.' name) :=
    ClassRecord.packageName_ofReferences _ _ _ _
  refine ⟨ClassRecord.qualifiedName_ofReferences _ _ _ _, listed, ?_⟩
  rw [← packages_className_eq_iff]
  refine forall₂_congr fun package member => ?_
  rw [listed package member, not_not, own]

/-! ### Files that hold a class and nothing else -/

section Bare

variable (name : List UInt8)

private def bareConstants : List Constant := [.utf8 name, .classRef 1]

private theorem declares_bareConstants : Declares (UInt16.toNat 3) (bareConstants name) where
  reaches number constant stands := by
    rcases List.mem_cons.mp stands with here | behind
    · cases here
      decide
    · cases List.mem_singleton.mp behind
      exact Nat.le_refl 3
  within := by simp [bareConstants, slotTotal, Constant.slotCount, Constant.isWide]

/-- A class of some name that extends nothing and has no members. -/
def bareClass (short : name.length ≤ 65535) : FileTree where
  minor := 0
  major := 52
  count := 3
  constants := bareConstants name
  fits := by simpa [bareConstants, Constant.Fits] using short
  declares := declares_bareConstants name
  met := (ConstantPool.checkReferences_declaring_ok (declares_bareConstants name)).mp rfl
  body :=
    { access := 33
      thisClass := ⟨2, ⟨1, Text.ofModifiedUtf8 name, ⟨name, .head _, rfl⟩⟩, .tail _ (.head _)⟩
      superclass := none
      interfaces := ⟨[], Nat.zero_le _⟩
      fields := ⟨[], Nat.zero_le _⟩
      methods := ⟨[], Nat.zero_le _⟩
      attributes := ⟨[], Nat.zero_le _⟩ }

end Bare

set_option maxRecDepth 4000 in
/-- A class in a package, whose name leads nowhere else. -/
theorem decode_own_package_inner :
    let file := bareClass [120, 47, 121, 47, 65, 36, 66] (by decide)
    let record := ClassRecord.ofReferences "x.y.A$B" none false ["x.y", "x.y"]
    decode (file.encode ++ []) = .ok record ∧
      (Mention.className file.body.thisClass.name.text).packages = ["x.y"] ∧
      "x.y" ∉ record.referencedPackages := by
  intro file record
  have named : file.body.thisClass.name.text = "x/y/A$B" := by decide +kernel
  have decoded : decode (file.encode ++ []) =
      .ok (.ofReferences "x.y.A$B" none false ["x.y", "x.y"]) := by cbv
  have derived : (Mention.className file.body.thisClass.name.text).packages = ["x.y"] := by
    rw [named]
    decide +kernel
  obtain ⟨-, each⟩ := decode_own_package decoded
  obtain ⟨-, -, none⟩ := each file [] rfl
  refine ⟨decoded, derived, none.mpr ?_ "x.y" ?_⟩
  · rw [named]
    decide +kernel
  · rw [derived]
    exact .head _

set_option maxRecDepth 4000 in
/-- By its name with dots the class `a/b.c` is in `a.b`, and it refers to itself in `a`. -/
theorem decode_lists_own_package :
    let bytes : List UInt8 := [0xCA, 0xFE, 0xBA, 0xBE, 0, 0, 0, 52, 0, 3, 1, 0, 5, 97, 47, 98, 46, 99,
      7, 0, 1, 0, 33, 0, 2, 0, 0, 0, 0, 0, 0, 0, 0, 0, 0]
    let file := bareClass [97, 47, 98, 46, 99] (by decide)
    decode bytes = .ok (.ofReferences "a.b.c" none false ["a", "a"]) ∧ bytes = file.encode ++ [] ∧
      ¬ ∀ package ∈ (Mention.className file.body.thisClass.name.text).packages,
        package ∉ (ClassRecord.ofReferences "a.b.c" none false ["a", "a"]).referencedPackages := by
  intro bytes file
  have decoded : decode bytes = .ok (.ofReferences "a.b.c" none false ["a", "a"]) := by cbv
  have split : bytes = file.encode ++ [] := by decide +kernel
  have named : file.body.thisClass.name.text = "a/b.c" := by decide +kernel
  refine ⟨decoded, split, fun none => none "a" ?_ ?_⟩
  · rw [named]
    decide +kernel
  · rw [ClassRecord.mem_referencedPackages_ofReferences]
    decide +kernel

end PackageAudit.ClassFile
