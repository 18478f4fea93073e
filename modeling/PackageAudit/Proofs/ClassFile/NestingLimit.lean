import PackageAudit.Proofs.ClassFile.RoundTrip
/-!
How deep a class file may nest.

Element values enclose one another in arrays and annotations, and method bodies in the attributes of method
bodies. Steps that build a class file are looked at here that may nest them to any depth, while all else fits.
Where nothing nests deeper than the limit the class file decodes, and otherwise it is refused for its nesting
alone, whatever stands before and behind the structure that nests too deep.
-/

namespace PackageAudit.ClassFile

open Reader ConstantPool

/-! ### Depths -/

namespace ElementValue

theorem levelsOfElements_le_iff (elements : List (String × ElementValue)) (most : Nat) :
    levelsOfElements elements ≤ most ↔ ∀ element ∈ elements, element.2.levels ≤ most := by
  induction elements with
  | nil => simp [levelsOfElements]
  | cons element rest ih => rw [levelsOfElements, Nat.max_le, ih, List.forall_mem_cons]

end ElementValue

/-! ### Steps -/

/-- A field or method behind its attributes, which are answered as well. -/
def Build.describedMember (name descriptor : String) (specs : List AttributeSpec) :
    Build (List (List UInt8) × List UInt8) :=
  Build.attributesOf specs >>= fun parts =>
    Build.member name descriptor parts >>= fun bytes => pure (parts, bytes)

theorem Writes.describedMember {before : ConstantPool → Prop} {name descriptor : String}
    (fits : FitsText name) (fitsDescriptor : FitsText descriptor) {specs : List AttributeSpec}
    (few : specs.length ≤ 65535) (fitsSpecs : AttributeSpec.SpecsFieldsFit specs) :
    Writes before (Build.describedMember name descriptor specs) (AttributeSpec.createdOfSpecs specs)
      fun pool both => (∀ part ∈ both.1, part.length ≤ maxAttributeLength) →
        (ClassFile.member pool).TakesWithin (∀ spec ∈ specs, spec.Shallow) both.2
          (memberContent descriptor (AttributeSpec.contentsOfSpecs specs)).facts := by
  refine ((Writes.attributesOf specs fitsSpecs).bind fun parts =>
    (Writes.member fits fitsDescriptor parts).map (Prod.mk parts) ?_).congr (List.append_nil _)
  rintro pool bytes ⟨-, inOrder⟩ reads small
  have described := reads (by rwa [AttributeSpec.length_contentsOfSpecs]) (inOrder small)
  exact described.congr (AttributeSpec.forall_shallow_iff specs).symm

section Steps

variable {name : String} {builder : ClassBuilder} {outline : Outline} {room : Room}

/-- After a step there is room if there was before and the step itself nests nothing too deep. -/
theorem Stands.run (step : BuildStep) (fits : step.FieldsFitIn builder)
    (stands : builder.pool.nextSlot ≤ 65535 → Stands name builder [] outline room) :
    ∃ roomAfter : Room, (roomAfter.All ↔ room.All ∧ step.Shallow) ∧
      ((step.run builder).2.pool.nextSlot ≤ 65535 →
        Stands name (step.run builder).2 [] (step.outlined outline) roomAfter) := by
  cases step with
  | field field descriptor specs =>
    obtain ⟨⟨fitsName, fitsDescriptor⟩, few, fitsSpecs, small⟩ := fits
    refine ⟨{ room with fields := room.fields ∧ ∀ spec ∈ specs, spec.Shallow }, ?_, fun fewSlots => ?_⟩
    · simp only [Room.All, BuildStep.Shallow, and_assoc, and_left_comm, and_comm]
    · have writes : ((BuildStep.field field descriptor specs).run builder).2 =
          (ClassBuilder.write (Build.describedMember field descriptor specs) (fun both builder =>
            { builder with fields := builder.fields ++ [both.2] }) builder).2 := rfl
      rw [writes] at fewSlots ⊢
      refine Stands.write stands fewSlots rfl
        (.describedMember fitsName fitsDescriptor few fitsSpecs) rfl fun pool here found =>
          { here with fields := ?_ }
      exact here.fields.concatOf (found small)
  | method method descriptor specs =>
    obtain ⟨⟨fitsName, fitsDescriptor⟩, few, fitsSpecs, small⟩ := fits
    refine ⟨{ room with methods := room.methods ∧ ∀ spec ∈ specs, spec.Shallow }, ?_,
      fun fewSlots => ?_⟩
    · simp only [Room.All, BuildStep.Shallow, and_assoc, and_left_comm, and_comm]
    · have writes : ((BuildStep.method method descriptor specs).run builder).2 =
          (ClassBuilder.write (Build.describedMember method descriptor specs) (fun both builder =>
            { builder with methods := builder.methods ++ [both.2] }) builder).2 := rfl
      rw [writes] at fewSlots ⊢
      refine Stands.write stands fewSlots rfl
        (.describedMember fitsName fitsDescriptor few fitsSpecs) rfl fun pool here found =>
          { here with methods := ?_ }
      exact here.methods.concatOf (found small)
  | addAttribute spec =>
    obtain ⟨fitsSpec, small⟩ := fits
    refine ⟨{ room with attributes := room.attributes ∧ spec.Shallow }, ?_, fun fewSlots => ?_⟩
    · simp only [Room.All, BuildStep.Shallow, and_assoc]
    · refine Stands.write stands fewSlots rfl (.attributeOf spec fitsSpec) rfl fun pool here found =>
        { here with attributes := ?_ }
      exact here.attributes.concatOf (found small maxLevels)
  | _ => exact ⟨room, (and_iff_left trivial).symm, .step _ fits stands⟩

/-- By induction on the steps. -/
theorem Stands.runAll (steps : List BuildStep) (fit : BuildStep.FieldsFitInOrder builder steps)
    (stands : builder.pool.nextSlot ≤ 65535 → Stands name builder [] outline room) :
    ∃ roomAfter : Room, (roomAfter.All ↔ room.All ∧ ∀ step ∈ steps, step.Shallow) ∧
      (((steps.mapM BuildStep.run).run builder).2.pool.nextSlot ≤ 65535 →
        Stands name ((steps.mapM BuildStep.run).run builder).2 []
          (steps.foldl BuildStep.outlined outline) roomAfter) := by
  induction steps generalizing builder outline room with
  | nil => exact ⟨room, by simp, stands⟩
  | cons step rest ih =>
    obtain ⟨between, shallow, next⟩ := Stands.run step fit.1 stands
    obtain ⟨roomAfter, shallowRest, last⟩ := ih fit.2 next
    refine ⟨roomAfter, ?_, ?_⟩
    · rw [shallowRest, shallow, List.forall_mem_cons, and_assoc]
    -- The answers of the steps play no part in what they lead to.
    · rw [List.mapM_cons]
      exact last

end Steps

/-! ### Decoding -/

/-- A class file that is built of what fits, but for its nesting, decodes if and only if no step attaches
anything that nests too deep, and otherwise it fails for that reason. Of a default value all levels count, of
an annotation those of its element values, and of a method body those of the bodies and values within. -/
theorem decode_build_iff_shallow {name : String} (fits : FitsText name) {steps : List BuildStep}
    (fit : BuildStep.FieldsFitInOrder (.ofName name) steps)
    (fitsWhole : ((steps.mapM BuildStep.run).run (.ofName name)).2.Fits) :
    let decoded := decode ((steps.mapM BuildStep.run).run (.ofName name)).2.build
    ((∃ record, decoded = .ok record) ↔ ∀ step ∈ steps, step.Shallow) ∧
    ((∃ offset, decoded = .error (.nestingTooDeep offset)) ↔ ¬∀ step ∈ steps, step.Shallow) ∧
    (∀ value, (AttributeSpec.annotationDefault value).Shallow ↔ value.levels ≤ 256) ∧
    (∀ visible list, (AttributeSpec.annotations visible list).Shallow ↔
      ∀ spec ∈ list, ∀ element ∈ spec.elements, element.2.levels ≤ 256) ∧
    ∀ handlers nested, (AttributeSpec.code handlers nested).Shallow ↔
      (AttributeSpec.code handlers nested).bodies ≤ 256 ∧ AttributeSpec.SpecsShallow nested := by
  intro decoded
  obtain ⟨room, shallow, stands⟩ := Stands.runAll steps fit (.ofName fits)
  have all : room.All ↔ ∀ step ∈ steps, step.Shallow := by
    rw [shallow]
    exact and_iff_right ⟨trivial, trivial, trivial⟩
  obtain ⟨mentions, -, whole⟩ := (stands fitsWhole.slots).within_readClass fitsWhole
  have decodes (given : ∀ step ∈ steps, step.Shallow) : ∃ record, decoded = .ok record :=
    ⟨_, decode_of_takes (whole.takes (all.mpr given))⟩
  have refused (deep : ¬∀ step ∈ steps, step.Shallow) :
      ∃ offset, decoded = .error (.nestingTooDeep offset) :=
    decode_of_stopsDeep (whole.stops (mt all.mp deep))
  refine ⟨⟨?_, decodes⟩, ⟨?_, refused⟩, ?_, ?_, ?_⟩
  · rintro ⟨record, answered⟩
    by_contra deep
    obtain ⟨offset, failed⟩ := refused deep
    rw [answered] at failed
    cases failed
  · rintro ⟨offset, failed⟩ given
    obtain ⟨record, answered⟩ := decodes given
    rw [answered] at failed
    cases failed
  · intro value
    exact and_iff_left (Nat.zero_le _)
  · intro visible list
    refine (and_iff_left (Nat.zero_le _)).trans (forall₂_congr fun spec _ => ?_)
    exact ElementValue.levelsOfElements_le_iff spec.elements 256
  · intro handlers nested
    exact and_comm

/-! ### At the limit -/

/-- Arrays within one another, each with a text before the next array. -/
def ElementValue.nestedArrays (arrays : Nat) : ElementValue :=
  Nat.repeat (fun inner => .array [.string "a", inner]) arrays (.string "b")

namespace ElementValue

theorem fits_nestedArrays (arrays : Nat) : (nestedArrays arrays).Fits := by
  induction arrays with
  | zero => exact (by decide : FitsText "b")
  | succ arrays ih => exact ⟨by simp, (by decide : FitsText "a"), ih, trivial⟩

theorem levels_nestedArrays (arrays : Nat) : (nestedArrays arrays).levels = arrays + 1 := by
  induction arrays with
  | zero => rfl
  | succ arrays ih =>
    change max 1 (max (nestedArrays arrays).levels 0) + 1 = _
    omega

theorem length_nestedArrays (arrays : Nat) (pool : PoolBuilder) :
    ((Build.elementValue (nestedArrays arrays)).run pool).1.length = 6 * arrays + 3 := by
  induction arrays generalizing pool with
  | zero => rfl
  | succ arrays ih =>
    change (_ :: encodeTable [_ :: encode16 _,
      ((Build.elementValue (nestedArrays arrays)).run _).1]).length = _
    simp [encodeTable, ih, encode16, bytes16]
    omega

end ElementValue

/-- Method bodies within one another, the innermost of which names a source file. -/
def AttributeSpec.nestedBodies (bodies : Nat) : AttributeSpec :=
  Nat.repeat (fun inner => .code [] [inner]) bodies (.sourceFile "B.java")

namespace AttributeSpec

theorem fieldsFit_nestedBodies (bodies : Nat) : (nestedBodies bodies).FieldsFit := by
  induction bodies with
  | zero => exact (by decide : FitsText "B.java")
  | succ bodies ih => exact ⟨by simp, by simp, by simp, ih, trivial⟩

theorem valuesShallow_nestedBodies (bodies : Nat) : (nestedBodies bodies).ValuesShallow := by
  induction bodies with
  | zero => trivial
  | succ bodies ih => exact ⟨ih, trivial⟩

theorem bodies_nestedBodies (bodies : Nat) : (nestedBodies bodies).bodies = bodies := by
  induction bodies with
  | zero => rfl
  | succ bodies ih =>
    change max (nestedBodies bodies).bodies 0 + 1 = _
    omega

theorem length_nestedBodies (bodies : Nat) (pool : PoolBuilder) :
    ((Build.attributeOf (nestedBodies bodies)).run pool).1.length = 19 * bodies + 8 := by
  induction bodies generalizing pool with
  | zero =>
    change ((Build.named "SourceFile" (encode16 _)).run _).1.length = _
    rw [Build.length_named]
    rfl
  | succ bodies ih =>
    change ((Build.named "Code" (bytes16 1 ++ bytes16 1 ++ bytes32 1 ++ [0xB1] ++ encodeTable [] ++
      encodeTable [((Build.attributeOf (nestedBodies bodies)).run pool).1])).run _).1.length = _
    rw [Build.length_named]
    simp [encodeTable, ih, bytes16, bytes32]
    omega

end AttributeSpec

/-- Of the values and of the bodies of a method as many levels as there may be decode, and one level more of
either does not. -/
theorem decode_build_iff_shallow_at_limit :
    let steps (arrays bodies : Nat) : List BuildStep :=
      [.method "run" "()V" [.nestedBodies bodies, .annotationDefault (.nestedArrays arrays)]]
    let decoded (arrays bodies : Nat) :=
      decode (((steps arrays bodies).mapM BuildStep.run).run (.ofName "a/B")).2.build
    (∃ record, decoded 255 256 = .ok record) ∧
      (∃ offset, decoded 256 256 = .error (.nestingTooDeep offset)) ∧
      ∃ offset, decoded 255 257 = .error (.nestingTooDeep offset) := by
  intro steps decoded
  have shallow (arrays bodies : Nat) :
      (∀ step ∈ steps arrays bodies, step.Shallow) ↔ bodies ≤ 256 ∧ arrays + 1 ≤ 256 := by
    simp [steps, BuildStep.Shallow, AttributeSpec.Shallow, AttributeSpec.ValuesShallow,
      AttributeSpec.valuesShallow_nestedBodies, AttributeSpec.bodies_nestedBodies,
      ElementValue.levels_nestedArrays, AttributeSpec.bodies, maxLevels]
  have fit (arrays bodies : Nat) (fewArrays : arrays ≤ 256) (fewBodies : bodies ≤ 257) :
      BuildStep.FieldsFitInOrder (.ofName "a/B") (steps arrays bodies) := by
    refine ⟨⟨⟨by decide, by decide⟩, by simp, ⟨AttributeSpec.fieldsFit_nestedBodies bodies,
      ElementValue.fits_nestedArrays arrays, trivial⟩, ?_⟩, trivial⟩
    intro bytes member
    rcases List.mem_pair.mp member with rfl | rfl
    · change ((Build.attributeOf (.nestedBodies bodies)).run _).1.length ≤ _
      rw [AttributeSpec.length_nestedBodies, maxAttributeLength]
      omega
    · change ((Build.named "AnnotationDefault"
        ((Build.elementValue (.nestedArrays arrays)).run _).1).run _).1.length ≤ _
      rw [Build.length_named, ElementValue.length_nestedArrays, maxAttributeLength]
      omega
  have name : FitsText "a/B" := by decide
  refine ⟨?_, ?_, ?_⟩
  · refine (decode_build_iff_shallow name (fit 255 256 (by decide) (by decide)) ?_).1.mpr ?_
    · constructor <;> decide +kernel
    · exact (shallow 255 256).mpr (by decide)
  · refine (decode_build_iff_shallow name (fit 256 256 (by decide) (by decide)) ?_).2.1.mpr ?_
    · constructor <;> decide +kernel
    · exact mt (shallow 256 256).mp (by decide)
  · refine (decode_build_iff_shallow name (fit 255 257 (by decide) (by decide)) ?_).2.1.mpr ?_
    · constructor <;> decide +kernel
    · exact mt (shallow 255 257).mp (by decide)

end PackageAudit.ClassFile
