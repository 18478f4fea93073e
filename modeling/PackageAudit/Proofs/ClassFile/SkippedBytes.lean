import Mathlib
import PackageAudit.Proofs.ClassFile.FileRecognition
import PackageAudit.Proofs.ClassFile.Overlooking
/-!
The bytes of a class file that reading skips.

An attribute is framed by its declared length. So a table of attributes takes the bytes of its
attributes whatever reading finds in them. All of an attribute is skipped where its name is not
recognised, and so are the instructions of a method body. Where these bytes are can be told from the
others, down through the method bodies that enclose one another, and no answer and no error depends
on them.
-/

namespace PackageAudit.ClassFile

open Reader

/-! ### Framing -/

/-- An attribute before any of it is understood. -/
structure AttributeFrame where
  name : UInt16
  length : UInt32
  payload : List UInt8
  full : payload.length = length.toNat

def AttributeFrame.encode (frame : AttributeFrame) : List UInt8 :=
  encode16 frame.name ++ (encode32 frame.length ++ frame.payload)

@[simp]
theorem AttributeFrame.length_encode (frame : AttributeFrame) :
    frame.encode.length = 6 + frame.length.toNat := by
  simp only [encode, encode16, bytes16, encode32, bytes32, List.length_append, List.length_cons,
    List.length_nil, frame.full]
  omega

namespace Reader

variable {α β τ : Type}

/-- Moves over a byte string of a language, as far as that reaches, whatever stands behind it. -/
def Spans (reader : Reader α) (language : Language α) : Prop :=
  ∀ ⦃cursor value after⦄, reader cursor = .ok (value, after) →
    ∃ bytes, language bytes value ∧ cursor.rest = bytes ++ after.rest ∧
      after.offset = cursor.offset + bytes.length

namespace Spans

variable {reader : Reader α} {next : α → Reader β} {language : Language α}

theorem mono {other : Language α} (spans : reader.Spans language)
    (weaker : ∀ bytes value, language bytes value → other bytes value) : reader.Spans other := by
  intro cursor value after read
  obtain ⟨bytes, inLanguage, reach⟩ := spans read
  exact ⟨bytes, weaker _ _ inLanguage, reach⟩

theorem bind {others : α → Language β} (first : reader.Spans language)
    (second : ∀ value, (next value).Spans (others value)) :
    (reader >>= next).Spans (language.followed others) := by
  intro cursor result after read
  obtain ⟨value, middle, begun, ended⟩ := exists_of_bind read
  obtain ⟨front, inFirst, split, place⟩ := first begun
  obtain ⟨behind, inSecond, rest, last⟩ := second value ended
  refine ⟨front ++ behind, ⟨front, behind, value, rfl, inFirst, inSecond⟩, ?_, ?_⟩
  · rw [split, rest, List.append_assoc]
  · rw [last, place, List.length_append, Nat.add_assoc]

theorem of_recognizes (recognizes : reader.Recognizes language) : reader.Spans language :=
  fun _ _ _ read => recognizes.advances read

/-- Not what is read within a length counts but the length. -/
theorem within (count : Nat) (reader : Reader α) :
    (Reader.within count reader).Spans fun bytes _ => bytes.length = count := by
  intro cursor value after read
  unfold Reader.within at read
  split at read
  next taken rest split =>
    obtain ⟨whole, rfl⟩ := (splitExactly?_eq_some_iff _ _ _ _).mp split
    split at read
    next =>
      cases read
      exact ⟨taken, rfl, whole, rfl⟩
    next => cases read
  next => cases read

variable {encode : τ → List UInt8}

/-- By induction on the number of items. -/
private theorem timesBehind (item : reader.Spans fun bytes _ => ∃ tree, bytes = encode tree)
    (seen : List α) (count : Nat) :
    (Reader.timesBehind reader seen count).Spans fun bytes _ =>
      ∃ trees : List τ, trees.length = count ∧ bytes = (trees.map encode).flatten := by
  induction count generalizing seen with
  | zero => exact (of_recognizes (.pure _)).mono fun bytes _ empty => ⟨[], rfl, empty.1⟩
  | succ count ih =>
    refine (item.bind fun value => ih (value :: seen)).mono ?_
    rintro _ _ ⟨_, _, _, rfl, ⟨tree, rfl⟩, trees, full, rfl⟩
    exact ⟨tree :: trees, congrArg (· + 1) full, rfl⟩

theorem table (item : reader.Spans fun bytes _ => ∃ tree, bytes = encode tree) :
    (Reader.table reader).Spans fun bytes _ => ∃ table : Table τ, bytes = table.encode encode := by
  refine ((of_recognizes .u16).bind fun count => item.timesBehind [] count.toNat).mono ?_
  rintro _ _ ⟨_, _, count, rfl, rfl, trees, full, rfl⟩
  have few : trees.length ≤ 65535 := by
    have bound := count.toNat_lt
    omega
  refine ⟨⟨trees, few⟩, ?_⟩
  rw [Table.encode, encodeTable, List.length_map, full]
  rfl

end Spans

end Reader

namespace Attribute

/-- However little of its payload is read, an attribute is left behind as a whole. -/
theorem entry_spans (pool : ConstantPool) (body : Reader Facts) :
    (entry pool body).Spans fun bytes _ => ∃ frame : AttributeFrame, bytes = frame.encode := by
  refine (Spans.bind (.of_recognizes .u16) fun name => .bind (.of_recognizes .u32) fun length =>
    .bind (.of_recognizes (.lift (pool.text name))) fun _ => .within length.toNat _).mono ?_
  rintro _ _ ⟨_, _, name, rfl, rfl, _, _, length, rfl, rfl, _, payload, _, rfl, ⟨rfl, _⟩, full⟩
  exact ⟨⟨name, length, payload, full⟩, rfl⟩

theorem table_spans (pool : ConstantPool) (body : Reader Facts) :
    (table pool body).Spans fun bytes _ =>
      ∃ frames : Table AttributeFrame, bytes = frames.encode AttributeFrame.encode := by
  refine (Spans.bind (entry_spans pool body).table fun _ => .of_recognizes (.pure _)).mono ?_
  rintro _ _ ⟨_, _, _, rfl, ⟨frames, rfl⟩, rfl, rfl⟩
  exact ⟨frames, List.append_nil _⟩

end Attribute

theorem Table.length_encode_frames (frames : Table AttributeFrame) :
    (frames.encode AttributeFrame.encode).length =
      2 + (frames.items.map fun frame => 6 + frame.length.toNat).sum := by
  rw [Table.encode, encodeTable, List.length_append, List.length_flatten, List.map_map]
  congr 2
  exact List.map_congr_left fun frame _ => frame.length_encode

/-! ### Skipped places -/

namespace Skipped

section Structures

variable (named : UInt16 → String → Prop)

/-- All of an attribute whose name is not recognised, and the skipped places in a method body. -/
def payload (body : Places) (name : UInt16) : Places := fun bytes place =>
  (∀ text, named name text → AttributeKind.ofName text = .unrecognized) ∨
    (named name "Code" ∧ body bytes place)

def entry (body behind : Places) : Places :=
  .word16 fun name => .word32 fun length => .within length.toNat (payload named body name) behind

/-- The instructions of a method body and, behind its handlers, places in its attributes. -/
def code (attributes : Places) : Places :=
  .words 2 (.word32 fun length => .within length.toNat .everywhere (.table (.words 4) attributes))

/-- Method bodies that enclose one another down to a depth. -/
def body : Nat → Places
  | 0 => .nowhere
  | depth + 1 => code (.table (entry named (body depth)) .nowhere)

def attributes (depth : Nat) : Places → Places := .table (entry named (body named depth))

def member (depth : Nat) (behind : Places) : Places := .words 3 (attributes named depth behind)

/-- A class behind its constants, which give the attributes their names. -/
def classBody (depth : Nat) : Places :=
  .words 3 (.table (.words 1) (.table (member named depth) (.table (member named depth)
    (attributes named depth .nowhere))))

end Structures

/-- Constants behind a count that declares them, whether or not their references can be followed. -/
def Constants : Language (List Constant) := fun bytes constants =>
  ∃ count : UInt16, (∀ constant ∈ constants, constant.Fits) ∧ Declares count.toNat constants ∧
    bytes = encode16 count ++ constants.flatMap Constant.encode

/-- The bytes that are skipped in a class file, down through method bodies to a depth. -/
def file (depth : Nat) : Places :=
  .word32 fun _ => .words 2 (.behind Constants fun constants => classBody (TextAt constants) depth)

end Skipped

namespace ConstantPool

/-- A text is found at a number. -/
def Names (pool : ConstantPool) (index : UInt16) (text : String) : Prop :=
  pool.text index = .ok text

/-- Constants without a look at their references. -/
private theorem recognizes_unchecked :
    (u16 >>= fun count => readSlots [none] (count.toNat - 1) >>= fun slots =>
      pure (ofSlots slots)).Recognizes fun bytes pool =>
        ∃ (count : UInt16) (constants : List Constant), (∀ constant ∈ constants, constant.Fits) ∧
          Declares count.toNat constants ∧
          bytes = encode16 count ++ constants.flatMap Constant.encode ∧
          pool = declaring count.toNat constants := by
  refine (Recognizes.u16.bind fun count => (recognizes_readSlots [none] _).map ofSlots).congr
    fun bytes pool => ?_
  constructor
  · rintro ⟨_, _, count, rfl, rfl, slots, ⟨constants, fits, fills, rfl, rfl⟩, rfl⟩
    exact ⟨count, constants, fits, fills.declares, rfl, rfl⟩
  · rintro ⟨count, constants, fits, declares, rfl, rfl⟩
    exact ⟨_, _, count, rfl, rfl, _, ⟨constants, fits, declares.fills, rfl, rfl⟩, rfl⟩

/-- The constants decide the names of attributes, also where one of their references is wrong. -/
theorem read_overlooks (layout : (UInt16 → String → Prop) → Places) :
    read.Overlooks (.behind Skipped.Constants fun constants => layout (TextAt constants))
      fun pool => layout pool.Names := by
  have checked : read = (u16 >>= fun count => readSlots [none] (count.toNat - 1) >>= fun slots =>
      pure (ofSlots slots)) >>= fun pool => liftM pool.checkReferences >>= fun _ => pure pool := by
    simp only [read, bind_assoc, pure_bind]
  rw [checked]
  refine (Overlooks.bind (.behind recognizes_unchecked) fun pool => .bind (.lift _ _) fun _ =>
    .answer pool fun pool => layout pool.Names).mono fun bytes place => ?_
  rintro ⟨front, constants, rest, later, split, ⟨count, fits, declares, rfl⟩, skipped, same⟩
  -- The pool lists the constants that stand there, so both give the attributes the same names.
  have lists : (declaring count.toNat constants).Lists constants := get_declaring declares
  have names : TextAt constants = (declaring count.toNat constants).Names := by
    funext index text
    exact propext (lists.textAt_iff index text).symm
  rw [names] at skipped
  exact ⟨_, _, rest, later, split, ⟨count, constants, fits, declares, rfl, rfl⟩, skipped, same⟩

end ConstantPool

section Readers

variable (pool : ConstantPool)

namespace Attribute

theorem className_overlooks (behind : Places) :
    (className pool).Overlooks (.words 1 behind) fun _ => behind :=
  .bind .word fun _ => .bind (.lift _ _) fun _ => .pure _ _

theorem typeText_overlooks (behind : Places) :
    (typeText pool).Overlooks (.words 1 behind) fun _ => behind :=
  .bind .word fun _ => .bind (.lift _ _) fun _ => .pure _ _

theorem handler_overlooks (behind : Places) :
    (handler pool).Overlooks (.words 4 behind) fun _ => behind :=
  .bind .word fun _ => .bind .word fun _ => .bind .word fun _ => .bind .word fun _ => .lift _ _

theorem code_overlooks {attributes : Reader Facts} {inside behind : Places}
    (inner : attributes.Overlooks inside fun _ => behind) :
    (code pool attributes).Overlooks (Skipped.code inside) fun _ => behind :=
  .bind .word fun _ => .bind .word fun _ => .bind .u32 fun length =>
    .bind (.skip length.toNat _) fun _ => .bind (.table (handler_overlooks pool) _) fun _ =>
    .bind inner fun _ => .pure _ _

private theorem payload_eq_pure {name : String}
    (unknown : AttributeKind.ofName name = .unrecognized) (body : Reader Facts) :
    payload pool body name = pure .empty := by
  unfold payload
  split
  case h_14 => rfl
  all_goals exact absurd unknown (by decide)

/-- A name that is recognised leaves nothing to overlook but in a method body. -/
theorem payload_overlooks {index : UInt16} {name : String} (named : pool.Names index name)
    {body : Reader Facts} {inside : Places} (inner : body.Overlooks inside fun _ => .everywhere) :
    (payload pool body name).Overlooks (Skipped.payload pool.Names inside index)
      fun _ => .everywhere := by
  have only : ∀ text, pool.Names index text → text = name := fun text found =>
    Except.ok.inj (found.symm.trans named)
  by_cases unknown : AttributeKind.ofName name = .unrecognized
  · -- Nothing is read, so that any bytes will do.
    rw [payload_eq_pure pool unknown]
    exact (Overlooks.pure _ .everywhere).mono fun _ _ _ => trivial
  by_cases code : name = "Code"
  · subst code
    refine inner.mono fun bytes place => ?_
    rintro (unnamed | ⟨_, inside⟩)
    · exact absurd (unnamed _ named) unknown
    · exact inside
  · -- Every byte may matter, and none is laid out as skipped.
    refine (Overlooks.nowhere _ _).mono fun bytes place => ?_
    rintro (unnamed | ⟨found, _⟩)
    · exact unknown (unnamed _ named)
    · exact code (only _ found).symm

theorem entry_overlooks {body : Reader Facts} {inside : Places}
    (inner : body.Overlooks inside fun _ => .everywhere) (behind : Places) :
    (entry pool body).Overlooks (Skipped.entry pool.Names inside behind) fun _ => behind :=
  .bind .u16 fun _ => .bind .u32 fun length => .bind_lift fun _ named =>
    .within length.toNat (payload_overlooks pool named inner)

theorem table_overlooks {body : Reader Facts} {inside : Places}
    (inner : body.Overlooks inside fun _ => .everywhere) (behind : Places) :
    (table pool body).Overlooks (.table (Skipped.entry pool.Names inside) behind) fun _ => behind :=
  .bind (.table (entry_overlooks pool inner) behind) fun _ => .pure _ _

/-- By induction on the levels that are left, for bodies that are laid out to any depth. -/
theorem bodyWithin_overlooks (levels depth : Nat) :
    (bodyWithin pool levels).Overlooks (Skipped.body pool.Names depth) fun _ => .everywhere := by
  induction levels generalizing depth with
  | zero =>
    -- Bodies that are nested too deep fail before any of their bytes is read.
    exact fun _ _ _ _ => .fails _
  | succ levels ih =>
    cases depth with
    | zero => exact .nowhere _ _
    | succ depth => exact (code_overlooks pool (table_overlooks pool (ih depth) _)).last

theorem tableWithin_overlooks (levels depth : Nat) (behind : Places) :
    (tableWithin pool levels).Overlooks (Skipped.attributes pool.Names depth behind)
      fun _ => behind :=
  table_overlooks pool (bodyWithin_overlooks pool levels depth) behind

end Attribute

theorem member_overlooks (depth : Nat) (behind : Places) :
    (member pool).Overlooks (Skipped.member pool.Names depth behind) fun _ => behind :=
  .bind .word fun _ => .bind .word fun _ => .bind (Attribute.typeText_overlooks pool _) fun _ =>
    .bind (Attribute.tableWithin_overlooks pool maxLevels depth _) fun _ => .pure _ _

theorem readBody_overlooks (depth : Nat) :
    (readBody pool).Overlooks (Skipped.classBody pool.Names depth) fun _ => .nowhere :=
  .bind .word fun _ => .bind .word fun _ => .bind (.lift _ _) fun _ => .bind .word fun _ =>
    .bind (.lift _ _) fun _ => .bind (.table (Attribute.className_overlooks pool) _) fun _ =>
    .bind (.table (member_overlooks pool depth) _) fun _ =>
    .bind (.table (member_overlooks pool depth) _) fun _ =>
    .bind (Attribute.tableWithin_overlooks pool maxLevels depth _) fun _ =>
    .bind (.lift _ _) fun _ => .pure _ _

end Readers

theorem readMagic_overlooks (behind : Places) :
    readMagic.Overlooks (.word32 fun _ => behind) fun _ => behind := by
  refine .bind .u32 fun magic => ?_
  split
  · exact .lift (.error _) _
  · exact .pure _ _

theorem readClass_overlooks (depth : Nat) :
    readClass.Overlooks (Skipped.file depth) fun _ => .nowhere :=
  .bind (readMagic_overlooks _) fun _ => .bind .word fun _ => .bind .word fun _ =>
    .bind (ConstantPool.read_overlooks fun named => Skipped.classBody named depth) fun pool =>
    readBody_overlooks pool depth

/-- A table of attributes takes two bytes, and for each attribute six and its declared length, however
little of it is read. And what reading skips does not matter: with other bytes there a file has the
same record, or the same is wrong with it at the same place. -/
theorem decode_skips :
    (∀ (pool : ConstantPool) (levels : Nat) (cursor after : Cursor) (facts : Facts),
      Attribute.tableWithin pool levels cursor = .ok (facts, after) →
        ∃ frames : Table AttributeFrame,
          cursor.rest = frames.encode AttributeFrame.encode ++ after.rest ∧
          after.offset =
            cursor.offset + 2 + (frames.items.map fun frame => 6 + frame.length.toNat).sum) ∧
    ∀ (depth : Nat) (bytes other : List UInt8), DifferOnly (Skipped.file depth) bytes other →
      decode other = decode bytes := by
  constructor
  · intro pool levels cursor after facts read
    obtain ⟨_, ⟨frames, rfl⟩, split, place⟩ := Attribute.table_spans pool _ read
    exact ⟨frames, split, by rw [place, frames.length_encode_frames, Nat.add_assoc]⟩
  · intro depth bytes other differ
    have same := readClass_overlooks depth 0 bytes other differ
    unfold decode
    generalize readClass ⟨0, bytes⟩ = outcome, readClass ⟨0, other⟩ = another at same ⊢
    cases same with
    | fails error => rfl
    | answers _ => rfl

/-- A method body with one instruction, and an attribute of an unknown name with one byte. -/
def bodyWith (instruction unknown : UInt8) : List UInt8 :=
  [0, 1, 0, 0, 0, 0, 0, 1, instruction, 0, 0, 0, 1, 0, 5, 0, 0, 0, 1, unknown]

private def bodyConstants : List Constant :=
  [.utf8 [97, 47, 66], .classRef 1, .utf8 [40, 41, 86], .utf8 [67, 111, 100, 101], .utf8 [88]]

private def constantBytes : List UInt8 :=
  [0, 6, 1, 0, 3, 97, 47, 66, 7, 0, 1, 1, 0, 3, 40, 41, 86, 1, 0, 4, 67, 111, 100, 101, 1, 0, 1, 88]

/-- A method around a body, and no attributes of the class behind it. -/
private def methodAround (body : List UInt8) : List UInt8 :=
  [0, 0, 0, 1, 0, 3, 0, 1, 0, 4, 0, 0, 0, 20] ++ (body ++ [0, 0])

private def classAround (body : List UInt8) : List UInt8 :=
  [0, 0, 0, 2, 0, 0, 0, 0, 0, 0, 0, 1] ++ methodAround body

def fileAround (body : List UInt8) : List UInt8 :=
  [0xCA, 0xFE, 0xBA, 0xBE, 0, 0, 0, 52] ++ (constantBytes ++ classAround body)

private theorem skipped_constants : Skipped.Constants constantBytes bodyConstants :=
  ⟨6, by simp [bodyConstants, Constant.Fits], by decide, by decide⟩

/-- What is skipped in the method body is skipped in the file. -/
private theorem file_of_body {body : List UInt8} (full : body.length = 20) {place : Nat}
    (inside : place < 20) (skipped : Skipped.body (TextAt bodyConstants) 1 body place) :
    Skipped.file 1 (fileAround body) (place + 62) := by
  have named : TextAt bodyConstants 4 "Code" := ⟨[67, 111, 100, 101], by decide, by decide +kernel⟩
  have framed : Skipped.body (TextAt bodyConstants) 1 ((body ++ [0, 0]).take 20) place := by
    rwa [← full, List.take_left]
  have inMethod : Skipped.member (TextAt bodyConstants) 1
      (Skipped.attributes (TextAt bodyConstants) 1 .nowhere) (methodAround body) (place + 14) :=
    Places.words_cons (Places.words_cons (Places.words_cons (Places.word16_cons (Places.word16_cons
      (Places.word32_cons (.inl ⟨inside, .inr ⟨named, framed⟩⟩))))))
  have inClass : Skipped.classBody (TextAt bodyConstants) 1 (classAround body) (place + 26) :=
    Places.words_cons (Places.words_cons (Places.words_cons (Places.word16_cons (Places.word16_cons
      (Places.word16_cons inMethod)))))
  exact Places.word32_cons (Places.words_cons (Places.words_cons
    ⟨constantBytes, bodyConstants, classAround body, _, rfl, skipped_constants, inClass,
      Nat.add_comm (place + 26) 28⟩))

/-- The instruction and the byte of the attribute in the method body are skipped, and the attribute
table of that body takes its nine bytes. -/
theorem decode_skips_in_body :
    let file := fileAround (bodyWith 177 9)
    let other := fileAround (bodyWith 0 255)
    let pool := ConstantPool.ofSlots (none :: bodyConstants.map some)
    let table : Cursor := ⟨73, [0, 1, 0, 5, 0, 0, 0, 1, 9, 0, 0]⟩
    (DifferOnly (Skipped.file 1) file other ∧ decode other = decode file ∧
      decode file = .ok (.ofReferences "a.B" none false ["a", "a"])) ∧
    Attribute.tableWithin pool 255 table = .ok (.empty, ⟨82, [0, 0]⟩) ∧
      ∃ frames : Table AttributeFrame,
        table.rest = frames.encode AttributeFrame.encode ++ [0, 0] ∧
        82 = 73 + 2 + (frames.items.map fun frame => 6 + frame.length.toNat).sum := by
  intro file other pool table
  have instruction : Skipped.file 1 file 70 :=
    file_of_body rfl (by decide) (Places.words_cons (Places.words_cons (Places.word32_cons
      (.inl ⟨Nat.zero_lt_one, trivial⟩))))
  have unnamed : ∀ text, TextAt bodyConstants 5 text →
      AttributeKind.ofName text = .unrecognized := by
    rintro _ ⟨bytes, stands, rfl⟩
    have found : StandsAt bodyConstants 5 (.utf8 [88]) := by decide
    cases stands.unique found
    decide +kernel
  have unknown : Skipped.file 1 file 81 :=
    file_of_body rfl (by decide) (Places.words_cons (Places.words_cons (Places.word32_cons
      (.inr ⟨by decide, Places.word16_cons (Places.word16_cons (Places.word16_cons
        (Places.word32_cons (.inl ⟨Nat.zero_lt_one, .inl unnamed⟩))))⟩))))
  have differ : DifferOnly (Skipped.file 1) file other := by
    refine ⟨rfl, fun place unlike => ?_⟩
    have known : ∀ place < 84, file[place]? ≠ other[place]? → place = 70 ∨ place = 81 := by
      decide +kernel
    by_cases inside : place < 84
    · rcases known place inside unlike with rfl | rfl
      · exact instruction
      · exact unknown
    · -- Behind the end both have nothing.
      have short : file.length = 84 ∧ other.length = 84 := ⟨rfl, rfl⟩
      rw [List.getElem?_eq_none (by omega), List.getElem?_eq_none (by omega)] at unlike
      exact absurd rfl unlike
  have read : Attribute.tableWithin pool 255 table = .ok (.empty, ⟨82, [0, 0]⟩) := by
    decide +kernel
  obtain ⟨spans, skips⟩ := decode_skips
  have same : decode other = decode file := skips 1 file other differ
  exact ⟨⟨differ, same, by decide +kernel⟩, read, spans pool 255 table _ _ read⟩

end PackageAudit.ClassFile
