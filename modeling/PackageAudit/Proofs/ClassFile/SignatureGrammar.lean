import PackageAudit.ClassFile.Signature
/-!
The grammar of descriptors and signatures.

A field or method descriptor, and the signature of a field, method or class without formal type
parameters, is printed from a tree. The scanner takes every character of what is printed and reports
the outermost name of each class type in the tree, from left to right. The states between two parts of
a tree are few: before a type, where a name may end, and within a list of type arguments; so each
kind of tree is scanned from one kind of state to another, whatever encloses it.
-/

namespace PackageAudit.ClassFile.Signature

/-! ### Trees -/

inductive Primitive where
  | byte | char | double | float | int | long | short | boolean | void

def Primitive.letter : Primitive → Char
  | .byte => 'B'
  | .char => 'C'
  | .double => 'D'
  | .float => 'F'
  | .int => 'I'
  | .long => 'J'
  | .short => 'S'
  | .boolean => 'Z'
  | .void => 'V'

/-- How a type argument stands to the type it names. -/
inductive Bound where
  | exactly
  | above
  | below

def Bound.mark : Bound → List Char
  | .exactly => []
  | .above => ['+']
  | .below => ['-']

mutual

/-- A type. The trees are freer than the grammar in that a primitive type may stand for any other. -/
inductive TypeTree where
  | primitive (kind : Primitive)
  | array (element : TypeTree)
  | variable (name : String)
  /-- A class by the parts of its package and its own name, with the classes within it. -/
  | classType (package : List String) (name : String) (arguments : Arguments) (inner : Inner)

/-- The type arguments of a class, none if it has no list of them. -/
inductive Arguments where
  | nil
  | any (rest : Arguments)
  | type (bound : Bound) (type : TypeTree) (rest : Arguments)

inductive Inner where
  | nil
  | cons (name : String) (arguments : Arguments) (rest : Inner)

end

inductive SignatureTree where
  | field (type : TypeTree)
  | method (parameters : List TypeTree) (result : TypeTree) (throws : List TypeTree)
  | classes (superclass : TypeTree) (interfaces : List TypeTree)

/-! ### Printing -/

def qualified (package : List String) (name : String) : List Char :=
  package.flatMap (fun part => part.toList ++ ['/']) ++ name.toList

/-- A list of type arguments in its brackets, or nothing for none. -/
def enclosed : List Char → List Char
  | [] => []
  | text => '<' :: (text ++ ['>'])

mutual

def TypeTree.print : TypeTree → List Char
  | .primitive kind => [kind.letter]
  | .array element => '[' :: element.print
  | .variable name => 'T' :: (name.toList ++ [';'])
  | .classType package name arguments inner =>
    'L' :: (qualified package name ++ (enclosed arguments.print ++ (inner.print ++ [';'])))

def Arguments.print : Arguments → List Char
  | .nil => []
  | .any rest => '*' :: rest.print
  | .type bound type rest => bound.mark ++ (type.print ++ rest.print)

def Inner.print : Inner → List Char
  | .nil => []
  | .cons name arguments rest => '.' :: (name.toList ++ (enclosed arguments.print ++ rest.print))

end

def SignatureTree.print : SignatureTree → List Char
  | .field type => type.print
  | .method parameters result throws =>
    '(' :: (parameters.flatMap TypeTree.print ++ (')' :: (result.print ++
      throws.flatMap fun type => '^' :: type.print)))
  | .classes superclass interfaces => superclass.print ++ interfaces.flatMap TypeTree.print

/-! ### What the trees say -/

mutual

/-- The outermost names of the class types, from left to right. -/
def TypeTree.names : TypeTree → List String
  | .primitive _ | .variable _ => []
  | .array element => element.names
  | .classType package name arguments inner =>
    String.ofList (qualified package name) :: (arguments.names ++ inner.names)

def Arguments.names : Arguments → List String
  | .nil => []
  | .any rest => rest.names
  | .type _ type rest => type.names ++ rest.names

def Inner.names : Inner → List String
  | .nil => []
  | .cons _ arguments rest => arguments.names ++ rest.names

end

def SignatureTree.names : SignatureTree → List String
  | .field type => type.names
  | .method parameters result throws =>
    parameters.flatMap TypeTree.names ++ (result.names ++ throws.flatMap TypeTree.names)
  | .classes superclass interfaces => superclass.names ++ interfaces.flatMap TypeTree.names

mutual

/-- How many lists of type arguments enclose one another. -/
def TypeTree.levels : TypeTree → Nat
  | .primitive _ | .variable _ => 0
  | .array element => element.levels
  | .classType _ _ arguments inner => max arguments.levels inner.levels

/-- The list itself counts if it has an argument. -/
def Arguments.levels : Arguments → Nat
  | .nil => 0
  | .any rest => max 1 rest.levels
  | .type _ type rest => max (type.levels + 1) rest.levels

def Inner.levels : Inner → Nat
  | .nil => 0
  | .cons _ arguments rest => max arguments.levels rest.levels

end

def IsIdentifier (name : String) : Prop :=
  name.toList ≠ [] ∧ ∀ c ∈ name.toList, c ∉ ['.', ';', '[', '/', '<', '>', ':']

instance (name : String) : Decidable (IsIdentifier name) :=
  @instDecidableAnd _ _ inferInstance (List.decidableBAll _ _)

mutual

def TypeTree.Named : TypeTree → Prop
  | .primitive _ => True
  | .array element => element.Named
  | .variable name => IsIdentifier name
  | .classType package name arguments inner =>
    (∀ part ∈ package, IsIdentifier part) ∧ IsIdentifier name ∧ arguments.Named ∧ inner.Named

def Arguments.Named : Arguments → Prop
  | .nil => True
  | .any rest => rest.Named
  | .type _ type rest => type.Named ∧ rest.Named

def Inner.Named : Inner → Prop
  | .nil => True
  | .cons name arguments rest => IsIdentifier name ∧ arguments.Named ∧ rest.Named

end

/-- All names are identifiers, and lists of type arguments nest no deeper than they are scanned. -/
def TypeTree.Valid (type : TypeTree) : Prop := type.Named ∧ type.levels ≤ maxOpenArguments

def SignatureTree.Valid : SignatureTree → Prop
  | .field type => type.Valid
  | .method parameters result throws =>
    (∀ type ∈ parameters, type.Valid) ∧ result.Valid ∧ ∀ type ∈ throws, type.Valid
  | .classes superclass interfaces => superclass.Valid ∧ ∀ type ∈ interfaces, type.Valid

/-- Where a scan ends that has seen all of a signature. -/
def SignatureTree.ending : SignatureTree → Place
  | .field _ | .classes _ _ => .sequence
  | .method _ _ _ => .result

/-! ### Scanning -/

/-- From one state to another by taking some characters, all of them, and reporting names. -/
inductive Scans : State → List Char → List String → State → Prop where
  | nil (state : State) : Scans state [] [] state
  | cons {state middle after : State} {c : Char} {text : List Char} {names : List String}
      (step : next state c = some middle) (rest : Scans middle text names after) :
      Scans state (c :: text) ((named? state c).toList ++ names) after

variable {state middle after : State} {text others : List Char} {names more pending : List String}
  {c : Char} {depth : Nat} {place : Place}

theorem Scans.silent (step : next state c = some middle) (silent : named? state c = none)
    (rest : Scans middle text names after) : Scans state (c :: text) names after := by
  have all := Scans.cons step rest
  rwa [silent] at all

theorem Scans.append (first : Scans state text names middle) (second : Scans middle others more after) :
    Scans state (text ++ others) (names ++ more) after := by
  induction first with
  | nil => exact second
  | cons step _ ih =>
    rw [List.append_assoc]
    exact .cons step (ih second)

theorem Scans.namesFrom_append (scans : Scans state text names after) (rest : List Char) :
    namesFrom state (text ++ rest) = names ++ namesFrom after rest := by
  induction scans with
  | nil => rfl
  | @cons state middle _ c text names step _ ih =>
    rw [List.cons_append, namesFrom, step, List.append_assoc, ← ih]
    cases named? state c <;> rfl

theorem Scans.foldlM_eq (scans : Scans state text names after) :
    text.foldlM next state = some after := by
  induction scans with
  | nil => rfl
  | cons step _ ih => rw [List.foldlM_cons, step, Option.bind_eq_bind, Option.bind_some, ih]

theorem Scans.classNames_eq (scans : Scans .start text names after) :
    classNames (String.ofList text) = names := by
  have all := scans.namesFrom_append []
  rwa [List.append_nil, namesFrom, List.append_nil, ← String.toList_ofList (l := text)] at all

/-! ### Names -/

theorem IsIdentifier.not_endsName {name : String} (identifier : IsIdentifier name) :
    ∀ c ∈ name.toList, endsName c = false := by
  intro c member
  have apart := identifier.2 c member
  simp only [List.mem_cons, List.not_mem_nil, or_false, not_or] at apart
  simp [endsName, apart]

theorem qualified_not_endsName {package : List String} {name : String}
    (parts : ∀ part ∈ package, IsIdentifier part) (identifier : IsIdentifier name) :
    ∀ c ∈ qualified package name, endsName c = false := by
  intro c member
  rcases List.mem_append.mp member with before | own
  · obtain ⟨part, inPackage, here⟩ := List.mem_flatMap.mp before
    rcases List.mem_append.mp here with inPart | slash
    · exact (parts part inPackage).not_endsName c inPart
    · rw [List.mem_singleton.mp slash]
      rfl
  · exact identifier.not_endsName c own

theorem scans_className (name seen : List Char) (open_ : ∀ c ∈ name, endsName c = false) :
    Scans (.className seen depth place) name [] (.className (name.reverse ++ seen) depth place) := by
  induction name generalizing seen with
  | nil => exact .nil _
  | cons c rest ih =>
    rw [List.forall_mem_cons] at open_
    have later := ih (c :: seen) open_.2
    rw [List.reverse_cons, List.append_assoc, List.singleton_append]
    refine .silent (by rw [next, open_.1]; rfl) ?_ later
    cases seen <;> simp [named?, open_.1]

theorem scans_innerName (name : List Char) (open_ : ∀ c ∈ name, endsName c = false) :
    Scans (.innerName depth place) name [] (.innerName depth place) := by
  induction name with
  | nil => exact .nil _
  | cons c rest ih =>
    rw [List.forall_mem_cons] at open_
    exact .silent (by rw [next, open_.1]; rfl) rfl (ih open_.2)

theorem scans_variable {name : String} (identifier : IsIdentifier name) :
    Scans (.variable depth place) (name.toList ++ [';']) [] (typeDone depth place) := by
  have others : ∀ c ∈ name.toList, c ≠ ';' := fun c member same =>
    identifier.2 c member (by simp [same])
  generalize name.toList = characters at others
  induction characters with
  | nil => exact .silent rfl rfl (.nil _)
  | cons c rest ih =>
    rw [List.forall_mem_cons] at others
    exact .silent (by rw [next, if_neg others.1]) rfl (ih others.2)

/-! ### Types -/

/-- In this state a type may begin. -/
def Begins (state : State) (depth : Nat) (place : Place) : Prop :=
  ∀ c first, beginType depth place c = some first →
    next state c = some first ∧ named? state c = none

/-- In this state a part of a class name may end, upon which names that are pending are reported. -/
def Ends (state : State) (depth : Nat) (place : Place) (pending : List String) : Prop :=
  ∀ c, endsName c = true → next state c = endName depth place c ∧
    (named? state c).toList = pending

/-- No type begins with a character that stands between types. -/
theorem beginType_separator (separator : c ∈ ['<', '>', '(', ')', '*', '+', '-']) :
    beginType depth place c = none := by
  simp only [List.mem_cons, List.not_mem_nil, or_false] at separator
  rcases separator with rfl | rfl | rfl | rfl | rfl | rfl | rfl <;> rfl

/-- A state begins types if only separators lead elsewhere. -/
theorem begins_of_separators (silent : ∀ c, named? state c = none)
    (leads : ∀ c, c ∉ ['<', '>', '(', ')', '*', '+', '-'] →
      next state c = beginType depth place c) : Begins state depth place := by
  intro c first begun
  have apart : c ∉ ['<', '>', '(', ')', '*', '+', '-'] := by
    intro separator
    rw [beginType_separator separator] at begun
    cases begun
  exact ⟨(leads c apart).trans begun, silent c⟩

theorem begins_start : Begins .start 0 .sequence := by
  apply begins_of_separators (fun _ => rfl)
  intro c apart
  simp only [List.mem_cons, List.not_mem_nil, or_false, not_or] at apart
  simp [next, beginBody, apart]

theorem begins_resting : Begins (.resting .sequence) 0 .sequence :=
  fun _ _ begun => ⟨begun, rfl⟩

theorem begins_parameters : Begins (.resting .parameters) 0 .parameters := by
  apply begins_of_separators (fun _ => rfl)
  intro c apart
  simp only [List.mem_cons, List.not_mem_nil, or_false, not_or] at apart
  simp [next, apart]

theorem begins_typeStart (depth : Nat) (place : Place) :
    Begins (.typeStart depth place) depth place :=
  fun _ _ begun => ⟨begun, rfl⟩

theorem begins_arguments (depth : Nat) (place : Place) :
    Begins (.arguments depth place) depth place := by
  apply begins_of_separators (fun _ => rfl)
  intro c apart
  simp only [List.mem_cons, List.not_mem_nil, or_false, not_or] at apart
  simp [next, apart]

theorem Begins.scans (begins : Begins state depth place) (begun : beginType depth place c = some middle)
    (rest : Scans middle text names after) : Scans state (c :: text) names after :=
  .silent (begins c middle begun).1 (begins c middle begun).2 rest

theorem ends_className (last : Char) (seen : List Char) :
    Ends (.className (last :: seen) depth place) depth place
      [String.ofList (last :: seen).reverse] := by
  intro c ends
  simp [next, named?, ends]

theorem ends_innerName : Ends (.innerName depth place) depth place [] := by
  intro c ends
  simp [next, named?, ends]

theorem ends_argumentsClosed : Ends (.argumentsClosed depth place) depth place [] :=
  fun _ _ => ⟨rfl, rfl⟩

theorem Ends.scans (ends : Ends state depth place pending) (final : endsName c = true)
    (left : endName depth place c = some middle) (rest : Scans middle text names after) :
    Scans state (c :: text) (pending ++ names) after := by
  obtain ⟨step, reported⟩ := ends c final
  rw [← reported]
  exact .cons (step.trans left) rest

/-- Arguments in their brackets leave a state in which the name may end. Names reported there or still
pending are those pending before and those of the arguments. -/
theorem Ends.enclosed (ends : Ends state depth place pending)
    (room : text ≠ [] → depth < maxOpenArguments)
    (opened : Scans (.arguments (depth + 1) place) text names (.arguments (depth + 1) place)) :
    ∃ after reported still, Scans state (enclosed text) reported after ∧
      Ends after depth place still ∧ reported ++ still = pending ++ names := by
  cases text with
  | nil =>
    cases opened
    exact ⟨state, [], pending, .nil state, ends, (List.append_nil pending).symm⟩
  | cons c text =>
    have left : endName depth place '<' = some (.arguments (depth + 1) place) :=
      if_pos (room (List.cons_ne_nil c text))
    have close : Scans (.arguments (depth + 1) place) ['>'] [] (.argumentsClosed depth place) :=
      .silent rfl rfl (.nil _)
    have all := ends.scans rfl left (opened.append close)
    rw [List.append_nil] at all
    exact ⟨_, _, [], all, ends_argumentsClosed, List.append_nil _⟩

theorem Arguments.levels_pos_of_print {arguments : Arguments} (printed : arguments.print ≠ []) :
    0 < arguments.levels := by
  cases arguments with
  | nil => exact absurd rfl printed
  | any rest => exact Nat.lt_of_lt_of_le Nat.zero_lt_one (Nat.le_max_left _ _)
  | type bound type rest => exact Nat.lt_of_lt_of_le (Nat.succ_pos _) (Nat.le_max_left _ _)

mutual

theorem TypeTree.scans (type : TypeTree) {state : State} {depth : Nat} {place : Place}
    (named : type.Named) (shallow : depth + type.levels ≤ maxOpenArguments)
    (begins : Begins state depth place) : Scans state type.print type.names (typeDone depth place) := by
  match type with
  | .primitive kind =>
    have begun : beginType depth place kind.letter = some (typeDone depth place) := by
      cases kind <;> rfl
    exact begins.scans begun (.nil _)
  | .array element =>
    exact begins.scans rfl (element.scans named shallow (begins_typeStart depth place))
  | .variable name => exact begins.scans rfl (scans_variable named)
  | .classType package name arguments inner =>
    obtain ⟨parts, identifier, argumentsNamed, innerNamed⟩ := named
    rw [TypeTree.levels] at shallow
    have read : Scans (.className [] depth place) (qualified package name) []
        (.className ((qualified package name).reverse ++ []) depth place) :=
      scans_className _ [] (qualified_not_endsName parts identifier)
    rw [List.append_nil] at read
    -- The name is not empty, so it is reported where it ends.
    obtain ⟨last, seen, name_eq⟩ : ∃ last seen, (qualified package name).reverse = last :: seen := by
      apply List.exists_cons_of_ne_nil
      simp [qualified, identifier.1]
    have ends : Ends (.className (last :: seen) depth place) depth place
        [String.ofList (last :: seen).reverse] := ends_className last seen
    rw [← name_eq, List.reverse_reverse] at ends
    obtain ⟨middle, reported, still, opened, ends, same⟩ := ends.enclosed
      (fun printed => by have := Arguments.levels_pos_of_print printed; omega)
      (arguments.scans argumentsNamed (by omega))
    have rest := inner.scans innerNamed (by omega) ends
    have begun : beginType depth place 'L' = some (.className [] depth place) := rfl
    have all := begins.scans begun (read.append (opened.append rest))
    rw [← List.append_assoc reported, same] at all
    exact all

/-- The list is open already, so its types are scanned one level deeper than it stands. -/
theorem Arguments.scans (arguments : Arguments) {depth : Nat} {place : Place}
    (named : arguments.Named) (shallow : depth + arguments.levels ≤ maxOpenArguments) :
    Scans (.arguments (depth + 1) place) arguments.print arguments.names
      (.arguments (depth + 1) place) := by
  match arguments with
  | .nil => exact .nil _
  | .any rest =>
    rw [Arguments.levels] at shallow
    exact .silent rfl rfl (rest.scans named (by omega))
  | .type bound type rest =>
    rw [Arguments.levels] at shallow
    have others : Scans (.arguments (depth + 1) place) rest.print rest.names
        (.arguments (depth + 1) place) := rest.scans named.2 (by omega)
    have marked (state : State) (begins : Begins state (depth + 1) place) :
        Scans state (type.print ++ rest.print) (type.names ++ rest.names)
          (.arguments (depth + 1) place) :=
      (type.scans named.1 (by omega) begins).append others
    cases bound with
    | exactly => exact marked _ (begins_arguments _ _)
    | above => exact .silent rfl rfl (marked _ (begins_typeStart _ _))
    | below => exact .silent rfl rfl (marked _ (begins_typeStart _ _))

/-- What follows the outermost name and its arguments, to the end of the class type. -/
theorem Inner.scans (inner : Inner) {state : State} {depth : Nat} {place : Place}
    {pending : List String} (named : inner.Named) (shallow : depth + inner.levels ≤ maxOpenArguments)
    (ends : Ends state depth place pending) :
    Scans state (inner.print ++ [';']) (pending ++ inner.names) (typeDone depth place) := by
  match inner with
  | .nil => exact ends.scans rfl rfl (.nil _)
  | .cons name arguments rest =>
    obtain ⟨identifier, argumentsNamed, restNamed⟩ := named
    rw [Inner.levels] at shallow
    have inside : Ends (.innerName depth place) depth place [] := ends_innerName
    obtain ⟨middle, reported, still, opened, later, same⟩ := inside.enclosed
      (fun printed => by have := Arguments.levels_pos_of_print printed; omega)
      (arguments.scans argumentsNamed (by omega))
    have others := rest.scans restNamed (by omega) later
    have all := ends.scans (c := '.') rfl rfl
      ((scans_innerName _ identifier.not_endsName).append (opened.append others))
    rw [← List.append_assoc reported, same] at all
    simpa only [Inner.print, Inner.names, List.cons_append, List.append_assoc, List.nil_append] using all

end

/-! ### Signatures -/

theorem TypeTree.Valid.scans {type : TypeTree} (valid : type.Valid) (begins : Begins state 0 place) :
    Scans state type.print type.names (.resting place) :=
  type.scans valid.1 (by rw [Nat.zero_add]; exact valid.2) begins

/-- Types one after the other, each behind the same mark. -/
theorem scans_flatMap {place : Place} {types : List TypeTree} (valid : ∀ type ∈ types, type.Valid)
    (printed : TypeTree → List Char) (each : ∀ type, type.Valid →
      Scans (.resting place) (printed type) type.names (.resting place)) :
    Scans (.resting place) (types.flatMap printed) (types.flatMap TypeTree.names)
      (.resting place) := by
  induction types with
  | nil => exact .nil _
  | cons type types ih =>
    rw [List.forall_mem_cons] at valid
    exact (each type valid.1).append (ih valid.2)

/-- A signature is scanned from every state that takes it for the beginning of one. -/
theorem SignatureTree.scans_from (tree : SignatureTree) (valid : tree.Valid)
    (begins : Begins state 0 .sequence) (opens : next state '(' = some (.resting .parameters))
    (silent : named? state '(' = none) :
    Scans state tree.print tree.names (.resting tree.ending) := by
  cases tree with
  | field type => exact valid.scans begins
  | method parameters result throws =>
    obtain ⟨parametersValid, resultValid, throwsValid⟩ := valid
    have taken := scans_flatMap parametersValid TypeTree.print
      fun type valid => valid.scans begins_parameters
    have answered := resultValid.scans (begins_typeStart 0 .result)
    have thrown := scans_flatMap throwsValid (fun type => '^' :: type.print)
      fun type valid => .silent rfl rfl (valid.scans (begins_typeStart 0 .result))
    exact .silent opens silent (taken.append (.silent rfl rfl (answered.append thrown)))
  | classes superclass interfaces =>
    exact (valid.1.scans begins).append
      (scans_flatMap valid.2 TypeTree.print fun type valid => valid.scans begins_resting)

theorem SignatureTree.scans (tree : SignatureTree) (valid : tree.Valid) :
    Scans .start tree.print tree.names (.resting tree.ending) :=
  tree.scans_from valid begins_start rfl rfl

/-- The scanner finds in what is printed from a tree exactly the class names of the tree, in order, and
takes all of the text, at whose end a descriptor or signature may end. -/
theorem classNames_print (tree : SignatureTree) (valid : tree.Valid) :
    classNames (String.ofList tree.print) = tree.names ∧
      tree.print.foldlM next .start = some (.resting tree.ending) := by
  have scans := tree.scans valid
  exact ⟨scans.classNames_eq, scans.foldlM_eq⟩

/-- A method signature with a class within a class, each with type arguments of its own. -/
theorem classNames_print_inner_class :
    let outer : Arguments := .any (.type .above (.variable "X")
      (.type .exactly (.array (.classType ["java", "lang"] "String" .nil .nil)) .nil))
    let inner : Arguments := .type .below (.classType ["org", "x"] "Y" .nil .nil) .nil
    let nested : TypeTree := .classType ["com"] "Outer" outer (.cons "Inner" inner .nil)
    let tree : SignatureTree := .method [.primitive .int, .array nested] (.primitive .void)
      [.variable "X", .classType ["java", "io"] "IOException" .nil .nil]
    tree.Valid ∧ String.ofList tree.print =
        "(I[Lcom/Outer<*+TX;[Ljava/lang/String;>.Inner<-Lorg/x/Y;>;)V^TX;^Ljava/io/IOException;" ∧
      classNames (String.ofList tree.print) =
        ["com/Outer", "java/lang/String", "org/x/Y", "java/io/IOException"] ∧
      tree.print.foldlM next .start = some (.resting .result) := by
  intro outer inner nested tree
  have valid : tree.Valid := by
    simp only [tree, nested, outer, inner, SignatureTree.Valid, TypeTree.Valid, TypeTree.Named,
      Arguments.Named, Inner.Named, TypeTree.levels, Arguments.levels, Inner.levels,
      List.forall_mem_cons, List.not_mem_nil, false_implies, implies_true]
    decide
  have scanned := classNames_print tree valid
  have names : tree.names = ["com/Outer", "java/lang/String", "org/x/Y", "java/io/IOException"] := by
    decide
  exact ⟨valid, by decide, names ▸ scanned.1, scanned.2⟩

end PackageAudit.ClassFile.Signature
