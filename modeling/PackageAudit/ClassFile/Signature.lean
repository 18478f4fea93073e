/-!
The class types named in descriptors and generic signatures.

One scanner covers field and method descriptors and the signatures of fields, methods and classes,
since descriptors are written in a part of the signature grammar. It reads one character at a time;
what it must remember is the number of open type-argument lists and what encloses the type at hand,
so its state is finite but for the name being read. A class type is reported by its outermost name,
which carries the package. Text that breaks the grammar, or nests type arguments too deep, ends the
scan, and what was reported before stays reported.
-/

namespace PackageAudit.ClassFile.Signature

/-- How many type-argument lists may be open at once. -/
def maxOpenArguments : Nat := 256

/-- What a type belongs to once all its type arguments are closed. -/
inductive Place where
  /-- A field type, or the superclass and interfaces of a class signature. -/
  | sequence
  | parameters
  | result
  | bound
  deriving DecidableEq, Repr

/-- Where the scanner stands; `depth` counts the open type-argument lists. -/
inductive State where
  | start
  /-- Behind the formal type parameters, if there are any. -/
  | body
  | resting (place : Place)
  /-- Behind the opening bracket of the formal type parameters. -/
  | formals
  | formalName
  /-- Behind the colon of a class bound, which may be empty. -/
  | classBound
  | typeStart (depth : Nat) (place : Place)
  | variable (depth : Nat) (place : Place)
  /-- In the name of a class type, with the characters read so far, latest first. -/
  | className (seen : List Char) (depth : Nat) (place : Place)
  /-- In the name of an inner class behind a dot. -/
  | innerName (depth : Nat) (place : Place)
  | arguments (depth : Nat) (place : Place)
  | argumentsClosed (depth : Nat) (place : Place)
  deriving DecidableEq, Repr

/-- Where a completed type leaves the scanner. -/
def typeDone (depth : Nat) (place : Place) : State :=
  if depth = 0 then .resting place else .arguments depth place

/-- What the first character of a type leads to. -/
def beginType (depth : Nat) (place : Place) (c : Char) : Option State :=
  match c with
  | '[' => some (.typeStart depth place)
  | 'B' | 'C' | 'D' | 'F' | 'I' | 'J' | 'S' | 'Z' | 'V' => some (typeDone depth place)
  | 'L' => some (.className [] depth place)
  | 'T' => some (.variable depth place)
  | _ => none

/-- What a character that ends a part of a class name leads to. -/
def endName (depth : Nat) (place : Place) (c : Char) : Option State :=
  match c with
  | ';' => some (typeDone depth place)
  | '<' => if depth < maxOpenArguments then some (.arguments (depth + 1) place) else none
  | '.' => some (.innerName depth place)
  | _ => none

def endsName (c : Char) : Bool := c == ';' || c == '<' || c == '.'

/-- Behind a bound, or where a formal type parameter may begin. -/
def continueFormals (c : Char) : Option State :=
  match c with
  | '>' => some .body
  | ':' => some (.typeStart 0 .bound)
  | _ => some .formalName

def beginBody (c : Char) : Option State :=
  if c = '(' then some (.resting .parameters) else beginType 0 .sequence c

/-- The state behind one more character, if the grammar allows it. -/
def next (state : State) (c : Char) : Option State :=
  match state with
  | .start => if c = '<' then some .formals else beginBody c
  | .body => beginBody c
  | .resting .sequence => beginType 0 .sequence c
  | .resting .parameters =>
    if c = ')' then some (.typeStart 0 .result) else beginType 0 .parameters c
  | .resting .result => if c = '^' then some (.typeStart 0 .result) else none
  | .resting .bound => continueFormals c
  | .formals =>
    if c = '>' then some .body else if c = ':' then some .classBound else some .formalName
  | .formalName => if c = ':' then some .classBound else some .formalName
  | .classBound =>
    if c = 'L' || c = 'T' || c = '[' then beginType 0 .bound c else continueFormals c
  | .typeStart depth place => beginType depth place c
  | .variable depth place => if c = ';' then some (typeDone depth place) else some state
  | .className seen depth place =>
    if endsName c then endName depth place c else some (.className (c :: seen) depth place)
  | .innerName depth place => if endsName c then endName depth place c else some state
  | .arguments depth place =>
    if c = '>' then some (.argumentsClosed (depth - 1) place)
    else if c = '*' then some state
    else if c = '+' || c = '-' then some (.typeStart depth place)
    else beginType depth place c
  | .argumentsClosed depth place => endName depth place c

/-- The class name that a character completes. -/
def named? (state : State) (c : Char) : Option String :=
  match state with
  | .className (last :: seen) _ _ =>
    if endsName c then some (String.ofList (last :: seen).reverse) else none
  | _ => none

/-- The class names completed from a state on, in order. -/
def namesFrom (state : State) : List Char → List String
  | [] => []
  | c :: rest =>
    match named? state c, next state c with
    | some name, some state => name :: namesFrom state rest
    | some name, none => [name]
    | none, some state => namesFrom state rest
    | none, none => []

/-- The class types that a descriptor or signature names, in order of appearance. -/
def classNames (text : String) : List String := namesFrom .start text.toList

end PackageAudit.ClassFile.Signature
