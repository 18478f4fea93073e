import PackageAudit.Json.Token
/-!
Reading JSON text into a value.

The tokens are read with a stack of the arrays and objects that are still open, so the depth of a
text is bounded only by its length, and a text is accepted when exactly one value has been completed
at its end.
-/

namespace PackageAudit.Json

/-- A container that waits for the value being read; members and items are kept latest first. -/
inductive Opened where
  | array (items : List Json)
  | object (members : List (Option String × Json)) (key : Option String)

inductive Reading where
  /-- A value must follow; directly behind an opening bracket the array may close instead. -/
  | value (enclosing : List Opened) (mayClose : Bool)
  /-- A key must follow; directly behind an opening brace the object may close instead. -/
  | key (members : List (Option String × Json)) (enclosing : List Opened) (mayClose : Bool)
  | colon (members : List (Option String × Json)) (key : Option String) (enclosing : List Opened)
  | separator (container : Opened) (enclosing : List Opened)
  | complete (value : Json)

/-- Hands a finished value to the container that waits for it. -/
def deliver (value : Json) : List Opened → Reading
  | [] => .complete value
  | .array items :: enclosing => .separator (.array (value :: items)) enclosing
  | .object members key :: enclosing =>
    .separator (.object ((key, value) :: members) key) enclosing

def readToken (reading : Reading) (token : Token) : Option Reading :=
  match reading, token with
  | .value enclosing _, .scalar value => some (deliver value enclosing)
  | .value enclosing _, .openArray => some (.value (.array [] :: enclosing) true)
  | .value enclosing _, .openObject => some (.key [] enclosing true)
  | .value (.array [] :: enclosing) true, .closeArray => some (deliver (.array []) enclosing)
  | .key members enclosing _, .scalar (.string key) => some (.colon members key enclosing)
  | .key [] enclosing true, .closeObject => some (deliver (.object []) enclosing)
  | .colon members key enclosing, .colon => some (.value (.object members key :: enclosing) false)
  | .separator (.array items) enclosing, .comma => some (.value (.array items :: enclosing) false)
  | .separator (.array items) enclosing, .closeArray =>
    some (deliver (.array items.reverse) enclosing)
  | .separator (.object members _) enclosing, .comma => some (.key members enclosing false)
  | .separator (.object members _) enclosing, .closeObject =>
    some (deliver (.object members.reverse) enclosing)
  | _, _ => none

def readTokens (reading : Reading) : List Token → Option Json
  | [] =>
    match reading with
    | .complete value => some value
    | _ => none
  | token :: rest =>
    match readToken reading token with
    | none => none
    | some reading => readTokens reading rest

/-- The value that a text writes, if it is exactly one JSON value. -/
def read? (text : String) : Option Json :=
  (tokens? text).bind (readTokens (.value [] false))

end PackageAudit.Json
