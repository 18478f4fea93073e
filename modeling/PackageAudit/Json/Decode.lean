import PackageAudit.Json.Value
import PackageAudit.Text.Ordered
/-!
Reading typed data from JSON values.

A structure is written as an object, whose unknown fields are skipped, or as the array of its fields
in order, where only trailing fields with a default may be left out. A field given twice is refused;
of a map's equal keys the last value counts.
-/

namespace PackageAudit.Json

def bool? : Json → Option Bool
  | .bool value => some value
  | _ => none

def text? : Json → Option String
  | .string text => text
  | _ => none

def int? : Json → Option Int
  | .number numeral => numeral.toInt?
  | _ => none

def natBelow? (bound : Nat) (value : Json) : Option Nat := do
  match ← value.int? with
  | .ofNat n => if n < bound then some n else none
  | .negSucc _ => none

def list? {α : Type} (item : Json → Option α) : Json → Option (List α)
  | .array items => items.mapM item
  | _ => none

def texts? : Json → Option (List String) := list? text?

def optional? {α : Type} (item : Json → Option α) : Json → Option (Option α)
  | .null => some none
  | value => (item value).map some

/-- A map in ascending order of its keys. -/
def map? {α : Type} (item : Json → Option α) : Json → Option (List (String × α))
  | .object members =>
    members.foldlM (fun bindings (key, value) => do
      return Text.insertBinding (← key) (← item value) bindings) []
  | _ => none

/-- The declared fields of a structure, each with its value if it is written. -/
structure Fields where
  positional : Bool
  values : List (Option Json)

def memberNamed (name : String) (members : List (Option String × Json)) :
    Option (Option Json) :=
  match members.filter (·.1 == some name) with
  | [] => some none
  | [(_, value)] => some (some value)
  | _ => none

def fields? (names : List String) : Json → Option Fields
  | .object members =>
    if members.any (·.1.isNone) then none
    else (names.mapM (memberNamed · members)).map (⟨false, ·⟩)
  | .array items =>
    if items.length ≤ names.length then
      some ⟨true, items.map some ++ List.replicate (names.length - items.length) none⟩
    else none
  | _ => none

namespace Fields

def get? (fields : Fields) (position : Nat) : Option Json := (fields.values[position]?).join

def required {α : Type} (fields : Fields) (position : Nat) (item : Json → Option α) : Option α :=
  (fields.get? position).bind item

/-- A field with a default, which a missing value takes. -/
def orDefault {α : Type} (fields : Fields) (position : Nat) (default : α)
    (item : Json → Option α) : Option α :=
  match fields.get? position with
  | some value => item value
  | none => some default

/-- A field that may be `null`, or missing where the fields are named. -/
def nullable {α : Type} (fields : Fields) (position : Nat) (item : Json → Option α) :
    Option (Option α) :=
  match fields.get? position with
  | some value => optional? item value
  | none => if fields.positional then none else some none

end Fields

end PackageAudit.Json
