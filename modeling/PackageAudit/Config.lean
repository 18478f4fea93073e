import PackageAudit.Files.Tree
import PackageAudit.Filter
import PackageAudit.Json.Decode
import PackageAudit.Json.Reader
/-!
The configuration of an analysis, as JSON or as lines of `key=value`.

In the line form, keys that begin with `ignore` add filter patterns, three keys have a meaning of
their own, and any other key with a whole number overrides the volatility of the package it names.
A later line replaces what an earlier one set, except that patterns accumulate.

A file is read in one form or the other by its extension, and in a directory only a file of one name
is looked for, which is JSON.
-/

namespace PackageAudit

structure Config where
  /-- Patterns of the packages to leave out. -/
  ignore : List String := []
  /-- Packages that stand for all their sub-packages. -/
  components : List String := []
  analyzeInnerClasses : Bool := true
  /-- Volatility by package, in ascending order of names. -/
  volatility : List (String × Nat) := []
  allowSelfDependency : Bool := false
  deriving DecidableEq, Repr

inductive ConfigError where
  | unreadable (path : String)
  | malformedJson (path : String)
  | invalidValue (key value : String)
  deriving DecidableEq, Repr

def ConfigError.message : ConfigError → String
  | .unreadable path => s!"failed to read {path}"
  | .malformedJson path => s!"failed to parse {path}"
  | .invalidValue key value => s!"invalid value for {key}: '{value}'"

namespace Config

def filter (config : Config) : PackageFilter := PackageFilter.all.excluding config.ignore

def ofJson? (value : Json) : Option Config := do
  let fields ← value.fields?
    ["ignore", "components", "analyze_inner_classes", "volatility", "allow_self_dependency"]
  return {
    ignore := ← fields.orDefault 0 [] Json.texts?
    components := ← fields.orDefault 1 [] Json.texts?
    analyzeInnerClasses := ← fields.orDefault 2 true Json.bool?
    volatility := ← fields.orDefault 3 [] (Json.map? (Json.natBelow? UInt32.size))
    allowSelfDependency := ← fields.orDefault 4 false Json.bool? }

def ofJsonText? (text : String) : Option Config := (Json.read? text).bind ofJson?

/-- The key and value of a line, both trimmed. Blank lines, lines that begin with `#` or `!`, and
lines without `=` and `:` have none. -/
def keyValue? (line : List Char) : Option (String × String) :=
  let line := Text.trimEnd (Text.trimStart line)
  match line with
  | [] => none
  | first :: _ =>
    if first = '#' || first = '!' then none
    else (Text.splitAtFirst? (fun c => c == '=' || c == ':') line).map fun (key, value) =>
      (Text.trim (String.ofList key), Text.trim (String.ofList value))

def entries (text : String) : List (String × String) :=
  (Text.pieces '\n' text.toList).filterMap keyValue?

def readBool? (value : String) : Option Bool :=
  let word := String.ofList (value.toList.map Char.toLower)
  if word ∈ ["true", "yes", "1"] then some true
  else if word ∈ ["false", "no", "0"] then some false
  else none

/-- A number below 2³² in decimal digits, with an optional plus sign. -/
def readVolatility? (value : String) : Option Nat :=
  let digits := match value.toList with
    | '+' :: rest => rest
    | cs => cs
  if digits.isEmpty || digits.any (! ·.isDigit) then none
  else
    let n := digits.foldl (fun n c => n * 10 + (c.toNat - '0'.toNat)) 0
    if n < UInt32.size then some n else none

def requireBool (key value : String) : Except ConfigError Bool :=
  match readBool? value with
  | some word => .ok word
  | none => .error (.invalidValue key value)

def addPattern (patterns : List String) (pattern : String) : List String :=
  if pattern ∈ patterns then patterns else patterns ++ [pattern]

def apply (config : Config) (entry : String × String) : Except ConfigError Config := do
  let (key, value) := entry
  if Text.startsWith "ignore" key then
    return { config with ignore := (Text.splitList value).foldl addPattern config.ignore }
  else if key = "analyzeInnerClasses" then
    return { config with analyzeInnerClasses := ← requireBool key value }
  else if key = "allowSelfDependency" then
    return { config with allowSelfDependency := ← requireBool key value }
  else if key = "components" then
    return { config with components := Text.splitList value }
  else
    -- Any other key names a package, but is passed over if its value is no number.
    match readVolatility? value with
    | some n => return { config with volatility := Text.insertBinding key n config.volatility }
    | none => return config

/-- The configuration that lines of `key=value` describe. -/
def ofProperties (text : String) : Except ConfigError Config := (entries text).foldlM apply {}

/-! ### Configuration files -/

/-- The name of the configuration file that is looked for in a directory. -/
def fileName : String := "jdep.json"

def readFile (tree : FileTree) (path : String) : Except ConfigError String :=
  match tree.readText? path with
  | some text => .ok text
  | none => .error (.unreadable path)

def loadJson (tree : FileTree) (path : String) : Except ConfigError Config := do
  match ofJsonText? (← readFile tree path) with
  | some config => return config
  | none => throw (.malformedJson path)

/-- Loads a file as JSON if its extension says so, and as lines of `key=value` otherwise. -/
def loadFile (tree : FileTree) (path : String) : Except ConfigError Config :=
  if Path.extension? path = some "json" then loadJson tree path
  else do ofProperties (← readFile tree path)

/-- Loads the configuration file of a directory. Without one the defaults hold. -/
def loadDirectory (tree : FileTree) (directory : String) : Except ConfigError Config :=
  let path := Path.join directory fileName
  if tree.exists? path then loadJson tree path else .ok {}

end Config

end PackageAudit
