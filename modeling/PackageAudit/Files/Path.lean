import PackageAudit.Text.Blank
import PackageAudit.Text.Search
/-!
Paths as text.

A path is a list of names between slashes. Empty names and single dots stand for nothing, except
that a path that ends in one can only name a directory. Where one path is read from another, only
their texts are compared, so that `./a` is not behind `a`.
-/

namespace PackageAudit.Path

/-- What stands between the slashes. -/
def steps (path : String) : List String := (Text.pieces '/' path.toList).map String.ofList

def isAbsolute (path : String) : Bool := path.toList.head? == some '/'

/-- The names of a path, without the parts that stand for nothing. -/
def names (path : String) : List String :=
  (steps path).filter fun name => name != "" && name != "."

def fileName? (path : String) : Option String :=
  match (names path).getLast? with
  | some ".." => none
  | last => last

/-- A file name before and after its last dot, unless the dot is the first character. -/
def splitName? (name : String) : Option (String × String) :=
  match Text.splitAtLast? '.' name.toList with
  | some (first :: before, after) => some (String.ofList (first :: before), String.ofList after)
  | _ => none

def extension? (path : String) : Option String :=
  ((fileName? path).bind splitName?).map (·.2)

def stem (name : String) : String := ((splitName? name).map (·.1)).getD name

def join (directory name : String) : String :=
  match directory.toList.getLast? with
  | none => name
  | some '/' => directory ++ name
  | some _ => directory ++ "/" ++ name

def absolute (names : List String) : String := "/" ++ String.intercalate "/" names

/-- Whether all steps of a path stay where they are, the first by a dot. -/
def staysHere (path : String) : Bool :=
  (steps path).head? == some "." && (names path).isEmpty

/-- A path without one dot and slash at its beginning. -/
def dropDot (path : String) : String :=
  ((Text.after? "./".toList path.toList).map String.ofList).getD path

/-- What stands behind the text of a beginning, and behind one slash there; the whole path where it
does not begin so. -/
def behind (beginning path : String) : String :=
  match Text.after? beginning.toList path.toList with
  | none => path
  | some ('/' :: rest) | some rest => String.ofList rest

end PackageAudit.Path
