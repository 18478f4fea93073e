import PackageAudit.Files.Tree
import PackageAudit.Ignore.Glob
import PackageAudit.Text.Blank
/-!
Ignore files.

Each line of an ignore file is a pattern for the entries below its directory, of which the last that
matches decides. A pattern with a slash before its end is matched against the whole path, any other
against the name at any depth; a slash at the end limits it to directories, and an exclamation mark
at the beginning turns it into one that admits. Lines that are no pattern are skipped, but a pattern
that nests too deep makes its whole file count for nothing.
-/

namespace PackageAudit.Ignore

inductive Verdict where
  | ignored
  | admitted
  deriving DecidableEq, Repr

structure IgnoreRule where
  glob : Glob
  verdict : Verdict
  onlyDirectories : Bool

/-- The part of a line that is a pattern: spaces at the end count only behind a backslash. -/
def patternOf (line : List Char) : List Char :=
  match line.reverse with
  | ' ' :: '\\' :: _ => line
  | _ => Text.trimEnd line

/-- A pattern without the slash at its end, and whether there was one. A backslash before that slash
goes with it. -/
def splitDirectoryMark (pattern : List Char) : List Char × Bool :=
  match pattern.reverse with
  | '/' :: '\\' :: rest => (rest.reverse, true)
  | '/' :: rest => (rest.reverse, true)
  | _ => (pattern, false)

/-- The glob for whole paths below the directory of the ignore file. -/
def pathGlob (anchored : Bool) (pattern : List Char) : String :=
  let text := String.ofList pattern
  let anywhere := !anchored && !pattern.contains '/' && text != "**"
  let glob := if anywhere then "**/" ++ text else text
  if "/**".toList.isSuffixOf glob.toList then glob ++ "/*" else glob

/-- What a line says: whether it admits, whether it is tied to the directory of its file, and the
pattern that is left. An escaped mark at the beginning is part of the pattern. -/
def readMarks (line : List Char) : Bool × Bool × List Char :=
  match line with
  | '\\' :: '!' :: rest => (false, false, '!' :: rest)
  | '\\' :: '#' :: rest => (false, false, '#' :: rest)
  | '!' :: '/' :: rest => (true, true, rest)
  | '!' :: rest => (true, false, rest)
  | '/' :: rest => (false, true, rest)
  | line => (false, false, line)

def ruleOf? (line : List Char) : Option IgnoreRule :=
  if line.head? == some '#' then none
  else
    let line := patternOf line
    if line.isEmpty then none
    else
      let (admits, anchored, pattern) := readMarks line
      let (pattern, onlyDirectories) := splitDirectoryMark pattern
      (Glob.ofPattern? (pathGlob anchored pattern)).map fun glob =>
        { glob, verdict := if admits then .admitted else .ignored, onlyDirectories }

/-- The lines of a file, cut at line feeds, up to the first that is not UTF-8; a carriage return
before the line feed belongs to it. -/
def linesFrom (line : List UInt8) (seen : List (List Char)) : List UInt8 → List (List Char)
  | [] =>
    match Text.ofUtf8? line.reverse with
    | some text => if line.isEmpty then seen.reverse else (text.toList :: seen).reverse
    | none => seen.reverse
  | byte :: rest =>
    if byte = 10 then
      let ended := if line.head? == some 13 then line.tail else line
      match Text.ofUtf8? ended.reverse with
      | some text => linesFrom [] (text.toList :: seen) rest
      | none => seen.reverse
    else linesFrom (byte :: line) seen rest

/-- The rules of an ignore file, none if one of them nests too deep. Byte order marks before the
first line do not count. -/
def rulesOf (bytes : List UInt8) : List IgnoreRule :=
  match linesFrom [] [] bytes with
  | [] => []
  | first :: rest =>
    let rules := ((first.dropWhile (· == '\uFEFF')) :: rest).filterMap ruleOf?
    if rules.any fun rule => rule.glob.isTooDeep then [] else rules

/-- What the last matching rule says about a path. -/
def verdictOf? (rules : List IgnoreRule) (path : List UInt8) (isDirectory : Bool) :
    Option Verdict :=
  (rules.reverse.find? fun rule =>
    (isDirectory || !rule.onlyDirectories) && rule.glob.regex.accepts path).map (·.verdict)

/-- The ignore files of one directory, by kind. -/
structure DirectoryRules where
  own : List IgnoreRule
  /-- From the ignore file that many programs share. -/
  shared : List IgnoreRule
  repository : List IgnoreRule
  /-- From the excludes of a repository that begins here. -/
  excludes : List IgnoreRule
  isRepository : Bool

def DirectoryRules.ofNode (excludes : FileNode → Option (List UInt8)) (node : FileNode) :
    DirectoryRules :=
  let rules (name : String) : List IgnoreRule :=
    match node.child? name with
    | some (.file bytes) => rulesOf bytes
    | _ => []
  { own := rules ".jdepignore"
    shared := rules ".ignore"
    repository := rules ".gitignore"
    excludes := ((excludes node).map rulesOf).getD []
    isRepository := (node.child? ".git").isSome || (node.child? ".jj").isSome }

/-- The path of an entry as the ignore files of a directory see it: what stands behind the path of
the directory, after both have lost a dot and slash before. A directory that is a mere dot leaves
the path as it is, and so does any directory where the path is a single name. -/
def pathSeenFrom (directory path : String) : String :=
  let path := Path.dropDot path
  let directory := Path.dropDot directory
  if Path.staysHere directory || !path.toList.contains '/' then path
  else Path.behind directory path

/-- The directories above an entry, nearest first, each with the path of the entry that its ignore
files see. -/
abbrev Enclosing := List (DirectoryRules × String)

/-- What the nearest directory whose rules of a kind match says about an entry. -/
def nearestVerdict? (kind : DirectoryRules → List IgnoreRule) (enclosing : Enclosing)
    (isDirectory : Bool) : Option Verdict :=
  enclosing.findSome? fun (rules, path) => verdictOf? (kind rules) (Text.utf8 path) isDirectory

/-- The directories up to the nearest in which a repository begins; none without a repository. -/
def withinRepository (enclosing : Enclosing) : Enclosing :=
  match enclosing.span fun (rules, _) => !rules.isRepository with
  | (_, []) => []
  | (inside, start :: _) => inside ++ [start]

/-- What the ignore files say about an entry. The program's own files come first, then the shared
ones, then those of the repository and its excludes. -/
def verdict? (enclosing : Enclosing) (isDirectory : Bool) : Option Verdict :=
  nearestVerdict? (·.own) enclosing isDirectory <|>
    nearestVerdict? (·.shared) enclosing isDirectory <|>
    nearestVerdict? (·.repository) (withinRepository enclosing) isDirectory <|>
    nearestVerdict? (·.excludes) (withinRepository enclosing) isDirectory

/-- Whether a name hides its entry: it begins with a dot and does not end with one. -/
def isHidden (name : String) : Bool :=
  name.toList.head? == some '.' && name.toList.getLast? != some '.'

/-- Whether an entry is left out: by an ignore file, or because it is hidden and no ignore file
admits it. -/
def leavesOut (enclosing : Enclosing) (name : String) (isDirectory : Bool) : Bool :=
  match verdict? enclosing isDirectory with
  | some .ignored => true
  | some .admitted => false
  | none => isHidden name

end PackageAudit.Ignore
