import PackageAudit.Analyzer
import PackageAudit.Files.Tree
import PackageAudit.Ignore.Rules
import PackageAudit.Text.Ordered
/-!
Finding class files.

A root is a class file, which is taken as it is, or a directory, below which all class files are
taken that neither hide behind a dot nor are left out by an ignore file. The ignore files of the
directories above a root count as well, but no rule is asked about the root itself. What is found
below one root is sorted by the names on the way to it.

Ignore files from the root downwards see the paths that the walk takes, which begin as the root was
given; those above it see absolute paths.
-/

namespace PackageAudit

inductive WalkError where
  | pathNotFound (path : String)
  deriving DecidableEq, Repr

def WalkError.message : WalkError → String
  | .pathNotFound path => s!"path not found: {path}"

namespace Walk

open Ignore (DirectoryRules Enclosing)

/-- Whether a file name is that of a class file; those of inner classes hold a dollar sign before
their extension. -/
def isClassFile (innerClasses : Bool) (name : String) : Bool :=
  Path.extension? name == some "class" && (innerClasses || !(Path.stem name).toList.contains '$')

def firstLine? (bytes : List UInt8) : Option String :=
  ((Ignore.linesFrom [] [] bytes).head?).map String.ofList

/-- The directory that a repository file refers to. -/
def linkedDirectory? (bytes : List UInt8) : Option String := do
  return String.ofList (← Text.after? "gitdir: ".toList (← firstLine? bytes).toList)

/-- The repository that a repository file shares, which its directory names. -/
def linkedRepository? (tree : FileTree) (bytes : List UInt8) : Option String := do
  let directory ← linkedDirectory? bytes
  let shared ← firstLine? (← tree.read? (Path.join directory "commondir"))
  return if Text.startsWith "." shared then Path.join directory shared else shared

/-- The excludes of the repository that begins in a directory. -/
def excludes? (tree : FileTree) (node : FileNode) : Option (List UInt8) := do
  match ← node.child? ".git" with
  | .file bytes => tree.read? (Path.join (← linkedRepository? tree bytes) "info/exclude")
  | repository =>
    match ← (← repository.child? "info").child? "exclude" with
    | .file bytes => return bytes
    | .directory _ => none

def rulesIn (tree : FileTree) (node : FileNode) : DirectoryRules :=
  DirectoryRules.ofNode (excludes? tree) node

/-- Directories whose ignore files count, nearest first, each with its path. -/
abbrev RuleSources := List (String × DirectoryRules)

structure Surroundings where
  /-- The path that the walk began with. -/
  root : String
  /-- The absolute path of the place where it began. -/
  base : String
  /-- The directories from the current one up to where the walk began. -/
  within : RuleSources
  /-- The directories above that, with their absolute paths. -/
  above : RuleSources

def sourcesAbove (tree : FileTree) : List (String × FileNode) → RuleSources
  | [] => []
  | (name, node) :: parents =>
    (Place.absolutePath { name, node, parents }, rulesIn tree node) :: sourcesAbove tree parents

namespace Surroundings

def ofPlace (tree : FileTree) (root : String) (place : Place) : Surroundings :=
  { root
    base := place.absolutePath
    within := []
    above := sourcesAbove tree place.parents }

def enter (around : Surroundings) (path : String) (rules : DirectoryRules) : Surroundings :=
  { around with within := (path, rules) :: around.within }

/-- The absolute path of an entry: its path behind that where the walk began, or the whole of it
where the walk began at a mere dot, below the absolute path of that place. -/
def fromAbove (around : Surroundings) (path : String) : String :=
  let path := if Path.staysHere around.root then path
    else Path.behind (Path.dropDot around.root) path
  if Path.isAbsolute path then path else Path.join around.base path

/-- The directories around an entry, with its path as they see it. -/
def enclosing (around : Surroundings) (path : String) : Enclosing :=
  let path := Path.dropDot path
  let seen (path : String) (sources : RuleSources) : Enclosing :=
    sources.map fun (directory, rules) => (rules, Ignore.pathSeenFrom directory path)
  seen path around.within ++ seen (around.fromAbove path) around.above

end Surroundings

/-- A file that a walk found: its path, the names on the way to it, and its content. -/
structure FoundFile where
  path : String
  way : List String
  bytes : List UInt8

mutual

def filesBelow (tree : FileTree) (around : Surroundings) (path : String) (way : List String) :
    FileNode → List FoundFile
  | .file bytes => [{ path, way, bytes }]
  | .directory entries =>
    filesAmong tree (around.enter path (rulesIn tree (.directory entries))) path way entries

/-- The files at or below the entries of a directory that are not left out. -/
def filesAmong (tree : FileTree) (around : Surroundings) (path : String) (way : List String) :
    List (String × FileNode) → List FoundFile
  | [] => []
  | (name, node) :: rest =>
    let entry := Path.join path name
    let inside :=
      if Ignore.leavesOut (around.enclosing entry) name node.isDirectory then []
      else filesBelow tree around entry (way ++ [name]) node
    inside ++ filesAmong tree around path way rest

end

/-- A lone dash does not name a directory but the standard input, where no class files are found. -/
def isStandardInput (root : String) : Bool :=
  Path.names root == ["-"] && (Path.steps root).head? == some "-"

/-- The class files of a directory, in the order of the names on the way to them. -/
def unitsBelow (tree : FileTree) (innerClasses : Bool) (root : String) (place : Place) :
    List ClassUnit :=
  if isStandardInput root then []
  else
    let files := filesBelow tree (.ofPlace tree root place) root [] place.node
    -- Ignore files have had their say; what is left is told apart by its name alone.
    let classFiles := files.filter fun file => (file.way.getLast?).any (isClassFile innerClasses)
    (classFiles.mergeSort fun a b => Text.precedes a.way b.way).map fun file =>
      { id := file.path, bytes := file.bytes }

def unitsOf (tree : FileTree) (innerClasses : Bool) (root : String) :
    Except WalkError (List ClassUnit) :=
  match tree.place? root with
  | none => .error (.pathNotFound root)
  | some place =>
    match place.node with
    | .directory _ => .ok (unitsBelow tree innerClasses root place)
    | .file bytes =>
      let accepted := ((Path.fileName? root).map (isClassFile innerClasses)).getD false
      .ok (if accepted then [{ id := root, bytes }] else [])

/-- The class files of all roots, or the first root that does not exist. -/
def units (tree : FileTree) (innerClasses : Bool) (roots : List String) :
    Except WalkError (List ClassUnit) :=
  (roots.mapM (unitsOf tree innerClasses)).map List.flatten

end Walk

end PackageAudit
