import PackageAudit.Files.Path
import PackageAudit.Text.ModifiedUtf8
/-!
Files and directories.

A file tree is the part of a file system that a command can see, together with the directory it
works in. Looking up a path goes from directory to directory and remembers the way, so that a path
may lead back to a parent, and the directories above a place are known once it is found.
-/

namespace PackageAudit

inductive FileNode where
  | file (bytes : List UInt8)
  | directory (entries : List (String × FileNode))

namespace FileNode

def isDirectory : FileNode → Bool
  | .directory _ => true
  | .file _ => false

def entries : FileNode → List (String × FileNode)
  | .directory entries => entries
  | .file _ => []

def child? (node : FileNode) (name : String) : Option FileNode := node.entries.lookup name

/-- Changes what stands at the end of a way of names, and makes the directories on the way. -/
def change (update : Option FileNode → FileNode) (name : String) :
    List String → FileNode → FileNode
  | [], parent => put (update (parent.child? name)) parent
  | next :: rest, parent =>
    put (change update next rest ((parent.child? name).getD (.directory []))) parent
where
  put (node : FileNode) (parent : FileNode) : FileNode :=
    .directory (parent.entries.filter (·.1 != name) ++ [(name, node)])

end FileNode

structure FileTree where
  root : FileNode
  /-- The names that lead from the root to the directory in which paths begin. -/
  workingDirectory : List String

/-- A node with its name and its parents, nearest first; the root has no name. -/
structure Place where
  name : String
  node : FileNode
  parents : List (String × FileNode)

namespace Place

def absolutePath (place : Place) : String :=
  Path.absolute (place.name :: place.parents.map (·.1)).dropLast.reverse

/-- The place that one step of a path leads to. The parent of the root is the root itself. -/
def step? (place : Place) (name : String) : Option Place :=
  if !place.node.isDirectory then none
  else if name = "" ∨ name = "." then some place
  else if name = ".." then
    match place.parents with
    | [] => some place
    | (name, node) :: parents => some { name, node, parents }
  else
    (place.node.child? name).map fun node =>
      { name, node, parents := (place.name, place.node) :: place.parents }

end Place

namespace FileTree

def rootPlace (tree : FileTree) : Place := { name := "", node := tree.root, parents := [] }

/-- The place that a path leads to. The empty path leads nowhere. -/
def place? (tree : FileTree) (path : String) : Option Place :=
  if path = "" then none
  else if Path.isAbsolute path then (Path.steps path).foldlM Place.step? tree.rootPlace
  else do
    let start ← tree.workingDirectory.foldlM Place.step? tree.rootPlace
    (Path.steps path).foldlM Place.step? start

def exists? (tree : FileTree) (path : String) : Bool := (tree.place? path).isSome

def read? (tree : FileTree) (path : String) : Option (List UInt8) :=
  match tree.place? path with
  | some { node := .file bytes, .. } => some bytes
  | _ => none

def readText? (tree : FileTree) (path : String) : Option String :=
  (tree.read? path).bind Text.ofUtf8?

/-- Changes what stands at the end of a way of names from the root. -/
def change (tree : FileTree) (update : Option FileNode → FileNode) (way : List String) : FileTree :=
  match way with
  | [] => { tree with root := update (some tree.root) }
  | name :: rest => { tree with root := FileNode.change update name rest tree.root }

def addFile (tree : FileTree) (way : List String) (bytes : List UInt8) : FileTree :=
  tree.change (fun _ => .file bytes) way

def addDirectory (tree : FileTree) (way : List String) : FileTree :=
  tree.change (fun node => .directory ((node.map FileNode.entries).getD [])) way

end FileTree

end PackageAudit
