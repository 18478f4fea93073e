import PackageAudit.CommandLine.Run
/-!
The program.

What the arguments name is read into a file tree first, together with the ignore files of the
directories above; everything else happens on that tree. Below a directory only class files and
ignore files are read, and no other links are followed than those to ignore files.
-/

namespace PackageAudit.Main

open CommandLine

/-- The paths that a command reads. Files that are read whatever their names are come last, so that
they stand in the tree with their content. -/
def pathsOf : Command → List String
  | .analyze input _ | .cycles input _ => inputPaths input
  | .check input _ rules expect => inputPaths input ++ rules.toList ++ expect.toList
  | .completion _ => []
where
  inputPaths (input : InputOptions) : List String :=
    input.paths ++ [input.config.getD Config.fileName]

/-- The files that a directory has for its ignore rules, and its repository. -/
def ignoreNames : List String := [".jdepignore", ".ignore", ".gitignore", ".git"]

/-- Whether a file by this name may hold ignore rules or lead to them. -/
def isRuleFile (name : String) : Bool := ignoreNames.contains name || name == "exclude"

def isRead (name : String) : Bool := Walk.isClassFile true name || isRuleFile name

def readFile (path : String) : IO FileNode := do
  return .file (← IO.FS.readBinFile path).toList

/-- A file or directory below another directory; nothing where it cannot be read, or is a link that
does not lead to ignore rules. -/
partial def loadEntry (path name : String) : IO (Option FileNode) := do
  try
    let entry : IO.FS.DirEntry := ⟨path, name⟩
    match (← entry.path.symlinkMetadata).type with
    | .dir =>
      let entries ← entry.path.readDir
      let nodes ← entries.toList.filterMapM fun below => do
        return (← loadEntry entry.path.toString below.fileName).map fun node =>
          (below.fileName, node)
      return some (.directory nodes)
    | .file => if isRead name then readFile entry.path.toString else return some (.file [])
    | .symlink => if isRuleFile name then readFile entry.path.toString else return none
    | _ => return none
  catch _ => return none

def isDirectory (path : String) : IO Bool :=
  let entry : IO.FS.DirEntry := ⟨path, "."⟩
  entry.path.isDir

def loadNamed (path : String) : IO (Option FileNode) := do
  try
    if ← isDirectory path then loadEntry path "." else readFile path
  catch _ => return none

/-- The names that lead from the root to a path, given those that lead to where it begins. -/
def wayTo (here : List String) (path : String) : List String :=
  let start := if Path.isAbsolute path then [] else here
  (Path.names path).foldl
    (fun way name => if name = ".." then way.dropLast else way ++ [name]) start

def addNamed (tree : FileTree) (path : String) : IO FileTree := do
  let some node ← loadNamed path | return tree
  return tree.change (fun _ => node) (wayTo tree.workingDirectory path)

/-- Adds what a directory has for its ignore rules. -/
def addIgnoreFiles (tree : FileTree) (way : List String) : IO FileTree := do
  let directory := Path.absolute way
  let store : IO.FS.DirEntry := ⟨directory, ".jj"⟩
  let tree := if ← store.path.pathExists then tree.addDirectory (way ++ [".jj"]) else tree
  ignoreNames.foldlM (fun tree name => do
    let path := Path.join directory name
    if name ≠ ".git" then addNamed tree path
    else
      match ← loadNamed path with
      | none => return tree
      | some (.directory _) =>
        addNamed (tree.addDirectory (way ++ [name])) (Path.join path "info/exclude")
      | some (.file bytes) =>
        let tree := tree.addFile (way ++ [name]) bytes
        let some linked := Walk.linkedDirectory? bytes | return tree
        let tree ← addNamed tree (Path.join linked "commondir")
        let some shared := Walk.linkedRepository? tree bytes | return tree
        addNamed tree (Path.join shared "info/exclude")) tree

/-- Adds the directories that a path leads through, of which it may leave some again. -/
def addPassed (tree : FileTree) (path : String) : IO FileTree :=
  let start := if Path.isAbsolute path then "/" else "./"
  (List.range (Path.names path).length).foldlM (fun tree count => do
    let passed := start ++ String.intercalate "/" ((Path.names path).take count)
    if ← isDirectory passed then
      return tree.addDirectory (wayTo tree.workingDirectory passed)
    else return tree) tree

/-- Adds what a path names, and the ignore files of the directories above it. -/
def addPath (tree : FileTree) (path : String) : IO FileTree := do
  let way := wayTo tree.workingDirectory path
  let tree ← addNamed (← addPassed tree path) path
  (List.range way.length).foldlM (fun tree depth => addIgnoreFiles tree (way.take depth)) tree

def loadTree (paths : List String) : IO FileTree := do
  let here := Path.names (← IO.currentDir).toString
  let start : FileTree := { root := .directory [], workingDirectory := here }
  paths.foldlM addPath (start.addDirectory here)

end PackageAudit.Main

open PackageAudit in
def main (arguments : List String) : IO UInt32 := do
  let environment ← IO.getEnv "JDEP_CONFIG"
  let paths := match CommandLine.read environment arguments with
    | .ok invocation => Main.pathsOf invocation.command
    | .error _ => []
  let outcome := CommandLine.run (← Main.loadTree paths) environment arguments
  (← IO.getStdout).putStr outcome.output
  outcome.messages.forM IO.eprintln
  return outcome.status.toUInt32
