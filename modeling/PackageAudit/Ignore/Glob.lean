import PackageAudit.Ignore.Glob.Expression
/-!
Globs that are ready to match, with the depth to which their expressions nest.

A level of nesting stands around what it holds: several parts in a row, braces, several
alternatives, a star, brackets, and several bytes in brackets. Two stars between slashes count as
the braces, alternatives, rows and stars that they abbreviate. A single character is no level of its
own, but one of several bytes is that many parts.
-/

namespace PackageAudit.Ignore

structure Row where
  parts : Nat
  /-- The levels of the deepest part. -/
  depth : Nat
  deriving DecidableEq, Repr

namespace Row

def empty : Row := { parts := 0, depth := 0 }

def part (depth : Nat) : Row := { parts := 1, depth }

def append (first second : Row) : Row :=
  { parts := first.parts + second.parts, depth := max first.depth second.depth }

/-- The levels of a row where it stands as one part of something else. -/
def levels (row : Row) : Nat := if 2 ≤ row.parts then row.depth + 1 else row.depth

/-- Braces around rows, of which empty ones do not count. -/
def braced (rows : List Row) : Row :=
  match rows.filter (·.parts != 0) with
  | [] => empty
  | [row] => part (row.levels + 1)
  | rows => part ((rows.map levels).foldr max 0 + 2)

end Row

namespace GlobToken

mutual

def row : GlobToken → Row
  | .literal c => { parts := (utf8 c).length, depth := 0 }
  | .anyByte => .part 1
  | .anyBytes => .part 2
  | .leadingDirectories | .innerDirectories => .part 4
  | .everythingBelow => { parts := 2, depth := 1 }
  | .characters _ ranges => .part (if 2 ≤ (allBytes ranges).length then 2 else 1)
  | .alternatives branches => .braced (branchRows branches)

def sequenceRow : List GlobToken → Row
  | [] => .empty
  | token :: rest => token.row.append (sequenceRow rest)

def branchRows : List (List GlobToken) → List Row
  | [] => []
  | branch :: rest => sequenceRow branch :: branchRows rest

end

/-- The levels of a whole pattern, which stands in a row with its beginning and its end. -/
def pathLevels : List GlobToken → Nat
  | [.leadingDirectories] => 2
  | tokens => (sequenceRow tokens).depth + 1

end GlobToken

/-- The paths that a well formed pattern matches, and how deep it nests. -/
structure Glob where
  regex : ByteRegex
  levels : Nat
  deriving DecidableEq, Repr

namespace Glob

def ofTokens (tokens : List GlobToken) : Glob :=
  { regex := GlobToken.pathRegex tokens, levels := GlobToken.pathLevels tokens }

def ofPattern? (pattern : String) : Option Glob :=
  (readGlob .start pattern.length pattern.toList).map ofTokens

def maxLevels : Nat := 250

def isTooDeep (glob : Glob) : Bool := maxLevels < glob.levels

end Glob

end PackageAudit.Ignore
