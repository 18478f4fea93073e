import PackageAudit.Text.Blank
import PackageAudit.Text.Search
/-!
Ordered include and exclude patterns for package names.

The first rule whose pattern matches a name decides, and a name that no rule matches is accepted.
A pattern that is already present can be left out without changing any decision, because the
earlier rule matches the same names; hence a filter holds each pattern once.
-/

namespace PackageAudit

structure FilterRule where
  pattern : String
  /-- Whether the packages that match are accepted. -/
  accepts : Bool
  deriving DecidableEq, Repr

namespace FilterRule

/-- A pattern with a final star matches every name with that beginning; any other pattern matches
the package of that name and its sub-packages. -/
def patternMatches (pattern package : String) : Bool :=
  match Text.withoutLast? '*' pattern with
  | some beginning => Text.startsWith beginning package
  | none =>
    match Text.after? pattern.toList package.toList with
    | some rest => rest.isEmpty || rest.head? == some '.'
    | none => false

def covers (rule : FilterRule) (package : String) : Bool := patternMatches rule.pattern package

end FilterRule

structure PackageFilter where
  rules : List FilterRule
  deriving DecidableEq, Repr

namespace PackageFilter

def all : PackageFilter := ⟨[]⟩

/-- Adds a rule behind the others, unless its pattern is blank or already present. -/
def add (accepts : Bool) (filter : PackageFilter) (pattern : String) : PackageFilter :=
  let pattern := Text.trim pattern
  if pattern.isEmpty || filter.rules.any (·.pattern == pattern) then filter
  else ⟨filter.rules ++ [⟨pattern, accepts⟩]⟩

def excluding (filter : PackageFilter) (patterns : List String) : PackageFilter :=
  patterns.foldl (add false) filter

def including (filter : PackageFilter) (patterns : List String) : PackageFilter :=
  patterns.foldl (add true) filter

def accept (filter : PackageFilter) (package : String) : Bool :=
  match filter.rules.find? (·.covers package) with
  | some rule => rule.accepts
  | none => true

end PackageFilter

end PackageAudit
