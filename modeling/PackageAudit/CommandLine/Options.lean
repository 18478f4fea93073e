/-!
What the command line can ask for.
-/

namespace PackageAudit.CommandLine

inductive Shell where
  | bash
  | elvish
  | fish
  | powershell
  | zsh
  deriving DecidableEq, Repr

def Shell.name : Shell → String
  | .bash => "bash"
  | .elvish => "elvish"
  | .fish => "fish"
  | .powershell => "powershell"
  | .zsh => "zsh"

def Shell.all : List Shell := [.bash, .elvish, .fish, .powershell, .zsh]

/-- Where the classes come from, and how their packages are named. -/
structure InputOptions where
  paths : List String
  config : Option String
  /-- A comma-separated list that replaces the configured one. -/
  components : Option String
  /-- Patterns in addition to the configured ones. -/
  exclude : List String
  innerClasses : Bool
  deriving DecidableEq, Repr

inductive Command where
  | analyze (input : InputOptions) (failOnCycles : Bool)
  | cycles (input : InputOptions) (failOnCycles : Bool)
  | check (input : InputOptions) (forbid : List String) (rules expect : Option String)
  | completion (shell : Shell)
  deriving DecidableEq, Repr

structure Invocation where
  json : Bool
  command : Command
  deriving DecidableEq, Repr

/-- Why arguments ask for no command. -/
inductive Stop where
  | help
  | version
  /-- The arguments break the rules of the command line. -/
  | misuse
  deriving DecidableEq, Repr

end PackageAudit.CommandLine
