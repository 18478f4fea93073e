import PackageAudit.CommandLine.Arguments
import PackageAudit.Config
import PackageAudit.Report.Json
import PackageAudit.Walk
/-!
Running commands.

A command reads all it needs before it writes anything: whatever it cannot use ends it with status
two, a message and no output. A command that has come to a result writes it and ends with status one
if the result is what it was asked to fail on, and zero otherwise.
-/

namespace PackageAudit.CommandLine

structure Outcome where
  status : Nat
  output : String
  /-- Lines for the standard error. -/
  messages : List String
  deriving DecidableEq, Repr

inductive CommandError where
  | config (error : ConfigError)
  | walk (error : WalkError)
  | unreadable (path : String)
  | malformedJson (path : String)
  | malformedForbid (entry : String)
  | nothingToCheck
  deriving DecidableEq, Repr

def CommandError.message : CommandError → String
  | .config error => error.message
  | .walk error => error.message
  | .unreadable path => s!"failed to read {path}"
  | .malformedJson path => s!"invalid JSON in {path}"
  | .malformedForbid entry => s!"invalid --forbid '{entry}', expected OWNER=PATTERN"
  | .nothingToCheck => "nothing to check. Pass --forbid, --rules or --expect"

/-- The configuration of a command. One that is named must load, while the one of the working
directory gives way to the defaults if it does not. The other options are laid over it. -/
def InputOptions.configuration (input : InputOptions) (tree : FileTree) :
    Except CommandError Config := do
  let config ← match input.config with
    | some path => (Config.loadFile tree path).mapError .config
    | none => pure ((Config.loadDirectory tree "").toOption.getD {})
  return { config with
    ignore := input.exclude.foldl Config.addPattern config.ignore
    analyzeInnerClasses := config.analyzeInnerClasses && input.innerClasses }

def InputOptions.analyzer (input : InputOptions) (tree : FileTree) :
    Except CommandError Analyzer := do
  let config ← input.configuration tree
  let units ← (Walk.units tree config.analyzeInnerClasses input.paths).mapError .walk
  let analyzer := Analyzer.ofConfig config
  let analyzer := match input.components with
    | some list => analyzer.setComponents list
    | none => analyzer
  return (analyzer.analyze units).1

/-- The owner and pattern of a forbidden dependency, both trimmed and not empty. -/
def forbidden? (entry : String) : Option (String × String) := do
  let (owner, pattern) ← Text.splitAtFirst? (· == '=') entry.toList
  let owner := Text.trim (String.ofList owner)
  let pattern := Text.trim (String.ofList pattern)
  if owner.isEmpty || pattern.isEmpty then none else some (owner, pattern)

def loadJson {α : Type} (tree : FileTree) (ofText? : String → Option α) (path : String) :
    Except CommandError α :=
  match tree.readText? path with
  | none => .error (.unreadable path)
  | some text =>
    match ofText? text with
    | some value => .ok value
    | none => .error (.malformedJson path)

/-- The rules of a file, if there is one, and of the entries behind it. -/
def prohibitions (tree : FileTree) (rules : Option String) (forbid : List String) :
    Except CommandError Prohibitions := do
  let fromFile ← match rules with
    | some path => loadJson tree Prohibitions.ofJsonText? path
    | none => pure .empty
  forbid.foldlM (fun prohibitions entry =>
    match forbidden? entry with
    | some (owner, pattern) => .ok (prohibitions.forbid owner pattern)
    | none => .error (.malformedForbid entry)) fromFile

def checkReport (tree : FileTree) (input : InputOptions) (forbid : List String)
    (rules expect : Option String) : Except CommandError CheckReport := do
  if forbid.isEmpty && rules.isNone && expect.isNone then throw .nothingToCheck
  let prohibitions ← prohibitions tree rules forbid
  let expected ← match expect with
    | some path => some <$> loadJson tree Shape.ofJsonText? path
    | none => pure none
  return (← input.analyzer tree).check prohibitions expected

def endLine (text : String) : String :=
  if text.isEmpty || text.toList.getLast? == some '\n' then text else text ++ "\n"

/-- The outcome of a command from the text it writes and whether that is a failure. -/
def conclude (command : CommandName) (result : Except CommandError (String × Bool)) : Outcome :=
  match result with
  | .ok (text, failed) =>
    { status := if failed then 1 else 0, output := endLine text, messages := [] }
  | .error error =>
    { status := 2, output := "", messages := [s!"jdep {command.name}: {error.message}"] }

def usage : String :=
  "Usage: jdep [--json] [--verbose] <analyze | cycles | check> [options] <paths>\n" ++
  "       jdep completion <bash | elvish | fish | powershell | zsh>\n\n" ++
  "Options:\n" ++
  "  -c, --config <file>         configuration file\n" ++
  "      --components <list>     packages that each stand for their sub-packages\n" ++
  "  -x, --exclude <pattern>     packages to leave out\n" ++
  "      --no-inner-classes      leave out inner classes\n" ++
  "      --fail-on-cycles        end with status 1 if there is a cycle (analyze, cycles)\n" ++
  "      --forbid <owner=pattern>, --rules <file>, --expect <file>   (check)\n" ++
  "  -h, --help                  this text\n" ++
  "  -V, --version               the version\n"

def completionScript (shell : Shell) : String :=
  let words := String.intercalate " " (CommandName.all.map (·.name))
  match shell with
  | .bash => s!"complete -W '{words}' jdep\n"
  | .elvish => "set edit:completion:arg-completer[jdep] = \x7b|@words| put " ++ words ++ " \x7d\n"
  | .fish => s!"complete -c jdep -f -a '{words}'\n"
  | .powershell =>
    "Register-ArgumentCompleter -Native -CommandName jdep -ScriptBlock \x7b '" ++ words ++
      "' -split ' ' \x7d\n"
  | .zsh => s!"#compdef jdep\ncompadd {words}\n"

def Command.run (format : ReportFormat) (tree : FileTree) : Command → Outcome
  | .analyze input failOnCycles => conclude .analyze do
    let report := (← input.analyzer tree).report
    return (format.analysis report, failOnCycles && report.containsCycles)
  | .cycles input failOnCycles => conclude .cycles do
    let report := { (← input.analyzer tree).report with command := "cycles" }
    return (format.cycles report, failOnCycles && report.containsCycles)
  | .check input forbid rules expect => conclude .check do
    let report ← checkReport tree input forbid rules expect
    return (format.check report, !report.passed)
  | .completion shell => { status := 0, output := completionScript shell, messages := [] }

def Stop.outcome : Stop → Outcome
  | .help => { status := 0, output := usage, messages := [] }
  | .version => { status := 0, output := s!"jdep {PackageAudit.version}\n", messages := [] }
  | .misuse => { status := 2, output := "", messages := [usage] }

/-- Runs the program on the files it sees, given the configuration that the environment names and
the arguments. -/
def run (tree : FileTree) (environment : Option String) (arguments : List String) : Outcome :=
  match read environment arguments with
  | .error stop => stop.outcome
  | .ok invocation =>
    invocation.command.run (if invocation.json then .json else .human) tree

end PackageAudit.CommandLine
