import PackageAudit.CommandLine.Options
import PackageAudit.Text.Search
/-!
Reading command-line arguments.

Arguments are read from left to right, first those of the program and, once a command is named,
those of the command; the first that asks for help or breaks a rule ends the reading. An option
takes its value from the same argument or from the next one, which must then not look like an option
itself. A switch, and an option with a single value, may be given once. Behind two dashes everything
is an operand.
-/

namespace PackageAudit.CommandLine

inductive Switch where
  | json
  | verbose
  | failOnCycles
  | noInnerClasses
  deriving DecidableEq, Repr

def Switch.name : Switch → String
  | .json => "json"
  | .verbose => "verbose"
  | .failOnCycles => "fail-on-cycles"
  | .noInnerClasses => "no-inner-classes"

inductive ValueOption where
  | config
  | components
  | exclude
  | forbid
  | rules
  | expect
  deriving DecidableEq, Repr

namespace ValueOption

def name : ValueOption → String
  | .config => "config"
  | .components => "components"
  | .exclude => "exclude"
  | .forbid => "forbid"
  | .rules => "rules"
  | .expect => "expect"

def letter? : ValueOption → Option Char
  | .config => some 'c'
  | .exclude => some 'x'
  | _ => none

def repeats : ValueOption → Bool
  | .exclude | .forbid => true
  | _ => false

/-- Options that name a file, which an empty value cannot. -/
def namesFile : ValueOption → Bool
  | .config | .rules | .expect => true
  | _ => false

end ValueOption

inductive CommandName where
  | analyze
  | cycles
  | check
  | completion
  deriving DecidableEq, Repr

namespace CommandName

def all : List CommandName := [.analyze, .cycles, .check, .completion]

def name : CommandName → String
  | .analyze => "analyze"
  | .cycles => "cycles"
  | .check => "check"
  | .completion => "completion"

def ofText? (text : String) : Option CommandName := all.find? (·.name == text)

def switches : CommandName → List Switch
  | .analyze | .cycles => [.json, .verbose, .noInnerClasses, .failOnCycles]
  | .check => [.json, .verbose, .noInnerClasses]
  | .completion => [.json, .verbose]

def valueOptions : CommandName → List ValueOption
  | .analyze | .cycles => [.config, .components, .exclude]
  | .check => [.config, .components, .exclude, .forbid, .rules, .expect]
  | .completion => []

end CommandName

/-- What has been read of a command's arguments, in the order in which it was given. -/
structure Given where
  switches : List Switch := []
  values : List (ValueOption × String) := []
  operands : List String := []

namespace Given

def valuesOf (given : Given) (option : ValueOption) : List String :=
  given.values.filterMap fun (other, value) => if other = option then some value else none

def addSwitch (given : Given) (switch : Switch) : Except Stop Given :=
  if switch ∈ given.switches then .error .misuse
  else .ok { given with switches := given.switches ++ [switch] }

def addValue (given : Given) (option : ValueOption) (value : String) : Except Stop Given :=
  if (!option.repeats && !(given.valuesOf option).isEmpty) || (option.namesFile && value.isEmpty)
  then .error .misuse
  else .ok { given with values := given.values ++ [(option, value)] }

/-- Paths must not be empty, and a completion is for one known shell. -/
def addOperand (command : CommandName) (given : Given) (operand : String) : Except Stop Given :=
  let fits := match command with
    | .completion => given.operands.isEmpty && Shell.all.any (·.name == operand)
    | _ => !operand.isEmpty
  if fits then .ok { given with operands := given.operands ++ [operand] } else .error .misuse

end Given

inductive ArgumentForm where
  | separator
  /-- Two dashes, a name, and a value behind an equals sign. -/
  | long (name : String) (value : Option String)
  /-- One dash, a letter, and what follows it. -/
  | short (letter : Char) (rest : List Char)
  | operand

def formOf (argument : String) : ArgumentForm :=
  match argument.toList with
  | ['-', '-'] => .separator
  | '-' :: '-' :: rest =>
    match Text.splitAtFirst? (· == '=') rest with
    | some (name, value) => .long (String.ofList name) (some (String.ofList value))
    | none => .long (String.ofList rest) none
  | '-' :: letter :: rest => .short letter rest
  | _ => .operand

def looksLikeOption (argument : String) : Bool :=
  match formOf argument with
  | .operand => false
  | _ => true

/-- The value written behind an option's letter, with or without an equals sign. -/
def attachedValue? : List Char → Option String
  | [] => none
  | '=' :: rest => some (String.ofList rest)
  | rest => some (String.ofList rest)

/-- The option of a command that an argument names, and the value that it holds itself. -/
def valueOption? (command : CommandName) (argument : String) :
    Option (ValueOption × Option String) :=
  match formOf argument with
  | .long name value =>
    (command.valueOptions.find? (·.name == name)).map fun option => (option, value)
  | .short letter rest =>
    (command.valueOptions.find? (·.letter? == some letter)).map fun option =>
      (option, attachedValue? rest)
  | _ => none

def readAlone (command : CommandName) (given : Given) (argument : String) :
    Except Stop Given :=
  match formOf argument with
  | .long "help" none => .error .help
  | .short 'h' _ => .error .help
  | .long name none =>
    match command.switches.find? (·.name == name) with
    | some switch => given.addSwitch switch
    | none => .error .misuse
  | .operand => given.addOperand command argument
  | _ => .error .misuse

def readCommand (command : CommandName) (given : Given) : List String → Except Stop Given
  | [] => .ok given
  | argument :: rest =>
    match formOf argument, valueOption? command argument with
    -- Nothing behind two dashes is looked at as an option.
    | .separator, _ => rest.foldlM (Given.addOperand command) given
    | _, some (option, some value) => do
      readCommand command (← given.addValue option value) rest
    | _, some (option, none) =>
      match rest with
      | [] => .error .misuse
      | value :: rest => do
        if looksLikeOption value then throw .misuse
        readCommand command (← given.addValue option value) rest
    | _, none => do readCommand command (← readAlone command given argument) rest

/-- The option of a name, given the value that stands for it where it is not written. -/
def Given.optional (given : Given) (option : ValueOption) (default : Option String) :
    Option String :=
  (given.valuesOf option).head? <|> default

/-- The input options of a command; a configuration named by the environment counts where none is
given. -/
def Given.input (given : Given) (environment : Option String) : Except Stop InputOptions :=
  if given.operands.isEmpty then .error .misuse
  else
    match given.optional .config environment with
    | some "" => .error .misuse
    | config => .ok {
        paths := given.operands
        config
        components := given.optional .components none
        exclude := given.valuesOf .exclude
        innerClasses := !given.switches.contains .noInnerClasses }

def Given.command (given : Given) (environment : Option String) :
    CommandName → Except Stop Command
  | .analyze => do
    return .analyze (← given.input environment) (given.switches.contains .failOnCycles)
  | .cycles => do
    return .cycles (← given.input environment) (given.switches.contains .failOnCycles)
  | .check => do
    return .check (← given.input environment) (given.valuesOf .forbid)
      (given.optional .rules none) (given.optional .expect none)
  | .completion =>
    match given.operands.head?.bind fun name => Shell.all.find? (·.name == name) with
    | some shell => .ok (.completion shell)
    | none => .error .misuse

/-- The command of help takes the name of a command, or its own. -/
def readHelp : List String → Stop
  | [] => .help
  | [name] => if name = "help" ∨ (CommandName.ofText? name).isSome then .help else .misuse
  | _ => .misuse

def readProgramArgument (switches : List Switch) (argument : String) :
    Except Stop (List Switch) :=
  match formOf argument with
  | .long "help" none | .short 'h' _ => .error .help
  | .long "version" none | .short 'V' _ => .error .version
  | .long name none =>
    match [Switch.json, Switch.verbose].find? (·.name == name) with
    | some switch => if switch ∈ switches then .error .misuse else .ok (switches ++ [switch])
    | none => .error .misuse
  | _ => .error .misuse

/-- Reads all arguments, behind switches that were given before. -/
def readFrom (environment : Option String) (switches : List Switch) :
    List String → Except Stop Invocation
  | [] => .error .misuse
  | argument :: rest =>
    if argument = "help" then .error (readHelp rest)
    else
      match CommandName.ofText? argument with
      | some name => do
        let given ← readCommand name {} rest
        return {
          json := switches.contains .json || given.switches.contains .json
          command := ← given.command environment name }
      | none => do readFrom environment (← readProgramArgument switches argument) rest

/-- What the arguments ask for, given the configuration that the environment names. -/
def read (environment : Option String) (arguments : List String) : Except Stop Invocation :=
  readFrom environment [] arguments

end PackageAudit.CommandLine
