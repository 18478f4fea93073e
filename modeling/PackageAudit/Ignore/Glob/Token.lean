/-!
Glob patterns over paths.

A question mark stands for one byte of a name and a star for any number; two stars between slashes
stand for any number of directories, and elsewhere for two single stars. Brackets list characters,
braces list alternatives, and a backslash takes the next character as it is.

The pattern is read from left to right with the alternatives that are still open.
-/

namespace PackageAudit.Ignore

inductive GlobToken where
  | literal (c : Char)
  /-- One byte of a name. -/
  | anyByte
  /-- Any number of bytes of a name. -/
  | anyBytes
  /-- Two stars at the beginning: any directories or none. -/
  | leadingDirectories
  /-- Two stars at the end: everything below. -/
  | everythingBelow
  /-- Two stars in the middle: any directories between two. -/
  | innerDirectories
  | characters (negated : Bool) (ranges : List (Char × Char))
  | alternatives (branches : List (List GlobToken))

/-- Alternatives that are still open; everything is kept latest first. -/
structure OpenAlternatives where
  finished : List (List GlobToken)
  /-- What stands before the opening brace. -/
  before : List GlobToken

structure GlobReading where
  /-- The tokens of the innermost branch, latest first. -/
  tokens : List GlobToken
  enclosing : List OpenAlternatives
  /-- The character read before. -/
  previous : Option Char
  /-- A bracket without its partner was met, so that brackets stand for themselves. -/
  plainBrackets : Bool

namespace GlobReading

def start : GlobReading :=
  { tokens := [], enclosing := [], previous := none, plainBrackets := false }

def push (reading : GlobReading) (token : GlobToken) : GlobReading :=
  { reading with tokens := token :: reading.tokens }

def follow (reading : GlobReading) (c : Char) : GlobReading := { reading with previous := some c }

def openBrace (reading : GlobReading) : GlobReading :=
  { reading with
    tokens := []
    enclosing := { finished := [], before := reading.tokens } :: reading.enclosing }

/-- Goes on to the next alternative; outside braces a comma stands for itself. -/
def comma (reading : GlobReading) : GlobReading :=
  match reading.enclosing with
  | [] => reading.push (.literal ',')
  | innermost :: outer =>
    { reading with
      tokens := []
      enclosing := { innermost with finished := reading.tokens.reverse :: innermost.finished } ::
        outer }

def closeBrace? (reading : GlobReading) : Option GlobReading :=
  match reading.enclosing with
  | [] => none
  | innermost :: outer =>
    let branches := (reading.tokens.reverse :: innermost.finished).reverse
    some { reading with tokens := .alternatives branches :: innermost.before, enclosing := outer }

/-- Two stars that stand for directories replace a token before them that does so already. -/
def pushDirectories (reading : GlobReading) (token : GlobToken) : GlobReading :=
  match reading.tokens with
  | .leadingDirectories :: _ | .everythingBelow :: _ => reading
  | _ :: before => { reading with tokens := token :: before }
  | [] => reading.push token

/-- Two stars, given what follows them: the reading behind them, and what is left to read. A slash
that bounds them belongs to them. -/
def twoStars (reading : GlobReading) (rest : List Char) : GlobReading × List Char :=
  -- Where they do not fill a place between slashes they are two single stars.
  let plain := ((reading.push .anyBytes).push .anyBytes).follow '*'
  let between := !reading.enclosing.isEmpty
  if reading.tokens.isEmpty then
    match rest with
    | [] => ((reading.push .leadingDirectories).follow '*', [])
    | '/' :: rest => ((reading.push .leadingDirectories).follow '/', rest)
    | _ => (plain, rest)
  else if reading.previous != some '/' &&
      !(between && (reading.previous == some ',' || reading.previous == some '\x7b')) then
    (plain, rest)
  else
    match rest with
    | [] => ((reading.pushDirectories .everythingBelow).follow '*', [])
    | '/' :: rest => ((reading.pushDirectories .innerDirectories).follow '/', rest)
    | c :: _ =>
      if between && (c == ',' || c == '\x7d') then
        ((reading.pushDirectories .everythingBelow).follow '*', rest)
      else (plain, rest)

end GlobReading

/-- What the end of a bracket expression is read from. -/
inductive BracketEnd where
  /-- The ranges, and what follows the closing bracket. -/
  | closed (ranges : List (Char × Char)) (rest : List Char)
  | unclosed
  | invalid

/-- Reads ranges up to the closing bracket, latest first. A bracket or dash in the first place and a
dash in the last stand for themselves. -/
def readRanges (ranges : List (Char × Char)) (inRange : Bool) : List Char → BracketEnd
  | [] => .unclosed
  | c :: rest =>
    match ranges with
    | [] => readRanges [(c, c)] false rest
    | (low, high) :: before =>
      if c = ']' then
        .closed (if inRange then ('-', '-') :: ranges else ranges).reverse rest
      else if inRange then
        if c < low then .invalid else readRanges ((low, c) :: before) false rest
      else if c = '-' then readRanges ranges true rest
      else readRanges ((c, c) :: (low, high) :: before) false rest

/-- Reads the tokens of a pattern, if it is well formed. Every step takes a character at least, so
the length of the pattern is enough fuel. -/
def readGlob (reading : GlobReading) : Nat → List Char → Option (List GlobToken)
  | _, [] => if reading.enclosing.isEmpty then some reading.tokens.reverse else none
  | 0, _ :: _ => none
  | fuel + 1, c :: rest =>
    match c with
    | '?' => readGlob ((reading.push .anyByte).follow c) fuel rest
    | '*' =>
      match rest with
      | '*' :: rest =>
        let (reading, rest) := reading.twoStars rest
        readGlob reading fuel rest
      | rest => readGlob ((reading.push .anyBytes).follow c) fuel rest
    | '\x7b' => readGlob (reading.openBrace.follow c) fuel rest
    | '\x7d' =>
      match reading.closeBrace? with
      | some reading => readGlob (reading.follow c) fuel rest
      | none => none
    | ',' => readGlob (reading.comma.follow c) fuel rest
    | '\\' =>
      match rest with
      | [] => none
      | escaped :: rest => readGlob ((reading.push (.literal escaped)).follow escaped) fuel rest
    | '[' =>
      if reading.plainBrackets then readGlob ((reading.push (.literal c)).follow c) fuel rest
      else
        let (negated, inside) := match rest with
          | '!' :: inside | '^' :: inside => (true, inside)
          | inside => (false, inside)
        match readRanges [] false inside with
        | .closed ranges rest =>
          readGlob ((reading.push (.characters negated ranges)).follow ']') fuel rest
        -- Only the bracket is taken; what seemed to stand inside is read again.
        | .unclosed =>
          readGlob ({ reading.push (.literal c) with plainBrackets := true }.follow c) fuel rest
        | .invalid => none
    | _ => readGlob ((reading.push (.literal c)).follow c) fuel rest

end PackageAudit.Ignore
