import PackageAudit.Ignore.ByteRegex
import PackageAudit.Ignore.Glob.Token
import PackageAudit.Text.ModifiedUtf8
/-!
The paths that a glob stands for, as a regular expression.

Characters beyond ASCII count by their bytes, also in brackets. Empty alternatives do not count, so
that braces with no others stand for the empty text.
-/

namespace PackageAudit.Ignore.GlobToken

-- The byte 47 is the slash.
def nameByte : ByteClass := { negated := true, ranges := [(47, 47)] }

def anyByteAtAll : ByteClass := { negated := true, ranges := [] }

def slash : ByteRegex := .one { negated := false, ranges := [(47, 47)] }

def byte (b : UInt8) : ByteRegex := .one { negated := false, ranges := [(b, b)] }

def utf8 (c : Char) : List UInt8 := Text.utf8 (String.singleton c)

/-- The bytes of a range of characters: all but the last byte of the lower end, the bytes from there
to the first byte of the upper end, and the others of the upper end. -/
def rangeBytes (low high : Char) : List (UInt8 × UInt8) :=
  let single (bytes : List UInt8) := bytes.map fun b => (b, b)
  if low = high then single (utf8 low)
  else
    let lowBytes := utf8 low
    let highBytes := utf8 high
    single lowBytes.dropLast ++ [(lowBytes.getLastD 0, highBytes.headD 0)] ++ single highBytes.tail

/-- The bytes that a bracket expression lists. -/
def allBytes (ranges : List (Char × Char)) : List (UInt8 × UInt8) :=
  ranges.flatMap fun (low, high) => rangeBytes low high

mutual

/-- The paths that a token stands for. -/
def regex : GlobToken → ByteRegex
  | .literal c => ByteRegex.sequence ((utf8 c).map byte)
  | .anyByte => .one nameByte
  | .anyBytes => .many nameByte
  | .leadingDirectories => .alt .empty (.alt slash (.seq (.many anyByteAtAll) slash))
  | .everythingBelow => .seq slash (.many anyByteAtAll)
  | .innerDirectories => .alt slash (.seq slash (.seq (.many anyByteAtAll) slash))
  | .characters negated ranges => .one { negated, ranges := allBytes ranges }
  | .alternatives branches =>
    match (branchRegexes branches).filter (· != .empty) with
    | [] => .empty
    | choices => ByteRegex.choice choices

def sequenceRegex : List GlobToken → ByteRegex
  | [] => .empty
  | token :: rest => ByteRegex.andThen token.regex (sequenceRegex rest)

def branchRegexes : List (List GlobToken) → List ByteRegex
  | [] => []
  | branch :: rest => sequenceRegex branch :: branchRegexes rest

end

/-- The expression of a whole pattern. Two stars alone match every path. -/
def pathRegex : List GlobToken → ByteRegex
  | [.leadingDirectories] => .many anyByteAtAll
  | tokens => sequenceRegex tokens

end PackageAudit.Ignore.GlobToken
