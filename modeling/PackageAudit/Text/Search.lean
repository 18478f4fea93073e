/-!
Searching in text: the parts around the last occurrence of a character, splitting at the first of
several characters, beginnings, endings and occurrences anywhere.

All functions work on the characters of a text, so that a result is described by the list of
characters alone.
-/

namespace PackageAudit.Text

/-- The characters before and after the last occurrence of `mark`. -/
def splitAtLast? (mark : Char) (cs : List Char) : Option (List Char × List Char) :=
  match cs.reverse.dropWhile (· != mark) with
  | [] => none
  | _ :: before => some (before.reverse, (cs.reverse.takeWhile (· != mark)).reverse)

/-- The text before the last `mark`, or nothing at all where the mark does not occur. -/
def beforeLast (mark : Char) (text : String) : String :=
  match splitAtLast? mark text.toList with
  | some (before, _) => String.ofList before
  | none => ""

/-- The text after the last `mark`, or the whole text where the mark does not occur. -/
def afterLast (mark : Char) (text : String) : String :=
  match splitAtLast? mark text.toList with
  | some (_, after) => String.ofList after
  | none => text

/-- The characters before and after the first one that is a mark. -/
def splitAtFirst? (isMark : Char → Bool) (cs : List Char) : Option (List Char × List Char) :=
  match cs.span (! isMark ·) with
  | (_, []) => none
  | (before, _ :: after) => some (before, after)

/-- What follows a given beginning. -/
def after? : List Char → List Char → Option (List Char)
  | [], text => some text
  | _ :: _, [] => none
  | b :: beginning, c :: text => if b = c then after? beginning text else none

def startsWith (beginning text : String) : Bool := beginning.toList.isPrefixOf text.toList

/-- The text without its last character, where that is `mark`. -/
def withoutLast? (mark : Char) (text : String) : Option String :=
  match text.toList.reverse with
  | [] => none
  | c :: rest => if c = mark then some (String.ofList rest.reverse) else none

/-- Whether `part` occurs as consecutive characters. -/
def occursIn (part : List Char) : List Char → Bool
  | [] => part.isEmpty
  | c :: rest => part.isPrefixOf (c :: rest) || occursIn part rest

def contains (part text : String) : Bool := occursIn part.toList text.toList

def replaceChar (old new : Char) (text : String) : String :=
  String.ofList (text.toList.map fun c => if c = old then new else c)

end PackageAudit.Text
