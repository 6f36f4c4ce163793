import Conform.Pattern.Expression

namespace Conform.Pattern

inductive Error where
  | unfinished
  | groupUnclosed
  | groupUnopened
  | groupNameInvalid
  | groupNameRepeated
  | lookaround
  | flagUnknown
  | flagRepeated
  | flagMissing
  | nothingToRepeat
  | countUnclosed
  | countMissing
  | countTooLarge
  | countReversed
  | backreference
  | escapeUnknown
  | codePointInvalid
  | unicodeClassUnknown
  | wordBoundaryUnknown
  | classUnclosed
  | classRangeReversed
  | classRangeNotLiteral
  | classItemInvalid
  | notUtf8
deriving DecidableEq

/-- The modes that `(?...)` switches. -/
structure Flags where
  ignoreCase : Bool := false
  multiLine : Bool := false
  dotMatchesNewline : Bool := false
  crlf : Bool := false
  ignoreBlank : Bool := false
  unicode : Bool := true

namespace Flags

/-- Switches the mode of one letter; `U` swaps greedy and lazy, which no match depends on. -/
def set? (f : Flags) (letter : Char) (on : Bool) : Option Flags :=
  match letter with
  | 'i' => some { f with ignoreCase := on }
  | 'm' => some { f with multiLine := on }
  | 's' => some { f with dotMatchesNewline := on }
  | 'R' => some { f with crlf := on }
  | 'x' => some { f with ignoreBlank := on }
  | 'u' => some { f with unicode := on }
  | 'U' => some f
  | _ => none

def fold (f : Flags) (s : CharSet) : CharSet :=
  if f.ignoreCase then (if f.unicode then s.foldCase else s.foldAsciiCase) else s

/-- Without Unicode the characters past ASCII stand for bytes that are no text of their own. -/
def asText (f : Flags) (s : CharSet) : Except Error CharSet :=
  if !f.unicode && s '\x80' then .error .notUtf8 else .ok s

/-- A set as it is written becomes the set that it means: case first, then negation. -/
def resolve (f : Flags) (negated : Bool) (s : CharSet) : Except Error CharSet :=
  f.asText (if negated then (f.fold s).complement else f.fold s)

def dot (f : Flags) : Except Error CharSet :=
  if !f.unicode then .error .notUtf8
  else if f.dotMatchesNewline then .ok CharSet.empty.complement
  else if f.crlf then .ok (CharSet.ofString "\r\n").complement
  else .ok (CharSet.single '\n').complement

def lineStart (f : Flags) : Look := if f.multiLine then .lineStart f.crlf else .textStart

def lineEnd (f : Flags) : Look := if f.multiLine then .lineEnd f.crlf else .textEnd

def word (f : Flags) (edge : WordEdge) : Look := .word edge !f.unicode

def escapedClass? (f : Flags) (letter : Char) : Option (Except Error CharSet) :=
  let named? : Option CharSet := match letter.toLower with
    | 'd' => some (if f.unicode then Unicode.isDecimalDigit else CharSet.asciiDigit)
    | 's' => some (if f.unicode then Unicode.isWhiteSpace else CharSet.asciiSpace)
    | 'w' => some (if f.unicode then Unicode.isWordChar else CharSet.asciiWord)
    | _ => none
  named?.map fun s => f.asText (if letter.isUpper then s.complement else s)

end Flags

/-- What is left of a pattern, the modes in force, and the group names used so far. -/
structure Cursor where
  rest : List Char
  flags : Flags := {}
  names : List String := []

abbrev Reading := StateT Cursor (Except Error)

/-- Drops white space, and comments from `#` to the end of the line. -/
def dropBlank : (inComment : Bool) → List Char → List Char
  | _, [] => []
  | true, c :: rest => dropBlank (c != '\n') rest
  | false, c :: rest =>
    if Unicode.isWhiteSpace c then dropBlank false rest
    else if c = '#' then dropBlank true rest
    else c :: rest

namespace Reading

def rest : Reading (List Char) := return (← get).rest

def flags : Reading Flags := return (← get).flags

def setRest (rest : List Char) : Reading Unit := modify fun c => { c with rest := rest }

def setFlags (flags : Flags) : Reading Unit := modify fun c => { c with flags := flags }

def peek? : Reading (Option Char) := return (← rest).head?

def advance : Reading Unit := do setRest (← rest).tail

def skipBlank : Reading Unit := do
  if (← flags).ignoreBlank then setRest (dropBlank false (← rest))

/-- Past one character and the blank after it. -/
def step : Reading Unit := do
  advance
  skipBlank

def next (otherwise : Error) : Reading Char := do
  match ← peek? with
  | some c => return c
  | none => throw otherwise

def ofExcept {α : Type} (r : Except Error α) : Reading α := StateT.lift r

end Reading

end Conform.Pattern
