import Conform.Unicode.CharClass
import Conform.Unicode.Folding

namespace Conform

abbrev CharSet := Char → Bool

namespace CharSet

def empty : CharSet := fun _ => false

def single (c : Char) : CharSet := fun d => d == c

def range (first last : Char) : CharSet := fun c => first ≤ c && c ≤ last

def ofString (s : String) : CharSet := fun c => s.toList.contains c

def union (s t : CharSet) : CharSet := fun c => s c || t c

def inter (s t : CharSet) : CharSet := fun c => s c && t c

def difference (s t : CharSet) : CharSet := fun c => s c && !t c

def symmetricDifference (s t : CharSet) : CharSet := fun c => s c != t c

def complement (s : CharSet) : CharSet := fun c => !s c

/-- The characters that differ from a member in case alone. -/
def foldCase (s : CharSet) : CharSet := fun c => (Unicode.caseVariants c).any s

def foldAsciiCase (s : CharSet) : CharSet := fun c => s c || s c.toLower || s c.toUpper

def asciiLower : CharSet := range 'a' 'z'

def asciiUpper : CharSet := range 'A' 'Z'

def asciiLetter : CharSet := asciiLower.union asciiUpper

def asciiDigit : CharSet := range '0' '9'

def asciiWord : CharSet := (asciiLetter.union asciiDigit).union (single '_')

def asciiSpace : CharSet := ofString "\t\n\x0b\x0c\r "

def asciiGraphic : CharSet := range '!' '~'

def asciiClass? : String → Option CharSet
  | "alnum" => some (asciiLetter.union asciiDigit)
  | "alpha" => some asciiLetter
  | "ascii" => some (range '\x00' '\x7f')
  | "blank" => some (ofString "\t ")
  | "cntrl" => some ((range '\x00' '\x1f').union (single '\x7f'))
  | "digit" => some asciiDigit
  | "graph" => some asciiGraphic
  | "lower" => some asciiLower
  | "print" => some (range ' ' '~')
  | "punct" => some (asciiGraphic.difference (asciiLetter.union asciiDigit))
  | "space" => some asciiSpace
  | "upper" => some asciiUpper
  | "word" => some asciiWord
  | "xdigit" => some ((asciiDigit.union (range 'a' 'f')).union (range 'A' 'F'))
  | _ => none

end CharSet

namespace Pattern

inductive WordEdge where
  | boundary
  | notBoundary
  | start
  | stop
  | startHalf
  | stopHalf
deriving DecidableEq

/-- A condition on a position of a text, which consumes nothing. -/
inductive Look where
  | textStart
  | textEnd
  | lineStart (crlf : Bool)
  | lineEnd (crlf : Bool)
  | word (edge : WordEdge) (ascii : Bool)
deriving DecidableEq

def WordEdge.holds (before after : Bool) : WordEdge → Bool
  | .boundary => before != after
  | .notBoundary => before == after
  | .start => !before && after
  | .stop => before && !after
  | .startHalf => !before
  | .stopHalf => !after

/-- Whether the condition holds between two characters; an end of the text lacks one. With `crlf`
either character ends a line, and both together end one. -/
def Look.holds (before after : Option Char) : Look → Bool
  | .textStart => before.isNone
  | .textEnd => after.isNone
  | .lineStart false => before.all (· == '\n')
  | .lineEnd false => after.all (· == '\n')
  | .lineStart true => before.all fun c => c == '\n' || (c == '\r' && after != some '\n')
  | .lineEnd true => after.all fun c => c == '\r' || (c == '\n' && before != some '\r')
  | .word edge ascii =>
    let isWord := if ascii then CharSet.asciiWord else Unicode.isWordChar
    edge.holds (before.any isWord) (after.any isWord)

inductive Atom where
  | oneOf (set : CharSet)
  | look (l : Look)

/-- A regular expression over atoms. Only the set of its matches counts, so nothing tells greedy
repetition from lazy. -/
inductive Expression (α : Type) where
  | empty
  | atom (a : α)
  | seq (p q : Expression α)
  | alt (p q : Expression α)
  | repetition (p : Expression α) (least : Nat) (most : Option Nat)

def Expression.map {α β : Type} (f : α → β) : Expression α → Expression β
  | .empty => .empty
  | .atom a => .atom (f a)
  | .seq p q => .seq (p.map f) (q.map f)
  | .alt p q => .alt (p.map f) (q.map f)
  | .repetition p least most => .repetition (p.map f) least most

end Pattern

end Conform
