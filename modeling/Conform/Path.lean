namespace Conform

/-- A unique token: two symbols are the same only when they were created as one, and the
description is for display. -/
structure Symbol where
  serial : Nat
  description : Option String
deriving DecidableEq

def Symbol.text (s : Symbol) : String := "Symbol(" ++ s.description.getD "" ++ ")"

/-- One step from a container to a part of it. -/
inductive Segment where
  | key (name : String)
  | index (i : Nat)
  | symbol (s : Symbol)
deriving DecidableEq

abbrev Path := List Segment

namespace Segment

def text : Segment → String
  | .key name => name
  | .index i => "[" ++ toString i ++ "]"
  | .symbol s => "[" ++ s.text ++ "]"

/-- The text of a segment after another one: a point goes before a key. -/
def followingText : Segment → String
  | .key name => "." ++ name
  | s => s.text

end Segment

namespace Path

def root : Path := []

def push (p : Path) (s : Segment) : Path := p ++ [s]

def isRoot (p : Path) : Bool := p.isEmpty

def parent? (p : Path) : Option Path := if p.isEmpty then none else some p.dropLast

def last? (p : Path) : Option Segment := p.getLast?

def text : Path → String
  | [] => ""
  | s :: rest => s.text ++ String.join (rest.map Segment.followingText)

end Path

def indexBound : Nat := 0x10000000000000000

/-- Reads digits after those that were read as `i`. The number must stay an index throughout. -/
def readDigits? : List Char → Nat → Option Nat
  | [], i => some i
  | c :: rest, i =>
    if c.isDigit then
      let j := 10 * i + (c.toNat - '0'.toNat)
      if j < indexBound then readDigits? rest j else none
    else none

def dropPlus : List Char → List Char
  | '+' :: rest => rest
  | cs => cs

/-- Reads an index from at least one digit, which a plus sign may precede. -/
def readIndex? (text : String) : Option Nat :=
  match dropPlus text.toList with
  | [] => none
  | digits => readDigits? digits 0

/-- The index that the key spells in the way it is printed, without leading zeros or sign. -/
def canonicalIndex? (key : String) : Option Nat :=
  (readIndex? key).filter fun i => toString i == key

end Conform
