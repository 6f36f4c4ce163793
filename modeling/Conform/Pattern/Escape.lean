import Conform.Pattern.Cursor

namespace Conform.Pattern

/-- An element of a pattern that is not built from others. A `byte` comes from two hexadecimal
digits where the pattern is not Unicode. -/
inductive Element where
  | literal (c : Char) (byte : Bool)
  | charClass (set : CharSet)
  | look (l : Look)

namespace Reading

def hexDigit? (c : Char) : Option Nat :=
  if c.isDigit then some (c.toNat - '0'.toNat)
  else if 'a' ≤ c ∧ c ≤ 'f' then some (c.toNat - 'a'.toNat + 10)
  else if 'A' ≤ c ∧ c ≤ 'F' then some (c.toNat - 'A'.toNat + 10)
  else none

def scalar (n : Nat) : Reading Char :=
  if n.isValidChar then return Char.ofNat n else throw .codePointInvalid

def hexDigits : (count : Nat) → (value : Nat) → Reading Nat
  | 0, value => return value
  | count + 1, value => do
    match hexDigit? (← next .unfinished) with
    | none => throw .codePointInvalid
    | some d =>
      step
      hexDigits count (16 * value + d)

def bracedHex : (fuel : Nat) → (value : Option Nat) → Reading Nat
  | 0, _ => throw .unfinished
  | fuel + 1, value => do
    let c ← next .unfinished
    if c = '}' then
      step
      match value with
      | some n => return n
      | none => throw .codePointInvalid
    else
      match hexDigit? c with
      | none => throw .codePointInvalid
      | some d =>
        step
        bracedHex fuel (some (16 * value.getD 0 + d))

/-- A character by its code point, after the letter that tells the number of digits. -/
def codePoint (letter : Char) : Reading Element := do
  step
  if (← next .unfinished) = '{' then
    step
    return .literal (← scalar (← bracedHex ((← rest).length + 1) none)) false
  else
    let count := if letter = 'x' then 2 else if letter = 'u' then 4 else 8
    return .literal (← scalar (← hexDigits count 0)) (letter == 'x')

def edgeName : (fuel : Nat) → (name : List Char) → Reading String
  | 0, _ => throw .unfinished
  | fuel + 1, name => do
    match ← peek? with
    | some c =>
      if c.isAlpha || c = '-' then
        step
        edgeName fuel (c :: name)
      else
        return String.ofList name.reverse
    | none => return String.ofList name.reverse

/-- What follows `\b`: the name of an edge in braces, or nothing of its own. Other braces are a
repetition count. -/
def wordEdge : Reading WordEdge := do
  let start ← rest
  if start.head? = some '{' then
    step
    let c ← next .countUnclosed
    if c.isAlpha || c = '-' then
      let name ← edgeName ((← rest).length + 1) []
      if (← peek?) = some '}' then advance else throw .wordBoundaryUnknown
      match name with
      | "start" => return .start
      | "end" => return .stop
      | "start-half" => return .startHalf
      | "end-half" => return .stopHalf
      | _ => throw .wordBoundaryUnknown
    else
      setRest start
      return .boundary
  else
    return .boundary

/-- A backslash and what it stands before. Any ASCII character that is no letter, digit or angle
bracket stands for itself. -/
def escape : Reading Element := do
  advance
  let c ← next .unfinished
  if c.isDigit then throw .backreference
  if c = 'x' || c = 'u' || c = 'U' then return ← codePoint c
  if c = 'p' || c = 'P' then throw .unicodeClassUnknown
  advance
  match (← flags).escapedClass? c with
  | some set => return .charClass (← ofExcept set)
  | none =>
    match c with
    | 'a' => return .literal '\x07' false
    | 'f' => return .literal '\x0c' false
    | 't' => return .literal '\t' false
    | 'n' => return .literal '\n' false
    | 'r' => return .literal '\r' false
    | 'v' => return .literal '\x0b' false
    | 'A' => return .look .textStart
    | 'z' => return .look .textEnd
    | 'b' => return .look ((← flags).word (← wordEdge))
    | 'B' => return .look ((← flags).word .notBoundary)
    | '<' => return .look ((← flags).word .start)
    | '>' => return .look ((← flags).word .stop)
    | _ =>
      if c.toNat < 0x80 && !c.isAlphanum then return .literal c false
      else throw .escapeUnknown

end Reading

end Conform.Pattern
