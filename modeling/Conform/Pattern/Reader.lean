import Conform.Pattern.Bracket
import Conform.Pattern.Group

namespace Conform.Pattern

/-- One item of a sequence; a change of modes leaves nothing that could be repeated. -/
abbrev Item := Option (Expression Atom)

/-- The items, the last of them first, one after the other. -/
def sequence (items : List Item) : Expression Atom :=
  items.foldl (fun e item => match item with
    | some p => .seq p e
    | none => e) .empty

def alternatives (branches : List (List Item)) (last : List Item) : Expression Atom :=
  branches.foldl (fun e branch => .alt (sequence branch) e) (sequence last)

structure Count where
  least : Nat
  most : Option Nat

namespace Reading

def digits : (fuel : Nat) → (value : Option Nat) → Reading (Option Nat)
  | 0, _ => throw .unfinished
  | fuel + 1, value => do
    match ← peek? with
    | some c =>
      if c.isDigit then
        step
        digits fuel (some (10 * value.getD 0 + (c.toNat - '0'.toNat)))
      else
        return value
    | none => return value

/-- A number in a repetition count, below two to the 32 and with white space on either side. -/
def decimal? : Reading (Option Nat) := do
  setRest ((← rest).dropWhile Unicode.isWhiteSpace)
  let value ← digits ((← rest).length + 1) none
  skipBlank
  setRest ((← rest).dropWhile Unicode.isWhiteSpace)
  skipBlank
  if value.any (0xffffffff < ·) then throw .countTooLarge
  return value

def required (value : Option Nat) : Reading Nat :=
  match value with
  | some n => return n
  | none => throw .countMissing

def bracedCount : Reading Count := do
  step
  let _ ← next .countUnclosed
  let least ← decimal?
  let c ← next .countUnclosed
  let count : Count ← do
    if c = ',' then
      step
      if (← next .countUnclosed) = '}' then
        pure ⟨← required least, none⟩
      else
        let least ← required least
        pure ⟨least, some (← required (← decimal?))⟩
    else
      let n ← required least
      pure ⟨n, some n⟩
  if (← next .countUnclosed) != '}' then throw .countUnclosed
  step
  if count.most.any (· < count.least) then throw .countReversed
  return count

/-- The count that the next characters spell, if they do, with the mark of a lazy repetition. -/
def count? : Reading (Option Count) := do
  let simple (least : Nat) (most : Option Nat) : Reading (Option Count) := do
    advance
    if (← peek?) = some '?' then advance
    return some ⟨least, most⟩
  match ← peek? with
  | some '?' => simple 0 (some 1)
  | some '*' => simple 0 none
  | some '+' => simple 1 none
  | some '{' =>
    let count ← bracedCount
    if (← peek?) = some '?' then advance
    return some count
  | _ => return none

def element (c : Char) : Reading Element := do
  if c = '\\' then escape
  else
    advance
    let flags ← flags
    match c with
    | '.' => return .charClass (← ofExcept flags.dot)
    | '^' => return .look flags.lineStart
    | '$' => return .look flags.lineEnd
    | _ => return .literal c false

def atom : Element → Reading (Expression Atom)
  | .charClass set => return .atom (.oneOf set)
  | .look l => return .atom (.look l)
  | .literal c byte => do
    let flags ← flags
    if byte && !flags.unicode && 0x7f < c.toNat then throw .notUtf8
    return .atom (.oneOf (flags.fold (CharSet.single c)))

/-- What is left of a group, or of the pattern when `inGroup` is false. Each turn consumes at
least one character. -/
def branches : (fuel : Nat) → (inGroup : Bool) → List (List Item) → List Item →
    Reading (Expression Atom)
  | 0, _, _, _ => throw .unfinished
  | fuel + 1, inGroup, before, items => do
    skipBlank
    match ← peek? with
    | none =>
      if inGroup then throw .groupUnclosed
      return alternatives before items
    | some ')' =>
      if !inGroup then throw .groupUnopened
      advance
      return alternatives before items
    | some '|' =>
      advance
      branches fuel inGroup (items :: before) []
    | some '(' =>
      let outer ← flags
      match ← groupHead with
      | .directive flags =>
        setFlags flags
        branches fuel inGroup before (none :: items)
      | .opening flags =>
        setFlags flags
        let content ← branches fuel true [] []
        setFlags outer
        branches fuel inGroup before (some content :: items)
    | some '[' =>
      let set ← bracket
      branches fuel inGroup before (some (.atom (.oneOf set)) :: items)
    | some c =>
      if c = '?' || c = '*' || c = '+' || c = '{' then
        match items with
        | some e :: rest =>
          match ← count? with
          | some ⟨least, most⟩ =>
            branches fuel inGroup before (some (.repetition e least most) :: rest)
          | none => throw .nothingToRepeat
        | _ => throw .nothingToRepeat
      else
        let e ← atom (← element c)
        branches fuel inGroup before (some e :: items)

end Reading

def Expression.read (text : String) : Except Error (Expression Atom) :=
  (Reading.branches (text.length + 1) false [] []).run' { rest := text.toList }

end Conform.Pattern
