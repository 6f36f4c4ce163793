import Conform.Pattern.Escape

namespace Conform.Pattern

/-- The operators between the parts of a bracketed class, which group to the left. -/
inductive SetOperator where
  | inter
  | difference
  | symmetricDifference
deriving DecidableEq

def SetOperator.apply : SetOperator → CharSet → CharSet → CharSet
  | .inter => CharSet.inter
  | .difference => CharSet.difference
  | .symmetricDifference => CharSet.symmetricDifference

def setOperator? : List Char → Option SetOperator
  | '&' :: '&' :: _ => some .inter
  | '-' :: '-' :: _ => some .difference
  | '~' :: '~' :: _ => some .symmetricDifference
  | _ => none

abbrev LeftOperand := Option (CharSet × SetOperator)

/-- Each operand is closed under case before the operator is applied. -/
def Flags.combine (f : Flags) : LeftOperand → CharSet → CharSet
  | none, s => s
  | some (left, op), s => op.apply (f.fold left) (f.fold s)

/-- A named class `[:name:]` or `[:^name:]` and what follows it. -/
def namedClass? : List Char → Option (Bool × CharSet × List Char)
  | '[' :: ':' :: rest =>
    let (negated, rest) := match rest with
      | '^' :: rest => (true, rest)
      | _ => (false, rest)
    match rest.dropWhile (· != ':') with
    | ':' :: ']' :: after =>
      (CharSet.asciiClass? (String.ofList (rest.takeWhile (· != ':')))).map fun s =>
        (negated, s, after)
    | _ => none
  | _ => none

namespace Reading

/-- The hyphens at the start of a class, which stand for themselves. -/
def leadingHyphens : (fuel : Nat) → (found : Bool) → Reading Bool
  | 0, _ => throw .classUnclosed
  | fuel + 1, found => do
    if (← next .classUnclosed) = '-' then
      step
      leadingHyphens fuel true
    else
      return found

/-- The start of a class: whether it is negated, and the members that its first characters are.
A bracket that would close an empty class stands for itself. -/
def bracketStart : Reading (Bool × CharSet) := do
  step
  let negated := (← next .classUnclosed) == '^'
  if negated then step
  let hyphens ← leadingHyphens ((← rest).length + 1) false
  if hyphens then
    return (negated, CharSet.single '-')
  else if (← next .classUnclosed) = ']' then
    step
    let _ ← next .classUnclosed
    return (negated, CharSet.single ']')
  else
    return (negated, CharSet.empty)

def bracketElement : Reading Element := do
  let c ← next .classUnclosed
  if c = '\\' then escape
  else
    advance
    return .literal c false

def literalMember : Element → Reading Char
  | .literal c _ => do
    if !(← flags).unicode && 0x7f < c.toNat then throw .notUtf8
    return c
  | _ => throw .classRangeNotLiteral

def member : Element → Reading CharSet
  | .charClass set => return set
  | .look _ => throw .classItemInvalid
  | e => return CharSet.single (← literalMember e)

def peekSecond? : Reading (Option Char) := do
  let rest := (← rest).tail
  return (if (← flags).ignoreBlank then dropBlank false rest else rest).head?

/-- One member or range of a class. A hyphen makes a range unless a bracket closes the class
after it or a second hyphen makes it an operator. -/
def bracketRange : Reading CharSet := do
  let first ← bracketElement
  skipBlank
  if (← next .classUnclosed) != '-' then return ← member first
  let second ← peekSecond?
  if second = some ']' || second = some '-' then return ← member first
  step
  let last ← bracketElement
  let lower ← literalMember first
  let upper ← literalMember last
  if upper < lower then throw .classRangeReversed
  return CharSet.range lower upper

def bracketRest : (fuel : Nat) → (negated : Bool) → LeftOperand → CharSet → Reading CharSet
  | 0, _, _, _ => throw .classUnclosed
  | fuel + 1, negated, left, members => do
    skipBlank
    let rest ← rest
    match rest.head? with
    | none => throw .classUnclosed
    | some ']' =>
      advance
      let flags ← flags
      ofExcept (flags.resolve negated (flags.combine left members))
    | some '[' =>
      match namedClass? rest with
      | some (without, named, after) =>
        setRest after
        let inner ← ofExcept ((← flags).resolve without named)
        bracketRest fuel negated left (members.union inner)
      | none =>
        let (innerNegated, start) ← bracketStart
        let inner ← bracketRest fuel innerNegated none start
        bracketRest fuel negated left (members.union inner)
    | some _ =>
      match setOperator? rest with
      | some op =>
        setRest (rest.drop 2)
        bracketRest fuel negated (some ((← flags).combine left members, op)) CharSet.empty
      | none =>
        let more ← bracketRange
        bracketRest fuel negated left (members.union more)

def bracket : Reading CharSet := do
  let (negated, start) ← bracketStart
  bracketRest ((← rest).length + 1) negated none start

end Reading

end Conform.Pattern
