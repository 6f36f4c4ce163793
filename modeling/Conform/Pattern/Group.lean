import Conform.Pattern.Cursor

namespace Conform.Pattern

/-- The part of a group up to its content: either modes for what follows, with no content, or the
modes of the content. -/
inductive GroupHead where
  | directive (flags : Flags)
  | opening (flags : Flags)

structure FlagItems where
  flags : Flags
  seen : List Char := []
  /-- A hyphen was read: the letters from here on switch modes off. -/
  negated : Bool := false
  /-- The last character was that hyphen. -/
  dangling : Bool := false

namespace FlagItems

def add (items : FlagItems) (c : Char) : Except Error FlagItems :=
  if c = '-' then
    if items.negated then .error .flagRepeated
    else .ok { items with negated := true, dangling := true }
  else
    match items.flags.set? c !items.negated with
    | none => .error .flagUnknown
    | some flags =>
      if items.seen.contains c then .error .flagRepeated
      else .ok { items with flags := flags, seen := c :: items.seen, dangling := false }

def head : FlagItems → List Char → Except Error (GroupHead × List Char)
  | _, [] => .error .groupUnclosed
  | items, c :: rest =>
    if c = ':' || c = ')' then
      if items.dangling then .error .flagMissing
      else if c = ':' then .ok (.opening items.flags, rest)
      else if items.seen.isEmpty then .error .nothingToRepeat
      else .ok (.directive items.flags, rest)
    else
      match items.add c with
      | .ok items => items.head rest
      | .error e => .error e

end FlagItems

/-- The name of a group: a letter or underscore, then letters, digits, underscores, points and
square brackets, up to a closing angle bracket. -/
def groupName? (rest : List Char) : Except Error (String × List Char) :=
  let name := rest.takeWhile (· != '>')
  let isNameChar (c : Char) : Bool := ['_', '.', '[', ']'].contains c || Unicode.isAlphanumeric c
  match rest.dropWhile (· != '>'), name with
  | [], _ => .error .groupUnclosed
  | _, [] => .error .groupNameInvalid
  | _ :: after, c :: more =>
    if (c = '_' || Unicode.isAlphabetic c) && more.all isNameChar then
      .ok (String.ofList name, after)
    else .error .groupNameInvalid

namespace Reading

def named (rest : List Char) : Reading GroupHead := do
  let (name, after) ← ofExcept (groupName? rest)
  if (← get).names.contains name then throw .groupNameRepeated
  modify fun c => { c with rest := after, names := name :: c.names }
  return .opening (← flags)

def groupHead : Reading GroupHead := do
  step
  match ← rest with
  | '?' :: '=' :: _ => throw .lookaround
  | '?' :: '!' :: _ => throw .lookaround
  | '?' :: '<' :: '=' :: _ => throw .lookaround
  | '?' :: '<' :: '!' :: _ => throw .lookaround
  | '?' :: 'P' :: '<' :: after => named after
  | '?' :: '<' :: after => named after
  | '?' :: after =>
    let (head, after) ← ofExcept (FlagItems.head { flags := ← flags } after)
    setRest after
    return head
  | _ => return .opening (← flags)

end Reading

end Conform.Pattern
