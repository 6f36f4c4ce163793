import Conform.Value

namespace Conform

/-- A JSON document with numbers of some type. -/
inductive JsonOf (ν : Type) where
  | null
  | boolean (b : Bool)
  | number (n : ν)
  | string (s : String)
  | array (items : List (JsonOf ν))
  | object (members : List (String × JsonOf ν))

abbrev Json := JsonOf Number

namespace Value

section

variable {ν : Type} (binary64? : ν → Option Number)

mutual

/-- The value of a document; a number without a binary64 becomes NaN. Of members with one key the
last gives the value, the first the place. -/
def ofJsonWith : JsonOf ν → Value
  | .null => .null
  | .boolean b => .boolean b
  | .number n => .number ((binary64? n).getD .nan)
  | .string s => .string s
  | .array items => .array (ofJsonItems items)
  | .object members => .object (.ofList (ofJsonMembers members))

def ofJsonItems : List (JsonOf ν) → List Value
  | [] => []
  | j :: rest => ofJsonWith j :: ofJsonItems rest

def ofJsonMembers : List (String × JsonOf ν) → List (String × Value)
  | [] => []
  | (key, j) :: rest => (key, ofJsonWith j) :: ofJsonMembers rest

end

end

def ofJson : Json → Value := ofJsonWith some

end Value

end Conform
