import Conform.Value

namespace Conform

inductive Width where
  | int8
  | uint8
  | int16
  | uint16
  | int32
  | uint32
deriving DecidableEq

namespace Width

def least : Width → Int
  | .int8 => -128
  | .int16 => -32768
  | .int32 => -2147483648
  | .uint8 => 0
  | .uint16 => 0
  | .uint32 => 0

def greatest : Width → Int
  | .int8 => 127
  | .int16 => 32767
  | .int32 => 2147483647
  | .uint8 => 255
  | .uint16 => 65535
  | .uint32 => 4294967295

/-- The inclusive lower bound of a width. -/
def lower (w : Width) : Number := .ofInt w.least

/-- The exclusive upper bound of a width. -/
def upper (w : Width) : Number := (Number.ofInt w.greatest).add .one

def admits (w : Width) (n : Number) : Bool :=
  n.fract.same .zero && w.lower.le n && n.lt w.upper

/-- The integer that a number becomes. What is not whole is rounded toward zero, what lies outside
is moved to the nearer end, and NaN becomes zero. -/
def convert (w : Width) (n : Number) : Int :=
  if n.isNaN then 0
  else if n.isFinite then max w.least (min w.greatest (n.units.tdiv Number.unitsPerOne))
  else if n.negative then w.least
  else w.greatest

def text : Width → String
  | .int8 => "i8"
  | .uint8 => "u8"
  | .int16 => "i16"
  | .uint16 => "u16"
  | .int32 => "i32"
  | .uint32 => "u32"

end Width

inductive Literal where
  | undefined
  | null
  | boolean (b : Bool)
  | number (n : Number)
  | bigint (n : Int)
  | string (s : String)
  | symbol (s : Symbol)

namespace Literal

def toValue : Literal → Value
  | .undefined => .undefined
  | .null => .null
  | .boolean b => .boolean b
  | .number n => .number n
  | .bigint n => .bigint n
  | .string s => .string s
  | .symbol s => .symbol s

/-- A literal matches the values of its own kind that are equal to it, numbers as numbers. -/
def accepts : Literal → Value → Bool
  | .undefined, .undefined => true
  | .null, .null => true
  | .boolean a, .boolean b => a == b
  | .number a, .number b => a.same b
  | .bigint a, .bigint b => a == b
  | .string a, .string b => a == b
  | .symbol a, .symbol b => a == b
  | _, _ => false

def same (a b : Literal) : Bool := a.accepts b.toValue

end Literal

def Value.literal? : Value → Option Literal
  | .undefined => some .undefined
  | .null => some .null
  | .boolean b => some (.boolean b)
  | .number n => some (.number n)
  | .bigint n => some (.bigint n)
  | .string s => some (.string s)
  | .symbol s => some (.symbol s)
  | .array _ => none
  | .object _ => none

/-- The typed view of an accepted input. -/
inductive Output where
  | text (s : String)
  | number (n : Number)
  | boolean (b : Bool)
  | bigint (n : Int)
  | symbol (s : Symbol)
  | integer (width : Width) (n : Int)
  | value (x : Value)
  | literal (l : Literal)
  | absent
  | present (o : Output)
  | tuple (parts : List Output)
  | list (items : List Output)
  | map (entries : List (String × Output))
  /-- The output of one member of a union, with the member's index. -/
  | member (index : Nat) (o : Output)

def Output.unit : Output := .tuple []

/-- The name of a union's member by its index. A union that names its members has at most
eight. -/
def memberName : Nat → String
  | 0 => "First"
  | 1 => "Second"
  | 2 => "Third"
  | 3 => "Fourth"
  | 4 => "Fifth"
  | 5 => "Sixth"
  | 6 => "Seventh"
  | _ => "Eighth"

end Conform
