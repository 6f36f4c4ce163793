import Conform.NumericString
import Conform.Output
import Conform.Pattern

namespace Conform

namespace Predicate

def positive (x : Value) : Bool := x.number?.any Number.zero.lt

def even (x : Value) : Bool := x.number?.any fun n => n.toInt?.any fun i => i % 2 == 0

def nonemptyString (x : Value) : Bool := x.string?.any fun s => !s.isEmpty

def isTrue (x : Value) : Bool := x.boolean? == some true

def negativeBigint (x : Value) : Bool := x.bigint?.any (· < 0)

/-- Symbols that have a description, an empty one included. -/
def describedSymbol (x : Value) : Bool := x.symbol?.any fun s => s.description.isSome

def shortArray (x : Value) : Bool := x.array?.any fun items => items.length < 3

def hasId (x : Value) : Bool := x.object?.any fun o => o.contains "id"

def named? : String → Option (Value → Bool)
  | "always" => some fun _ => true
  | "never" => some fun _ => false
  | "nonempty_string" => some nonemptyString
  | "positive" => some positive
  | "even" => some even
  | "true" => some isTrue
  | "negative_bigint" => some negativeBigint
  | "described_symbol" => some describedSymbol
  | "short_array" => some shortArray
  | "has_id" => some hasId
  | "nullish" => some Value.isNullish
  | _ => none

end Predicate

/-- A half-open range, unbounded where a bound is missing. -/
structure NumberRange where
  min : Option Number := none
  max : Option Number := none
deriving DecidableEq

def NumberRange.contains (r : NumberRange) (n : Number) : Bool :=
  r.min.all (·.le n) && r.max.all (n.lt ·)

inductive Leaf where
  | any
  | string
  | number
  | boolean
  | bigint
  | symbol
  | null
  | undefined
  | void
  | const (l : Literal)
  | enum (members : List String)
  | numericString
  | regexp (p : Pattern)
  | integer (w : Width)
  | range (r : NumberRange)
  | custom (predicate : Value → Bool)

namespace Leaf

def accepts : Leaf → Value → Bool
  | .any, _ => true
  | .string, x => x.kind == .string
  | .number, x => x.kind == .number
  | .boolean, x => x.kind == .boolean
  | .bigint, x => x.kind == .bigint
  | .symbol, x => x.kind == .symbol
  | .null, x => x.kind == .null
  | .undefined, x => x.kind == .undefined
  | .void, x => x.isNullish
  | .const l, x => l.accepts x
  | .enum members, x => x.string?.any members.contains
  | .numericString, x => x.string?.any isNumericString
  | .regexp p, x => x.string?.any p.isMatch
  | .integer w, x => x.number?.any w.admits
  | .range r, x => x.number?.any r.contains
  | .custom predicate, x => predicate x

def project : Leaf → Value → Option Output
  | .any, x => some (.value x)
  | .string, x => x.string?.map .text
  | .number, x => x.number?.map .number
  | .boolean, x => x.boolean?.map .boolean
  | .bigint, x => x.bigint?.map .bigint
  | .symbol, x => x.symbol?.map .symbol
  | .null, x => if x.isNull then some .unit else none
  | .undefined, x => if x.isUndefined then some .unit else none
  | .void, x => if x.isNullish then some .unit else none
  | .const l, x => if l.accepts x then some (.literal l) else none
  | .enum members, x => do
    let s ← x.string?
    (members.find? (· == s)).map .text
  | .numericString, x => (x.string?.filter isNumericString).map .text
  | .regexp p, x => (x.string?.filter p.isMatch).map .text
  | .integer w, x => (x.number?.filter w.admits).map fun n => .integer w (w.convert n)
  | .range r, x => (x.number?.filter r.contains).map .number
  | .custom predicate, x => if predicate x then some (.value x) else none

/-- How an integer or custom validator shows itself to a programmer. -/
def debugText? : Leaf → Option String
  | .integer w => some ("IntegerSchema<" ++ w.text ++ ">")
  | .custom _ => some "CustomSchema \x7b .. \x7d"
  | _ => none

end Leaf

end Conform
