import Conform.Entries
import Conform.Number
import Conform.Path

namespace Conform

/-- The properties of an object: those with a string key, and apart from them those keyed by a
symbol. -/
structure ObjectOf (α : Type) where
  properties : List (String × α) := []
  symbols : List (Symbol × α) := []

inductive Value where
  | undefined
  | null
  | boolean (b : Bool)
  | number (n : Number)
  | bigint (n : Int)
  | string (s : String)
  | symbol (s : Symbol)
  | array (items : List Value)
  | object (o : ObjectOf Value)

abbrev Object := ObjectOf Value

instance : Inhabited Value := ⟨.undefined⟩

inductive Kind where
  | undefined
  | null
  | boolean
  | number
  | bigint
  | string
  | symbol
  | array
  | object
deriving DecidableEq

def Kind.text : Kind → String
  | .undefined => "undefined"
  | .null => "null"
  | .boolean => "boolean"
  | .number => "number"
  | .bigint => "bigint"
  | .string => "string"
  | .symbol => "symbol"
  | .array => "array"
  | .object => "object"

namespace ObjectOf

variable {α : Type}

def empty : ObjectOf α := {}

def keys (o : ObjectOf α) : List String := Entries.keys o.properties

def size (o : ObjectOf α) : Nat := o.properties.length

def isEmpty (o : ObjectOf α) : Bool := o.properties.isEmpty

def get? (o : ObjectOf α) (key : String) : Option α := Entries.find? o.properties key

def symbol? (o : ObjectOf α) (key : Symbol) : Option α := Entries.find? o.symbols key

def contains (o : ObjectOf α) (key : String) : Bool := (o.get? key).isSome

def insert (o : ObjectOf α) (key : String) (a : α) : ObjectOf α :=
  { o with properties := Entries.insert o.properties key a }

def exchange (o : ObjectOf α) (key : String) (a : α) : Option α × ObjectOf α :=
  let (previous, properties) := Entries.exchange o.properties key a
  (previous, { o with properties := properties })

def insertSymbol (o : ObjectOf α) (key : Symbol) (a : α) : ObjectOf α :=
  { o with symbols := Entries.insert o.symbols key a }

def ofList (entries : List (String × α)) : ObjectOf α := { properties := Entries.ofList entries }

end ObjectOf

namespace Value

def kind : Value → Kind
  | .undefined => .undefined
  | .null => .null
  | .boolean _ => .boolean
  | .number _ => .number
  | .bigint _ => .bigint
  | .string _ => .string
  | .symbol _ => .symbol
  | .array _ => .array
  | .object _ => .object

def isNull : Value → Bool
  | .null => true
  | _ => false

def isUndefined : Value → Bool
  | .undefined => true
  | _ => false

def isNullish (x : Value) : Bool := x.isNull || x.isUndefined

def boolean? : Value → Option Bool
  | .boolean b => some b
  | _ => none

def number? : Value → Option Number
  | .number n => some n
  | _ => none

def bigint? : Value → Option Int
  | .bigint n => some n
  | _ => none

def string? : Value → Option String
  | .string s => some s
  | _ => none

def symbol? : Value → Option Symbol
  | .symbol s => some s
  | _ => none

def array? : Value → Option (List Value)
  | .array items => some items
  | _ => none

def object? : Value → Option Object
  | .object o => some o
  | _ => none

/-- The property of an object under a string key; other kinds have none. -/
def get? (x : Value) (key : String) : Option Value := x.object?.bind (·.get? key)

mutual

def depth : Value → Nat
  | .array items => depthOfItems items + 1
  | .object ⟨properties, symbols⟩ => max (depthOfProperties properties) (depthOfSymbols symbols) + 1
  | _ => 0

def depthOfItems : List Value → Nat
  | [] => 0
  | x :: rest => max x.depth (depthOfItems rest)

def depthOfProperties : List (String × Value) → Nat
  | [] => 0
  | (_, x) :: rest => max x.depth (depthOfProperties rest)

def depthOfSymbols : List (Symbol × Value) → Nat
  | [] => 0
  | (_, x) :: rest => max x.depth (depthOfSymbols rest)

end

theorem depth_le_depthOfItems {items : List Value} {x : Value} (h : x ∈ items) :
    x.depth ≤ depthOfItems items := by
  induction items with
  | nil => cases h
  | cons y rest ih =>
    rw [depthOfItems]
    rcases List.mem_cons.1 h with rfl | h
    · exact Nat.le_max_left _ _
    · exact Nat.le_trans (ih h) (Nat.le_max_right _ _)

theorem depth_le_depthOfProperties {properties : List (String × Value)} {e : String × Value}
    (h : e ∈ properties) : e.2.depth ≤ depthOfProperties properties := by
  induction properties with
  | nil => cases h
  | cons y rest ih =>
    rw [depthOfProperties]
    rcases List.mem_cons.1 h with rfl | h
    · exact Nat.le_max_left _ _
    · exact Nat.le_trans (ih h) (Nat.le_max_right _ _)

theorem depth_array_pos (items : List Value) : 0 < (array items).depth := Nat.succ_pos _

theorem depth_object_pos (o : Object) : 0 < (object o).depth := Nat.succ_pos _

theorem depth_item_lt {items : List Value} {x : Value} (h : x ∈ items) :
    x.depth < (array items).depth :=
  Nat.lt_succ_of_le (depth_le_depthOfItems h)

theorem depth_property_lt {o : Object} {e : String × Value} (h : e ∈ o.properties) :
    e.2.depth < (object o).depth :=
  Nat.lt_succ_of_le (Nat.le_trans (depth_le_depthOfProperties h) (Nat.le_max_left _ _))

theorem mem_properties_of_get? {o : Object} {key : String} {x : Value} (h : o.get? key = some x) :
    (key, x) ∈ o.properties :=
  Entries.mem_of_find? h

/-- What an object holds under a key lies deeper than the object, also where it holds nothing. -/
theorem depth_field_lt (o : Object) (key : String) :
    ((o.get? key).getD .undefined).depth < (object o).depth := by
  cases h : o.get? key with
  | none => exact depth_object_pos o
  | some x => exact depth_property_lt (mem_properties_of_get? h)

theorem depth_element_lt (items : List Value) (i : Nat) :
    (items[i]?.getD .undefined).depth < (array items).depth := by
  cases h : items[i]? with
  | none => exact depth_array_pos items
  | some x => exact depth_item_lt (List.mem_of_getElem? h)

mutual

/-- Equality by value: numbers compare as numbers, so NaN differs from itself, and objects are
equal when they have the same keys with equal values, in any order. -/
def same : Value → Value → Bool
  | .undefined, .undefined => true
  | .null, .null => true
  | .boolean a, .boolean b => a == b
  | .number a, .number b => a.same b
  | .bigint a, .bigint b => a == b
  | .string a, .string b => a == b
  | .symbol a, .symbol b => a == b
  | .array xs, .array ys => sameItems xs ys
  | .object ⟨ps, ss⟩, .object o =>
    ps.length == o.properties.length && ss.length == o.symbols.length &&
      sameProperties ps o && sameSymbols ss o
  | _, _ => false

def sameItems : List Value → List Value → Bool
  | [], [] => true
  | x :: xs, y :: ys => same x y && sameItems xs ys
  | _, _ => false

def sameProperties : List (String × Value) → Object → Bool
  | [], _ => true
  | (key, x) :: rest, o =>
    (match o.get? key with
      | some y => same x y
      | none => false) && sameProperties rest o

def sameSymbols : List (Symbol × Value) → Object → Bool
  | [], _ => true
  | (key, x) :: rest, o =>
    (match o.symbol? key with
      | some y => same x y
      | none => false) && sameSymbols rest o

end

end Value

/-- Arrays have their items under indices and under the canonical texts of indices, objects
their properties under keys and under indices read as their texts. -/
def Value.part? : Value → Segment → Option Value
  | .object o, .key name => o.get? name
  | .object o, .index i => o.get? (toString i)
  | .object o, .symbol s => o.symbol? s
  | .array items, .index i => items[i]?
  | .array items, .key name => (canonicalIndex? name).bind fun i => items[i]?
  | _, _ => none

def Value.access : Value → Path → Option Value
  | x, [] => some x
  | x, s :: rest => (x.part? s).bind fun y => access y rest

end Conform
