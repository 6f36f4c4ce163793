import Conform.Report
import Conform.Validator.Leaf

namespace Conform

/-- A reference to a validator that may be defined later. Copies refer to the same definition. -/
structure Forward where
  cell : Nat
deriving DecidableEq

/-- A validator given by its functions, which see the context, when there is one, and may change
it. -/
structure Extension where
  check : Value → Path → Option Context → Bool
  update : Value → Path → Context → Context
  project : Value → Option Output

/-- Whether the parts of a validator are a tuple, with an output of their own each, or a list. -/
inductive Form where
  | tuple
  | list
deriving DecidableEq

inductive Validator where
  | leaf (l : Leaf)
  | extension (e : Extension)
  | optional (inner : Validator)
  | nullable (inner : Validator)
  /-- Projects to the input itself. -/
  | erased (inner : Validator)
  /-- Stands for the inner validator in every respect. -/
  | wrapped (inner : Validator)
  | array (item : Validator)
  | tuple (form : Form) (elements : List Validator)
  | record (key value : Validator)
  | object (form : Form) (fields : List (String × Validator)) (exact : Bool)
  | union (form : Form) (members : List Validator)
  | intersection (form : Form) (members : List Validator)
  | forward (f : Forward)

/-- The string key that objects and records never validate, and that no field declares. -/
def reservedKey : String := "__proto__"

def declares (fields : List (String × Validator)) (key : String) : Bool :=
  fields.any fun (name, _) => name != reservedKey && name == key

def Form.gather : Form → List Output → Output
  | .tuple, parts => .tuple parts
  | .list, items => .list items

/-- The output of fields. A map gives a name its first place and its last output. -/
def Form.gatherFields : Form → List (String × Output) → Output
  | .tuple, fields => .tuple (fields.map Prod.snd)
  | .list, fields => .map (Entries.ofList fields)

def Form.choose : Form → Nat → Output → Output
  | .tuple, i, o => .member i o
  | .list, _, o => o

namespace Extension

/-- Answers the same for every input, and records the given path with a name after it. -/
def recorder (name : String) (accept : Bool) : Extension where
  check _ _ _ := accept
  update _ p c := c.record (if name.isEmpty then p else p.push (.key name))
  project x := if accept then some (.value x) else none

def overconfident : Extension where
  check _ _ _ := true
  update _ _ c := c
  project x := x.string?.map .text

end Extension

end Conform
