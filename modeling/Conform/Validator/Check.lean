import Conform.Validator.Reporter

namespace Conform

/-- The elements past the last validator of a tuple, none of which passes. -/
def surplus (items : List Value) (p : Path) (i : Nat) : List Checking.Part :=
  items.mapIdx fun j _ => ⟨p.push (.index (i + j)), return false⟩

namespace Validator

mutual

/-- The check of a validator whose forward references are checked by `enter`. -/
def checkWith (enter : Forward → Value → Path → Checking Bool) :
    Validator → Value → Path → Checking Bool
  | .leaf l, x, _ => return l.accepts x
  | .extension e, x, p => e.run x p
  | .optional inner, x, p => if x.isNullish then return true else checkWith enter inner x p
  | .nullable inner, x, p => if x.isNull then return true else checkWith enter inner x p
  | .erased inner, x, p => checkWith enter inner x p
  | .wrapped inner, x, p => checkWith enter inner x p
  | .array item, .array items, p =>
    Checking.everyPart <| items.mapIdx fun i y =>
      ⟨p.push (.index i), checkWith enter item y (p.push (.index i))⟩
  | .tuple _ elements, .array items, p => Checking.everyPart (elementParts enter elements items p 0)
  | .record key value, .object o, p =>
    Checking.everyPart <| (o.properties.filter (·.1 != reservedKey)).flatMap fun (k, y) =>
      [⟨p.push (.key k), checkWith enter key (.string k) (p.push (.key k))⟩,
        ⟨p.push (.key k), checkWith enter value y (p.push (.key k))⟩]
  | .object _ fields exact, .object o, p => do
    if ← Checking.everyPart (fieldParts enter fields o p) then
      return !exact || o.keys.all (declares fields)
    else return false
  | .union _ members, x, p => Checking.anyOf (memberChecks enter members x p)
  | .intersection _ members, x, p => Checking.allOf (memberChecks enter members x p)
  | .forward f, x, p => enter f x p
  | _, _, _ => return false

/-- The elements of a tuple from index `i` on: an element that is missing counts as undefined. -/
def elementParts (enter : Forward → Value → Path → Checking Bool) :
    List Validator → List Value → Path → Nat → List Checking.Part
  | [], items, p, i => surplus items p i
  | v :: rest, items, p, i =>
    ⟨p.push (.index i), checkWith enter v (items.headD .undefined) (p.push (.index i))⟩ ::
      elementParts enter rest items.tail p (i + 1)

def fieldParts (enter : Forward → Value → Path → Checking Bool) :
    List (String × Validator) → Object → Path → List Checking.Part
  | [], _, _ => []
  | (name, v) :: rest, o, p =>
    if name = reservedKey then fieldParts enter rest o p
    else
      ⟨p.push (.key name),
        checkWith enter v ((o.get? name).getD .undefined) (p.push (.key name))⟩ ::
        fieldParts enter rest o p

def memberChecks (enter : Forward → Value → Path → Checking Bool) :
    List Validator → Value → Path → List (Checking Bool)
  | [], _, _ => []
  | v :: rest, x, p => checkWith enter v x p :: memberChecks enter rest x p

end

theorem memberChecks_eq_map (enter : Forward → Value → Path → Checking Bool)
    (members : List Validator) (x : Value) (p : Path) :
    memberChecks enter members x p = members.map fun v => checkWith enter v x p := by
  induction members with
  | nil => rfl
  | cons v rest ih => rw [memberChecks, ih, List.map_cons]

theorem fieldParts_eq_map (enter : Forward → Value → Path → Checking Bool)
    (fields : List (String × Validator)) (o : Object) (p : Path) :
    fieldParts enter fields o p = (fields.filter (·.1 != reservedKey)).map fun (name, v) =>
      ⟨p.push (.key name),
        checkWith enter v ((o.get? name).getD .undefined) (p.push (.key name))⟩ := by
  induction fields with
  | nil => rfl
  | cons field rest ih =>
    obtain ⟨name, v⟩ := field
    rw [fieldParts, ih]
    by_cases h : name = reservedKey <;> simp [h]

end Validator

end Conform
