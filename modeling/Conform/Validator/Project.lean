import Conform.Validator.Reporter

namespace Conform.Validator

mutual

/-- The projection of a validator whose forward references are projected by `enter`; `accepts`
chooses the member of a union. -/
def projectWith (enter : Forward → Value → Projecting Output)
    (accepts : Validator → Value → Logged Bool) : Validator → Value → Projecting Output
  | .leaf l, x => OptionT.mk (return l.project x)
  | .extension e, x => OptionT.mk (return e.project x)
  | .optional inner, x => do
    if x.isNullish then return .absent
    else return .present (← projectWith enter accepts inner x)
  | .nullable inner, x => do
    if x.isNull then return .absent
    else return .present (← projectWith enter accepts inner x)
  | .erased inner, x => do
    let _ ← projectWith enter accepts inner x
    return .value x
  | .wrapped inner, x => projectWith enter accepts inner x
  | .array item, .array items =>
    return .list (← items.mapM fun y => projectWith enter accepts item y)
  | .tuple form elements, .array items => do
    if elements.length < items.length then failure
    return form.gather (← projectElements enter accepts elements items)
  | .record key value, .object o => do
    let entries ← (o.properties.filter (·.1 != reservedKey)).mapM fun (k, y) => do
      let _ ← projectWith enter accepts key (.string k)
      return (k, ← projectWith enter accepts value y)
    return .map (Entries.ofList entries)
  | .object form fields _, .object o =>
    return form.gatherFields (← projectFields enter accepts fields o)
  | .union form members, x => projectFirst enter accepts form members 0 x
  | .intersection form members, x => return form.gather (← projectEach enter accepts members x)
  | .forward f, x => enter f x
  | _, _ => failure

/-- An element that is missing counts as undefined. -/
def projectElements (enter : Forward → Value → Projecting Output)
    (accepts : Validator → Value → Logged Bool) :
    List Validator → List Value → Projecting (List Output)
  | [], _ => return []
  | v :: rest, items => do
    let o ← projectWith enter accepts v (items.headD .undefined)
    return o :: (← projectElements enter accepts rest items.tail)

/-- A field that is missing counts as undefined, and so does one of the reserved name. -/
def projectFields (enter : Forward → Value → Projecting Output)
    (accepts : Validator → Value → Logged Bool) :
    List (String × Validator) → Object → Projecting (List (String × Output))
  | [], _ => return []
  | (name, v) :: rest, o => do
    let x := if name = reservedKey then .undefined else (o.get? name).getD .undefined
    let out ← projectWith enter accepts v x
    return (name, out) :: (← projectFields enter accepts rest o)

def projectFirst (enter : Forward → Value → Projecting Output)
    (accepts : Validator → Value → Logged Bool) :
    Form → List Validator → Nat → Value → Projecting Output
  | _, [], _, _ => failure
  | form, v :: rest, i, x => do
    if ← accepts v x then return form.choose i (← projectWith enter accepts v x)
    else projectFirst enter accepts form rest (i + 1) x

def projectEach (enter : Forward → Value → Projecting Output)
    (accepts : Validator → Value → Logged Bool) :
    List Validator → Value → Projecting (List Output)
  | [], _ => return []
  | v :: rest, x => do
    let o ← projectWith enter accepts v x
    return o :: (← projectEach enter accepts rest x)

end

theorem projectEach_eq_mapM (enter : Forward → Value → Projecting Output)
    (accepts : Validator → Value → Logged Bool) (members : List Validator) (x : Value) :
    projectEach enter accepts members x =
      members.mapM fun v => projectWith enter accepts v x := by
  induction members with
  | nil => rfl
  | cons v rest ih =>
    rw [projectEach, ih, List.mapM_cons]

end Conform.Validator
