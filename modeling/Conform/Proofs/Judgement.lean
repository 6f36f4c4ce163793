import Conform.Proofs.Verdict

namespace Conform

theorem mem_unreserved {α : Type} {entries : List (String × α)} {e : String × α} :
    e ∈ entries.filter (·.1 != reservedKey) ↔ e ∈ entries ∧ e.1 ≠ reservedKey := by
  rw [List.mem_filter, bne_iff_ne]

/-- What a hand-written validator finds, by what it does at the root to an empty context. -/
def Extension.verdict (e : Extension) (x : Value) : Verdict where
  passed := e.check x .root none
  failures := (e.update x .root .empty).errors.map fun p => ⟨p, .reported e⟩

def surplusVerdicts (items : List Value) (i : Nat) : List Verdict.Part :=
  items.mapIdx fun j _ => ⟨.index (i + j), .surplus, some { passed := false }⟩

namespace Validator

mutual

/-- The verdict of a validator whose forward references are judged by `enter`. Neither a path nor
a context plays a part in it. -/
def judgeWith (enter : Forward → Value → Option Verdict) : Validator → Value → Option Verdict
  | .leaf l, x => some { passed := l.accepts x }
  | .extension e, x => some (e.verdict x)
  | .optional inner, x =>
    if x.isNullish then some { passed := true } else judgeWith enter inner x
  | .nullable inner, x => if x.isNull then some { passed := true } else judgeWith enter inner x
  | .erased inner, x => judgeWith enter inner x
  | .wrapped inner, x => judgeWith enter inner x
  | .array item, .array items =>
    Verdict.everyPart <| items.mapIdx fun i y => ⟨.index i, .rejected item y, judgeWith enter item y⟩
  | .tuple _ elements, .array items => Verdict.everyPart (elementVerdicts enter elements items 0)
  | .record key value, .object o =>
    Verdict.everyPart <| (o.properties.filter (·.1 != reservedKey)).flatMap fun (k, y) =>
      [⟨.key k, .rejectedKey key k, judgeWith enter key (.string k)⟩,
        ⟨.key k, .rejected value y, judgeWith enter value y⟩]
  | .object _ fields exact, .object o =>
    (Verdict.everyPart (fieldVerdicts enter fields o)).map fun d =>
      d.and { passed := !exact || o.keys.all (declares fields) }
  | .union _ members, x => Verdict.search true (memberVerdicts enter members x)
  | .intersection _ members, x => Verdict.search false (memberVerdicts enter members x)
  | .forward f, x => enter f x
  | _, _ => some { passed := false }

def elementVerdicts (enter : Forward → Value → Option Verdict) :
    List Validator → List Value → Nat → List Verdict.Part
  | [], items, i => surplusVerdicts items i
  | v :: rest, items, i =>
    ⟨.index i, .rejected v (items.headD .undefined), judgeWith enter v (items.headD .undefined)⟩ ::
      elementVerdicts enter rest items.tail (i + 1)

def fieldVerdicts (enter : Forward → Value → Option Verdict) :
    List (String × Validator) → Object → List Verdict.Part
  | [], _ => []
  | (name, v) :: rest, o =>
    if name = reservedKey then fieldVerdicts enter rest o
    else
      ⟨.key name, .rejected v ((o.get? name).getD .undefined),
        judgeWith enter v ((o.get? name).getD .undefined)⟩ :: fieldVerdicts enter rest o

def memberVerdicts (enter : Forward → Value → Option Verdict) :
    List Validator → Value → List (Option Verdict)
  | [], _ => []
  | v :: rest, x => judgeWith enter v x :: memberVerdicts enter rest x

end

theorem memberVerdicts_eq_map (enter : Forward → Value → Option Verdict)
    (members : List Validator) (x : Value) :
    memberVerdicts enter members x = members.map fun v => judgeWith enter v x := by
  induction members with
  | nil => rfl
  | cons v rest ih => rw [memberVerdicts, ih, List.map_cons]

theorem fieldVerdicts_eq_map (enter : Forward → Value → Option Verdict)
    (fields : List (String × Validator)) (o : Object) :
    fieldVerdicts enter fields o = (fields.filter (·.1 != reservedKey)).map fun (name, v) =>
      ⟨.key name, .rejected v ((o.get? name).getD .undefined),
        judgeWith enter v ((o.get? name).getD .undefined)⟩ := by
  induction fields with
  | nil => rfl
  | cons field rest ih =>
    obtain ⟨name, v⟩ := field
    rw [fieldVerdicts, ih]
    by_cases h : name = reservedKey <;> simp [h]

/-- One index of a tuple, which has a validator, an item or both. -/
def elementVerdict (judge : Validator → Value → Option Verdict) (elements : List Validator)
    (items : List Value) (i : Nat) : Verdict.Part :=
  match elements[i]? with
  | some v =>
    ⟨.index i, .rejected v (items[i]?.getD .undefined), judge v (items[i]?.getD .undefined)⟩
  | none => ⟨.index i, .surplus, some { passed := false }⟩

theorem elementVerdicts_from (enter : Forward → Value → Option Verdict)
    (elements : List Validator) (items : List Value) (i : Nat) :
    elementVerdicts enter elements items i =
      (List.range (max elements.length items.length)).map fun j =>
        { elementVerdict (judgeWith enter) elements items j with segment := .index (i + j) } := by
  induction elements generalizing items i with
  | nil =>
    rw [elementVerdicts, surplusVerdicts]
    apply List.ext_getElem <;> simp [elementVerdict]
  | cons v rest ih =>
    have hl : max (v :: rest).length items.length =
        max rest.length items.tail.length + 1 := by
      cases items <;> simp
    rw [elementVerdicts, ih, hl, List.range_succ_eq_map, List.map_cons, List.map_map]
    congr 1
    · cases items <;> rfl
    · apply List.map_congr_left
      intro j _
      have hi : i + 1 + j = i + (j + 1) := by omega
      cases items <;> cases h : rest[j]? <;> simp [elementVerdict, hi, h]

/-- The indices of a tuple run up to the longer of its validators and the items. -/
theorem elementVerdicts_eq_map (enter : Forward → Value → Option Verdict)
    (elements : List Validator) (items : List Value) :
    elementVerdicts enter elements items 0 =
      (List.range (max elements.length items.length)).map
        (elementVerdict (judgeWith enter) elements items) := by
  rw [elementVerdicts_from]
  apply List.map_congr_left
  intro j _
  rw [Nat.zero_add, elementVerdict]
  cases elements[j]? <;> rfl

end Validator

end Conform
