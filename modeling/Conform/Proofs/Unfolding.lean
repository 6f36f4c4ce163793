import Conform.Proofs.Termination

namespace Conform

namespace Validator

def elementPart (check : Validator → Value → Path → Checking Bool) (elements : List Validator)
    (items : List Value) (p : Path) (i : Nat) : Checking.Part where
  path := p.push (.index i)
  check := (elements[i]?.map fun v =>
    check v (items[i]?.getD .undefined) (p.push (.index i))).getD (return false)

theorem elementParts_from (enter : Forward → Value → Path → Checking Bool)
    (elements : List Validator) (items : List Value) (p : Path) (i : Nat) :
    elementParts enter elements items p i =
      (List.range (max elements.length items.length)).map fun j =>
        ⟨p.push (.index (i + j)), (elements[j]?.map fun v => v.checkWith enter
          (items[j]?.getD .undefined) (p.push (.index (i + j)))).getD (return false)⟩ := by
  induction elements generalizing items i with
  | nil =>
    rw [elementParts, surplus]
    apply List.ext_getElem <;> simp
  | cons v rest ih =>
    have hl : max (v :: rest).length items.length = max rest.length items.tail.length + 1 := by
      cases items <;> simp
    rw [elementParts, ih, hl, List.range_succ_eq_map, List.map_cons, List.map_map]
    congr 1
    · cases items <;> rfl
    · apply List.map_congr_left
      intro j _
      have hi : i + 1 + j = i + (j + 1) := by omega
      cases items <;> simp [hi]

/-- The indices of a tuple run up to the longer of its validators and the items. -/
theorem elementParts_eq_map (enter : Forward → Value → Path → Checking Bool)
    (elements : List Validator) (items : List Value) (p : Path) :
    elementParts enter elements items p 0 =
      (List.range (max elements.length items.length)).map
        (elementPart (checkWith enter) elements items p) := by
  rw [elementParts_from]
  apply List.map_congr_left
  intro j _
  rw [Nat.zero_add, elementPart]

end Validator

namespace Forwards

open Validator

section Checks

variable (fs : Forwards) (n : Nat) (p : Path)

theorem checkWithin_leaf (l : Leaf) (x : Value) :
    fs.checkWithin n (.leaf l) x p = return l.accepts x := by
  rw [checkWithin_eq, checkWith]

theorem checkWithin_optional (v : Validator) (x : Value) :
    fs.checkWithin n (.optional v) x p =
      if x.isNullish then return true else fs.checkWithin n v x p := by
  rw [checkWithin_eq, checkWithin_eq, checkWith]

theorem checkWithin_nullable (v : Validator) (x : Value) :
    fs.checkWithin n (.nullable v) x p =
      if x.isNull then return true else fs.checkWithin n v x p := by
  rw [checkWithin_eq, checkWithin_eq, checkWith]

theorem checkWithin_erased (v : Validator) (x : Value) :
    fs.checkWithin n (.erased v) x p = fs.checkWithin n v x p := by
  rw [checkWithin_eq, checkWithin_eq, checkWith]

theorem checkWithin_wrapped (v : Validator) (x : Value) :
    fs.checkWithin n (.wrapped v) x p = fs.checkWithin n v x p := by
  rw [checkWithin_eq, checkWithin_eq, checkWith]

theorem checkWithin_array (v : Validator) (items : List Value) :
    fs.checkWithin n (.array v) (.array items) p = Checking.everyPart (items.mapIdx fun i y =>
      ⟨p.push (.index i), fs.checkWithin n v y (p.push (.index i))⟩) := by
  simp only [checkWithin_eq, checkWith]

theorem checkWithin_tuple (form : Form) (vs : List Validator) (items : List Value) :
    fs.checkWithin n (.tuple form vs) (.array items) p =
      Checking.everyPart ((List.range (max vs.length items.length)).map
        (elementPart (fs.checkWithin n) vs items p)) := by
  have hcheck : checkWith (fs.checkTarget (fs.checkDefinition n)) = fs.checkWithin n := by
    funext v x q
    exact (checkWithin_eq fs n v x q).symm
  rw [checkWithin_eq, checkWith, elementParts_eq_map, hcheck]

theorem checkWithin_record (k v : Validator) (o : Object) :
    fs.checkWithin n (.record k v) (.object o) p =
      Checking.everyPart ((o.properties.filter (·.1 != reservedKey)).flatMap fun e =>
        [⟨p.push (.key e.1), fs.checkWithin n k (.string e.1) (p.push (.key e.1))⟩,
          ⟨p.push (.key e.1), fs.checkWithin n v e.2 (p.push (.key e.1))⟩]) := by
  simp only [checkWithin_eq, checkWith]

theorem checkWithin_object (form : Form) (fields : List (String × Validator)) (exact : Bool)
    (o : Object) :
    fs.checkWithin n (.object form fields exact) (.object o) p = do
      if ← Checking.everyPart ((fields.filter (·.1 != reservedKey)).map fun field =>
        ⟨p.push (.key field.1), fs.checkWithin n field.2 ((o.get? field.1).getD .undefined)
          (p.push (.key field.1))⟩) then
        return !exact || o.keys.all (declares fields)
      else return false := by
  simp only [checkWithin_eq, checkWith, fieldParts_eq_map]

theorem checkWithin_union (form : Form) (vs : List Validator) (x : Value) :
    fs.checkWithin n (.union form vs) x p =
      Checking.anyOf (vs.map fun v => fs.checkWithin n v x p) := by
  simp only [checkWithin_eq, checkWith, memberChecks_eq_map]

theorem checkWithin_intersection (form : Form) (vs : List Validator) (x : Value) :
    fs.checkWithin n (.intersection form vs) x p =
      Checking.allOf (vs.map fun v => fs.checkWithin n v x p) := by
  simp only [checkWithin_eq, checkWith, memberChecks_eq_map]

end Checks

section Projections

variable (fs : Forwards) (n : Nat)

theorem projectWithin_leaf (l : Leaf) (x : Value) :
    fs.projectWithin n (.leaf l) x = OptionT.mk (return l.project x) := by
  rw [projectWithin_eq_projectWith, projectWith]

theorem projectWithin_erased (v : Validator) (x : Value) :
    fs.projectWithin n (.erased v) x = do
      let _ ← fs.projectWithin n v x
      return .value x := by
  rw [projectWithin_eq_projectWith, projectWithin_eq_projectWith, projectWith]

theorem projectWithin_wrapped (v : Validator) (x : Value) :
    fs.projectWithin n (.wrapped v) x = fs.projectWithin n v x := by
  rw [projectWithin_eq_projectWith, projectWithin_eq_projectWith, projectWith]

theorem projectWithin_array (v : Validator) (items : List Value) :
    fs.projectWithin n (.array v) (.array items) = do
      return .list (← items.mapM fun y => fs.projectWithin n v y) := by
  simp only [projectWithin_eq_projectWith, projectWith]

theorem projectWithin_tuple (form : Form) (vs : List Validator) (items : List Value) :
    fs.projectWithin n (.tuple form vs) (.array items) =
      if vs.length < items.length then failure
      else do
        return form.gather (← (vs.mapIdx fun i v => (v, items[i]?.getD .undefined)).mapM
          fun e => fs.projectWithin n e.1 e.2) := by
  simp only [projectWithin_eq_projectWith, projectWith, projectElements_eq_mapM]
  split <;> rfl

theorem projectWithin_record (k v : Validator) (o : Object) :
    fs.projectWithin n (.record k v) (.object o) = do
      let entries ← (o.properties.filter (·.1 != reservedKey)).mapM fun e => do
        let _ ← fs.projectWithin n k (.string e.1)
        return (e.1, ← fs.projectWithin n v e.2)
      return .map (Entries.ofList entries) := by
  simp only [projectWithin_eq_projectWith, projectWith]

theorem projectWithin_object (form : Form) (fields : List (String × Validator)) (exact : Bool)
    (o : Object) :
    fs.projectWithin n (.object form fields exact) (.object o) = do
      let outs ← fields.mapM fun field => do
        return (field.1, ← fs.projectWithin n field.2 (fieldInput o field.1))
      return form.gatherFields outs := by
  simp only [projectWithin_eq_projectWith, projectWith, projectFields_eq_mapM]

theorem projectWithin_intersection (form : Form) (vs : List Validator) (x : Value) :
    fs.projectWithin n (.intersection form vs) x = do
      return form.gather (← vs.mapM fun v => fs.projectWithin n v x) := by
  simp only [projectWithin_eq_projectWith, projectWith, projectEach_eq_mapM]

def firstWithin (form : Form) (vs : List Validator) (i : Nat) (x : Value) : Projecting Output :=
  projectFirst (fs.projectTarget (fs.projectDefinition n))
    (fun w y => (fs.checkWithin n w y .root).silently) form vs i x

theorem projectWithin_union (form : Form) (vs : List Validator) (x : Value) :
    fs.projectWithin n (.union form vs) x = fs.firstWithin n form vs 0 x := by
  rw [projectWithin_eq_projectWith, projectWith, firstWithin]

theorem firstWithin_cons (form : Form) (v : Validator) (rest : List Validator) (i : Nat)
    (x : Value) :
    fs.firstWithin n form (v :: rest) i x = (do
      if ← (fs.checkWithin n v x .root).silently then
        return form.choose i (← fs.projectWithin n v x)
      else fs.firstWithin n form rest (i + 1) x) := by
  rw [projectWithin_eq_projectWith]
  rfl

end Projections

theorem check_leaf (fs : Forwards) (l : Leaf) (x : Value) (c : Option Context) (p : Path)
    (log : Log) : fs.check (.leaf l) x c p log = some ((l.accepts x, c), log) := by
  rw [check, checkWithin_leaf]
  rfl

theorem project_leaf (fs : Forwards) (l : Leaf) (x : Value) (log : Log) :
    fs.project (.leaf l) x log = some (l.project x, log) := by
  rw [project, projectWithin_leaf]
  rfl

end Forwards

end Conform
