import Conform.Proofs.Tuples
import Conform.Proofs.Unfolding

namespace Conform

open Validator

/-- What an object's validator reads of its fields: the check of all in one object, whether one
declares a key, and the projection of the object by all. -/
structure Fields where
  checkAll : Object → Path → Checking Bool
  declares : String → Bool
  projectAll : Object → Projecting Output

namespace Fields

def checkObject (f : Fields) (exact : Bool) (o : Object) (p : Path) : Checking Bool := do
  if ← f.checkAll o p then return !(exact && o.keys.any fun key => !f.declares key)
  else return false

def named (key : String) (field : String × Validator) : Bool :=
  field.1 != reservedKey && field.1 == key

section Implementations

variable (check : Validator → Value → Path → Checking Bool)
  (project : Validator → Value → Projecting Output)

def checkField (o : Object) (p : Path) (field : String × Validator) : Checking Bool :=
  if field.1 = reservedKey then return true
  else do
    if ← check field.2 ((o.get? field.1).getD .undefined) (p.push (.key field.1)) then return true
    else
      Checking.record (p.push (.key field.1))
      return false

def checkNext (o : Object) (p : Path) (passed : Bool) (field : String × Validator) :
    Checking Bool := do
  let b ← checkField check o p field
  return passed && b

def projectField (o : Object) (field : String × Validator) : Projecting Output :=
  project field.2 (fieldInput o field.1)

def ofTuple {k : Nat} (t : Fin k → String × Validator) : Fields where
  checkAll o p := (fieldPlaces k).foldlM (fun passed i => checkNext check o p passed (t i)) true
  declares key := (fieldPlaces k).foldl (fun found i => found || named key (t i)) false
  projectAll o := do return .tuple (← (fieldPlaces k).mapM fun i => projectField project o (t i))

def ofList (fields : List (String × Validator)) : Fields where
  checkAll o p := fields.foldlM (checkNext check o p) true
  declares key := fields.any (named key)
  projectAll o := do
    let entries ← fields.mapM fun field => do return (field.1, ← projectField project o field)
    return .map (Entries.ofList entries)

variable {check project}

/-- Fields that are checked after others count together with those. -/
theorem foldlM_checkNext (o : Object) (p : Path) (fields : List (String × Validator))
    (passed : Bool) : fields.foldlM (checkNext check o p) passed = (do
      let b ← Checking.everyPart ((fields.filter (·.1 != reservedKey)).map fun field =>
        ⟨p.push (.key field.1),
          check field.2 ((o.get? field.1).getD .undefined) (p.push (.key field.1))⟩)
      return passed && b) := by
  induction fields generalizing passed with
  | nil => simp only [List.foldlM_nil, List.filter_nil, List.map_nil, Checking.everyPart, pure_bind,
      Bool.and_true]
  | cons field rest ih =>
    rw [List.foldlM_cons, checkNext, bind_assoc]
    simp only [pure_bind, ih]
    -- A field of the reserved name passes, and is no part of the object.
    by_cases h : field.1 = reservedKey
    · rw [List.filter_cons_of_neg (by simpa using h), checkField, if_pos h, pure_bind,
        Bool.and_true]
    · rw [List.filter_cons_of_pos (by simpa using h), List.map_cons, Checking.everyPart, checkField,
        if_neg h, bind_assoc, bind_assoc]
      refine bind_congr fun b => ?_
      cases b <;> simp only [Checking.recordUnless, if_true, if_false, Bool.false_eq_true,
        pure_bind, bind_assoc, Bool.true_and, Bool.false_and, Bool.and_true, Bool.and_false]

/-- Whether one of some fields declares a key that others may declare before it. -/
theorem foldl_named (key : String) (fields : List (String × Validator)) (found : Bool) :
    fields.foldl (fun found field => found || named key field) found =
      (found || fields.any (named key)) := by
  induction fields generalizing found with
  | nil => exact (Bool.or_false found).symm
  | cons field rest ih => rw [List.foldl_cons, ih, List.any_cons, Bool.or_assoc]

variable {k : Fin 9} (t : Fin k → String × Validator)

theorem ofTuple_checkAll (o : Object) (p : Path) :
    (ofTuple check project t).checkAll o p =
      (ofList check project (List.ofFn t)).checkAll o p := by
  rw [← map_fieldPlaces t]
  change _ = ((fieldPlaces k).map t).foldlM (checkNext check o p) true
  rw [List.foldlM_map]
  rfl

theorem ofTuple_declares (key : String) :
    (ofTuple check project t).declares key =
      (ofList check project (List.ofFn t)).declares key := by
  have hfound := foldl_named key ((fieldPlaces k).map t) false
  rw [List.foldl_map, Bool.false_or] at hfound
  rw [← map_fieldPlaces t]
  exact hfound

end Implementations

end Fields

/-- Outputs that are collected with names are those that are collected without. -/
theorem Projecting.mapM_named {α : Type} (l : List α) (name : α → String)
    (f : α → Projecting Output) (g : List Output → Output) : (do
      let es ← l.mapM fun a => do return (name a, ← f a)
      return g (es.map Prod.snd) : Projecting Output) = do return g (← l.mapM f) := by
  induction l generalizing g with
  | nil => rfl
  | cons a rest ih =>
    simp only [List.mapM_cons, bind_assoc, pure_bind, List.map_cons]
    exact bind_congr fun o => ih fun os => g (o :: os)

namespace Forwards

variable (fs : Forwards) (n : Nat)

structure RunsFields (form : Form) (fields : List (String × Validator)) (f : Fields) : Prop where
  check (exact : Bool) (o : Object) (p : Path) :
    fs.checkWithin n (.object form fields exact) (.object o) p = f.checkObject exact o p
  declares (key : String) : Conform.declares fields key = f.declares key
  project (exact : Bool) (o : Object) :
    fs.projectWithin n (.object form fields exact) (.object o) = f.projectAll o

def listFields (fields : List (String × Validator)) : Fields :=
  .ofList (fs.checkWithin n) (fs.projectWithin n) fields

def tupleFields {k : Nat} (t : Fin k → String × Validator) : Fields :=
  .ofTuple (fs.checkWithin n) (fs.projectWithin n) t

theorem checkWithin_object_listFields (form : Form) (fields : List (String × Validator))
    (exact : Bool) (o : Object) (p : Path) :
    fs.checkWithin n (.object form fields exact) (.object o) p =
      (fs.listFields n fields).checkObject exact o p := by
  have hkeys : (!exact || o.keys.all (Conform.declares fields)) =
      !(exact && o.keys.any fun key => !(fs.listFields n fields).declares key) := by
    rw [Bool.not_and, List.not_any_eq_all_not]
    simp only [Bool.not_not]
    rfl
  rw [checkWithin_object, Fields.checkObject, hkeys]
  refine congrArg₂ bind ?_ rfl
  refine .trans ?_ (Fields.foldlM_checkNext o p fields true).symm
  simp only [Bool.true_and, bind_pure]

theorem runsFields_list (fields : List (String × Validator)) :
    fs.RunsFields n .list fields (fs.listFields n fields) where
  check := fs.checkWithin_object_listFields n .list fields
  declares _ := rfl
  project exact o := projectWithin_object fs n .list fields exact o

theorem runsFields_tuple {k : Fin 9} (t : Fin k → String × Validator) :
    fs.RunsFields n .tuple (List.ofFn t) (fs.tupleFields n t) where
  check exact o p := by
    have hcheckAll : (fs.tupleFields n t).checkAll o p =
        (fs.listFields n (List.ofFn t)).checkAll o p := Fields.ofTuple_checkAll t o p
    have hdeclares : (fs.tupleFields n t).declares = (fs.listFields n (List.ofFn t)).declares :=
      funext (Fields.ofTuple_declares t)
    rw [checkWithin_object_listFields, Fields.checkObject, Fields.checkObject, hcheckAll, hdeclares]
  declares key := (Fields.ofTuple_declares t key).symm
  project exact o := by
    rw [projectWithin_object, ← map_fieldPlaces t, List.mapM_map]
    exact Projecting.mapM_named (fieldPlaces k) (fun i => (t i).1) _ Output.tuple

end Forwards

end Conform
