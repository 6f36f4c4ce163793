import Conform.Proofs.Tuples
import Conform.Proofs.Unfolding

namespace Conform

open Validator

/-- What a combinator reads of its members: their number, the check at an index, and the projections
by all and by the first that accepts. -/
structure Members where
  size : Nat
  checkAt : Nat → Value → Path → Checking (Option Bool)
  projectAll : Value → Projecting Output
  projectItems : List Value → Projecting Output
  projectFirst : Value → Projecting Output

namespace Members

section Combinators

variable (m : Members)

def checkTuple (items : List Value) (p : Path) : Checking Bool :=
  Checking.everyPart <| (List.range (max m.size items.length)).map fun i =>
    { path := p.push (.index i)
      check := do
        return (← m.checkAt i (items[i]?.getD .undefined) (p.push (.index i))).getD false }

def checkUnion (x : Value) (p : Path) : Checking Bool :=
  Checking.anyOf <| (List.range m.size).map fun i => do return (← m.checkAt i x p) == some true

def checkIntersection (x : Value) (p : Path) : Checking Bool :=
  Checking.allOf <| (List.range m.size).map fun i => do return (← m.checkAt i x p) == some true

def projectTuple (items : List Value) : Projecting Output :=
  if m.size < items.length then failure else m.projectItems items

end Combinators

section Implementations

variable (check : Validator → Value → Path → Checking Bool)
  (project : Validator → Value → Projecting Output)

def projectPlaces {k : Nat} (t : Fin k → Validator) :
    List (Fin k × Variant) → Value → Projecting Output
  | [], _ => failure
  | (i, variant) :: rest, x => do
    if ← (check (t i) x .root).silently then
      return .member variant.number (← project (t i) x)
    else projectPlaces t rest x

def ofTuple {k : Nat} (t : Fin k → Validator) : Members where
  size := k
  checkAt i x p :=
    match (memberPlaces k).find? fun place => place.1.val == i with
    | some (j, _) => do return some (← check (t j) x p)
    | none => return none
  projectAll x := do return .tuple (← (memberPlaces k).mapM fun place => project (t place.1) x)
  projectItems items := do
    return .tuple (← (memberPlaces k).mapM fun place =>
      project (t place.1) (items[place.1.val]?.getD .undefined))
  projectFirst := projectPlaces check project t (memberPlaces k)

def ofList (vs : List Validator) : Members where
  size := vs.length
  checkAt i x p :=
    match vs[i]? with
    | some v => do return some (← check v x p)
    | none => return none
  projectAll x := do return .list (← vs.mapM fun v => project v x)
  projectItems items := do
    return .list (← vs.zipIdx.mapM fun (v, i) => project v (items[i]?.getD .undefined))
  projectFirst x := do
    let v ← OptionT.mk (vs.findM? fun v => (check v x .root).silently)
    project v x

end Implementations

variable {check : Validator → Value → Path → Checking Bool}
  {project : Validator → Value → Projecting Output} {k : Fin 9}

theorem ofTuple_checkAt (t : Fin k → Validator) (i : Nat) (x : Value) (p : Path) :
    (ofTuple check project t).checkAt i x p =
      (ofList check project (List.ofFn t)).checkAt i x p := by
  by_cases h : i < k
  · obtain ⟨place, hplace, hfst⟩ := Option.map_eq_some_iff.1 (find?_memberPlaces k ⟨i, h⟩)
    have hget : (List.ofFn t)[i]? = some (t ⟨i, h⟩) := by simp [h]
    simp only [ofTuple, ofList, hplace, hget, hfst]
  · have hget : (List.ofFn t)[i]? = none := by simpa using h
    simp only [ofTuple, ofList, find?_memberPlaces_of_le (Nat.le_of_not_lt h), hget]

end Members

/-- The search for the first of some members goes on after one that is passed over. -/
theorem Projecting.findM?_cons_bind {α β : Type} (a : α) (rest : List α) (p : α → Logged Bool)
    (next : α → Projecting β) : (OptionT.mk ((a :: rest).findM? p) >>= next) = (do
      if ← p a then next a else OptionT.mk (rest.findM? p) >>= next) := by
  funext log
  change ((p a log).bind fun r => _).bind _ = ((p a log).bind fun r => _).bind _
  cases p a log with
  | none => rfl
  | some r =>
    obtain ⟨b, after⟩ := r
    cases b <;> rfl

namespace Forwards

variable (fs : Forwards) (n : Nat)

structure RunsMembers (form : Form) (vs : List Validator) (m : Members) : Prop where
  checkTuple (items : List Value) (p : Path) :
    fs.checkWithin n (.tuple form vs) (.array items) p = m.checkTuple items p
  checkUnion (x : Value) (p : Path) : fs.checkWithin n (.union form vs) x p = m.checkUnion x p
  checkIntersection (x : Value) (p : Path) :
    fs.checkWithin n (.intersection form vs) x p = m.checkIntersection x p
  projectTuple (items : List Value) :
    fs.projectWithin n (.tuple form vs) (.array items) = m.projectTuple items
  projectUnion (x : Value) : fs.projectWithin n (.union form vs) x = m.projectFirst x
  projectIntersection (x : Value) :
    fs.projectWithin n (.intersection form vs) x = m.projectAll x

def listMembers (vs : List Validator) : Members :=
  .ofList (fs.checkWithin n) (fs.projectWithin n) vs

def tupleMembers {k : Nat} (t : Fin k → Validator) : Members :=
  .ofTuple (fs.checkWithin n) (fs.projectWithin n) t

section Lists

variable (form : Form) (vs : List Validator)

theorem checkAt_listMembers_of_some {i : Nat} {v : Validator} (h : vs[i]? = some v) (x : Value)
    (p : Path) : (fs.listMembers n vs).checkAt i x p = do
      return some (← fs.checkWithin n v x p) := by
  simp only [listMembers, Members.ofList, h]

theorem checkAt_listMembers_of_none {i : Nat} (h : vs[i]? = none) (x : Value) (p : Path) :
    (fs.listMembers n vs).checkAt i x p = return none := by
  simp only [listMembers, Members.ofList, h]

theorem checks_listMembers (x : Value) (p : Path) :
    ((List.range (fs.listMembers n vs).size).map fun i => (do
      return (← (fs.listMembers n vs).checkAt i x p) == some true : Checking Bool)) =
      vs.map fun v => fs.checkWithin n v x p := by
  apply List.ext_getElem
  · rw [List.length_map, List.length_map, List.length_range]
    rfl
  · intro i hi hi'
    rw [List.length_map] at hi'
    rw [List.getElem_map, List.getElem_map, List.getElem_range,
      fs.checkAt_listMembers_of_some n vs (List.getElem?_eq_getElem hi'), bind_assoc]
    simp only [pure_bind, Option.some_beq_some, beq_true, bind_pure]

theorem checkWithin_tuple_listMembers (items : List Value) (p : Path) :
    fs.checkWithin n (.tuple form vs) (.array items) p =
      (fs.listMembers n vs).checkTuple items p := by
  rw [checkWithin_tuple, Members.checkTuple]
  refine congrArg Checking.everyPart (List.map_congr_left fun i _ => ?_)
  rw [elementPart]
  cases h : vs[i]? with
  | none => rw [fs.checkAt_listMembers_of_none n vs h, pure_bind]; rfl
  | some v =>
    rw [fs.checkAt_listMembers_of_some n vs h, bind_assoc]
    simp only [pure_bind, Option.map_some, Option.getD_some, bind_pure]

theorem projectWithin_union_listMembers (x : Value) :
    fs.projectWithin n (.union .list vs) x = (fs.listMembers n vs).projectFirst x := by
  rw [projectWithin_union]
  -- The index does not matter to a list, and grows along the search.
  generalize 0 = i
  induction vs generalizing i with
  | nil => rfl
  | cons v rest ih =>
    rw [firstWithin_cons, ih]
    simp only [Form.choose, bind_pure]
    exact (Projecting.findM?_cons_bind v rest (fun w => (fs.checkWithin n w x .root).silently)
      fun w => fs.projectWithin n w x).symm

theorem runsMembers_list : fs.RunsMembers n .list vs (fs.listMembers n vs) where
  checkTuple := fs.checkWithin_tuple_listMembers n .list vs
  checkUnion x p := by rw [checkWithin_union, Members.checkUnion, checks_listMembers]
  checkIntersection x p := by
    rw [checkWithin_intersection, Members.checkIntersection, checks_listMembers]
  projectTuple items := by
    rw [projectWithin_tuple, Members.projectTuple]
    refine if_congr Iff.rfl rfl ?_
    change _ = (vs.zipIdx.mapM _ >>= _)
    rw [List.mapIdx_eq_zipIdx_map, List.mapM_map]
    rfl
  projectUnion := fs.projectWithin_union_listMembers n vs
  projectIntersection x := projectWithin_intersection fs n .list vs x

end Lists

section Tuples

variable {k : Fin 9} (t : Fin k → Validator)

theorem checkAt_tupleMembers :
    (fs.tupleMembers n t).checkAt = (fs.listMembers n (List.ofFn t)).checkAt := by
  funext i x p
  exact Members.ofTuple_checkAt t i x p

theorem projectPlaces_eq_firstWithin (places : List (Fin k × Variant)) {i m : Nat}
    (h : places.map (fun place => place.2.number) = List.range' i m) (x : Value) :
    Members.projectPlaces (fs.checkWithin n) (fs.projectWithin n) t places x =
      fs.firstWithin n .tuple (places.map fun place => t place.1) i x := by
  -- The numbers of the names have to follow the index at which the search stands.
  induction places generalizing i m with
  | nil => rfl
  | cons place rest ih =>
    cases m with
    | zero => cases h
    | succ m =>
      rw [List.map_cons, List.range'_succ, List.cons.injEq] at h
      rw [Members.projectPlaces, List.map_cons, firstWithin_cons, ih h.2, h.1]
      rfl

theorem size_tupleMembers :
    (fs.tupleMembers n t).size = (fs.listMembers n (List.ofFn t)).size :=
  List.length_ofFn.symm

theorem runsMembers_tuple : fs.RunsMembers n .tuple (List.ofFn t) (fs.tupleMembers n t) where
  checkTuple items p := by
    rw [checkWithin_tuple_listMembers, Members.checkTuple, Members.checkTuple, size_tupleMembers,
      checkAt_tupleMembers]
  checkUnion x p := by
    rw [checkWithin_union, ← checks_listMembers, Members.checkUnion, size_tupleMembers,
      checkAt_tupleMembers]
  checkIntersection x p := by
    rw [checkWithin_intersection, ← checks_listMembers, Members.checkIntersection,
      size_tupleMembers, checkAt_tupleMembers]
  projectTuple items := by
    have hpairs : ((List.ofFn t).mapIdx fun i v => (v, items[i]?.getD Value.undefined)) =
        (memberPlaces k).map fun place => (t place.1, items[place.1.val]?.getD .undefined) := by
      rw [map_memberPlaces fun i => (t i, items[i.val]?.getD Value.undefined)]
      apply List.ext_getElem <;> simp
    rw [projectWithin_tuple, Members.projectTuple, List.length_ofFn, hpairs, List.mapM_map]
    rfl
  projectUnion x := by
    have hnumbers := (memberPlaces_eq k).2.trans List.range_eq_range'
    rw [projectWithin_union, ← map_memberPlaces t,
      ← projectPlaces_eq_firstWithin fs n t _ hnumbers]
    rfl
  projectIntersection x := by
    rw [projectWithin_intersection, ← map_memberPlaces, List.mapM_map]
    rfl

end Tuples

end Forwards

end Conform
