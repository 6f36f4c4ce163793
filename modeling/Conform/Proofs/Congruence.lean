import Conform.Proofs.Projecting

namespace Conform

namespace Validator

section Lists

variable (enter : Forward → Value → Projecting Output)
  (accepts : Validator → Value → Logged Bool)

theorem projectElements_eq_mapM (vs : List Validator) (items : List Value) :
    projectElements enter accepts vs items =
      (vs.mapIdx fun i v => (v, items[i]?.getD .undefined)).mapM fun e =>
        projectWith enter accepts e.1 e.2 := by
  induction vs generalizing items with
  | nil => rfl
  | cons v rest ih =>
    rw [projectElements, ih, List.mapIdx_cons, List.mapM_cons]
    cases items <;> rfl

def fieldInput (o : Object) (name : String) : Value :=
  if name = reservedKey then .undefined else (o.get? name).getD .undefined

theorem projectFields_eq_mapM (fields : List (String × Validator)) (o : Object) :
    projectFields enter accepts fields o = fields.mapM fun field => do
      let out ← projectWith enter accepts field.2 (fieldInput o field.1)
      return (field.1, out) := by
  induction fields with
  | nil => rfl
  | cons field rest ih =>
    rw [projectFields, ih, List.mapM_cons, bind_assoc]
    simp only [pure_bind]
    rfl

end Lists

theorem depth_fieldInput_lt (o : Object) (name : String) :
    (fieldInput o name).depth < (Value.object o).depth := by
  rw [fieldInput]
  split
  · exact Value.depth_object_pos o
  · exact Value.depth_field_lt o name

variable {R : (α : Type) → Projecting α → Projecting α → Prop}
  {enter enter' : Forward → Value → Projecting Output}
  {accepts accepts' : Validator → Value → Logged Bool}

theorem projectFirst_related (hR : Projecting.Congruence R) (form : Form) {vs : List Validator}
    {x : Value}
    (haccepts : ∀ v ∈ vs, R Bool (OptionT.lift (accepts v x)) (OptionT.lift (accepts' v x)))
    (h : ∀ v ∈ vs,
      R Output (v.projectWith enter accepts x) (v.projectWith enter' accepts' x)) (i : Nat) :
    R Output (projectFirst enter accepts form vs i x)
      (projectFirst enter' accepts' form vs i x) := by
  induction vs generalizing i with
  | nil => exact hR.failure
  | cons v rest ih =>
    obtain ⟨hv, hrest⟩ := List.forall_mem_cons.1 h
    obtain ⟨ha, harest⟩ := List.forall_mem_cons.1 haccepts
    rw [projectFirst, projectFirst]
    refine hR.bind ha fun b => ?_
    cases b with
    | true => exact hR.bind hv fun o => hR.pure _
    | false => exact ih harest hrest (i + 1)

/-- Projections are related when the references are that they meet, and the choices among the
members of unions. -/
theorem projectWith_related_of_union (hR : Projecting.Congruence R)
    {Q : Validator → Value → Prop} (hQ : Inherited Q)
    (henter : ∀ f x, Q (.forward f) x → R Output (enter f x) (enter' f x))
    (haccepts : ∀ form vs x, Q (.union form vs) x → ∀ v ∈ vs,
      R Bool (OptionT.lift (accepts v x)) (OptionT.lift (accepts' v x)))
    (v : Validator) (x : Value) (hv : Q v x) :
    R Output (v.projectWith enter accepts x) (v.projectWith enter' accepts' x) := by
  induction v generalizing x with
  | leaf l => exact hR.ofOption _
  | extension e => exact hR.ofOption _
  | optional v ih =>
    rw [projectWith, projectWith]
    split
    · exact hR.pure _
    · exact hR.bind (ih x (hQ.inPlace hv (by simp [inPlace]))) fun o => hR.pure _
  | nullable v ih =>
    rw [projectWith, projectWith]
    split
    · exact hR.pure _
    · exact hR.bind (ih x (hQ.inPlace hv (by simp [inPlace]))) fun o => hR.pure _
  | erased v ih =>
    rw [projectWith, projectWith]
    exact hR.bind (ih x (hQ.inPlace hv (by simp [inPlace]))) fun o => hR.pure _
  | wrapped v ih => exact ih x (hQ.inPlace hv (by simp [inPlace]))
  | array v ih =>
    cases x with
    | array items =>
      rw [projectWith, projectWith]
      refine hR.bind (hR.mapM fun y hy => ?_) fun os => hR.pure _
      exact ih y (hQ.deeper hv (by simp [parts]) (Value.depth_item_lt hy))
    | _ => exact hR.failure
  | tuple form vs ih =>
    cases x with
    | array items =>
      rw [projectWith, projectWith, projectElements_eq_mapM, projectElements_eq_mapM]
      have hgather : R Output
          (do return form.gather (← (vs.mapIdx fun i v => (v, items[i]?.getD .undefined)).mapM
            fun e => projectWith enter accepts e.1 e.2))
          (do return form.gather (← (vs.mapIdx fun i v => (v, items[i]?.getD .undefined)).mapM
            fun e => projectWith enter' accepts' e.1 e.2)) := by
        refine hR.bind (hR.mapM fun e he => ?_) fun os => hR.pure _
        obtain ⟨i, hi, rfl⟩ := List.mem_mapIdx.1 he
        have hm := List.getElem_mem hi
        exact ih _ hm _ (hQ.deeper hv hm (Value.depth_element_lt items i))
      split
      · exact hR.bind hR.failure fun _ => hgather
      · exact hgather
    | _ => exact hR.failure
  | record k v ihk ihv =>
    cases x with
    | object o =>
      rw [projectWith, projectWith]
      refine hR.bind (hR.mapM fun e he => ?_) fun es => hR.pure _
      have hlt := Value.depth_property_lt (List.mem_of_mem_filter he)
      have hk : Q k (.string e.1) := hQ.deeper hv List.mem_cons_self (Value.depth_object_pos o)
      have hv : Q v e.2 := hQ.deeper hv (List.mem_cons_of_mem _ List.mem_cons_self) hlt
      exact hR.bind (ihk _ hk) fun _ => hR.bind (ihv _ hv) fun _ => hR.pure _
    | _ => exact hR.failure
  | object form fields exact ih =>
    cases x with
    | object o =>
      rw [projectWith, projectWith, projectFields_eq_mapM, projectFields_eq_mapM]
      refine hR.bind (hR.mapM fun field hf => ?_) fun os => hR.pure _
      have hfield := hQ.deeper hv (List.mem_map_of_mem hf) (depth_fieldInput_lt o field.1)
      exact hR.bind (ih field hf _ hfield) fun o => hR.pure _
    | _ => exact hR.failure
  | union form vs ih =>
    have hparts : ∀ v ∈ vs, Q v x := fun v hm => hQ.inPlace hv hm
    exact projectFirst_related hR form (haccepts form vs x hv)
      (fun v hm => ih v hm x (hparts v hm)) 0
  | intersection form vs ih =>
    rw [projectWith, projectWith, projectEach_eq_mapM, projectEach_eq_mapM]
    refine hR.bind (hR.mapM fun v hm => ?_) fun os => hR.pure _
    exact ih v hm x (hQ.inPlace hv hm)
  | forward f => exact henter f x hv

theorem projectWith_related (hR : Projecting.Congruence R) {Q : Validator → Value → Prop}
    (hQ : Inherited Q)
    (henter : ∀ f x, Q (.forward f) x → R Output (enter f x) (enter' f x))
    (haccepts : ∀ v x, Q v x →
      R Bool (OptionT.lift (accepts v x)) (OptionT.lift (accepts' v x)))
    (v : Validator) (x : Value) (hv : Q v x) :
    R Output (v.projectWith enter accepts x) (v.projectWith enter' accepts' x) :=
  projectWith_related_of_union hR hQ henter
    (fun _ _ y hu w hm => haccepts w y (hQ.inPlace hu hm)) v x hv

/-- A projection has what the references and the choices of unions have that it meets, if sequencing
keeps it. -/
theorem projectWith_closed_of_union {P : (α : Type) → Projecting α → Prop}
    (hP : Projecting.Congruence fun α c _ => P α c) {Q : Validator → Value → Prop}
    (hQ : Inherited Q) (henter : ∀ f x, Q (.forward f) x → P Output (enter f x))
    (haccepts : ∀ form vs x, Q (.union form vs) x → ∀ v ∈ vs,
      P Bool (OptionT.lift (accepts v x)))
    (v : Validator) (x : Value) (hv : Q v x) : P Output (v.projectWith enter accepts x) :=
  @projectWith_related_of_union _ enter enter accepts accepts hP Q hQ henter haccepts v x hv

theorem projectWith_closed {P : (α : Type) → Projecting α → Prop}
    (hP : Projecting.Congruence fun α c _ => P α c) (henter : ∀ f x, P Output (enter f x))
    (haccepts : ∀ v x, P Bool (OptionT.lift (accepts v x))) (v : Validator) (x : Value) :
    P Output (v.projectWith enter accepts x) :=
  projectWith_closed_of_union hP inherited_true (fun f y _ => henter f y)
    (fun _ _ y _ w _ => haccepts w y) v x trivial

end Validator

end Conform
