import Conform.Proofs.Certification
import Conform.Proofs.Defining
import Conform.Proofs.Guarded
import Conform.Proofs.Sites
import Conform.Proofs.Termination

namespace Conform

namespace Validator

section Definitions

variable (copy : Forward → Forward)

mutual

/-- The validator with every object open to undeclared keys, and with copies for its references.
The members of unions stay as they are. -/
def loosen : Validator → Validator
  | .leaf l => .leaf l
  | .extension e => .extension e
  | .optional inner => .optional (loosen inner)
  | .nullable inner => .nullable (loosen inner)
  | .erased inner => .erased (loosen inner)
  | .wrapped inner => .wrapped (loosen inner)
  | .array item => .array (loosen item)
  | .tuple form elements => .tuple form (loosenEach elements)
  | .record key value => .record (loosen key) (loosen value)
  | .object form fields _ => .object form (loosenFields fields) false
  | .union form members => .union form members
  | .intersection form members => .intersection form (loosenEach members)
  | .forward f => .forward (copy f)

def loosenEach : List Validator → List Validator
  | [] => []
  | v :: rest => loosen v :: loosenEach rest

def loosenFields : List (String × Validator) → List (String × Validator)
  | [] => []
  | (name, v) :: rest => (name, loosen v) :: loosenFields rest

end

theorem loosenEach_eq_map (vs : List Validator) : loosenEach copy vs = vs.map (loosen copy) := by
  induction vs with
  | nil => rfl
  | cons v rest ih => rw [loosenEach, ih, List.map_cons]

theorem loosenFields_eq_map (fields : List (String × Validator)) :
    loosenFields copy fields = fields.map fun field => (field.1, field.2.loosen copy) := by
  induction fields with
  | nil => rfl
  | cons field rest ih => rw [loosenFields, ih, List.map_cons]

end Definitions

variable {copy : Forward → Forward} {u v : Validator}

theorem IsBuiltin.loosen (h : v.IsBuiltin) : (v.loosen copy).IsBuiltin := by
  cases v with
  | extension => exact h
  | _ => trivial

theorem exists_of_loosen_eq_forward {g : Forward} (h : v.loosen copy = .forward g) :
    ∃ f, v = .forward f ∧ copy f = g := by
  cases v with
  | forward f => exact ⟨f, rfl, by simpa [loosen] using h⟩
  | _ => simp [loosen] at h

theorem mem_parts_loosen (h : u ∈ (v.loosen copy).parts) :
    ∃ w ∈ v.parts, u = w ∨ u = w.loosen copy := by
  cases v with
  | leaf | extension | forward => simp [loosen, parts] at h
  | optional | nullable | erased | wrapped | array | record =>
    simp only [loosen, parts] at h ⊢
    simp at h ⊢
    tauto
  | tuple form vs | intersection form vs =>
    rw [loosen, parts, loosenEach_eq_map] at h
    obtain ⟨w, hw, rfl⟩ := List.mem_map.1 h
    exact ⟨w, hw, .inr rfl⟩
  | object form fields exact =>
    rw [loosen, parts, loosenFields_eq_map, List.map_map] at h
    obtain ⟨field, hf, rfl⟩ := List.mem_map.1 h
    exact ⟨field.2, List.mem_map_of_mem hf, .inr rfl⟩
  | union => exact ⟨u, h, .inl rfl⟩

theorem IsStructural.loosen (h : v.IsStructural) : (v.loosen copy).IsStructural := by
  cases v with
  | array | tuple | record | object => trivial
  | _ => exact h.elim

end Validator

def Forward.shift (start : Nat) (f : Forward) : Forward := ⟨start + f.cell⟩

namespace Forwards

/-- The second definitions contain what a validator uses of the first ones, as it is and loosened
under the names of copies. -/
structure Loosens (fs fs' : Forwards) (copy : Forward → Forward) (v : Validator) : Prop where
  kept {f : Forward} : fs.Reaches v (.forward f) → fs'.target? f = fs.target? f
  copied {f : Forward} : fs.Reaches v (.forward f) →
    fs'.target? (copy f) = (fs.target? f).map (.loosen copy)

variable {fs fs' : Forwards} {copy : Forward → Forward} {u v w : Validator} {x : Value}

theorem Loosens.reaches (h : fs.Loosens fs' copy v) (hw : fs.Reaches v w) :
    fs.Loosens fs' copy w where
  kept hf := h.kept (hw.trans hf)
  copied hf := h.copied (hw.trans hf)

/-- A validator that is kept uses nothing else. -/
theorem Loosens.uses_of_uses (h : fs.Loosens fs' copy v) (hw : fs.Reaches v w)
    (hu : fs'.Uses w u) : fs.Uses w u := by
  cases hu with
  | part hp => exact .part hp
  | target ht =>
    rw [h.kept hw] at ht
    exact .target ht

/-- A validator stands for itself and for its loosened form. -/
theorem Loosens.simulates (h : fs.Loosens fs' copy v) :
    fs.Simulates fs' fun w w' => fs.Reaches v w ∧ (w' = w ∨ w' = w.loosen copy) where
  uses := by
    rintro w _ u' ⟨hw, rfl | rfl⟩ hu
    · -- Behind the members of unions everything stands for itself.
      have hu := h.uses_of_uses hw hu
      exact ⟨u', ⟨hw.tail hu, .inl rfl⟩, hu⟩
    · generalize hl : w.loosen copy = l at hu
      cases hu with
      | part hp =>
        subst hl
        obtain ⟨u, hu, hu'⟩ := Validator.mem_parts_loosen hp
        exact ⟨u, ⟨hw.tail (.part hu), hu'⟩, .part hu⟩
      | target ht =>
        obtain ⟨f, rfl, rfl⟩ := Validator.exists_of_loosen_eq_forward hl
        rw [h.copied hw, Option.map_eq_some_iff] at ht
        obtain ⟨u, hu, rfl⟩ := ht
        exact ⟨u, ⟨hw.tail (.target hu), .inr rfl⟩, .target hu⟩
  structural := by
    rintro w _ ⟨-, rfl | rfl⟩ hw
    · exact hw
    · exact hw.loosen

theorem Loosens.isBuiltin (h : fs.Loosens fs' copy v) (hv : fs.Everywhere Validator.IsBuiltin v) :
    fs'.Everywhere Validator.IsBuiltin (v.loosen copy) := by
  refine h.simulates.everywhere ?_ ⟨.refl, .inr rfl⟩ hv
  rintro w _ ⟨-, rfl | rfl⟩ hw
  · exact hw
  · exact hw.loosen

theorem Loosens.guarded (h : fs.Loosens fs' copy v) (hg : fs.Guarded v) :
    fs'.Guarded (v.loosen copy) :=
  h.simulates.guarded ⟨.refl, .inr rfl⟩ hg

/-- Definitions that are kept mean the same. -/
theorem Loosens.accepts_iff (h : fs.Loosens fs' copy v) : fs'.Accepts v x ↔ fs.Accepts v x := by
  have hback : ∀ w, fs'.Reaches v w → fs.Reaches v w := by
    intro w hw
    induction hw with
    | refl => exact .refl
    | tail _ hu ih => exact ih.tail (h.uses_of_uses ih hu)
  constructor
  · refine fun hx => hx.mono fun f w hf ht => ?_
    rwa [h.kept (hback _ hf)] at ht
  · refine fun hx => hx.mono fun f w hf ht => ?_
    rwa [h.kept hf]

/-- A union has a projection of what it accepts: the choice of the member makes sure of that. -/
theorem projectable_iff_accepts_of_union (hv : fs.Everywhere Validator.IsBuiltin v)
    (hread : fs.Everywhere Validator.ReadsFields v) (hg : fs.Guarded v) (hu : v.IsUnion) :
    fs.Projectable v x ↔ fs.Accepts v x := by
  obtain ⟨d, hd⟩ := Option.isSome_iff_exists.1 (hg.judge_isSome x)
  constructor
  · intro hp
    cases v with
    | union form vs =>
      obtain ⟨before, w, after, rfl, -, ⟨e, he, hpass⟩, -⟩ := projectable_union.1 hp
      have hm : w ∈ before ++ w :: after := by simp
      exact .union hm ((passes_iff_accepts (hv.part hm) he).1 ⟨e, he, hpass⟩)
    | _ => exact hu.elim
  · exact fun hx => projectable_of_passes hv hread ((passes_iff_accepts hv hd).2 hx)

/-- One step: if this holds of what a validator uses, it has a projection of what its loosened form
accepts. -/
theorem projectable_iff_accepts_of_uses (hv : v.IsBuiltin) (hread : v.ReadsFields)
    (h : fs.Loosens fs' copy v) (hunion : v.IsUnion → (fs.Projectable v x ↔ fs.Accepts v x))
    (ih : ∀ w y, fs.Uses v w → y.depth < x.depth ∨ y = x ∧ fs.Stays v w →
      (fs.Projectable w y ↔ fs'.Accepts (w.loosen copy) y)) :
    fs.Projectable v x ↔ fs'.Accepts (v.loosen copy) x := by
  have hstays : ∀ w, fs.Stays v w → (fs.Projectable w x ↔ fs'.Accepts (w.loosen copy) x) :=
    fun w hw => ih w x hw.uses (.inr ⟨rfl, hw⟩)
  have hasks : ∀ w y, fs.Asks v x w y → (fs.Projectable w y ↔ fs'.Accepts (w.loosen copy) y) :=
    fun w y hw => ih w y hw.uses hw.depth_lt_or_stays
  cases v with
  | leaf => rw [projectable_leaf, Validator.loosen, accepts_leaf]
  | extension => exact hv.elim
  | optional v => rw [projectable_optional, Validator.loosen, accepts_optional, hstays v .optional]
  | nullable v => rw [projectable_nullable, Validator.loosen, accepts_nullable, hstays v .nullable]
  | erased v => rw [projectable_erased, Validator.loosen, accepts_erased, hstays v .erased]
  | wrapped v => rw [projectable_wrapped, Validator.loosen, accepts_wrapped, hstays v .wrapped]
  | array v =>
    rw [projectable_array, Validator.loosen, accepts_array]
    refine exists_congr fun items => and_congr_right ?_
    rintro rfl
    exact forall₂_congr fun y hy => hasks v y (.item hy)
  | tuple form vs =>
    rw [projectable_tuple, Validator.loosen, Validator.loosenEach_eq_map, accepts_tuple]
    simp only [List.length_map, List.getElem_map]
    refine exists_congr fun items => and_congr_right ?_
    rintro rfl
    refine and_congr_right fun _ => forall₂_congr fun i hi => ?_
    exact hasks _ _ (.element (List.getElem?_eq_getElem hi))
  | record k v =>
    rw [projectable_record, Validator.loosen, accepts_record]
    refine exists_congr fun o => and_congr_right ?_
    rintro rfl
    refine forall₃_congr fun e he hk => ?_
    rw [hasks k (.string e.1) (.key he hk), hasks v e.2 (.entry he hk)]
  | object form fields exact =>
    rw [projectable_object, Validator.loosen, Validator.loosenFields_eq_map, accepts_object]
    simp only [List.forall_mem_map, Bool.false_eq_true, false_implies, and_true]
    refine exists_congr fun o => and_congr_right ?_
    rintro rfl
    refine forall₂_congr fun field hf => ?_
    have hk := hread field hf
    rw [Validator.fieldInput, if_neg hk, hasks _ _ (.field hf hk), imp_iff_right hk]
  | union => rw [hunion trivial, Validator.loosen, h.accepts_iff]
  | intersection form vs =>
    rw [projectable_intersection, Validator.loosen, Validator.loosenEach_eq_map,
      accepts_intersection, List.forall_mem_map]
    exact forall₂_congr fun w hm => hstays w (.conjunct hm)
  | forward f =>
    rw [projectable_forward, Validator.loosen, accepts_forward, h.copied .refl]
    simp only [Option.map_eq_some_iff, exists_exists_and_eq_and]
    exact exists_congr fun w => and_congr_right fun ht => hstays w (.target ht)

theorem projectable_iff_accepts_loosen (hv : fs.Everywhere Validator.IsBuiltin v)
    (hread : fs.Everywhere Validator.ReadsFields v) (hg : fs.Guarded v)
    (h : fs.Loosens fs' copy v) (x : Value) :
    fs.Projectable v x ↔ fs'.Accepts (v.loosen copy) x := by
  refine hg.value_induction (motive := fun w x => fs.Reaches v w →
    (fs.Projectable w x ↔ fs'.Accepts (w.loosen copy) x)) ?_ x .refl
  intro w x ih hw
  have hunion := projectable_iff_accepts_of_union (x := x) (hv.reaches hw) (hread.reaches hw)
    (hg.reaches hw)
  exact projectable_iff_accepts_of_uses (hv w hw) (hread w hw) (h.reaches hw) hunion
    fun u y hu hy => ih u y hu hy (hw.tail hu)

/-- All definitions, and their loosened forms from a cell on that lies behind them. -/
def withLoosened (fs : Forwards) (start : Nat) : Forwards where
  cells := fs.cells ++ List.replicate (start - fs.cells.length) none ++
    fs.cells.map (Option.map (.loosen (.shift start)))

theorem target?_withLoosened {start : Nat} {f : Forward} (hf : f.cell < start) :
    (fs.withLoosened start).target? f = fs.target? f := by
  have hlt : f.cell < (fs.cells ++ List.replicate (start - fs.cells.length) none).length := by
    rw [List.length_append, List.length_replicate]
    omega
  rw [target?, withLoosened, List.getElem?_append_left hlt, target?]
  by_cases hn : f.cell < fs.cells.length
  · rw [List.getElem?_append_left hn]
  · -- A reference to no definition meets one of the empty cells.
    have hle := Nat.not_lt.1 hn
    rw [List.getElem?_append_right hle, List.getElem?_eq_none hle, List.getElem?_replicate]
    split <;> rfl

theorem target?_withLoosened_shift {start : Nat} (hstart : fs.cells.length ≤ start) (f : Forward) :
    (fs.withLoosened start).target? (f.shift start) =
      (fs.target? f).map (.loosen (.shift start)) := by
  have hlength : (fs.cells ++ List.replicate (start - fs.cells.length) none).length = start := by
    rw [List.length_append, List.length_replicate, Nat.add_sub_cancel' hstart]
  have hle : (fs.cells ++ List.replicate (start - fs.cells.length) none).length ≤
      start + f.cell := by omega
  rw [target?, withLoosened, Forward.shift, List.getElem?_append_right hle, hlength,
    Nat.add_sub_cancel_left, List.getElem?_map, target?]
  rcases fs.cells[f.cell]? with _ | _ | v <;> rfl

theorem loosens_withLoosened {start : Nat} (hstart : fs.cells.length ≤ start)
    (h : ∀ f, fs.Reaches v (.forward f) → f.cell < start) :
    fs.Loosens (fs.withLoosened start) (.shift start) v where
  kept hf := target?_withLoosened (h _ hf)
  copied _ := target?_withLoosened_shift hstart _

/-- Whatever a validator refers to, there are definitions with loosened copies of it. -/
theorem exists_loosens (fs : Forwards) (v : Validator) : ∃ fs' copy, fs.Loosens fs' copy v := by
  have hinjective : Function.Injective fun i => Validator.forward ⟨i⟩ := by
    rintro i j h
    cases h
    rfl
  obtain ⟨b, hb⟩ := ((fs.finite_reaches v).preimage hinjective.injOn).bddAbove
  refine ⟨_, _, loosens_withLoosened (le_max_left fs.cells.length (b + 1)) ?_⟩
  exact fun f hf => lt_max_of_lt_right (Nat.lt_succ_of_le (hb hf))

end Forwards

/-- Where every field is read, an input has a projection exactly when the check that takes undeclared
keys outside of unions accepts it. -/
theorem isSome_project_eq_check_loosen (fs : Forwards) (v : Validator)
    (hv : fs.Everywhere Validator.IsBuiltin v) (hread : fs.Everywhere Validator.ReadsFields v)
    (hg : fs.Guarded v) :
    (∃ fs' copy, fs.Loosens fs' copy v) ∧
      ∀ fs' copy, fs.Loosens fs' copy v → ∀ x log c p log', ∃ o after b c' after',
        fs.project v x log = some (o, after) ∧
          fs'.check (v.loosen copy) x c p log' = some ((b, c'), after') ∧ o.isSome = b := by
  refine ⟨fs.exists_loosens v, fun fs' copy h x log c p log' => ?_⟩
  have hv' := h.isBuiltin hv
  have hg' := h.guarded hg
  obtain ⟨⟨o, after⟩, hproject⟩ := Option.isSome_iff_exists.1 (hg.project_isSome x log)
  obtain ⟨⟨⟨b, c'⟩, after'⟩, hcheck⟩ :=
    Option.isSome_iff_exists.1 (hg'.check_isSome x c p log')
  refine ⟨o, after, b, c', after', hproject, hcheck, ?_⟩
  rw [Bool.eq_iff_iff]
  calc
    o.isSome = true ↔ fs.Projectable v x :=
      Forwards.projectable_iff_of_project (fun w hw => (hv w hw).isLocal) hproject
    _ ↔ fs'.Accepts (v.loosen copy) x := Forwards.projectable_iff_accepts_loosen hv hread hg h x
    _ ↔ b = true := (Forwards.accepts_iff_of_check hv' hcheck).symm

/-- Branches with a name, which may have a color and a further branch. -/
def branches : Forwards where
  cells := [some (.object .tuple [("name", .leaf .string),
    ("color", .optional (.union .list [.leaf .string,
      .object .tuple [("hue", .leaf .string)] true])),
    ("next", .optional (.forward ⟨0⟩))] true)]

/-- Both branches have a key that is not declared. -/
def notedBranches : Value :=
  .object ⟨[("name", .string "a"), ("note", .null),
    ("next", .object ⟨[("name", .string "b"), ("note", .null)], []⟩)], []⟩

def notedColor : Value :=
  .object ⟨[("name", .string "a"),
    ("color", .object ⟨[("hue", .string "red"), ("note", .null)], []⟩)], []⟩

theorem project_notedBranches :
    let v : Validator := .forward ⟨0⟩
    branches.Everywhere Validator.IsBuiltin v ∧ branches.Everywhere Validator.ReadsFields v ∧
      branches.Guarded v ∧ branches.Loosens (branches.withLoosened 1) (.shift 1) v ∧
      (∃ o log, branches.project v notedBranches [] = some (some o, log)) ∧
      ∃ log, branches.project v notedColor [] = some (none, log) := by
  intro v
  have hv : branches.Everywhere Validator.IsBuiltin v := by
    apply Forwards.everywhere_of_throughout <;>
      simp [v, branches, Validator.throughout_iff, Validator.parts, Validator.IsBuiltin]
  have hread : branches.Everywhere Validator.ReadsFields v := by
    apply Forwards.everywhere_of_throughout <;>
      simp [v, branches, Validator.throughout_iff, Validator.parts, Validator.ReadsFields,
        reservedKey, or_imp, forall_and]
  have hg : branches.Guarded v := by
    apply Forwards.guarded_of_cells
    intro w u hw hs
    rw [branches, List.mem_singleton, Option.some.injEq] at hw
    subst hw
    cases hs
  have hcell : branches.Everywhere (fun w => ∀ f, w = .forward f → f.cell < 1) v := by
    apply Forwards.everywhere_of_throughout <;>
      simp [v, branches, Validator.throughout_iff, Validator.parts]
  have hl : branches.Loosens (branches.withLoosened 1) (.shift 1) v :=
    Forwards.loosens_withLoosened le_rfl fun f hf => hcell _ hf f rfl
  obtain ⟨-, hall⟩ := isSome_project_eq_check_loosen branches v hv hread hg
  refine ⟨hv, hread, hg, hl, ?_, ?_⟩
  · obtain ⟨o, after, b, c', after', hproject, hcheck, ho⟩ :=
      hall _ _ hl notedBranches [] none .root []
    have htrue : (branches.withLoosened 1).check (v.loosen (.shift 1)) notedBranches none .root [] =
        some ((true, none), []) := rfl
    cases hcheck.symm.trans htrue
    obtain ⟨o, rfl⟩ := Option.isSome_iff_exists.1 ho
    exact ⟨o, after, hproject⟩
  · obtain ⟨o, after, b, c', after', hproject, hcheck, ho⟩ :=
      hall _ _ hl notedColor [] none .root []
    have hfalse : (branches.withLoosened 1).check (v.loosen (.shift 1)) notedColor none .root [] =
        some ((false, none), []) := rfl
    cases hcheck.symm.trans hfalse
    cases o with
    | none => exact ⟨after, hproject⟩
    | some => cases ho

end Conform
