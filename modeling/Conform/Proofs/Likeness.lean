import Conform.Proofs.Agreement

namespace Conform

namespace Validator

/-- Not written by hand, and without a predicate of its own. -/
def IsPlain : Validator → Prop
  | .extension _ => False
  | .leaf (.custom _) => False
  | _ => True

def IsRecord : Validator → Prop
  | .record _ _ => True
  | _ => False

theorem IsPlain.isLocal {v : Validator} (h : v.IsPlain) : v.IsLocal := by
  cases v with
  | extension => exact h.elim
  | _ => trivial

end Validator

theorem Forwards.Everywhere.isLocal_of_isPlain {fs : Forwards} {v : Validator}
    (hv : fs.Everywhere Validator.IsPlain v) : fs.Everywhere Validator.IsLocal v :=
  fun w hw => (hv w hw).isLocal

/-- Two objects have the same keys, in the same order if `ordered`, and values that are alike under
all but the reserved one. -/
structure ObjectOf.Resembles (ordered : Prop) (S : Value → Value → Prop) (o o' : Object) :
    Prop where
  keys : o.keys.Perm o'.keys
  field (key : String) : key ≠ reservedKey →
    S ((o.get? key).getD .undefined) ((o'.get? key).getD .undefined)
  entries : ∃ moved, (o.properties.filter (·.1 != reservedKey)).Perm moved ∧
    (ordered → o.properties.filter (·.1 != reservedKey) = moved) ∧
    List.Forall₂ (fun e e' => e.1 = e'.1 ∧ S e.2 e'.2) moved
      (o'.properties.filter (·.1 != reservedKey))

/-- Two values look the same at the surface, and what lies inside them is alike. -/
inductive Value.Resembles (ordered : Prop) (S : Value → Value → Prop) : Value → Value → Prop
  | scalar {x} : x.depth = 0 → Resembles ordered S x x
  | array {items items'} : List.Forall₂ S items items' →
    Resembles ordered S (.array items) (.array items')
  | object {o o'} : o.Resembles ordered S o' → Resembles ordered S (.object o) (.object o')

/-- Values that are alike look the same, at every depth. -/
structure Value.Likeness (ordered : Prop) (S : Value → Value → Prop) : Prop where
  scalar {x : Value} : x.depth = 0 → S x x
  resembles {x y : Value} : S x y → x.Resembles ordered S y

namespace Value.Resembles

variable {ordered : Prop} {S : Value → Value → Prop} {x y : Value}

theorem isNull_eq (h : x.Resembles ordered S y) : x.isNull = y.isNull := by
  cases h <;> rfl

theorem isNullish_eq (h : x.Resembles ordered S y) : x.isNullish = y.isNullish := by
  cases h <;> rfl

theorem accepts_eq (h : x.Resembles ordered S y) {l : Leaf} (hl : (Validator.leaf l).IsPlain) :
    l.accepts x = l.accepts y := by
  cases h with
  | scalar => rfl
  | array | object =>
    cases l with
    | custom => exact hl.elim
    | const l => cases l <;> rfl
    | _ => rfl

theorem exists_array {items : List Value} (h : (Value.array items).Resembles ordered S y) :
    ∃ items', y = .array items' ∧ List.Forall₂ S items items' := by
  cases h with
  | scalar h => exact absurd h (Nat.ne_of_gt (depth_array_pos items))
  | array h => exact ⟨_, rfl, h⟩

theorem exists_object {o : Object} (h : (Value.object o).Resembles ordered S y) :
    ∃ o', y = .object o' ∧ o.Resembles ordered S o' := by
  cases h with
  | scalar h => exact absurd h (Nat.ne_of_gt (depth_object_pos o))
  | object h => exact ⟨_, rfl, h⟩

end Value.Resembles

section Judgements

variable {fs : Forwards} {ordered : Prop} {S : Value → Value → Prop}
  {L : List Path → List Path → Prop} {v : Validator} {x y : Value}

/-- Plain, and no record if the order of properties differs and the comparison could tell. -/
def Validator.Overlooks (ordered : Prop) (L : List Path → List Path → Prop) (v : Validator) :
    Prop :=
  v.IsPlain ∧ (v.IsRecord → ordered ∨ ∀ a b, List.Perm a b → L a b)

/-- Values that are alike are judged alike, if the references that are met do so. -/
theorem Validator.judgeWith_agree (hL : Path.Comparison L) (hS : Value.Likeness ordered S)
    {enter : Forward → Value → Option Verdict}
    (henter : ∀ f, fs.Everywhere (Overlooks ordered L) (.forward f) →
      ∀ x y, S x y → Verdict.Agree L (enter f x) (enter f y))
    (hv : fs.Everywhere (Overlooks ordered L) v) (h : S x y) :
    Verdict.Agree L (v.judgeWith enter x) (v.judgeWith enter y) := by
  have hxy := hS.resembles h
  induction v generalizing x y with
  | leaf l =>
    rw [judgeWith, judgeWith, hxy.accepts_eq hv.here.1]
    exact Verdict.agree_refl hL _
  | extension e => exact hv.here.1.elim
  | optional v ih =>
    rw [judgeWith, judgeWith, hxy.isNullish_eq]
    split
    · exact Verdict.agree_refl hL _
    · exact ih (hv.part (by simp [parts])) h hxy
  | nullable v ih =>
    rw [judgeWith, judgeWith, hxy.isNull_eq]
    split
    · exact Verdict.agree_refl hL _
    · exact ih (hv.part (by simp [parts])) h hxy
  | erased v ih | wrapped v ih => exact ih (hv.part (by simp [parts])) h hxy
  | array v ih =>
    cases x with
    | array items =>
      obtain ⟨items', rfl, hitems⟩ := hxy.exists_array
      refine Verdict.everyPart_agree hL (forall₂_mapIdx hitems fun i y z hyz => ⟨rfl, ?_⟩)
      exact ih (hv.part (by simp [parts])) hyz (hS.resembles hyz)
    | _ => cases hxy <;> exact Verdict.agree_refl hL _
  | tuple form vs ih =>
    cases x with
    | array items =>
      obtain ⟨items', rfl, hitems⟩ := hxy.exists_array
      rw [judgeWith, judgeWith, elementVerdicts_eq_map, elementVerdicts_eq_map, hitems.length_eq]
      refine Verdict.everyPart_agree hL (forall₂_map_map fun i _ => ?_)
      rw [elementVerdict, elementVerdict]
      cases hvs : vs[i]? with
      | none => exact ⟨rfl, Verdict.agree_refl hL _⟩
      | some v =>
        have hm := List.mem_of_getElem? hvs
        have hi := forall₂_getElem? hitems (hS.scalar (x := .undefined) rfl) i
        exact ⟨rfl, ih v hm (hv.part hm) hi (hS.resembles hi)⟩
    | _ => cases hxy <;> exact Verdict.agree_refl hL _
  | record k v ihk ihv =>
    cases x with
    | object o =>
      obtain ⟨o', rfl, ho⟩ := hxy.exists_object
      obtain ⟨moved, hperm, hordered, halike⟩ := ho.entries
      let partsOf (e : String × Value) : List Verdict.Part :=
        [⟨.key e.1, .rejectedKey k e.1, judgeWith enter k (.string e.1)⟩,
          ⟨.key e.1, .rejected v e.2, judgeWith enter v e.2⟩]
      change Verdict.Agree L
        (Verdict.everyPart ((o.properties.filter (·.1 != reservedKey)).flatMap partsOf))
        (Verdict.everyPart ((o'.properties.filter (·.1 != reservedKey)).flatMap partsOf))
      -- The properties are first moved, and then their values are exchanged.
      have hmoved : Verdict.Agree L
          (Verdict.everyPart ((o.properties.filter (·.1 != reservedKey)).flatMap partsOf))
          (Verdict.everyPart (moved.flatMap partsOf)) := by
        rcases hv.here.2 trivial with h | hle
        · rw [hordered h]
          exact Verdict.agree_refl hL _
        · exact (Verdict.everyPart_perm (hperm.flatMap_right _)).mono hle
      refine hmoved.trans hL (Verdict.everyPart_agree hL (forall₂_flatMap halike ?_))
      rintro ⟨name, y⟩ ⟨_, z⟩ ⟨rfl, hyz⟩
      have hk := hv.part (w := k) (by simp [parts])
      have hv' := hv.part (w := v) (by simp [parts])
      have hname := hS.scalar (x := .string name) rfl
      exact .cons ⟨rfl, ihk hk hname (hS.resembles hname)⟩
        (.cons ⟨rfl, ihv hv' hyz (hS.resembles hyz)⟩ .nil)
    | _ => cases hxy <;> exact Verdict.agree_refl hL _
  | object form fields exact ih =>
    cases x with
    | object o =>
      obtain ⟨o', rfl, ho⟩ := hxy.exists_object
      rw [judgeWith, judgeWith, fieldVerdicts_eq_map, fieldVerdicts_eq_map, ho.keys.all_eq]
      refine Verdict.Agree.map (fun d e hd => hd.and hL (.refl hL _)) ?_
      refine Verdict.everyPart_agree hL (forall₂_map_map fun field hf => ⟨rfl, ?_⟩)
      obtain ⟨hm, hname⟩ := mem_unreserved.1 hf
      have hfield := ho.field field.1 hname
      exact ih field hm (hv.part (List.mem_map_of_mem hm)) hfield (hS.resembles hfield)
    | _ => cases hxy <;> exact Verdict.agree_refl hL _
  | union form vs ih | intersection form vs ih =>
    rw [judgeWith, judgeWith, memberVerdicts_eq_map, memberVerdicts_eq_map]
    exact Verdict.search_agree hL _ (forall₂_map_map fun v hm => ih v hm (hv.part hm) h hxy)
  | forward f => exact henter f hv x y h

namespace Forwards

theorem judgeTarget_agree (hL : Path.Comparison L) {judge : Validator → Value → Option Verdict}
    {f : Forward} (h : ∀ w, fs.target? f = some w → Verdict.Agree L (judge w x) (judge w y)) :
    Verdict.Agree L (fs.judgeTarget judge f x) (fs.judgeTarget judge f y) := by
  cases ht : fs.target? f with
  | none =>
    rw [judgeTarget_of_undefined _ x ht, judgeTarget_of_undefined _ y ht]
    exact Verdict.agree_refl hL _
  | some w =>
    rw [judgeTarget_of_defined _ x ht, judgeTarget_of_defined _ y ht]
    exact h w ht

theorem judgeWithin_agree (hL : Path.Comparison L) (hS : Value.Likeness ordered S) (n : Nat)
    (hv : fs.Everywhere (Validator.Overlooks ordered L) v) (h : S x y) :
    Verdict.Agree L (fs.judgeWithin n v x) (fs.judgeWithin n v y) := by
  refine Validator.judgeWith_agree hL hS (fun f hf x y h => ?_) hv h
  induction n generalizing f x y with
  | zero => exact judgeTarget_agree hL fun _ _ => .none
  | succ n ih =>
    exact judgeTarget_agree hL fun w ht => Validator.judgeWith_agree hL hS ih (hf.target ht) h

/-- Values that are alike are judged alike. The depths of the values may differ, and with them the
fuel. -/
theorem judge_agree (hL : Path.Comparison L) (hS : Value.Likeness ordered S)
    (hv : fs.Everywhere (Validator.Overlooks ordered L) v) (h : S x y) :
    Verdict.Agree L (fs.judge v x) (fs.judge v y) := by
  rw [← fs.judgeWithin_of_le v (le_max_left _ (fs.fuelFor y)),
    ← fs.judgeWithin_of_le v (le_max_right (fs.fuelFor x) _)]
  exact judgeWithin_agree hL hS _ hv h

end Forwards

end Judgements

end Conform
