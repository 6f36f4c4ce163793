import Conform.Forwards
import Mathlib.Data.List.Basic
import Mathlib.Logic.Relation

namespace Conform

namespace Validator

/-- Induction over a validator, with a hypothesis for each of its parts. -/
@[elab_as_elim, induction_eliminator]
theorem induct {motive : Validator → Prop}
    (leaf : ∀ l, motive (.leaf l))
    (extension : ∀ e, motive (.extension e))
    (optional : ∀ v, motive v → motive (.optional v))
    (nullable : ∀ v, motive v → motive (.nullable v))
    (erased : ∀ v, motive v → motive (.erased v))
    (wrapped : ∀ v, motive v → motive (.wrapped v))
    (array : ∀ v, motive v → motive (.array v))
    (tuple : ∀ form vs, (∀ v ∈ vs, motive v) → motive (.tuple form vs))
    (record : ∀ k v, motive k → motive v → motive (.record k v))
    (object : ∀ form fields exact, (∀ field ∈ fields, motive field.2) →
      motive (.object form fields exact))
    (union : ∀ form vs, (∀ v ∈ vs, motive v) → motive (.union form vs))
    (intersection : ∀ form vs, (∀ v ∈ vs, motive v) → motive (.intersection form vs))
    (forward : ∀ f, motive (.forward f)) (v : Validator) : motive v :=
  Validator.rec (motive_1 := motive) (motive_2 := fun vs => ∀ v ∈ vs, motive v)
    (motive_3 := fun fields => ∀ field ∈ fields, motive field.2)
    (motive_4 := fun field => motive field.2)
    leaf extension optional nullable erased wrapped array tuple record object union intersection
    forward (by simp) (fun _ _ h hs => List.forall_mem_cons.2 ⟨h, hs⟩)
    (by simp) (fun _ _ h hs => List.forall_mem_cons.2 ⟨h, hs⟩) (fun _ _ h => h) v

def parts : Validator → List Validator
  | .leaf _ => []
  | .extension _ => []
  | .optional v => [v]
  | .nullable v => [v]
  | .erased v => [v]
  | .wrapped v => [v]
  | .array v => [v]
  | .tuple _ vs => vs
  | .record k v => [k, v]
  | .object _ fields _ => fields.map Prod.snd
  | .union _ vs => vs
  | .intersection _ vs => vs
  | .forward _ => []

def inPlace : Validator → List Validator
  | .optional v => [v]
  | .nullable v => [v]
  | .erased v => [v]
  | .wrapped v => [v]
  | .union _ vs => vs
  | .intersection _ vs => vs
  | _ => []

theorem inPlace_subset_parts (v : Validator) : v.inPlace ⊆ v.parts := by
  cases v with
  | leaf | extension | array | tuple | record | object | forward => exact List.nil_subset _
  | _ => exact List.Subset.refl _

/-- A property of a validator on an input passes on to what its parts are asked: some about the
input itself, others about something less deep. -/
structure Inherited (Q : Validator → Value → Prop) : Prop where
  inPlace {v w : Validator} {x : Value} : Q v x → w ∈ v.inPlace → Q w x
  deeper {v w : Validator} {x y : Value} : Q v x → w ∈ v.parts → y.depth < x.depth → Q w y

theorem inherited_true : Inherited fun _ _ => True := ⟨fun _ _ => trivial, fun _ _ _ => trivial⟩

theorem parts_induction {motive : Validator → Prop}
    (step : ∀ v, (∀ w ∈ v.parts, motive w) → motive v) (v : Validator) : motive v := by
  induction v with
  | leaf | extension | forward => exact step _ (by simp [parts])
  | optional v ih | nullable v ih | erased v ih | wrapped v ih | array v ih =>
    exact step _ (by simpa [parts] using ih)
  | tuple form vs ih | union form vs ih | intersection form vs ih => exact step _ ih
  | record k v ihk ihv => exact step _ (by simpa [parts] using ⟨ihk, ihv⟩)
  | object form fields exact ih => exact step _ (List.forall_mem_map.2 ih)

/-- A property of a validator and of everything it consists of, references left closed. -/
inductive Throughout (P : Validator → Prop) : Validator → Prop
  | mk {v} : P v → (∀ w ∈ v.parts, Throughout P w) → Throughout P v

theorem throughout_iff {P : Validator → Prop} {v : Validator} :
    Throughout P v ↔ P v ∧ v.parts.Forall (Throughout P) := by
  rw [List.forall_iff_forall_mem]
  exact ⟨fun ⟨h, hw⟩ => ⟨h, hw⟩, fun ⟨h, hw⟩ => .mk h hw⟩

end Validator

namespace Forwards

/-- One validator has the other for a part, or is a reference that it defines. -/
inductive Uses (fs : Forwards) : Validator → Validator → Prop
  | part {v w} : w ∈ v.parts → fs.Uses v w
  | target {f w} : fs.target? f = some w → fs.Uses (.forward f) w

/-- A validator occurs in another, or in what its references are defined as. -/
def Reaches (fs : Forwards) : Validator → Validator → Prop := Relation.ReflTransGen fs.Uses

/-- A property of every validator of a tree, those behind its references included. -/
def Everywhere (fs : Forwards) (P : Validator → Prop) (v : Validator) : Prop :=
  ∀ w, fs.Reaches v w → P w

variable {fs : Forwards} {P : Validator → Prop} {v w : Validator}

theorem Everywhere.here (h : fs.Everywhere P v) : P v := h v .refl

theorem Everywhere.reaches (h : fs.Everywhere P v) (hw : fs.Reaches v w) : fs.Everywhere P w :=
  fun u hu => h u (hw.trans hu)

theorem Everywhere.uses (h : fs.Everywhere P v) (hw : fs.Uses v w) : fs.Everywhere P w :=
  h.reaches (.single hw)

theorem Everywhere.part (h : fs.Everywhere P v) (hw : w ∈ v.parts) : fs.Everywhere P w :=
  h.uses (.part hw)

theorem Everywhere.target {f : Forward} (h : fs.Everywhere P (.forward f))
    (hf : fs.target? f = some w) : fs.Everywhere P w :=
  h.uses (.target hf)

theorem Everywhere.inherited (fs : Forwards) (P : Validator → Prop) :
    Validator.Inherited fun v _ => fs.Everywhere P v where
  inPlace h hw := h.part (Validator.inPlace_subset_parts _ hw)
  deeper h hw _ := h.part hw

theorem mem_cells_of_target? {f : Forward} (h : fs.target? f = some w) : some w ∈ fs.cells := by
  rw [target?, Option.join_eq_some_iff] at h
  exact List.mem_of_getElem? h

theorem everywhere_of_throughout (hv : v.Throughout P)
    (hfs : ∀ w, some w ∈ fs.cells → w.Throughout P) : fs.Everywhere P v := by
  have h : ∀ w, fs.Reaches v w → w.Throughout P := by
    intro w hw
    induction hw with
    | refl => exact hv
    | tail _ huse ih =>
      cases huse with
      | part hp =>
        obtain ⟨-, hparts⟩ := ih
        exact hparts _ hp
      | target ht => exact hfs _ (mem_cells_of_target? ht)
  exact fun w hw => (Validator.throughout_iff.1 (h w hw)).1

theorem everywhere_leaf {l : Leaf} (h : P (.leaf l)) : fs.Everywhere P (.leaf l) := by
  intro w hw
  rcases hw.cases_head with rfl | ⟨u, hu, -⟩
  · exact h
  · cases hu with
    | part hp => cases hp

end Forwards

end Conform
