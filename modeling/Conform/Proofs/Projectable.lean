import Conform.Proofs.Projection

namespace Conform

/-- A validator without parts projects exactly what it accepts. -/
theorem Leaf.isSome_project (l : Leaf) (x : Value) : (l.project x).isSome = l.accepts x := by
  cases l with
  | any => rfl
  | string | number | boolean | bigint | symbol | null | undefined | void => cases x <;> rfl
  | const l => cases h : l.accepts x <;> simp [project, accepts, h]
  | custom predicate => cases h : predicate x <;> simp [project, accepts, h]
  | enum members =>
    cases x with
    | string s =>
      rw [Bool.eq_iff_iff]
      simp [project, accepts, Value.string?]
    | _ => rfl
  | numericString | regexp | integer | range => simp [project, accepts]

namespace Forwards

def Projectable (fs : Forwards) (v : Validator) (x : Value) : Prop := ∃ o, fs.Projects v x o

variable {fs : Forwards} {v : Validator} {x : Value}

/-- A projection that returns tells by its output whether there is one at all. -/
theorem projectable_iff_of_project (hv : fs.Everywhere Validator.IsLocal v) {o : Option Output}
    {log log' : Log} (h : fs.project v x log = some (o, log')) :
    o.isSome = true ↔ fs.Projectable v x := by
  rw [project_eq hv] at h
  constructor
  · intro ho
    obtain ⟨a, rfl⟩ := Option.isSome_iff_exists.1 ho
    exact ⟨a, (fs.appends_view v x).gives_of_run h⟩
  · rintro ⟨a, ha⟩
    obtain ⟨events, hrun⟩ := (fs.appends_view v x).run_of_gives ha log
    cases h.symm.trans hrun
    rfl

theorem projectable_leaf {l : Leaf} : fs.Projectable (.leaf l) x ↔ l.accepts x = true := by
  simp only [Projectable, projects_leaf, ← Option.isSome_iff_exists, Leaf.isSome_project]

theorem projectable_optional :
    fs.Projectable (.optional v) x ↔ x.isNullish = true ∨ fs.Projectable v x := by
  simp only [Projectable, projects_optional]
  cases x.isNullish <;> simp

theorem projectable_nullable :
    fs.Projectable (.nullable v) x ↔ x.isNull = true ∨ fs.Projectable v x := by
  simp only [Projectable, projects_nullable]
  cases x.isNull <;> simp

theorem projectable_erased : fs.Projectable (.erased v) x ↔ fs.Projectable v x := by
  simp [Projectable, projects_erased]

theorem projectable_wrapped : fs.Projectable (.wrapped v) x ↔ fs.Projectable v x := by
  simp only [Projectable, projects_wrapped]

theorem projectable_array :
    fs.Projectable (.array v) x ↔ ∃ items, x = .array items ∧ ∀ y ∈ items, fs.Projectable v y := by
  simp only [Projectable, projects_array, ← exists_forall₂_iff]
  constructor
  · rintro ⟨_, items, os, rfl, hos, -⟩
    exact ⟨items, rfl, os, hos⟩
  · rintro ⟨items, rfl, os, hos⟩
    exact ⟨_, items, os, rfl, hos, rfl⟩

theorem projectable_tuple {form : Form} {vs : List Validator} :
    fs.Projectable (.tuple form vs) x ↔ ∃ items, x = .array items ∧ items.length ≤ vs.length ∧
      ∀ i (h : i < vs.length), fs.Projectable vs[i] (items[i]?.getD .undefined) := by
  have hall : ∀ items : List Value,
      (∃ os, List.Forall₂ (fun e a => fs.Projects e.1 e.2 a)
        (vs.mapIdx fun i v => (v, items[i]?.getD .undefined)) os) ↔
      ∀ i (h : i < vs.length), fs.Projectable vs[i] (items[i]?.getD .undefined) := by
    intro items
    rw [exists_forall₂_iff]
    constructor
    · exact fun h i hi => h _ (List.mem_mapIdx.2 ⟨i, hi, rfl⟩)
    · intro h e he
      obtain ⟨i, hi, rfl⟩ := List.mem_mapIdx.1 he
      exact h i hi
  constructor
  · rintro ⟨_, h⟩
    obtain ⟨items, os, rfl, hl, hos, -⟩ := projects_tuple.1 h
    exact ⟨items, rfl, hl, (hall items).1 ⟨os, hos⟩⟩
  · rintro ⟨items, rfl, hl, h⟩
    obtain ⟨os, hos⟩ := (hall items).2 h
    exact ⟨_, projects_tuple.2 ⟨items, os, rfl, hl, hos, rfl⟩⟩

theorem projectable_record {k : Validator} :
    fs.Projectable (.record k v) x ↔ ∃ o, x = .object o ∧ ∀ e ∈ o.properties, e.1 ≠ reservedKey →
      fs.Projectable k (.string e.1) ∧ fs.Projectable v e.2 := by
  have hall : ∀ o : Object,
      (∃ entries, List.Forall₂ (fun e out => (∃ a, fs.Projects k (.string e.1) a) ∧
        ∃ a, fs.Projects v e.2 a ∧ out = (e.1, a))
          (o.properties.filter (·.1 != reservedKey)) entries) ↔
      ∀ e ∈ o.properties, e.1 ≠ reservedKey →
        fs.Projectable k (.string e.1) ∧ fs.Projectable v e.2 := by
    intro o
    rw [exists_forall₂_iff]
    simp [Projectable]
  constructor
  · rintro ⟨_, h⟩
    obtain ⟨o, entries, rfl, hentries, -⟩ := projects_record.1 h
    exact ⟨o, rfl, (hall o).1 ⟨entries, hentries⟩⟩
  · rintro ⟨o, rfl, h⟩
    obtain ⟨entries, hentries⟩ := (hall o).2 h
    exact ⟨_, projects_record.2 ⟨o, entries, rfl, hentries, rfl⟩⟩

theorem projectable_object {form : Form} {fields : List (String × Validator)} {exact : Bool} :
    fs.Projectable (.object form fields exact) x ↔ ∃ o, x = .object o ∧
      ∀ field ∈ fields, fs.Projectable field.2 (Validator.fieldInput o field.1) := by
  have hall : ∀ o : Object,
      (∃ outs, List.Forall₂ (fun field out =>
        ∃ a, fs.Projects field.2 (Validator.fieldInput o field.1) a ∧ out = (field.1, a))
          fields outs) ↔
      ∀ field ∈ fields, fs.Projectable field.2 (Validator.fieldInput o field.1) := by
    intro o
    rw [exists_forall₂_iff]
    simp [Projectable]
  constructor
  · rintro ⟨_, h⟩
    obtain ⟨o, outs, rfl, houts, -⟩ := projects_object.1 h
    exact ⟨o, rfl, (hall o).1 ⟨outs, houts⟩⟩
  · rintro ⟨o, rfl, h⟩
    obtain ⟨outs, houts⟩ := (hall o).2 h
    exact ⟨_, projects_object.2 ⟨o, outs, rfl, houts, rfl⟩⟩

theorem projectable_union {form : Form} {vs : List Validator} :
    fs.Projectable (.union form vs) x ↔ ∃ before v after, vs = before ++ v :: after ∧
      (∀ u ∈ before, fs.Rejects u x) ∧ fs.Passes v x ∧ fs.Projectable v x := by
  simp only [Projectable, projects_union]
  constructor
  · rintro ⟨_, before, v, after, a, rfl, hb, hv, ha, -⟩
    exact ⟨before, v, after, rfl, hb, hv, a, ha⟩
  · rintro ⟨before, v, after, rfl, hb, hv, a, ha⟩
    exact ⟨_, before, v, after, a, rfl, hb, hv, ha, rfl⟩

theorem projectable_intersection {form : Form} {vs : List Validator} :
    fs.Projectable (.intersection form vs) x ↔ ∀ v ∈ vs, fs.Projectable v x := by
  simp only [Projectable, projects_intersection, ← exists_forall₂_iff]
  constructor
  · rintro ⟨_, os, hos, -⟩
    exact ⟨os, hos⟩
  · rintro ⟨os, hos⟩
    exact ⟨_, os, hos, rfl⟩

theorem projectable_forward {f : Forward} :
    fs.Projectable (.forward f) x ↔ ∃ v, fs.target? f = some v ∧ fs.Projectable v x := by
  simp only [Projectable, projects_forward]
  constructor
  · rintro ⟨o, v, ht, h⟩
    exact ⟨v, ht, o, h⟩
  · rintro ⟨v, ht, o, h⟩
    exact ⟨o, v, ht, h⟩

end Forwards

end Conform
