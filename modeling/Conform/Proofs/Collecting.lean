import Conform.Proofs.Covering
import Conform.Proofs.Growing
import Conform.Proofs.WellFormed
import Conform.Proofs.Logging

namespace Conform

open Projecting

namespace Forwards

/-- With some fuel, the projection of the input has this output. -/
def Yields (fs : Forwards) (v : Validator) (x : Value) (o : Output) : Prop :=
  Projecting.Yields (fun n => fs.projectWithin n v x) o

variable {fs : Forwards} {k v : Validator} {x : Value} {o : Output}

theorem growing_projectWithin (fs : Forwards) (v : Validator) (x : Value) :
    Growing fun n => fs.projectWithin n v x :=
  ⟨fun n => (fs.discreet_projectWithin n v x).appends,
    fun h => fs.projectWithin_approx_of_le h v x⟩

theorem Yields.unique (h : fs.Yields v x o) {o' : Output} (h' : fs.Yields v x o') : o' = o := by
  obtain ⟨m, hm⟩ := h
  obtain ⟨n, hn⟩ := h'
  have hgrowing := fs.growing_projectWithin v x
  obtain ⟨es, hm⟩ := hgrowing.gives_of_le (Nat.le_max_left m n) hm
  obtain ⟨es', hn⟩ := hgrowing.gives_of_le (Nat.le_max_right m n) hn
  cases hm.symm.trans hn
  rfl

section Fuel

variable (hv : fs.Everywhere Validator.IsLocal v ∨ fs.Guarded v)
include hv

end Fuel

def projectField (fs : Forwards) (obj : Object) (field : String × Validator) (n : Nat) :
    Projecting (String × Output) := do
  return (field.1, ← fs.projectWithin n field.2 (Validator.fieldInput obj field.1))

theorem growing_projectField (fs : Forwards) (obj : Object) (field : String × Validator) :
    Growing (fs.projectField obj field) :=
  (fs.growing_projectWithin _ _).map _

theorem yields_projectField {obj : Object} {field : String × Validator} {out : String × Output} :
    Projecting.Yields (fs.projectField obj field) out ↔
      out.1 = field.1 ∧ fs.Yields field.2 (Validator.fieldInput obj field.1) out.2 := by
  refine (fs.growing_projectWithin _ _).yields_map.trans ?_
  constructor
  · rintro ⟨a, ha, rfl⟩
    exact ⟨rfl, ha⟩
  · rintro ⟨hname, ha⟩
    exact ⟨out.2, ha, by rw [← hname]⟩

theorem yields_object {form : Form} {fields : List (String × Validator)} {exact : Bool}
    {obj : Object} : fs.Yields (.object form fields exact) (.object obj) o ↔
      ∃ outs, List.Forall₂ (fun field out =>
          out.1 = field.1 ∧ fs.Yields field.2 (Validator.fieldInput obj field.1) out.2)
        fields outs ∧ o = form.gatherFields outs := by
  have hfields := fun field (_ : field ∈ fields) => fs.growing_projectField obj field
  simp only [Yields, projectWithin_object]
  refine (Growing.mapM hfields).yields_map.trans ?_
  simp only [Growing.yields_mapM hfields, yields_projectField, eq_comm (a := o)]
  rfl

/-- The output has each declared name once, with the output of its last declaration. -/
theorem Yields.fields {fields : List (String × Validator)} {exact : Bool} {obj : Object}
    (h : fs.Yields (.object .list fields exact) (.object obj) o) :
    ∃ m, o = .map m ∧ Entries.keys m = (fields.map Prod.fst).eraseDups ∧
      ∀ before name v after, fields = before ++ (name, v) :: after → name ∉ after.map Prod.fst →
        ∃ a, Entries.find? m name = some a ∧ fs.Yields v (Validator.fieldInput obj name) a := by
  obtain ⟨outs, houts, rfl⟩ := yields_object.1 h
  refine ⟨Entries.ofList outs, rfl, ?_, ?_⟩
  · rw [Entries.keys_ofList, map_eq_map_of_forall₂ houts fun _ _ h => h.1.symm]
  · rintro before name v after rfl hlast
    obtain ⟨_, _, -, hrest, rfl⟩ := exists_append_of_forall₂ houts
    obtain ⟨⟨_, a⟩, _, ⟨rfl, ha⟩, hafter, rfl⟩ := List.forall₂_cons_left_iff.1 hrest
    rw [map_eq_map_of_forall₂ hafter fun _ _ h => h.1.symm] at hlast
    exact ⟨a, Entries.find?_ofList_of_last hlast, ha⟩

end Forwards

end Conform
