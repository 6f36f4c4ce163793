import Conform.Proofs.Alike
import Conform.Proofs.Unfolding
import Conform.Proofs.WellFormed

namespace Conform

namespace Value

theorem depthOfItems_append_undefined (items : List Value) (m : Nat) :
    depthOfItems (items ++ List.replicate m .undefined) = depthOfItems items := by
  have hpadding : ∀ m, depthOfItems (List.replicate m .undefined) = 0 := by
    intro m
    induction m with
    | zero => rfl
    | succ m ih => rw [List.replicate_succ, depthOfItems, ih]; rfl
  induction items with
  | nil => exact hpadding m
  | cons x rest ih => rw [List.cons_append, depthOfItems, depthOfItems, ih]

theorem depthOfProperties_insert_undefined (before after : List (String × Value)) (key : String) :
    depthOfProperties (before ++ (key, .undefined) :: after) =
      depthOfProperties (before ++ after) := by
  induction before with
  | nil => exact Nat.zero_max _
  | cons e rest ih =>
    rw [List.cons_append, List.cons_append, depthOfProperties, depthOfProperties, ih]

theorem getD_append_undefined (items : List Value) (m i : Nat) :
    (items ++ List.replicate m .undefined)[i]?.getD .undefined = items[i]?.getD .undefined := by
  by_cases h : i < items.length
  · rw [List.getElem?_append_left h]
  · rw [List.getElem?_append_right (Nat.le_of_not_lt h), List.getElem?_replicate,
      List.getElem?_eq_none (Nat.le_of_not_lt h)]
    split <;> rfl

theorem getD_find?_insert_undefined {before after : List (String × Value)} {key : String}
    (h : key ∉ Entries.keys (before ++ after)) (name : String) :
    (Entries.find? (before ++ (key, .undefined) :: after) name).getD .undefined =
      (Entries.find? (before ++ after) name).getD .undefined := by
  by_cases hname : name = key
  · subst hname
    have hbefore : Entries.find? before name = none := by
      rw [Entries.find?_eq_none_iff]
      rw [Entries.keys, List.map_append] at h
      exact fun hb => h (List.mem_append_left _ hb)
    rw [Entries.find?_eq_none_iff.2 h, Entries.find?, List.lookup_append, ← Entries.find?, hbefore,
      List.lookup_cons_self]
    rfl
  · simp only [Entries.find?, List.lookup_append, List.lookup_cons, beq_eq_false_iff_ne.2 hname]

end Value

namespace Forwards

open Validator

variable (fs : Forwards) {form : Form}

section Rows

variable {vs : List Validator} {items : List Value} {m : Nat}

theorem checkWithin_padded (h : items.length + m ≤ vs.length) (n : Nat) (p : Path) :
    fs.checkWithin n (.tuple form vs) (.array (items ++ List.replicate m .undefined)) p =
      fs.checkWithin n (.tuple form vs) (.array items) p := by
  have hlength : max vs.length (items ++ List.replicate m Value.undefined).length =
      max vs.length items.length := by
    rw [List.length_append, List.length_replicate]
    omega
  have hpart : elementPart (fs.checkWithin n) vs (items ++ List.replicate m .undefined) p =
      elementPart (fs.checkWithin n) vs items p := by
    funext i
    rw [elementPart, elementPart, Value.getD_append_undefined]
  rw [checkWithin_tuple, checkWithin_tuple, hlength, hpart]

theorem projectWithin_padded (h : items.length + m ≤ vs.length) (n : Nat) :
    fs.projectWithin n (.tuple form vs) (.array (items ++ List.replicate m .undefined)) =
      fs.projectWithin n (.tuple form vs) (.array items) := by
  have hpadded : ¬vs.length < (items ++ List.replicate m Value.undefined).length := by
    rw [List.length_append, List.length_replicate]
    omega
  have hitems : ¬vs.length < items.length := by omega
  simp only [projectWithin_tuple, if_neg hpadded, if_neg hitems, Value.getD_append_undefined]

end Rows

section Objects

variable {fields : List (String × Validator)} {exact : Bool} {before after : List (String × Value)}
  {key : String}

theorem checkWithin_with_undefined (hdeclared : declares fields key = true)
    (habsent : key ∉ Entries.keys (before ++ after)) (symbols : List (Symbol × Value)) (n : Nat)
    (p : Path) :
    fs.checkWithin n (.object form fields exact)
        (.object ⟨before ++ (key, .undefined) :: after, symbols⟩) p =
      fs.checkWithin n (.object form fields exact) (.object ⟨before ++ after, symbols⟩) p := by
  have hkeys : (ObjectOf.mk (before ++ (key, Value.undefined) :: after) symbols).keys.all
      (declares fields) = (ObjectOf.mk (before ++ after) symbols).keys.all (declares fields) := by
    simp [ObjectOf.keys, Entries.keys, hdeclared]
  simp only [checkWithin_object, ObjectOf.get?, Value.getD_find?_insert_undefined habsent, hkeys]

theorem projectWithin_with_undefined (habsent : key ∉ Entries.keys (before ++ after))
    (symbols : List (Symbol × Value)) (n : Nat) :
    fs.projectWithin n (.object form fields exact)
        (.object ⟨before ++ (key, .undefined) :: after, symbols⟩) =
      fs.projectWithin n (.object form fields exact) (.object ⟨before ++ after, symbols⟩) := by
  simp only [projectWithin_object, fieldInput, ObjectOf.get?,
    Value.getD_find?_insert_undefined habsent]

end Objects

end Forwards

/-- What is absent is taken for undefined: to fill up a tuple's array with it, or to give it to a
declared key, changes nothing. -/
theorem check_of_padding (fs : Forwards) (form : Form) :
    (∀ vs items m, items.length + m ≤ vs.length →
      fs.ChecksAlike (.tuple form vs) (.array (items ++ List.replicate m .undefined))
        (.tuple form vs) (.array items) ∧
      fs.ProjectsAlike Eq (.tuple form vs) (.array (items ++ List.replicate m .undefined))
        (.tuple form vs) (.array items)) ∧
    ∀ fields exact before after symbols key, declares fields key = true →
      key ∉ Entries.keys (before ++ after) →
      fs.ChecksAlike (.object form fields exact)
        (.object ⟨before ++ (key, .undefined) :: after, symbols⟩)
        (.object form fields exact) (.object ⟨before ++ after, symbols⟩) ∧
      fs.ProjectsAlike Eq (.object form fields exact)
        (.object ⟨before ++ (key, .undefined) :: after, symbols⟩)
        (.object form fields exact) (.object ⟨before ++ after, symbols⟩) := by
  refine ⟨fun vs items m h => ?_, fun fields exact before after symbols key hd ha => ?_⟩
  · have hdepth : (Value.array (items ++ List.replicate m .undefined)).depth =
        (Value.array items).depth := by
      rw [Value.depth, Value.depth, Value.depthOfItems_append_undefined]
    exact ⟨Forwards.checksAlike_of_within hdepth (fs.checkWithin_padded h),
      Forwards.projectsAlike_of_within hdepth fun n => .of_eq (fs.projectWithin_padded h n)⟩
  · have hdepth : (Value.object ⟨before ++ (key, .undefined) :: after, symbols⟩).depth =
        (Value.object ⟨before ++ after, symbols⟩).depth := by
      rw [Value.depth, Value.depth, Value.depthOfProperties_insert_undefined]
    exact ⟨Forwards.checksAlike_of_within hdepth (fs.checkWithin_with_undefined hd ha symbols),
      Forwards.projectsAlike_of_within hdepth fun n =>
        .of_eq (fs.projectWithin_with_undefined ha symbols n)⟩

/-- A name, two things that may be left out, and a count. -/
def countedName : List Validator :=
  [.leaf .string, .optional (.leaf .symbol), .leaf .any, .leaf .number]

/-- A title, and a remark that is undefined if not a list. -/
def remarked : List (String × Validator) :=
  [("title", .leaf .string), ("remark", .union .list [.array (.leaf .null), .leaf .undefined])]

theorem check_paddedName :
    ([Value.string "a"].length + 2 ≤ countedName.length ∧ declares remarked "remark" = true ∧
      "remark" ∉ Entries.keys ([] ++ [("title", Value.string "b")])) ∧
      (∀ p, ({} : Forwards).check (.tuple .list countedName)
        (.array [.string "a", .undefined, .undefined]) (some .empty) p [] =
          some ((false, some ⟨[p.push (.index 3)]⟩), [])) ∧
      (∀ c p, ({} : Forwards).check (.object .tuple remarked true)
        (.object ⟨[("remark", .undefined), ("title", .string "b")], []⟩) c p [] =
          some ((true, c), [])) := by
  have hlength : [Value.string "a"].length + 2 ≤ countedName.length := by decide
  have hdeclared : declares remarked "remark" = true := rfl
  have habsent : "remark" ∉ Entries.keys ([] ++ [("title", Value.string "b")]) := by
    simp [Entries.keys]
  refine ⟨⟨hlength, hdeclared, habsent⟩, fun p => ?_, fun c p => ?_⟩
  · have h := ((check_of_padding {} .list).1 countedName [.string "a"] 2 hlength).1
    exact (h.check (some .empty) p []).trans rfl
  · have h := ((check_of_padding {} .tuple).2 remarked true [] [("title", .string "b")] []
      "remark" hdeclared habsent).1
    refine (h.check c p []).trans ?_
    cases c <;> rfl

end Conform
