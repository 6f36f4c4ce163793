import Conform.Proofs.Alike
import Conform.Proofs.Unfolding
import Conform.Proofs.WellFormed

namespace Conform

open Validator

namespace Checking

/-- A part that always passes leaves nothing behind. -/
theorem everyPart_passing (p : Path) (parts : List Part) :
    everyPart (⟨p, return true⟩ :: parts) = everyPart parts := by
  simp only [everyPart, recordUnless, pure_bind, if_true, Bool.true_and, bind_pure]

theorem everyPart_flatMap_passing {α : Type} (as : List α) (path : α → Path) (part : α → Part) :
    everyPart (as.flatMap fun a => [⟨path a, return true⟩, part a]) = everyPart (as.map part) := by
  induction as with
  | nil => rfl
  | cons a rest ih =>
    rw [List.flatMap_cons, List.cons_append, List.singleton_append, everyPart_passing,
      List.map_cons, everyPart, everyPart, ih]

end Checking

namespace Forwards

variable (fs : Forwards) (v : Validator)

theorem checkWithin_array_eq_tuple (n : Nat) (items : List Value) (p : Path) :
    fs.checkWithin n (.array v) (.array items) p =
      fs.checkWithin n (.tuple .list (List.replicate items.length v)) (.array items) p := by
  rw [checkWithin_array, checkWithin_tuple, List.length_replicate, max_self]
  congr 1
  apply List.ext_getElem
  · simp
  · intro i hi _
    rw [List.length_mapIdx] at hi
    simp [elementPart, hi]

theorem projectWithin_array_eq_tuple (n : Nat) (items : List Value) :
    fs.projectWithin n (.array v) (.array items) =
      fs.projectWithin n (.tuple .list (List.replicate items.length v)) (.array items) := by
  have hpairs : ((List.replicate items.length v).mapIdx fun i v =>
      (v, items[i]?.getD Value.undefined)) = items.map fun y => (v, y) := by
    apply List.ext_getElem
    · simp
    · intro i hi _
      rw [List.length_mapIdx, List.length_replicate] at hi
      simp [hi]
  rw [projectWithin_array, projectWithin_tuple, List.length_replicate, if_neg (lt_irrefl _),
    hpairs, List.mapM_map]
  rfl

end Forwards

/-- A field for each key of an object that can be declared, all with one validator. -/
def ObjectOf.fieldsOf (o : Object) (v : Validator) : List (String × Validator) :=
  (o.keys.filter (· != reservedKey)).map fun key => (key, v)

theorem ObjectOf.fieldsOf_eq_map (o : Object) (v : Validator) :
    o.fieldsOf v = (o.properties.filter (·.1 != reservedKey)).map fun e => (e.1, v) := by
  rw [fieldsOf, keys, Entries.keys, List.filter_map, List.map_map]
  rfl

theorem ObjectOf.all_declares_fieldsOf {o : Object} (h : reservedKey ∉ o.keys) (v : Validator) :
    o.keys.all (declares (o.fieldsOf v)) = true := by
  rw [List.all_eq_true]
  intro key hkey
  have hne : key ≠ reservedKey := fun he => h (he ▸ hkey)
  rw [declares, List.any_eq_true]
  refine ⟨(key, v), List.mem_map.2 ⟨key, List.mem_filter.2 ⟨hkey, by simpa using hne⟩, rfl⟩, ?_⟩
  simpa using hne

namespace Forwards

variable (fs : Forwards) (v : Validator) {o : Object} {exact : Bool}

theorem checkWithin_record_eq_object (hkeys : o.keys.Nodup)
    (hexact : exact = true → reservedKey ∉ o.keys) (n : Nat) (p : Path) :
    fs.checkWithin n (.record (.leaf .any) v) (.object o) p =
      fs.checkWithin n (.object .list (o.fieldsOf v) exact) (.object o) p := by
  have hfields : (o.fieldsOf v).filter (·.1 != reservedKey) = o.fieldsOf v := by
    rw [o.fieldsOf_eq_map, List.filter_map]
    simp [List.filter_filter, Function.comp_def]
  have hdeclared : (!exact || o.keys.all (declares (o.fieldsOf v))) = true := by
    cases exact with
    | false => rfl
    | true => exact ObjectOf.all_declares_fieldsOf (hexact rfl) v
  have hparts : ((o.fieldsOf v).map fun field => (⟨p.push (.key field.1), fs.checkWithin n field.2
        ((o.get? field.1).getD .undefined) (p.push (.key field.1))⟩ : Checking.Part)) =
      (o.properties.filter (·.1 != reservedKey)).map fun e =>
        ⟨p.push (.key e.1), fs.checkWithin n v e.2 (p.push (.key e.1))⟩ := by
    rw [o.fieldsOf_eq_map, List.map_map]
    apply List.map_congr_left
    intro e he
    have hget : o.get? e.1 = some e.2 := Entries.find?_of_mem hkeys (List.mem_of_mem_filter he)
    simp only [Function.comp_apply, hget, Option.getD_some]
  rw [checkWithin_record, checkWithin_object, hfields, hparts, hdeclared]
  simp only [checkWithin_leaf, Leaf.accepts]
  rw [Checking.everyPart_flatMap_passing]
  exact (bind_pure _).symm.trans (bind_congr fun b => by cases b <;> rfl)

theorem projectWithin_record_eq_object (hkeys : o.keys.Nodup) (n : Nat) :
    fs.projectWithin n (.record (.leaf .any) v) (.object o) =
      fs.projectWithin n (.object .list (o.fieldsOf v) exact) (.object o) := by
  rw [projectWithin_record, projectWithin_object, o.fieldsOf_eq_map, List.mapM_map]
  congr 1
  refine Projecting.eq_congruence.mapM fun e he => ?_
  obtain ⟨hm, hk⟩ := mem_unreserved.1 he
  have hinput : fieldInput o e.1 = e.2 := by
    rw [fieldInput, if_neg hk, ObjectOf.get?, Entries.find?_of_mem hkeys hm, Option.getD_some]
  have hany : fs.projectWithin n (.leaf .any) (.string e.1) = pure (.value (.string e.1)) := by
    rw [projectWithin_leaf]
    rfl
  rw [hany, pure_bind, Function.comp_apply, hinput]

end Forwards

/-- An array does the same as a tuple of copies, and a record of any keys the same as an object that
declares the input's keys. -/
theorem check_of_uniform (fs : Forwards) (v : Validator) :
    (∀ items : List Value,
      fs.ChecksAlike (.array v) (.array items)
        (.tuple .list (List.replicate items.length v)) (.array items) ∧
      fs.ProjectsAlike Eq (.array v) (.array items)
        (.tuple .list (List.replicate items.length v)) (.array items)) ∧
    ∀ (o : Object) (exact : Bool), o.keys.Nodup → (exact = true → reservedKey ∉ o.keys) →
      fs.ChecksAlike (.record (.leaf .any) v) (.object o)
        (.object .list (o.fieldsOf v) exact) (.object o) ∧
      fs.ProjectsAlike Eq (.record (.leaf .any) v) (.object o)
        (.object .list (o.fieldsOf v) exact) (.object o) := by
  refine ⟨fun items => ⟨?_, ?_⟩, fun o exact hkeys hexact => ⟨?_, ?_⟩⟩
  · exact Forwards.checksAlike_of_within rfl fun n => fs.checkWithin_array_eq_tuple v n items
  · exact Forwards.projectsAlike_of_within rfl fun n =>
      .of_eq (fs.projectWithin_array_eq_tuple v n items)
  · exact Forwards.checksAlike_of_within rfl (fs.checkWithin_record_eq_object v hkeys hexact)
  · exact Forwards.projectsAlike_of_within rfl fun n =>
      .of_eq (fs.projectWithin_record_eq_object v hkeys n)

def guests : Object := ⟨[("ann", .null), ("bob", .string "b")], []⟩

def guestsAndPrototype : Object := ⟨("__proto__", .null) :: guests.properties, []⟩

theorem check_guests :
    (guests.keys.Nodup ∧ (true = true → reservedKey ∉ guests.keys) ∧
      ({} : Forwards).check (.object .list (guests.fieldsOf (.extension (.recorder "note" false)))
        true) (.object guests) (some .empty) [] [] =
          some ((false, some ⟨[[.key "ann", .key "note"], [.key "ann"], [.key "bob", .key "note"],
            [.key "bob"]]⟩), [])) ∧
      guestsAndPrototype.keys.Nodup ∧ (false = true → reservedKey ∉ guestsAndPrototype.keys) ∧
      ({} : Forwards).check (.object .list (guestsAndPrototype.fieldsOf (.leaf .string)) false)
        (.object guestsAndPrototype) (some .empty) [] [] =
          some ((false, some ⟨[[.key "ann"]]⟩), []) := by
  have hkeys : guests.keys.Nodup := by decide
  have hreserved : true = true → reservedKey ∉ guests.keys := by decide
  have hkeys' : guestsAndPrototype.keys.Nodup := by decide
  have h :=
    (check_of_uniform {} (.extension (.recorder "note" false))).2 guests true hkeys hreserved
  have h' := (check_of_uniform {} (.leaf .string)).2 guestsAndPrototype false hkeys' nofun
  exact ⟨⟨hkeys, hreserved, (h.1.check (some .empty) [] []).symm.trans rfl⟩, hkeys', nofun,
    (h'.1.check (some .empty) [] []).symm.trans rfl⟩

end Conform
