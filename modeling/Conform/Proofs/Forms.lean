import Conform.Proofs.Alike
import Conform.Proofs.Fields
import Conform.Proofs.WellFormed
import Conform.Proofs.Logging
import Conform.Proofs.Members
import Conform.Proofs.Projection

namespace Conform

def Output.SameParts (size : Nat) (o o' : Output) : Prop :=
  ∃ os, os.length = size ∧ o = .tuple os ∧ o' = .list os

/-- The outputs of named fields, as a tuple and as a map: each name stands where it is first, with
the output where it is last. -/
def Output.SameFields (names : List String) (o o' : Output) : Prop :=
  ∃ os m, os.length = names.length ∧ o = .tuple os ∧ o' = .map m ∧
    Entries.keys m = names.eraseDups ∧
    ∀ before name after, names = before ++ name :: after → name ∉ after →
      Entries.find? m name = os[before.length]?

namespace Projecting

variable {α β γ : Type}

theorem corresponds_gives {c : Projecting α} (h : c.Discreet) :
    Corresponds (fun a b => a = b ∧ c.Gives b) c c := by
  intro log
  cases hc : c.run log with
  | none => exact .none
  | some r =>
    obtain ⟨_ | a, after⟩ := r
    · exact .some ⟨.none, rfl⟩
    · exact .some ⟨.some ⟨rfl, Appends.gives_of_run h.appends hc⟩, rfl⟩

/-- Outputs that are collected with names have the names in order. -/
theorem corresponds_mapM_named (l : List α) (name : α → γ) (f : α → Projecting β) :
    Corresponds (fun es es' => es = es' ∧ es.map Prod.fst = l.map name)
      (l.mapM fun a => do return (name a, ← f a)) (l.mapM fun a => do return (name a, ← f a)) := by
  induction l with
  | nil => exact corresponds_pure ⟨rfl, rfl⟩
  | cons a rest ih =>
    simp only [List.mapM_cons, bind_assoc, pure_bind]
    refine (corresponds_refl (f a)).bind fun o _ ho => ih.map fun es _ hes => ?_
    obtain rfl := ho
    obtain ⟨rfl, hnames⟩ := hes
    exact ⟨rfl, congrArg (name a :: ·) hnames⟩

end Projecting

theorem Entries.sameFields (es : List (String × Output)) :
    Output.SameFields (es.map Prod.fst) (.tuple (es.map Prod.snd)) (.map (ofList es)) := by
  refine ⟨es.map Prod.snd, ofList es, by simp, rfl, rfl, keys_ofList es, ?_⟩
  intro before name after hnames hlast
  obtain ⟨first, rest, rfl, rfl, hrest⟩ := List.map_eq_append_iff.1 hnames
  obtain ⟨e, last, rfl, rfl, rfl⟩ := List.map_eq_cons_iff.1 hrest
  rw [find?_ofList_of_last hlast, List.length_map, List.map_append, List.map_cons]
  simp

namespace Forwards

open Projecting

variable (fs : Forwards) (n : Nat) (x : Value)

/-- An output of one of some validators, with its index and without it. -/
def SameMember (vs : List Validator) (o o' : Output) : Prop :=
  ∃ i v n, vs[i]? = some v ∧ o = .member i o' ∧ (fs.projectWithin n v x).Gives o'

variable {fs n x} in
/-- The search in a tuple and that in a list stay at one member. -/
theorem corresponds_firstWithin {vs before rest : List Validator} (h : vs = before ++ rest)
    (j : Nat) : Corresponds (fs.SameMember x vs) (fs.firstWithin n .tuple rest before.length x)
      (fs.firstWithin n .list rest j x) := by
  induction rest generalizing before j with
  | nil => exact corresponds_failure
  | cons v rest ih =>
    have hnext : vs = before ++ [v] ++ rest := h.trans (List.append_cons before v rest)
    rw [firstWithin_cons, firstWithin_cons]
    refine (corresponds_refl _).bind fun b b' hb => ?_
    obtain rfl : b = b' := hb
    cases b with
    | true =>
      refine (corresponds_gives (fs.discreet_projectWithin n v x)).map fun o o' ho => ?_
      obtain ⟨rfl, hgives⟩ := ho
      exact ⟨before.length, v, n, by simp [h], rfl, hgives⟩
    | false =>
      have hsearch := ih hnext (j + 1)
      rw [List.length_append, List.length_singleton] at hsearch
      exact hsearch

theorem corresponds_tuple (vs : List Validator) :
    Corresponds (Output.SameParts vs.length) (fs.projectWithin n (.tuple .tuple vs) x)
      (fs.projectWithin n (.tuple .list vs) x) := by
  cases x with
  | array items =>
    rw [projectWithin_tuple, projectWithin_tuple]
    by_cases h : vs.length < items.length
    · rw [if_pos h, if_pos h]
      exact corresponds_failure
    · rw [if_neg h, if_neg h]
      refine (corresponds_mapM_refl _ _).map fun os os' hos => ?_
      obtain ⟨rfl, hlength⟩ := hos
      exact ⟨os, hlength.trans List.length_mapIdx, rfl, rfl⟩
  | _ =>
    rw [projectWithin_eq_projectWith, projectWithin_eq_projectWith]
    exact corresponds_failure

theorem corresponds_intersection (vs : List Validator) :
    Corresponds (Output.SameParts vs.length) (fs.projectWithin n (.intersection .tuple vs) x)
      (fs.projectWithin n (.intersection .list vs) x) := by
  rw [projectWithin_intersection, projectWithin_intersection]
  refine (corresponds_mapM_refl vs _).map fun os os' hos => ?_
  obtain ⟨rfl, hlength⟩ := hos
  exact ⟨os, hlength, rfl, rfl⟩

theorem corresponds_object (fields : List (String × Validator)) (exact : Bool) :
    Corresponds (Output.SameFields (fields.map Prod.fst))
      (fs.projectWithin n (.object .tuple fields exact) x)
      (fs.projectWithin n (.object .list fields exact) x) := by
  cases x with
  | object o =>
    rw [projectWithin_object, projectWithin_object]
    refine (corresponds_mapM_named fields Prod.fst _).map fun es es' hes => ?_
    obtain ⟨rfl, hnames⟩ := hes
    exact hnames ▸ Entries.sameFields es
  | _ =>
    rw [projectWithin_eq_projectWith, projectWithin_eq_projectWith]
    exact corresponds_failure

/-- The combinators of some validators do the same as a tuple and as a list. Every check is the
same, and the outputs differ in their form only. -/
structure MembersAgree (vs : List Validator) : Prop where
  tuple : fs.ChecksAlike (.tuple .tuple vs) x (.tuple .list vs) x ∧
    fs.ProjectsAlike (Output.SameParts vs.length) (.tuple .tuple vs) x (.tuple .list vs) x
  union : fs.ChecksAlike (.union .tuple vs) x (.union .list vs) x ∧
    fs.ProjectsAlike (fs.SameMember x vs) (.union .tuple vs) x (.union .list vs) x
  intersection : fs.ChecksAlike (.intersection .tuple vs) x (.intersection .list vs) x ∧
    fs.ProjectsAlike (Output.SameParts vs.length) (.intersection .tuple vs) x
      (.intersection .list vs) x

theorem membersAgree (vs : List Validator) : fs.MembersAgree x vs where
  tuple := ⟨checksAlike_of_within rfl fun n p => by
      rw [checkWithin_eq, checkWithin_eq]
      cases x <;> rfl,
    projectsAlike_of_within rfl fun n => fs.corresponds_tuple n x vs⟩
  union := ⟨checksAlike_of_within rfl fun n p => by rw [checkWithin_union, checkWithin_union],
    projectsAlike_of_within rfl fun n => by
      rw [projectWithin_union, projectWithin_union]
      exact corresponds_firstWithin (List.nil_append vs).symm 0⟩
  intersection := ⟨checksAlike_of_within rfl fun n p => by
      rw [checkWithin_intersection, checkWithin_intersection],
    projectsAlike_of_within rfl fun n => fs.corresponds_intersection n x vs⟩

end Forwards

open Forwards in
/-- Combinators and objects of up to eight parts do the same with a tuple of them, read at their
places, as with the list. -/
theorem forms_agree (fs : Forwards) (x : Value) (k : Fin 9) :
    (∀ t : Fin k → Validator,
      (∀ n, fs.RunsMembers n .tuple (List.ofFn t) (fs.tupleMembers n t) ∧
        fs.RunsMembers n .list (List.ofFn t) (fs.listMembers n (List.ofFn t)) ∧
        (fs.tupleMembers n t).size = (fs.listMembers n (List.ofFn t)).size ∧
        (fs.tupleMembers n t).checkAt = (fs.listMembers n (List.ofFn t)).checkAt) ∧
      fs.MembersAgree x (List.ofFn t)) ∧
    ∀ t : Fin k → String × Validator,
      (∀ n, fs.RunsFields n .tuple (List.ofFn t) (fs.tupleFields n t) ∧
        fs.RunsFields n .list (List.ofFn t) (fs.listFields n (List.ofFn t)) ∧
        (fs.tupleFields n t).declares = (fs.listFields n (List.ofFn t)).declares) ∧
      ∀ exact,
        fs.ChecksAlike (.object .tuple (List.ofFn t) exact) x (.object .list (List.ofFn t) exact) x ∧
        fs.ProjectsAlike (Output.SameFields ((List.ofFn t).map Prod.fst))
          (.object .tuple (List.ofFn t) exact) x (.object .list (List.ofFn t) exact) x := by
  refine ⟨fun t => ⟨fun n => ?_, fs.membersAgree x _⟩,
    fun t => ⟨fun n => ?_, fun exact => ⟨?_, ?_⟩⟩⟩
  · exact ⟨fs.runsMembers_tuple n t, fs.runsMembers_list n _, fs.size_tupleMembers n t,
      fs.checkAt_tupleMembers n t⟩
  · exact ⟨fs.runsFields_tuple n t, fs.runsFields_list n _, funext (Fields.ofTuple_declares t)⟩
  · refine checksAlike_of_within rfl fun n p => ?_
    rw [checkWithin_eq, checkWithin_eq]
    cases x <;> rfl
  · exact projectsAlike_of_within rfl fun n => fs.corresponds_object n x _ exact

end Conform
