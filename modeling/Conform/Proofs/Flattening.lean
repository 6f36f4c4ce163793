import Conform.Proofs.Alike
import Conform.Proofs.Logging
import Conform.Proofs.Unfolding

namespace Conform

namespace Checking

variable {α : Type}

theorem anyOf_append (as bs : List (Checking Bool)) :
    anyOf (as ++ bs) = (do if ← anyOf as then return true else anyOf bs) := by
  induction as with
  | nil => rfl
  | cons c rest ih =>
    rw [List.cons_append, anyOf, anyOf, ih, bind_assoc]
    refine bind_congr fun b => ?_
    cases b <;> rfl

theorem allOf_append (as bs : List (Checking Bool)) :
    allOf (as ++ bs) = (do if ← allOf as then allOf bs else return false) := by
  induction as with
  | nil => rfl
  | cons c rest ih =>
    rw [List.cons_append, allOf, allOf, ih, bind_assoc]
    refine bind_congr fun b => ?_
    cases b <;> rfl

theorem anyOf_pair (b : Bool) (c : Checking Bool) :
    anyOf [return b, c] = if b then return true else c := by
  cases b with
  | true => rfl
  | false =>
    rw [anyOf, anyOf, anyOf, pure_bind, if_neg Bool.false_ne_true, if_neg Bool.false_ne_true]
    exact (bind_congr fun b => by cases b <;> rfl).trans (bind_pure c)

theorem anyOf_flatten (as bs cs : List (Checking Bool)) :
    anyOf (as ++ anyOf bs :: cs) = anyOf (as ++ bs ++ cs) := by
  rw [List.append_assoc, anyOf_append, anyOf_append as, anyOf_append bs, anyOf]

theorem allOf_flatten (as bs cs : List (Checking Bool)) :
    allOf (as ++ allOf bs :: cs) = allOf (as ++ bs ++ cs) := by
  rw [List.append_assoc, allOf_append, allOf_append as, allOf_append bs, allOf]

/-- A check that starts without a context goes on without one. -/
def Unattended (c : Checking α) : Prop :=
  ∀ log s, c ⟨none, log⟩ = some s → s.2.context = none

theorem unattended_congruence : Congruence fun _ c _ => c.Unattended where
  pure a log s h := by
    cases h
    rfl
  bind {α β c _ k _} hc hk log s h := by
    obtain ⟨⟨a, context, after⟩, ha, h⟩ := Option.bind_eq_some_iff.1 h
    obtain rfl : context = none := hc log _ ha
    exact hk a after s h
  record p log s h := by
    cases h
    rfl
  undefined p log s h := by
    cases h
    rfl
  run e x p log s h := by
    cases h
    rfl

theorem Unattended.silently_bind {c : Checking Bool} (h : c.Unattended)
    (k : Bool → Checking Bool) : (c >>= k).silently = c.silently >>= fun b => (k b).silently := by
  funext log
  change _ = (c.silently log).bind fun r => (k r.1).silently r.2
  rw [silently_apply, silently_apply]
  change ((c ⟨none, log⟩).bind fun s => k s.1 s.2).map _ = _
  cases hc : c ⟨none, log⟩ with
  | none => rfl
  | some s =>
    obtain ⟨b, context, after⟩ := s
    obtain rfl : context = none := h log _ hc
    exact (silently_apply (k b) after).symm

end Checking

namespace Logged

variable {α β : Type}

def outcome (c : Logged α) : Option α := (c []).map Prod.fst

theorem Discreet.map_fst {c : Logged α} (h : c.Discreet) (log : Log) :
    (c log).map Prod.fst = c.outcome := by
  rw [h.appends log, Option.map_map]
  rfl

theorem outcome_bind {c : Logged α} {k : α → Logged β} (hk : ∀ a, (k a).Discreet) :
    (c >>= k).outcome = c.outcome.bind fun a => (k a).outcome := by
  change ((c []).bind fun r => k r.1 r.2).map Prod.fst = ((c []).map Prod.fst).bind _
  cases c [] with
  | none => rfl
  | some r => exact (hk r.1).map_fst r.2

end Logged

namespace Forwards

variable (fs : Forwards) (n : Nat) (x : Value)

theorem unattended_checkWithin (v : Validator) (p : Path) :
    (fs.checkWithin n v x p).Unattended := by
  induction n generalizing v x p with
  | zero =>
    refine Validator.checkWith_closed Checking.unattended_congruence (fun f y q => ?_) v x p
    exact checkTarget_closed Checking.unattended_congruence fun _ _ _ h => nomatch h
  | succ n ih =>
    refine Validator.checkWith_closed Checking.unattended_congruence (fun f y q => ?_) v x p
    exact checkTarget_closed Checking.unattended_congruence fun w => ih y w q

def askedWithin (v : Validator) : Option Bool := (fs.checkWithin n v x .root).silently.outcome

def outputOfFirst (vs : List Validator) : Option (Option Output) :=
  (fs.projectWithin n (.union .list vs) x).run.outcome

theorem askedWithin_union_nil (form : Form) :
    fs.askedWithin n x (.union form []) = some false := by
  rw [askedWithin, checkWithin_union]
  rfl

theorem askedWithin_union_cons (form : Form) (v : Validator) (rest : List Validator) :
    fs.askedWithin n x (.union form (v :: rest)) = (fs.askedWithin n x v).bind fun b =>
      if b then some true else fs.askedWithin n x (.union form rest) := by
  have hnext : ∀ b : Bool, Logged.Discreet (Checking.silently
      (if b = true then return true else
        Checking.anyOf (rest.map fun w => fs.checkWithin n w x .root))) := by
    intro b
    rw [← checkWithin_union fs n .root form]
    cases b with
    | true => exact Logged.discreet_pure true
    | false => exact (fs.discreet_checkWithin n (.union form rest) x .root).silently
  rw [askedWithin, checkWithin_union, List.map_cons, Checking.anyOf,
    (fs.unattended_checkWithin n x v .root).silently_bind, Logged.outcome_bind hnext]
  congr 1
  funext b
  cases b with
  | true => rfl
  | false => rw [if_neg Bool.false_ne_true, if_neg Bool.false_ne_true, askedWithin,
      checkWithin_union]

theorem firstWithin_list_index (vs : List Validator) (i j : Nat) :
    fs.firstWithin n .list vs i x = fs.firstWithin n .list vs j x := by
  induction vs generalizing i j with
  | nil => rfl
  | cons v rest ih =>
    rw [firstWithin_cons, firstWithin_cons, ih (i + 1) (j + 1)]
    rfl

theorem outputOfFirst_cons (v : Validator) (rest : List Validator) :
    fs.outputOfFirst n x (v :: rest) = (fs.askedWithin n x v).bind fun b =>
      if b then (fs.projectWithin n v x).run.outcome else fs.outputOfFirst n x rest := by
  have hrun : (fs.firstWithin n .list (v :: rest) 0 x).run =
      (fs.checkWithin n v x .root).silently >>= fun b =>
        if b then (fs.projectWithin n v x).run
        else (fs.projectWithin n (.union .list rest) x).run := by
    rw [firstWithin_cons, fs.firstWithin_list_index n x rest 1 0, projectWithin_union]
    funext log
    change (((fs.checkWithin n v x .root).silently log).bind fun r => _).bind _ =
      ((fs.checkWithin n v x .root).silently log).bind _
    cases (fs.checkWithin n v x .root).silently log with
    | none => rfl
    | some r =>
      obtain ⟨b, after⟩ := r
      cases b with
      | true => exact congrArg (fun c : Projecting Output => c.run after) (bind_pure _)
      | false => rfl
  have hnext : ∀ b : Bool, Logged.Discreet (if b then (fs.projectWithin n v x).run else
      (fs.projectWithin n (.union .list rest) x).run) := by
    intro b
    cases b with
    | true => exact fs.discreet_projectWithin n v x
    | false => exact fs.discreet_projectWithin n (.union .list rest) x
  rw [outputOfFirst, projectWithin_union, hrun, Logged.outcome_bind hnext]
  congr 1
  funext b
  cases b <;> rfl

variable {fs n x} in
/-- A union in front of other members decides like its own members in front of them. -/
theorem outputOfFirst_nested {u : Validator} {inner : List Validator}
    (hcheck : fs.askedWithin n x u = fs.askedWithin n x (.union .list inner))
    (hproject : (fs.projectWithin n u x).run.outcome = fs.outputOfFirst n x inner)
    (after : List Validator) :
    fs.outputOfFirst n x (u :: after) = fs.outputOfFirst n x (inner ++ after) := by
  rw [outputOfFirst_cons, hcheck, hproject]
  clear hcheck hproject
  -- Of a member that passes both sides have the output, and the rest is a smaller union.
  induction inner with
  | nil =>
    rw [askedWithin_union_nil]
    rfl
  | cons w ws ih =>
    rw [askedWithin_union_cons, outputOfFirst_cons, List.cons_append, outputOfFirst_cons, ← ih]
    cases fs.askedWithin n x w with
    | none => rfl
    | some b =>
      cases b with
      | true => rfl
      | false => rfl

section Pointers

variable (v : Validator) (k : Nat)

theorem checkWithin_pointers (p : Path) :
    fs.checkWithin n (Validator.wrapped^[k] v) x p = fs.checkWithin n v x p := by
  induction k with
  | zero => rfl
  | succ k ih => rw [Function.iterate_succ_apply', checkWithin_wrapped, ih]

theorem projectWithin_pointers :
    fs.projectWithin n (Validator.wrapped^[k] v) x = fs.projectWithin n v x := by
  induction k with
  | zero => rfl
  | succ k ih => rw [Function.iterate_succ_apply', projectWithin_wrapped, ih]

end Pointers

section Nested

variable (before inner after : List Validator) (k : Nat)

theorem checkWithin_union_flatten (p : Path) :
    fs.checkWithin n
        (.union .list (before ++ Validator.wrapped^[k] (.union .list inner) :: after)) x p =
      fs.checkWithin n (.union .list (before ++ inner ++ after)) x p := by
  simp only [checkWithin_union, List.map_append, List.map_cons, checkWithin_pointers,
    Checking.anyOf_flatten]

theorem outputOfFirst_flatten :
    fs.outputOfFirst n x (before ++ Validator.wrapped^[k] (.union .list inner) :: after) =
      fs.outputOfFirst n x (before ++ inner ++ after) := by
  induction before with
  | nil =>
    rw [List.nil_append, List.nil_append]
    refine outputOfFirst_nested ?_ ?_ after
    · rw [askedWithin, checkWithin_pointers, askedWithin]
    · rw [projectWithin_pointers, outputOfFirst]
  | cons v rest ih =>
    rw [List.cons_append, List.cons_append, List.cons_append, outputOfFirst_cons,
      outputOfFirst_cons, ih]

theorem checkWithin_intersection_flatten (p : Path) :
    fs.checkWithin n (.intersection .list
        (before ++ Validator.wrapped^[k] (.intersection .list inner) :: after)) x p =
      fs.checkWithin n (.intersection .list (before ++ inner ++ after)) x p := by
  simp only [checkWithin_intersection, List.map_append, List.map_cons, checkWithin_pointers,
    Checking.allOf_flatten]

end Nested

end Forwards

/-- The second list of outputs is the first one with the list that stands at some index, of so many
outputs, opened in place. -/
def Output.Flattens (index size : Nat) (o o' : Output) : Prop :=
  ∃ as bs cs, as.length = index ∧ bs.length = size ∧ o = .list (as ++ .list bs :: cs) ∧
    o' = .list (as ++ bs ++ cs)

namespace Forwards

open Projecting

variable (fs : Forwards) (n : Nat) (x : Value)

theorem projectWithin_intersection_flatten (before inner after : List Validator) (k : Nat) :
    Corresponds (Output.Flattens before.length inner.length)
      (fs.projectWithin n (.intersection .list
        (before ++ Validator.wrapped^[k] (.intersection .list inner) :: after)) x)
      (fs.projectWithin n (.intersection .list (before ++ inner ++ after)) x) := by
  have hmembers := fun vs : List Validator =>
    corresponds_mapM_refl vs fun v => fs.projectWithin n v x
  simp only [projectWithin_intersection, List.mapM_append, List.mapM_cons, projectWithin_pointers,
    bind_assoc, pure_bind, Form.gather]
  refine (hmembers before).bind fun as _ ⟨rfl, has⟩ => (hmembers inner).bind fun bs _ ⟨rfl, hbs⟩ =>
    (hmembers after).bind fun cs _ ⟨rfl, _⟩ => corresponds_pure ?_
  exact ⟨as, bs, cs, has, hbs, rfl, rfl⟩

theorem checkWithin_optional_eq_union (form : Form) (v : Validator) (p : Path) :
    fs.checkWithin n (.optional v) x p =
      fs.checkWithin n (.union form [.leaf .void, v]) x p := by
  rw [checkWithin_optional, checkWithin_union, List.map_cons, List.map_singleton, checkWithin_leaf,
    Checking.anyOf_pair]
  rfl

theorem checkWithin_nullable_eq_union (form : Form) (v : Validator) (p : Path) :
    fs.checkWithin n (.nullable v) x p =
      fs.checkWithin n (.union form [.leaf .null, v]) x p := by
  have hnull : x.isNull = Leaf.null.accepts x := by cases x <;> rfl
  rw [checkWithin_nullable, checkWithin_union, List.map_cons, List.map_singleton, checkWithin_leaf,
    Checking.anyOf_pair, hnull]

end Forwards

open Forwards in
/-- A union among the members of a union can be replaced by its own members, also behind pointers,
and so can an intersection. -/
theorem check_of_flattening (fs : Forwards) (x : Value) :
    (∀ before inner after k,
      let nested : Validator :=
        .union .list (before ++ Validator.wrapped^[k] (.union .list inner) :: after)
      let flat : Validator := .union .list (before ++ inner ++ after)
      fs.ChecksAlike nested x flat x ∧ fs.OutputsAlike nested x flat x) ∧
    (∀ before inner after k,
      let nested : Validator :=
        .intersection .list (before ++ Validator.wrapped^[k] (.intersection .list inner) :: after)
      let flat : Validator := .intersection .list (before ++ inner ++ after)
      fs.ChecksAlike nested x flat x ∧
        fs.ProjectsAlike (Output.Flattens before.length inner.length) nested x flat x) ∧
    ∀ form v, fs.ChecksAlike (.optional v) x (.union form [.leaf .void, v]) x ∧
      fs.ChecksAlike (.nullable v) x (.union form [.leaf .null, v]) x := by
  refine ⟨fun before inner after k => ⟨?_, ?_⟩, fun before inner after k => ⟨?_, ?_⟩,
    fun form v => ⟨?_, ?_⟩⟩
  · exact checksAlike_of_within rfl fun n => fs.checkWithin_union_flatten n x before inner after k
  · refine outputsAlike_of_within rfl fun n log => ?_
    rw [(fs.discreet_projectWithin n _ x).map_fst, (fs.discreet_projectWithin n _ x).map_fst]
    exact fs.outputOfFirst_flatten n x before inner after k
  · exact checksAlike_of_within rfl fun n =>
      fs.checkWithin_intersection_flatten n x before inner after k
  · exact projectsAlike_of_within rfl fun n =>
      fs.projectWithin_intersection_flatten n x before inner after k
  · exact checksAlike_of_within rfl fun n => fs.checkWithin_optional_eq_union n x form v
  · exact checksAlike_of_within rfl fun n => fs.checkWithin_nullable_eq_union n x form v

end Conform
