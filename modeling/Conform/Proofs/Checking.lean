import Conform.Proofs.Lists
import Conform.Proofs.Tree

namespace Conform

/-- A relation between checks that their sequencing keeps, and that each of their effects has to
itself. -/
structure Checking.Congruence (R : (α : Type) → Checking α → Checking α → Prop) : Prop where
  pure {α : Type} (a : α) : R α (pure a) (pure a)
  bind {α β : Type} {c c' : Checking α} {k k' : α → Checking β} :
    R α c c' → (∀ a, R β (k a) (k' a)) → R β (c >>= k) (c' >>= k')
  record (p : Path) : R Unit (Checking.record p) (Checking.record p)
  undefined (p : Path) : R Unit (Checking.report (.forwardUndefined p))
    (Checking.report (.forwardUndefined p))
  run (e : Extension) (x : Value) (p : Path) : R Bool (e.run x p) (e.run x p)

namespace Checking.Congruence

variable {R : (α : Type) → Checking α → Checking α → Prop}

structure Parts (R : (α : Type) → Checking α → Checking α → Prop) (a b : Checking.Part) :
    Prop where
  path : a.path = b.path
  check : R Bool a.check b.check

theorem everyPart (hR : Congruence R) {as bs : List Checking.Part}
    (h : List.Forall₂ (Parts R) as bs) :
    R Bool (Checking.everyPart as) (Checking.everyPart bs) := by
  induction h with
  | nil => exact hR.pure true
  | @cons a b as bs h _ ih =>
    rw [Checking.everyPart, Checking.everyPart, h.path]
    refine hR.bind h.check fun passed => hR.bind ?_ fun _ => hR.bind ih fun others => hR.pure _
    cases passed with
    | true => exact hR.pure ()
    | false => exact hR.record b.path

theorem anyOf (hR : Congruence R) {as bs : List (Checking Bool)}
    (h : List.Forall₂ (R Bool) as bs) : R Bool (Checking.anyOf as) (Checking.anyOf bs) := by
  induction h with
  | nil => exact hR.pure false
  | cons h _ ih =>
    refine hR.bind h fun b => ?_
    cases b with
    | true => exact hR.pure true
    | false => exact ih

theorem allOf (hR : Congruence R) {as bs : List (Checking Bool)}
    (h : List.Forall₂ (R Bool) as bs) : R Bool (Checking.allOf as) (Checking.allOf bs) := by
  induction h with
  | nil => exact hR.pure true
  | cons h _ ih =>
    refine hR.bind h fun b => ?_
    cases b with
    | true => exact ih
    | false => exact hR.pure false

end Checking.Congruence

open Checking.Congruence

namespace Validator

variable {R : (α : Type) → Checking α → Checking α → Prop}
  {enter enter' : Forward → Value → Path → Checking Bool}

theorem elementParts_related (hR : Checking.Congruence R) {vs : List Validator} {depth : Nat}
    (h : ∀ v ∈ vs, ∀ y, y.depth < depth →
      ∀ p, R Bool (v.checkWith enter y p) (v.checkWith enter' y p))
    {items : List Value} (hitems : ∀ y ∈ items, y.depth < depth) (hpos : 0 < depth) (p : Path)
    (i : Nat) :
    List.Forall₂ (Parts R) (elementParts enter vs items p i)
      (elementParts enter' vs items p i) := by
  induction vs generalizing items i with
  | nil => exact forall₂_mapIdx_mapIdx fun j y _ => ⟨rfl, hR.pure false⟩
  | cons v rest ih =>
    obtain ⟨hv, hrest⟩ := List.forall_mem_cons.1 h
    have hhead : (items.headD .undefined).depth < depth := by
      cases items with
      | nil => exact hpos
      | cons y _ => exact hitems y List.mem_cons_self
    refine .cons ⟨rfl, hv _ hhead _⟩ (ih hrest (fun y hy => ?_) (i + 1))
    exact hitems y (List.mem_of_mem_tail hy)

/-- Checks are related when the references are that they meet. -/
theorem checkWith_related (hR : Checking.Congruence R) {Q : Validator → Value → Prop}
    (hQ : Inherited Q)
    (henter : ∀ f x p, Q (.forward f) x → R Bool (enter f x p) (enter' f x p))
    (v : Validator) (x : Value) (p : Path) (hv : Q v x) :
    R Bool (v.checkWith enter x p) (v.checkWith enter' x p) := by
  induction v generalizing x p with
  | leaf l => exact hR.pure _
  | extension e => exact hR.run e x p
  | optional v ih =>
    rw [checkWith, checkWith]
    split
    · exact hR.pure true
    · exact ih x p (hQ.inPlace hv (by simp [inPlace]))
  | nullable v ih =>
    rw [checkWith, checkWith]
    split
    · exact hR.pure true
    · exact ih x p (hQ.inPlace hv (by simp [inPlace]))
  | erased v ih | wrapped v ih => exact ih x p (hQ.inPlace hv (by simp [inPlace]))
  | array v ih =>
    cases x with
    | array items =>
      refine hR.everyPart (forall₂_mapIdx_mapIdx fun i y hy => ⟨rfl, ih y _ ?_⟩)
      exact hQ.deeper hv (by simp [parts]) (Value.depth_item_lt (List.mem_of_getElem? hy))
    | _ => exact hR.pure false
  | tuple form vs ih =>
    cases x with
    | array items =>
      refine hR.everyPart (elementParts_related hR (fun v hm y hy q => ?_)
        (fun y => Value.depth_item_lt) (Value.depth_array_pos items) p 0)
      exact ih v hm y q (hQ.deeper hv hm hy)
    | _ => exact hR.pure false
  | record k v ihk ihv =>
    cases x with
    | object o =>
      refine hR.everyPart (forall₂_flatMap_flatMap fun e he => ?_)
      have hk : Q k (.string e.1) := hQ.deeper hv (by simp [parts]) (Value.depth_object_pos o)
      have hv : Q v e.2 := hQ.deeper hv (by simp [parts])
        (Value.depth_property_lt (List.mem_of_mem_filter he))
      exact .cons ⟨rfl, ihk _ _ hk⟩ (.cons ⟨rfl, ihv _ _ hv⟩ .nil)
    | _ => exact hR.pure false
  | object form fields exact ih =>
    cases x with
    | object o =>
      rw [checkWith, checkWith, fieldParts_eq_map, fieldParts_eq_map]
      refine hR.bind (hR.everyPart (forall₂_map_map fun field hf => ⟨rfl, ?_⟩)) fun b => ?_
      · have hm := List.mem_of_mem_filter hf
        exact ih field hm _ _
          (hQ.deeper hv (List.mem_map_of_mem hm) (Value.depth_field_lt o field.1))
      · cases b <;> exact hR.pure _
    | _ => exact hR.pure false
  | union form vs ih =>
    rw [checkWith, checkWith, memberChecks_eq_map, memberChecks_eq_map]
    exact hR.anyOf (forall₂_map_map fun v hm => ih v hm x p (hQ.inPlace hv hm))
  | intersection form vs ih =>
    rw [checkWith, checkWith, memberChecks_eq_map, memberChecks_eq_map]
    exact hR.allOf (forall₂_map_map fun v hm => ih v hm x p (hQ.inPlace hv hm))
  | forward f => exact henter f x p hv

/-- A check has what its references have, if sequencing keeps it. -/
theorem checkWith_closed {P : (α : Type) → Checking α → Prop}
    (hP : Checking.Congruence fun α c _ => P α c) (henter : ∀ f x p, P Bool (enter f x p))
    (v : Validator) (x : Value) (p : Path) : P Bool (v.checkWith enter x p) :=
  @checkWith_related _ enter enter hP _ inherited_true (fun f y q _ => henter f y q) v x p trivial

end Validator

namespace Forwards

variable {fs : Forwards} {R : (α : Type) → Checking α → Checking α → Prop}

theorem checkTarget_related (hR : Checking.Congruence R)
    {check check' : Validator → Value → Path → Checking Bool} {f : Forward} {x : Value} {p : Path}
    (h : ∀ v, fs.target? f = some v → R Bool (check v x p) (check' v x p)) :
    R Bool (fs.checkTarget check f x p) (fs.checkTarget check' f x p) := by
  rw [checkTarget, checkTarget]
  cases ht : fs.target? f with
  | none => exact hR.bind (hR.undefined p) fun _ => hR.pure false
  | some v => exact h v ht

theorem checkTarget_closed {P : (α : Type) → Checking α → Prop}
    (hP : Checking.Congruence fun α c _ => P α c)
    {check : Validator → Value → Path → Checking Bool} {f : Forward} {x : Value} {p : Path}
    (h : ∀ v, P Bool (check v x p)) : P Bool (fs.checkTarget check f x p) :=
  @checkTarget_related fs _ hP check check f x p fun v _ => h v

end Forwards

end Conform
