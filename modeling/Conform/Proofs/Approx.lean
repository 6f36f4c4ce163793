import Conform.Proofs.Judgement
import Conform.Proofs.Lists

namespace Conform

/-- The second computation returns whatever the first one returns. -/
def Approx {α : Type} (a b : Option α) : Prop := ∀ r, a = some r → b = some r

namespace Approx

variable {α β : Type} {a b c : Option α}

theorem refl (a : Option α) : Approx a a := fun _ h => h

theorem trans (h : Approx a b) (k : Approx b c) : Approx a c := fun r hr => k r (h r hr)

theorem none : Approx none b := fun _ h => nomatch h

theorem eq_of_isSome (h : Approx a b) (ha : a.isSome) : a = b := by
  obtain ⟨r, rfl⟩ := Option.isSome_iff_exists.1 ha
  exact (h r rfl).symm

theorem bind {f g : α → Option β} (h : Approx a b) (k : ∀ r, Approx (f r) (g r)) :
    Approx (a >>= f) (b >>= g) := by
  intro s hs
  obtain ⟨r, hr, hf⟩ := Option.bind_eq_some_iff.1 hs
  exact Option.bind_eq_some_iff.2 ⟨r, h r hr, k r s hf⟩

theorem map (f : α → β) (h : Approx a b) : Approx (a.map f) (b.map f) := by
  intro s hs
  obtain ⟨r, hr, rfl⟩ := Option.map_eq_some_iff.1 hs
  exact Option.map_eq_some_iff.2 ⟨r, h r hr, rfl⟩

theorem of_eq (h : a = b) : Approx a b := h ▸ refl a

end Approx

namespace Verdict

structure Part.Approx (a b : Part) : Prop where
  segment : a.segment = b.segment
  cause : a.cause = b.cause
  verdict : Conform.Approx a.verdict b.verdict

theorem everyPart_approx {as bs : List Part} (h : List.Forall₂ Part.Approx as bs) :
    Approx (everyPart as) (everyPart bs) := by
  induction h with
  | nil => exact .refl _
  | cons h _ ih =>
    rw [everyPart, everyPart, h.segment, h.cause]
    exact h.verdict.bind fun d => ih.bind fun e => .refl _

theorem search_approx (stop : Bool) {as bs : List (Option Verdict)}
    (h : List.Forall₂ Conform.Approx as bs) : Approx (search stop as) (search stop bs) := by
  induction h with
  | nil => exact .refl _
  | cons h _ ih =>
    rw [search, search]
    refine h.bind fun d => ?_
    by_cases hd : d.passed = stop
    · simpa only [if_pos hd] using .refl _
    · simp only [if_neg hd]
      exact ih.bind fun e => .refl _

end Verdict

namespace Validator

variable {enter enter' : Forward → Value → Option Verdict}

/-- A judgement depends on references only at its own input and at deeper ones. -/
theorem judgeWith_approx (v : Validator) (x : Value) (here : ∀ f, Approx (enter f x) (enter' f x))
    (below : ∀ f y, y.depth < x.depth → Approx (enter f y) (enter' f y)) :
    Approx (v.judgeWith enter x) (v.judgeWith enter' x) := by
  induction v generalizing x with
  | leaf | extension => exact .refl _
  | optional v ih =>
    rw [judgeWith, judgeWith]
    split
    · exact .refl _
    · exact ih x here below
  | nullable v ih =>
    rw [judgeWith, judgeWith]
    split
    · exact .refl _
    · exact ih x here below
  | erased v ih | wrapped v ih => exact ih x here below
  | array v ih =>
    cases x with
    | array items =>
      apply Verdict.everyPart_approx
      apply forall₂_mapIdx_mapIdx
      intro i y hy
      have hlt := Value.depth_item_lt (List.mem_of_getElem? hy)
      exact ⟨rfl, rfl, ih y (fun f => below f y hlt) fun f z hz => below f z (Nat.lt_trans hz hlt)⟩
    | _ => exact .refl _
  | tuple form vs ih =>
    cases x with
    | array items =>
      rw [judgeWith, judgeWith, elementVerdicts_eq_map, elementVerdicts_eq_map]
      apply Verdict.everyPart_approx
      apply forall₂_map_map
      intro i _
      have hlt := Value.depth_element_lt items i
      rw [elementVerdict, elementVerdict]
      cases hv : vs[i]? with
      | none => exact ⟨rfl, rfl, .refl _⟩
      | some v =>
        exact ⟨rfl, rfl, ih v (List.mem_of_getElem? hv) _ (fun f => below f _ hlt)
          fun f z hz => below f z (Nat.lt_trans hz hlt)⟩
    | _ => exact .refl _
  | record k v ihk ihv =>
    cases x with
    | object o =>
      apply Verdict.everyPart_approx
      apply forall₂_flatMap_flatMap
      intro e he
      have hlt := Value.depth_property_lt (List.mem_of_mem_filter he)
      have hpos := Value.depth_object_pos o
      refine .cons ⟨rfl, rfl, ?_⟩ (.cons ⟨rfl, rfl, ?_⟩ .nil)
      · exact ihk _ (fun f => below f _ hpos) fun f z hz => below f z (Nat.lt_trans hz hpos)
      · exact ihv _ (fun f => below f _ hlt) fun f z hz => below f z (Nat.lt_trans hz hlt)
    | _ => exact .refl _
  | object form fields exact ih =>
    cases x with
    | object o =>
      rw [judgeWith, judgeWith, fieldVerdicts_eq_map, fieldVerdicts_eq_map]
      apply Approx.map
      apply Verdict.everyPart_approx
      apply forall₂_map_map
      intro field hf
      have hlt := Value.depth_field_lt o field.1
      exact ⟨rfl, rfl, ih field (List.mem_of_mem_filter hf) _ (fun f => below f _ hlt)
        fun f z hz => below f z (Nat.lt_trans hz hlt)⟩
    | _ => exact .refl _
  | union form vs ih | intersection form vs ih =>
    rw [judgeWith, judgeWith, memberVerdicts_eq_map, memberVerdicts_eq_map]
    apply Verdict.search_approx
    apply forall₂_map_map
    intro v hv
    exact ih v hv x here below
  | forward f => exact here f

end Validator

end Conform
