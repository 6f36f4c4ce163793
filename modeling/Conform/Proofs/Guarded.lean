import Conform.Proofs.Evaluation
import Mathlib.Data.List.ReduceOption
import Mathlib.Data.Set.Finite.Lattice

namespace Conform

/-- One validator asks another one about its own input, and goes into no part of it. -/
inductive Forwards.Stays (fs : Forwards) : Validator → Validator → Prop
  | optional {v} : fs.Stays (.optional v) v
  | nullable {v} : fs.Stays (.nullable v) v
  | erased {v} : fs.Stays (.erased v) v
  | wrapped {v} : fs.Stays (.wrapped v) v
  | alternative {form vs v} : v ∈ vs → fs.Stays (.union form vs) v
  | conjunct {form vs v} : v ∈ vs → fs.Stays (.intersection form vs) v
  | target {f v} : fs.target? f = some v → fs.Stays (.forward f) v

def Validator.IsStructural : Validator → Prop
  | .array _ => True
  | .tuple _ _ => True
  | .record _ _ => True
  | .object _ _ _ => True
  | _ => False

/-- Every reference that comes back to itself goes into a part of the input on the way. -/
def Forwards.Guarded (fs : Forwards) (v : Validator) : Prop :=
  ∀ f, fs.Reaches v (.forward f) → ¬Relation.TransGen fs.Stays (.forward f) (.forward f)

namespace Validator

theorem parts_wellFounded : WellFounded fun w v : Validator => w ∈ v.parts :=
  ⟨parts_induction fun v ih => ⟨v, ih⟩⟩

theorem not_transGen_parts (v : Validator) : ¬Relation.TransGen (fun w u => w ∈ u.parts) v v :=
  fun h => parts_wellFounded.transGen.irrefl.irrefl v h

/-- A validator consists of finitely many ones. -/
theorem finite_reflTransGen_parts (v : Validator) :
    {w | Relation.ReflTransGen (fun u w => w ∈ u.parts) v w}.Finite := by
  induction v using parts_induction with
  | step v ih =>
    have hparts := v.parts.finite_toSet.biUnion ih
    refine (hparts.insert v).subset ?_
    intro w hw
    rcases Relation.ReflTransGen.cases_head hw with rfl | ⟨u, hu, huw⟩
    · exact .inl rfl
    · exact .inr (Set.mem_biUnion hu huw)

end Validator

namespace Forwards

variable {fs : Forwards} {u v w : Validator} {x y : Value}

theorem Stays.uses (h : fs.Stays v w) : fs.Uses v w := by
  cases h with
  | optional | nullable | erased | wrapped => exact .part (by simp [Validator.parts])
  | alternative hv | conjunct hv => exact .part hv
  | target ht => exact .target ht

theorem stays_iff : fs.Stays v w ↔ fs.Uses v w ∧ ¬v.IsStructural := by
  constructor
  · intro h
    refine ⟨h.uses, ?_⟩
    cases h <;> exact id
  · rintro ⟨hw, hv⟩
    cases hw with
    | part hp =>
      cases v with
      | leaf | extension | forward => cases hp
      | optional => exact List.mem_singleton.1 hp ▸ .optional
      | nullable => exact List.mem_singleton.1 hp ▸ .nullable
      | erased => exact List.mem_singleton.1 hp ▸ .erased
      | wrapped => exact List.mem_singleton.1 hp ▸ .wrapped
      | array | tuple | record | object => exact absurd trivial hv
      | union => exact .alternative hp
      | intersection => exact .conjunct hp
    | target ht => exact .target ht

theorem Guarded.uses (h : fs.Guarded v) (hw : fs.Uses v w) : fs.Guarded w :=
  fun f hf => h f (.head hw hf)

theorem Guarded.reaches (h : fs.Guarded v) (hw : fs.Reaches v w) : fs.Guarded w :=
  fun f hf => h f (hw.trans hf)

theorem reaches_of_stays (h : Relation.ReflTransGen fs.Stays v w) : fs.Reaches v w :=
  h.lift id fun _ _ => Stays.uses

/-- Everything that occurs lies in the validator itself or in a definition. -/
theorem finite_reaches (fs : Forwards) (v : Validator) : {w | fs.Reaches v w}.Finite := by
  let roots := v :: fs.cells.reduceOption
  have hroots := roots.finite_toSet.biUnion fun u _ => u.finite_reflTransGen_parts
  refine hroots.subset ?_
  intro w hw
  rw [Set.mem_iUnion₂]
  induction hw with
  | refl => exact ⟨v, List.mem_cons_self, .refl⟩
  | tail _ huse ih =>
    obtain ⟨u, hu, hpath⟩ := ih
    cases huse with
    | part hp => exact ⟨u, hu, hpath.tail hp⟩
    | target ht =>
      have hcell := List.reduceOption_mem_iff.2 (mem_cells_of_target? ht)
      exact ⟨_, List.mem_cons_of_mem _ hcell, .refl⟩

/-- Validators that stay at one input go down in one tree, unless they meet a reference. -/
theorem parts_or_forward_of_stays (h : Relation.TransGen fs.Stays v w) :
    Relation.TransGen (fun u w => w ∈ u.parts) v w ∨
      ∃ f, Relation.ReflTransGen fs.Stays v (.forward f) ∧
        Relation.TransGen fs.Stays (.forward f) w := by
  induction h with
  | single h =>
    cases h.uses with
    | part hp => exact .inl (.single hp)
    | target => exact .inr ⟨_, .refl, .single h⟩
  | @tail u w hu h ih =>
    rcases ih with hdown | ⟨f, hf, hfu⟩
    · cases h.uses with
      | part hp => exact .inl (hdown.tail hp)
      | target => exact .inr ⟨_, hu.to_reflTransGen, .single h⟩
    · exact .inr ⟨f, hf, hfu.tail h⟩

theorem Guarded.acyclic (h : fs.Guarded v) : ¬Relation.TransGen fs.Stays v v := by
  intro hv
  rcases parts_or_forward_of_stays hv with hdown | ⟨f, hf, hfv⟩
  · exact v.not_transGen_parts (Relation.transGen_swap.1 hdown)
  · exact h f (reaches_of_stays hf) (hfv.trans_left hf)

/-- Definitions that go into a part of the input at once guard every reference. -/
theorem guarded_of_target? (h : ∀ f w u, fs.target? f = some w → ¬fs.Stays w u) (v : Validator) :
    fs.Guarded v := by
  intro f _ hf
  obtain ⟨w, hw, hrest⟩ := Relation.TransGen.head'_iff.1 hf
  cases hw with
  | target ht =>
    rcases Relation.ReflTransGen.cases_head hrest with rfl | ⟨u, hu, -⟩
    · exact h f _ _ ht (.target ht)
    · exact h f w u ht hu

theorem guarded_of_cells (h : ∀ w u, some w ∈ fs.cells → ¬fs.Stays w u) (v : Validator) :
    fs.Guarded v :=
  guarded_of_target? (fun _ w u ht => h w u (mem_cells_of_target? ht)) v

theorem stays_of_mem_inPlace (h : w ∈ v.inPlace) : fs.Stays v w := by
  refine stays_iff.2 ⟨.part (v.inPlace_subset_parts h), ?_⟩
  cases v with
  | array | tuple | record | object => cases h
  | _ => exact id

/-- Induction along the validators that a guarded one asks about its own input. -/
theorem Guarded.induction {motive : Validator → Prop}
    (step : ∀ v, (∀ w, fs.Stays v w → motive w) → motive v) (h : fs.Guarded v) : motive v := by
  -- A validator may occur within itself behind a guard, so this is no induction over the tree:
  -- only finitely many occur, and none of them asks itself about its own input.
  let occurring := {w // fs.Reaches v w}
  let below : occurring → occurring → Prop := fun w u => Relation.TransGen fs.Stays u.1 w.1
  have : Finite occurring := fs.finite_reaches v
  have : IsTrans occurring below := ⟨fun _ _ _ h k => k.trans h⟩
  have : Std.Irrefl below := ⟨fun w => (h.reaches w.2).acyclic⟩
  have hwf : WellFounded below := Finite.wellFounded_of_trans_of_irrefl below
  have hall : ∀ w : occurring, motive w.1 := fun w =>
    hwf.induction w fun u ih => step u.1 fun w hw => ih ⟨w, u.2.tail hw.uses⟩ (.single hw)
  exact hall ⟨v, .refl⟩

/-- What is asked for concerns a deeper value or stays at the same one. -/
theorem Asks.depth_lt_or_stays (h : fs.Asks v x w y) :
    y.depth < x.depth ∨ y = x ∧ fs.Stays v w := by
  cases h with
  | optional => exact .inr ⟨rfl, .optional⟩
  | nullable => exact .inr ⟨rfl, .nullable⟩
  | erased => exact .inr ⟨rfl, .erased⟩
  | wrapped => exact .inr ⟨rfl, .wrapped⟩
  | item hy => exact .inl (Value.depth_item_lt hy)
  | element => exact .inl (Value.depth_element_lt _ _)
  | key => exact .inl (Value.depth_object_pos _)
  | entry he => exact .inl (Value.depth_property_lt he)
  | field => exact .inl (Value.depth_field_lt _ _)
  | alternative hv => exact .inr ⟨rfl, .alternative (by simp [hv])⟩
  | conjunct hv => exact .inr ⟨rfl, .conjunct (by simp [hv])⟩
  | target ht => exact .inr ⟨rfl, .target ht⟩

/-- A judgement returns when everything returns that it asks for. -/
theorem judge_isSome_of_asks (h : ∀ w y, fs.Asks v x w y → (fs.judge w y).isSome) :
    (fs.judge v x).isSome := by
  cases v with
  | leaf => rw [judge_leaf]; rfl
  | extension => rw [judge_extension]; rfl
  | optional v =>
    rw [judge_optional]
    cases hx : x.isNullish with
    | true => rfl
    | false => exact h _ _ (.optional hx)
  | nullable v =>
    rw [judge_nullable]
    cases hx : x.isNull with
    | true => rfl
    | false => exact h _ _ (.nullable hx)
  | erased v =>
    rw [judge_erased]
    exact h _ _ .erased
  | wrapped v =>
    rw [judge_wrapped]
    exact h _ _ .wrapped
  | array v =>
    cases x with
    | array items =>
      rw [judge_array, Verdict.everyPart_isSome_iff]
      intro part hpart
      obtain ⟨i, hi, rfl⟩ := List.mem_mapIdx.1 hpart
      exact h _ _ (.item (List.getElem_mem hi))
    | _ => rw [judge_eq]; rfl
  | tuple form vs =>
    cases x with
    | array items =>
      rw [judge_tuple, Verdict.everyPart_isSome_iff, List.forall_mem_map]
      intro i _
      rw [Validator.elementVerdict]
      cases hv : vs[i]? with
      | none => rfl
      | some v => exact h _ _ (.element hv)
    | _ => rw [judge_eq]; rfl
  | record k v =>
    cases x with
    | object o =>
      rw [judge_record, Verdict.everyPart_isSome_iff]
      intro part hpart
      obtain ⟨e, he, hpart⟩ := List.mem_flatMap.1 hpart
      obtain ⟨he, hk⟩ := mem_unreserved.1 he
      rcases List.mem_pair.1 hpart with rfl | rfl
      · exact h _ _ (.key he hk)
      · exact h _ _ (.entry he hk)
    | _ => rw [judge_eq]; rfl
  | object form fields exact =>
    cases x with
    | object o =>
      rw [judge_object, Option.isSome_map, Verdict.everyPart_isSome_iff, List.forall_mem_map]
      intro field hfield
      obtain ⟨hm, hk⟩ := mem_unreserved.1 hfield
      exact h _ _ (.field hm hk)
    | _ => rw [judge_eq]; rfl
  | union form vs =>
    rw [judge_union]
    apply Verdict.search_isSome
    intro before c after hc hb
    obtain ⟨before, rest, rfl, rfl, hrest⟩ := List.map_eq_append_iff.1 hc
    obtain ⟨v, after, rfl, rfl, rfl⟩ := List.map_eq_cons_iff.1 hrest
    exact h _ _ (.alternative rfl fun u hu => hb _ (List.mem_map_of_mem hu))
  | intersection form vs =>
    rw [judge_intersection]
    apply Verdict.search_isSome
    intro before c after hc hb
    obtain ⟨before, rest, rfl, rfl, hrest⟩ := List.map_eq_append_iff.1 hc
    obtain ⟨v, after, rfl, rfl, rfl⟩ := List.map_eq_cons_iff.1 hrest
    exact h _ _ (.conjunct rfl fun u hu => hb _ (List.mem_map_of_mem hu))
  | forward f =>
    cases ht : fs.target? f with
    | none => rw [judge_forward_of_undefined x ht]; rfl
    | some v =>
      rw [judge_forward_of_defined x ht]
      exact h _ _ (.target ht)

/-- Induction along the validators that a guarded one uses and the values that they are asked
about. -/
theorem Guarded.value_induction {motive : Validator → Value → Prop}
    (step : ∀ v x, (∀ w y, fs.Uses v w → y.depth < x.depth ∨ y = x ∧ fs.Stays v w →
      motive w y) → motive v x) (h : fs.Guarded v) (x : Value) : motive v x := by
  induction hd : x.depth using Nat.strong_induction_on generalizing v x with
  | _ d ihd =>
  subst hd
  have hstay : fs.Guarded v → motive v x := by
    refine h.induction (motive := fun v => fs.Guarded v → motive v x) ?_
    intro v ih hg
    refine step v x fun w y hw hy => ?_
    have hgw := hg.uses hw
    rcases hy with hlt | ⟨rfl, hs⟩
    · exact ihd y.depth hlt hgw y rfl
    · exact ih w hs hgw
  exact hstay h

/-- A guarded recursion returns on every input. -/
theorem Guarded.judge_isSome (h : fs.Guarded v) (x : Value) : (fs.judge v x).isSome :=
  h.value_induction (fun _ _ ih => judge_isSome_of_asks fun w y hw =>
    ih w y hw.uses hw.depth_lt_or_stays) x

/-- Validators of the first tree stand for those of the second one, use only what these use, and go
into parts where these do. -/
structure Simulates (fs fs' : Forwards) (R : Validator → Validator → Prop) : Prop where
  uses {v v' w'} : R v v' → fs'.Uses v' w' → ∃ w, R w w' ∧ fs.Uses v w
  structural {v v'} : R v v' → v.IsStructural → v'.IsStructural

namespace Simulates

variable {fs fs' : Forwards} {R : Validator → Validator → Prop} {v v' w' : Validator}

theorem stays (h : fs.Simulates fs' R) (hv : R v v') (hw : fs'.Stays v' w') :
    ∃ w, R w w' ∧ fs.Stays v w := by
  obtain ⟨huse, hv'⟩ := stays_iff.1 hw
  obtain ⟨w, hw, huse⟩ := h.uses hv huse
  exact ⟨w, hw, stays_iff.2 ⟨huse, fun hs => hv' (h.structural hv hs)⟩⟩

theorem reaches (h : fs.Simulates fs' R) (hv : R v v') (hw : fs'.Reaches v' w') :
    ∃ w, R w w' ∧ fs.Reaches v w := by
  induction hw with
  | refl => exact ⟨v, hv, .refl⟩
  | tail _ hu ih =>
    obtain ⟨u, hu', hreach⟩ := ih
    obtain ⟨w, hw, huse⟩ := h.uses hu' hu
    exact ⟨w, hw, hreach.tail huse⟩

theorem everywhere {P P' : Validator → Prop} (h : fs.Simulates fs' R)
    (hP : ∀ w w', R w w' → P w → P' w') (hv : R v v') (hall : fs.Everywhere P v) :
    fs'.Everywhere P' v' := by
  intro w' hw'
  obtain ⟨w, hw, hreach⟩ := h.reaches hv hw'
  exact hP w w' hw (hall w hreach)

/-- What stands for a guarded recursion is guarded. -/
theorem guarded (h : fs.Simulates fs' R) (hv : R v v') (hg : fs.Guarded v) : fs'.Guarded v' := by
  intro f hf hcycle
  obtain ⟨w, hw, hreach⟩ := h.reaches hv hf
  -- A cycle would be followed by the first tree for ever.
  refine (hg.reaches hreach).induction (motive := fun w => ∀ w', R w w' →
    ¬Relation.TransGen fs'.Stays w' w') ?_ _ hw hcycle
  intro w ih w' hw hcycle
  obtain ⟨u', hu', hback⟩ := Relation.TransGen.head'_iff.1 hcycle
  obtain ⟨u, hu, hstays⟩ := h.stays hw hu'
  exact ih u hstays u' hu (.tail' hback hu')

end Simulates

end Forwards

end Conform
