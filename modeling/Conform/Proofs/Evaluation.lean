import Conform.Proofs.Judge

namespace Conform.Forwards

/-- The judgement of a validator asks for that of another one: a union up to the first member that
accepts, an intersection up to the first that rejects. -/
inductive Asks (fs : Forwards) : Validator → Value → Validator → Value → Prop
  | optional {v x} : x.isNullish = false → fs.Asks (.optional v) x v x
  | nullable {v x} : x.isNull = false → fs.Asks (.nullable v) x v x
  | erased {v x} : fs.Asks (.erased v) x v x
  | wrapped {v x} : fs.Asks (.wrapped v) x v x
  | item {v items y} : y ∈ items → fs.Asks (.array v) (.array items) v y
  | element {form} {vs : List Validator} {items : List Value} {i : Nat} {v} : vs[i]? = some v →
    fs.Asks (.tuple form vs) (.array items) v (items[i]?.getD .undefined)
  | key {k v o e} : e ∈ o.properties → e.1 ≠ reservedKey →
    fs.Asks (.record k v) (.object o) k (.string e.1)
  | entry {k v o e} : e ∈ o.properties → e.1 ≠ reservedKey →
    fs.Asks (.record k v) (.object o) v e.2
  | field {form fields exact o field} : field ∈ fields → field.1 ≠ reservedKey →
    fs.Asks (.object form fields exact) (.object o) field.2 ((o.get? field.1).getD .undefined)
  | alternative {form vs before v after x} : vs = before ++ v :: after →
    (∀ u ∈ before, ∃ e, fs.judge u x = some e ∧ e.passed = false) → fs.Asks (.union form vs) x v x
  | conjunct {form vs before v after x} : vs = before ++ v :: after →
    (∀ u ∈ before, ∃ e, fs.judge u x = some e ∧ e.passed = true) →
    fs.Asks (.intersection form vs) x v x
  | target {f v x} : fs.target? f = some v → fs.Asks (.forward f) x v x

variable {fs : Forwards}

/-- A union that accepts nothing asks every member. -/
theorem Asks.of_mem_union {form : Form} {vs : List Validator} {v : Validator} {x : Value}
    (hv : v ∈ vs) (h : ∀ u ∈ vs, ∃ e, fs.judge u x = some e ∧ e.passed = false) :
    fs.Asks (.union form vs) x v x := by
  obtain ⟨before, after, rfl⟩ := List.append_of_mem hv
  exact .alternative rfl fun u hu => h u (List.mem_append_left _ hu)

/-- An intersection that rejects nothing asks every member. -/
theorem Asks.of_mem_intersection {form : Form} {vs : List Validator} {v : Validator} {x : Value}
    (hv : v ∈ vs) (h : ∀ u ∈ vs, ∃ e, fs.judge u x = some e ∧ e.passed = true) :
    fs.Asks (.intersection form vs) x v x := by
  obtain ⟨before, after, rfl⟩ := List.append_of_mem hv
  exact .conjunct rfl fun u hu => h u (List.mem_append_left _ hu)

theorem Asks.uses {v w : Validator} {x y : Value} (h : fs.Asks v x w y) : fs.Uses v w := by
  cases h with
  | optional | nullable | erased | wrapped | item | key | entry =>
    exact .part (by simp [Validator.parts])
  | element hv => exact .part (List.mem_of_getElem? hv)
  | field hf => exact .part (List.mem_map_of_mem hf)
  | alternative hv | conjunct hv => exact .part (by simp [Validator.parts, hv])
  | target ht => exact .target ht

section Parts

variable {enter : Forward → Value → Option Verdict} {v w : Validator} {x y : Value} {d : Verdict}

theorem judgeWith_approx_judge (henter : ∀ f x, Approx (enter f x) (fs.judgeTarget fs.judge f x))
    (v : Validator) (x : Value) : Approx (v.judgeWith enter x) (fs.judge v x) := by
  rw [judge_eq]
  exact v.judgeWith_approx x (henter · x) fun f y _ => henter f y

/-- A judgement that returns has asked for judgements that return. -/
theorem isSome_of_asks (henter : ∀ f x, Approx (enter f x) (fs.judgeTarget fs.judge f x))
    (h : v.judgeWith enter x = some d) (hw : fs.Asks v x w y) (hf : ∀ f, v ≠ .forward f) :
    (w.judgeWith enter y).isSome := by
  cases hw with
  | optional hx | nullable hx =>
    rw [Validator.judgeWith, if_neg (by simp [hx])] at h
    simp [h]
  | erased | wrapped =>
    rw [Validator.judgeWith] at h
    simp [h]
  | item hy =>
    obtain ⟨i, hi, rfl⟩ := List.mem_iff_getElem.1 hy
    obtain ⟨hall, -⟩ := Verdict.everyPart_eq_some_iff.1 h
    exact hall _ (List.mem_mapIdx.2 ⟨i, hi, rfl⟩)
  | @element _ vs items i _ hv =>
    rw [Validator.judgeWith, Validator.elementVerdicts_eq_map] at h
    obtain ⟨hall, -⟩ := Verdict.everyPart_eq_some_iff.1 h
    have hi : i < max vs.length items.length :=
      lt_max_of_lt_left (List.getElem?_eq_some_iff.1 hv).1
    have := hall _ (List.mem_map_of_mem (List.mem_range.2 hi))
    simpa only [Validator.elementVerdict, hv] using this
  | key he hk =>
    obtain ⟨hall, -⟩ := Verdict.everyPart_eq_some_iff.1 h
    exact hall _ (List.mem_flatMap.2 ⟨_, mem_unreserved.2 ⟨he, hk⟩, List.mem_cons_self⟩)
  | entry he hk =>
    obtain ⟨hall, -⟩ := Verdict.everyPart_eq_some_iff.1 h
    exact hall _ (List.mem_flatMap.2 ⟨_, mem_unreserved.2 ⟨he, hk⟩,
      List.mem_cons_of_mem _ List.mem_cons_self⟩)
  | field hm hk =>
    rw [Validator.judgeWith, Validator.fieldVerdicts_eq_map] at h
    obtain ⟨e, he, -⟩ := Option.map_eq_some_iff.1 h
    obtain ⟨hall, -⟩ := Verdict.everyPart_eq_some_iff.1 he
    exact hall _ (List.mem_map_of_mem (mem_unreserved.2 ⟨hm, hk⟩))
  | alternative hv hb | conjunct hv hb =>
    rw [Validator.judgeWith, Validator.memberVerdicts_eq_map, hv, List.map_append,
      List.map_cons] at h
    apply Verdict.isSome_of_search h
    intro e he
    obtain ⟨u, hu, hue⟩ := List.mem_map.1 he
    obtain ⟨e', he', hp⟩ := hb u hu
    rw [judgeWith_approx_judge henter u x e hue] at he'
    cases he'
    exact hp
  | target => exact absurd rfl (hf _)

end Parts

/-- Induction over the judgements that an evaluation performs. Everything that is asked for
returns. -/
theorem judge_induction {P : Validator → Value → Verdict → Prop}
    (step : ∀ v x d, fs.judge v x = some d →
      (∀ w y, fs.Asks v x w y → ∃ e, fs.judge w y = some e ∧ P w y e) → P v x d)
    {v : Validator} {x : Value} {d : Verdict} (h : fs.judge v x = some d) : P v x d := by
  -- The references first enter nothing, then definitions for which the statement holds.
  have parts : ∀ enter : Forward → Value → Option Verdict,
      (∀ f x, Approx (enter f x) (fs.judgeTarget fs.judge f x)) →
      (∀ f w x e, fs.target? f = some w → enter f x = some e → P w x e) →
      ∀ v x d, v.judgeWith enter x = some d → P v x d := by
    intro enter henter htarget v
    induction v using Validator.parts_induction with
    | step v ih =>
      intro x d hd
      refine step v x d (judgeWith_approx_judge henter v x d hd) ?_
      intro w y hw
      cases hw.uses with
      | part hp =>
        have hf : ∀ f, v ≠ .forward f := by
          rintro f rfl
          cases hp
        obtain ⟨e, he⟩ := Option.isSome_iff_exists.1 (isSome_of_asks henter hd hw hf)
        exact ⟨e, judgeWith_approx_judge henter w y e he, ih w hp y e he⟩
      | @target f _ ht =>
        cases hw
        have he := henter f x d hd
        rw [judgeTarget_of_defined _ x ht] at he
        exact ⟨d, he, htarget f w x d ht hd⟩
  have within : ∀ n f w x e, fs.target? f = some w → fs.enterWithin n f x = some e → P w x e := by
    intro n
    induction n with
    | zero =>
      intro f w x e ht he
      rw [fs.enterWithin_fueled.zero ht] at he
      cases he
    | succ n ih =>
      intro f w x e ht he
      rw [enterWithin, judgeTarget_of_defined _ x ht] at he
      exact parts _ (fs.enterWithin_approx_judge n) ih w x e he
  exact parts _ (fs.enterWithin_approx_judge _) (within _) v x d h

end Conform.Forwards
