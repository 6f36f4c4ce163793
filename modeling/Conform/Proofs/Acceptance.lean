import Conform.Proofs.Equivariance
import Conform.Proofs.Guarded
import Conform.Proofs.Passing

namespace Conform

/-- The values that a validator means. -/
inductive Forwards.Accepts (fs : Forwards) : Validator → Value → Prop
  | leaf {l x} : l.accepts x = true → fs.Accepts (.leaf l) x
  | undefined {v} : fs.Accepts (.optional v) .undefined
  | absent {v} : fs.Accepts (.optional v) .null
  | optional {v x} : fs.Accepts v x → fs.Accepts (.optional v) x
  | null {v} : fs.Accepts (.nullable v) .null
  | nullable {v x} : fs.Accepts v x → fs.Accepts (.nullable v) x
  | erased {v x} : fs.Accepts v x → fs.Accepts (.erased v) x
  | wrapped {v x} : fs.Accepts v x → fs.Accepts (.wrapped v) x
  | array {v items} : (∀ x ∈ items, fs.Accepts v x) → fs.Accepts (.array v) (.array items)
  | tuple {form} {vs : List Validator} {items : List Value} : items.length ≤ vs.length →
    (∀ i (h : i < vs.length), fs.Accepts vs[i] (items[i]?.getD .undefined)) →
    fs.Accepts (.tuple form vs) (.array items)
  | record {k v o} :
    (∀ e ∈ o.properties, e.1 ≠ reservedKey → fs.Accepts k (.string e.1)) →
    (∀ e ∈ o.properties, e.1 ≠ reservedKey → fs.Accepts v e.2) →
    fs.Accepts (.record k v) (.object o)
  | object {form fields exact o} :
    (∀ field ∈ fields, field.1 ≠ reservedKey →
      fs.Accepts field.2 ((o.get? field.1).getD .undefined)) →
    (exact = true → ∀ key ∈ o.keys, ∃ field ∈ fields, field.1 ≠ reservedKey ∧ field.1 = key) →
    fs.Accepts (.object form fields exact) (.object o)
  | union {form vs v x} : v ∈ vs → fs.Accepts v x → fs.Accepts (.union form vs) x
  | intersection {form vs x} : (∀ v ∈ vs, fs.Accepts v x) → fs.Accepts (.intersection form vs) x
  | forward {f v x} : fs.target? f = some v → fs.Accepts v x → fs.Accepts (.forward f) x

theorem declares_eq_true_iff {fields : List (String × Validator)} {key : String} :
    declares fields key = true ↔ ∃ field ∈ fields, field.1 ≠ reservedKey ∧ field.1 = key := by
  simp [declares, List.any_eq_true]

namespace Forwards

variable {fs : Forwards} {v : Validator} {x : Value}

theorem accepts_leaf {l : Leaf} : fs.Accepts (.leaf l) x ↔ l.accepts x = true :=
  ⟨fun | .leaf h => h, .leaf⟩

theorem accepts_optional : fs.Accepts (.optional v) x ↔ x.isNullish = true ∨ fs.Accepts v x := by
  constructor
  · intro h
    cases h with
    | undefined | absent => exact .inl rfl
    | optional h => exact .inr h
  · rintro (hx | h)
    · cases x with
      | undefined => exact .undefined
      | null => exact .absent
      | _ => cases hx
    · exact .optional h

theorem accepts_nullable : fs.Accepts (.nullable v) x ↔ x.isNull = true ∨ fs.Accepts v x := by
  constructor
  · intro h
    cases h with
    | null => exact .inl rfl
    | nullable h => exact .inr h
  · rintro (hx | h)
    · cases x with
      | null => exact .null
      | _ => cases hx
    · exact .nullable h

theorem accepts_erased : fs.Accepts (.erased v) x ↔ fs.Accepts v x :=
  ⟨fun | .erased h => h, .erased⟩

theorem accepts_wrapped : fs.Accepts (.wrapped v) x ↔ fs.Accepts v x :=
  ⟨fun | .wrapped h => h, .wrapped⟩

theorem accepts_array :
    fs.Accepts (.array v) x ↔ ∃ items, x = .array items ∧ ∀ y ∈ items, fs.Accepts v y := by
  constructor
  · intro h
    cases h with
    | array h => exact ⟨_, rfl, h⟩
  · rintro ⟨items, rfl, h⟩
    exact .array h

theorem accepts_tuple {form : Form} {vs : List Validator} :
    fs.Accepts (.tuple form vs) x ↔ ∃ items, x = .array items ∧ items.length ≤ vs.length ∧
      ∀ i (h : i < vs.length), fs.Accepts vs[i] (items[i]?.getD .undefined) := by
  constructor
  · intro h
    cases h with
    | tuple hl h => exact ⟨_, rfl, hl, h⟩
  · rintro ⟨items, rfl, hl, h⟩
    exact .tuple hl h

theorem accepts_record {k : Validator} :
    fs.Accepts (.record k v) x ↔ ∃ o, x = .object o ∧
      ∀ e ∈ o.properties, e.1 ≠ reservedKey → fs.Accepts k (.string e.1) ∧ fs.Accepts v e.2 := by
  constructor
  · intro h
    cases h with
    | record hkeys hvalues =>
      exact ⟨_, rfl, fun e he hk => ⟨hkeys e he hk, hvalues e he hk⟩⟩
  · rintro ⟨o, rfl, h⟩
    exact .record (fun e he hk => (h e he hk).1) fun e he hk => (h e he hk).2

theorem accepts_object {form : Form} {fields : List (String × Validator)} {exact : Bool} :
    fs.Accepts (.object form fields exact) x ↔ ∃ o, x = .object o ∧
      (∀ field ∈ fields, field.1 ≠ reservedKey →
        fs.Accepts field.2 ((o.get? field.1).getD .undefined)) ∧
      (exact = true → ∀ key ∈ o.keys, declares fields key = true) := by
  simp only [declares_eq_true_iff]
  constructor
  · intro h
    cases h with
    | object hfields hkeys => exact ⟨_, rfl, hfields, hkeys⟩
  · rintro ⟨o, rfl, hfields, hkeys⟩
    exact .object hfields hkeys

theorem accepts_union {form : Form} {vs : List Validator} :
    fs.Accepts (.union form vs) x ↔ ∃ v ∈ vs, fs.Accepts v x := by
  constructor
  · intro h
    cases h with
    | union hm h => exact ⟨_, hm, h⟩
  · rintro ⟨v, hm, h⟩
    exact .union hm h

theorem accepts_intersection {form : Form} {vs : List Validator} :
    fs.Accepts (.intersection form vs) x ↔ ∀ v ∈ vs, fs.Accepts v x :=
  ⟨fun | .intersection h => h, .intersection⟩

theorem accepts_forward {f : Forward} :
    fs.Accepts (.forward f) x ↔ ∃ v, fs.target? f = some v ∧ fs.Accepts v x := by
  constructor
  · intro h
    cases h with
    | forward ht h => exact ⟨_, ht, h⟩
  · rintro ⟨v, ht, h⟩
    exact .forward ht h

/-- A judgement that returns agrees with the meaning of a validator if those that it asks for
do. -/
theorem passes_iff_accepts_of_asks {d : Verdict} (hv : v.IsBuiltin) (hj : fs.judge v x = some d)
    (ih : ∀ w y, fs.Asks v x w y → (fs.Passes w y ↔ fs.Accepts w y)) :
    fs.Passes v x ↔ fs.Accepts v x := by
  cases v with
  | leaf l => rw [passes_leaf, accepts_leaf]
  | extension => exact hv.elim
  | optional v =>
    rw [passes_optional, accepts_optional]
    cases hx : x.isNullish with
    | true => simp
    | false => rw [ih v x (.optional hx)]
  | nullable v =>
    rw [passes_nullable, accepts_nullable]
    cases hx : x.isNull with
    | true => simp
    | false => rw [ih v x (.nullable hx)]
  | erased v => rw [passes_erased, accepts_erased, ih v x .erased]
  | wrapped v => rw [passes_wrapped, accepts_wrapped, ih v x .wrapped]
  | array v =>
    rw [passes_array, accepts_array]
    refine exists_congr fun items => and_congr_right ?_
    rintro rfl
    exact forall₂_congr fun y hy => ih v y (.item hy)
  | tuple form vs =>
    rw [passes_tuple, accepts_tuple]
    refine exists_congr fun items => and_congr_right ?_
    rintro rfl
    refine and_congr_right fun _ => forall₂_congr fun i hi => ?_
    exact ih _ _ (.element (List.getElem?_eq_getElem hi))
  | record k v =>
    rw [passes_record, accepts_record]
    refine exists_congr fun o => and_congr_right ?_
    rintro rfl
    refine forall₃_congr fun e he hk => ?_
    rw [ih k (.string e.1) (.key he hk), ih v e.2 (.entry he hk)]
  | object form fields exact =>
    rw [passes_object, accepts_object]
    refine exists_congr fun o => and_congr_right ?_
    rintro rfl
    refine and_congr_left fun _ => forall₃_congr fun field hf hk => ?_
    exact ih _ _ (.field hf hk)
  | union form vs =>
    -- Members behind the first one that passes are not asked, so their judgements may not return.
    rw [passes_iff_of_judge hj, accepts_union]
    rw [judge_union] at hj
    rcases Verdict.search_map_cases hj with ⟨hd, hall⟩ | ⟨hd, before, v, after, rfl, hb, hv⟩
    · refine iff_of_false (fun hp => ?_) ?_
      · cases hd.symm.trans hp
      · rintro ⟨w, hm, hw⟩
        exact Rejects.not_passes (hall w hm) ((ih w x (.of_mem_union hm hall)).2 hw)
    · exact iff_of_true hd ⟨v, by simp, (ih v x (.alternative rfl hb)).1 hv⟩
  | intersection form vs =>
    rw [passes_iff_of_judge hj, accepts_intersection]
    rw [judge_intersection] at hj
    rcases Verdict.search_map_cases hj with ⟨hd, hall⟩ | ⟨hd, before, v, after, rfl, hb, hv⟩
    · exact iff_of_true hd fun w hm => (ih w x (.of_mem_intersection hm hall)).1 (hall w hm)
    · refine iff_of_false (fun hp => ?_) fun ha => ?_
      · cases hd.symm.trans hp
      · exact Rejects.not_passes hv ((ih v x (.conjunct rfl hb)).2 (ha v (by simp)))
  | forward f =>
    rw [passes_forward, accepts_forward]
    exact exists_congr fun v => and_congr_right fun ht => ih v x (.target ht)

theorem passes_iff_accepts {d : Verdict} (hv : fs.Everywhere Validator.IsBuiltin v)
    (h : fs.judge v x = some d) : fs.Passes v x ↔ fs.Accepts v x := by
  refine judge_induction (P := fun v x _ => fs.Everywhere Validator.IsBuiltin v →
    (fs.Passes v x ↔ fs.Accepts v x)) ?_ h hv
  intro v x d h ih hv
  refine passes_iff_accepts_of_asks hv.here h fun w y hw => ?_
  obtain ⟨e, -, hiff⟩ := ih w y hw
  exact hiff (hv.uses hw.uses)

/-- A check that returns answers whether the input is among the values that are meant. -/
theorem accepts_iff_of_check (hv : fs.Everywhere Validator.IsBuiltin v) {c c' : Option Context}
    {p : Path} {log log' : Log} {b : Bool} (h : fs.check v x c p log = some ((b, c'), log')) :
    b = true ↔ fs.Accepts v x := by
  rw [check_eq fun w hw => (hv w hw).isLocal, Option.map_eq_some_iff] at h
  obtain ⟨d, hd, h⟩ := h
  cases h
  rw [← passes_iff_of_judge hd]
  exact passes_iff_accepts hv hd

end Forwards

/-- A check of guarded validators that are not written by hand returns, and answers whether the
input is among the values that the validator means. -/
theorem check_iff_accepts (fs : Forwards) (v : Validator)
    (hv : fs.Everywhere Validator.IsBuiltin v) (hg : fs.Guarded v) (x : Value)
    (c : Option Context) (p : Path) (log : Log) :
    ∃ b c' log', fs.check v x c p log = some ((b, c'), log') ∧ (b = true ↔ fs.Accepts v x) := by
  obtain ⟨d, hd⟩ := Option.isSome_iff_exists.1 (hg.judge_isSome x)
  have hlocal : fs.Everywhere Validator.IsLocal v := fun w hw => (hv w hw).isLocal
  refine ⟨d.passed, _, _, by rw [Forwards.check_eq hlocal, hd]; rfl, ?_⟩
  rw [← Forwards.passes_iff_of_judge hd]
  exact Forwards.passes_iff_accepts hv hd

/-- Links that have a value each, and the next link unless they are the last. -/
def links : Forwards where
  cells := [some (.object .tuple
    [("value", .leaf .string), ("next", .optional (.forward ⟨0⟩))] true)]

def twoLinks : Value :=
  .object ⟨[("value", .string "a"), ("next", .object ⟨[("value", .string "b")], []⟩)], []⟩

theorem check_links :
    links.Everywhere Validator.IsBuiltin (.forward ⟨0⟩) ∧ links.Guarded (.forward ⟨0⟩) ∧
      links.Accepts (.forward ⟨0⟩) twoLinks := by
  have hv : links.Everywhere Validator.IsBuiltin (.forward ⟨0⟩) := by
    apply Forwards.everywhere_of_throughout <;>
      simp [links, Validator.throughout_iff, Validator.parts, Validator.IsBuiltin]
  have hg : links.Guarded (.forward ⟨0⟩) := by
    apply Forwards.guarded_of_target?
    intro f w u ht hw
    have hcell := Forwards.mem_cells_of_target? ht
    rw [links, List.mem_singleton, Option.some.injEq] at hcell
    subst hcell
    cases hw
  refine ⟨hv, hg, ?_⟩
  obtain ⟨b, c, log, hc, hiff⟩ := check_iff_accepts links _ hv hg twoLinks none .root []
  have hcheck : links.check (.forward ⟨0⟩) twoLinks none .root [] = some ((true, none), []) := rfl
  cases hc.symm.trans hcheck
  exact hiff.1 rfl

end Conform
