import Conform.Proofs.Judge

namespace Conform

def Passed (d : Option Verdict) : Prop := ∃ e, d = some e ∧ e.passed = true

theorem passed_some_iff {d : Verdict} : Passed (some d) ↔ d.passed = true := by
  simp [Passed]

theorem passed_iff_of_eq_some {o : Option Verdict} {d : Verdict} (h : o = some d) :
    Passed o ↔ d.passed = true := by
  rw [h, passed_some_iff]

theorem passed_ite_iff {c : Prop} [Decidable c] {o : Option Verdict} :
    Passed (if c then some { passed := true } else o) ↔ c ∨ Passed o := by
  by_cases h : c <;> simp [h, passed_some_iff]

theorem passed_and_iff {o : Option Verdict} {b : Bool} :
    Passed (o.map fun d => d.and { passed := b }) ↔ Passed o ∧ b = true := by
  cases o <;> simp [Passed, Verdict.and]

theorem passed_everyPart_iff {parts : List Verdict.Part} :
    Passed (Verdict.everyPart parts) ↔ ∀ part ∈ parts, Passed part.verdict := by
  induction parts with
  | nil => simp [Verdict.everyPart, passed_some_iff]
  | cons part rest ih =>
    rw [List.forall_mem_cons, ← ih, Verdict.everyPart]
    cases part.verdict with
    | none => simp [Passed]
    | some d =>
      cases Verdict.everyPart rest with
      | none => simp [Passed]
      | some e => simp [passed_some_iff, Verdict.and, Verdict.inside]

theorem passed_search_false_iff {cs : List (Option Verdict)} :
    Passed (Verdict.search false cs) ↔ ∀ c ∈ cs, Passed c := by
  induction cs with
  | nil => simp [Verdict.search, passed_some_iff]
  | cons c rest ih =>
    rw [List.forall_mem_cons, ← ih, Verdict.search]
    cases c with
    | none => simp [Passed]
    | some d =>
      cases hd : d.passed <;> cases Verdict.search false rest <;>
        simp [Passed, Verdict.orElse, hd]

namespace Forwards

def Passes (fs : Forwards) (v : Validator) (x : Value) : Prop := Passed (fs.judge v x)

def Rejects (fs : Forwards) (v : Validator) (x : Value) : Prop :=
  ∃ d, fs.judge v x = some d ∧ d.passed = false

variable {fs : Forwards} {v : Validator} {x : Value}

theorem passes_iff_of_judge {d : Verdict} (h : fs.judge v x = some d) :
    fs.Passes v x ↔ d.passed = true := passed_iff_of_eq_some h

theorem Rejects.not_passes (h : fs.Rejects v x) : ¬fs.Passes v x := by
  rintro ⟨e, he, hp⟩
  obtain ⟨d, hd, hr⟩ := h
  cases hd.symm.trans he
  cases hr.symm.trans hp

theorem passes_leaf {l : Leaf} : fs.Passes (.leaf l) x ↔ l.accepts x = true := by
  rw [Passes, judge_leaf, passed_some_iff]

theorem passes_optional : fs.Passes (.optional v) x ↔ x.isNullish = true ∨ fs.Passes v x := by
  rw [Passes, judge_optional, passed_ite_iff, Passes]

theorem passes_nullable : fs.Passes (.nullable v) x ↔ x.isNull = true ∨ fs.Passes v x := by
  rw [Passes, judge_nullable, passed_ite_iff, Passes]

theorem passes_erased : fs.Passes (.erased v) x ↔ fs.Passes v x := by
  rw [Passes, judge_erased, Passes]

theorem passes_wrapped : fs.Passes (.wrapped v) x ↔ fs.Passes v x := by
  rw [Passes, judge_wrapped, Passes]

theorem passes_array :
    fs.Passes (.array v) x ↔ ∃ items, x = .array items ∧ ∀ y ∈ items, fs.Passes v y := by
  cases x with
  | array items =>
    rw [Passes, judge_array, passed_everyPart_iff]
    simp only [List.mem_mapIdx, Value.array.injEq, exists_eq_left']
    constructor
    · intro h y hy
      obtain ⟨i, hi, rfl⟩ := List.mem_iff_getElem.1 hy
      exact h _ ⟨i, hi, rfl⟩
    · rintro h _ ⟨i, hi, rfl⟩
      exact h _ (List.getElem_mem hi)
  | _ => simp [Passes, judge_eq, Validator.judgeWith, passed_some_iff]

theorem passes_tuple {form : Form} {vs : List Validator} :
    fs.Passes (.tuple form vs) x ↔ ∃ items, x = .array items ∧ items.length ≤ vs.length ∧
      ∀ i (h : i < vs.length), fs.Passes vs[i] (items[i]?.getD .undefined) := by
  cases x with
  | array items =>
    rw [Passes, judge_tuple, passed_everyPart_iff, List.forall_mem_map]
    simp only [List.mem_range, lt_max_iff, Value.array.injEq, exists_eq_left']
    constructor
    · intro h
      refine ⟨?_, fun i hi => ?_⟩
      · by_contra hl
        have := h vs.length (.inr (by omega))
        simp [Validator.elementVerdict, passed_some_iff] at this
      · have := h i (.inl hi)
        rwa [Validator.elementVerdict, List.getElem?_eq_getElem hi] at this
    · rintro ⟨hl, h⟩ i hi
      have hi : i < vs.length := by omega
      rw [Validator.elementVerdict, List.getElem?_eq_getElem hi]
      exact h i hi
  | _ => simp [Passes, judge_eq, Validator.judgeWith, passed_some_iff]

theorem passes_record {k : Validator} :
    fs.Passes (.record k v) x ↔ ∃ o, x = .object o ∧
      ∀ e ∈ o.properties, e.1 ≠ reservedKey → fs.Passes k (.string e.1) ∧ fs.Passes v e.2 := by
  cases x with
  | object o =>
    rw [Passes, judge_record, passed_everyPart_iff]
    simp only [List.forall_mem_flatMap, mem_unreserved, List.forall_mem_cons, List.not_mem_nil,
      false_implies, implies_true, and_true, and_imp, Value.object.injEq, exists_eq_left']
    rfl
  | _ => simp [Passes, judge_eq, Validator.judgeWith, passed_some_iff]

theorem passes_object {form : Form} {fields : List (String × Validator)} {exact : Bool} :
    fs.Passes (.object form fields exact) x ↔ ∃ o, x = .object o ∧
      (∀ field ∈ fields, field.1 ≠ reservedKey →
        fs.Passes field.2 ((o.get? field.1).getD .undefined)) ∧
      (exact = true → ∀ key ∈ o.keys, declares fields key = true) := by
  cases x with
  | object o =>
    rw [Passes, judge_object, passed_and_iff, passed_everyPart_iff, List.forall_mem_map]
    cases exact <;> simp [Passes]
  | _ => simp [Passes, judge_eq, Validator.judgeWith, passed_some_iff]

theorem passes_intersection {form : Form} {vs : List Validator} :
    fs.Passes (.intersection form vs) x ↔ ∀ v ∈ vs, fs.Passes v x := by
  rw [Passes, judge_intersection, passed_search_false_iff, List.forall_mem_map]
  rfl

theorem passes_forward {f : Forward} :
    fs.Passes (.forward f) x ↔ ∃ v, fs.target? f = some v ∧ fs.Passes v x := by
  cases ht : fs.target? f with
  | none => simp [Passes, judge_forward_of_undefined x ht, passed_some_iff]
  | some v => simp [Passes, judge_forward_of_defined x ht]

end Forwards

end Conform
