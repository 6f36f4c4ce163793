import Conform.Proofs.Passing
import Conform.Proofs.View

namespace Conform

namespace Projecting

variable {α β : Type} {c : Projecting α}

def Gives (c : Projecting α) (a : α) : Prop := ∃ events, c.run [] = some (some a, events)

theorem gives_pure {a b : α} : (pure a : Projecting α).Gives b ↔ a = b := by
  simp [Gives, run_pure]

theorem not_gives_failure {a : α} : ¬(failure : Projecting α).Gives a := by
  simp [Gives, run_failure]

theorem gives_ofOption {o : Option α} {a : α} :
    Gives (OptionT.mk (return o)) a ↔ o = some a := by
  cases o with
  | none => exact iff_of_false not_gives_failure (by simp)
  | some b => exact gives_pure.trans (by simp)

theorem Appends.run_of_gives (hc : c.Appends) {a : α} (h : c.Gives a) (log : Log) :
    ∃ events, c.run log = some (some a, log ++ events) := by
  obtain ⟨events, h⟩ := h
  exact ⟨events, by rw [hc log, h]; rfl⟩

theorem Appends.gives_of_run (hc : c.Appends) {a : α} {log log' : Log}
    (h : c.run log = some (some a, log')) : c.Gives a := by
  rw [hc log, Option.map_eq_some_iff] at h
  obtain ⟨⟨o, events⟩, h, he⟩ := h
  cases he
  exact ⟨events, h⟩

theorem gives_bind {k : α → Projecting β} (hk : ∀ a, (k a).Appends) {b : β} :
    (c >>= k).Gives b ↔ ∃ a, c.Gives a ∧ (k a).Gives b := by
  constructor
  · rintro ⟨events, h⟩
    rw [run_bind, Option.bind_eq_some_iff] at h
    obtain ⟨⟨_ | a, log⟩, hc, h⟩ := h
    · cases h
    · exact ⟨a, ⟨log, hc⟩, (hk a).gives_of_run h⟩
  · rintro ⟨a, ⟨log, hc⟩, hk'⟩
    obtain ⟨es, h⟩ := (hk a).run_of_gives hk' log
    exact ⟨log ++ es, by rw [run_bind, hc]; exact h⟩

theorem gives_map {f : α → β} {b : β} :
    (c >>= fun a => pure (f a)).Gives b ↔ ∃ a, c.Gives a ∧ f a = b := by
  simp only [gives_bind fun a => appends_pure (f a), gives_pure]

theorem appends_mapM {l : List α} {f : α → Projecting β} (hf : ∀ a ∈ l, (f a).Appends) :
    (l.mapM f).Appends := appends_congruence.mapM (g := fun _ => failure) hf

theorem gives_mapM {l : List α} {f : α → Projecting β} (hf : ∀ a ∈ l, (f a).Appends)
    {bs : List β} : (l.mapM f).Gives bs ↔ List.Forall₂ (fun a b => (f a).Gives b) l bs := by
  induction l generalizing bs with
  | nil => simp [gives_pure, eq_comm]
  | cons a rest ih =>
    obtain ⟨-, hrest⟩ := List.forall_mem_cons.1 hf
    have htail : ∀ b, (rest.mapM f >>= fun bs => pure (b :: bs)).Appends := fun b =>
      (appends_mapM hrest).bind fun bs => appends_pure _
    rw [List.mapM_cons, gives_bind htail, List.forall₂_cons_left_iff]
    simp only [gives_map, ih hrest]
    constructor
    · rintro ⟨b, hb, bs, hbs, rfl⟩
      exact ⟨b, bs, hb, hbs, rfl⟩
    · rintro ⟨b, bs, hb, hbs, rfl⟩
      exact ⟨b, hb, bs, hbs, rfl⟩

def Succeeds (c : Projecting α) : Prop := ∃ a, c.Gives a

theorem succeeds_ofOption {o : Option α} : Succeeds (OptionT.mk (return o)) ↔ o.isSome := by
  simp only [Succeeds, gives_ofOption, Option.isSome_iff_exists]

theorem succeeds_map {f : α → β} : (c >>= fun a => pure (f a)).Succeeds ↔ c.Succeeds := by
  simp only [Succeeds, gives_map, exists_comm (α := β), exists_and_left, exists_eq', and_true]

theorem succeeds_seq {d : Projecting β} (hd : d.Appends) :
    (c >>= fun _ => d).Succeeds ↔ c.Succeeds ∧ d.Succeeds := by
  simp only [Succeeds, gives_bind fun _ => hd, exists_and_left, exists_and_right]

theorem succeeds_mapM {l : List α} {f : α → Projecting β} (hf : ∀ a ∈ l, (f a).Appends) :
    (l.mapM f).Succeeds ↔ ∀ a ∈ l, (f a).Succeeds := by
  simp only [Succeeds, gives_mapM hf, exists_forall₂_iff]

end Projecting

namespace Forwards

open Projecting

theorem gives_answer {d : Option Verdict} {b : Bool} :
    Gives (OptionT.lift (answer d)) b ↔ ∃ e, d = some e ∧ e.passed = b := by
  cases d with
  | none => simpa using fun ⟨_, h⟩ => nomatch h
  | some e =>
    constructor
    · rintro ⟨_, h⟩
      cases h
      exact ⟨e, rfl, rfl⟩
    · rintro ⟨_, h, rfl⟩
      cases h
      exact ⟨_, rfl⟩

def Projects (fs : Forwards) (v : Validator) (x : Value) (o : Output) : Prop := (fs.view v x).Gives o

variable {fs : Forwards} {v : Validator} {x : Value} {o : Output}

theorem projectWith_view (fs : Forwards) :
    Validator.projectWith (fs.projectTarget fs.view) (fun w y => answer (fs.judge w y)) = fs.view :=
  funext₂ fun v x => (fs.view_eq v x).symm

theorem projects_leaf {l : Leaf} : fs.Projects (.leaf l) x o ↔ l.project x = some o := by
  rw [Projects, view_eq]
  exact gives_ofOption

theorem projects_optional : fs.Projects (.optional v) x o ↔
    if x.isNullish then o = .absent else ∃ a, fs.Projects v x a ∧ o = .present a := by
  rw [Projects, view_eq, Validator.projectWith, projectWith_view]
  split
  · exact gives_pure.trans eq_comm
  · simp only [gives_map, eq_comm, Projects]

theorem projects_nullable : fs.Projects (.nullable v) x o ↔
    if x.isNull then o = .absent else ∃ a, fs.Projects v x a ∧ o = .present a := by
  rw [Projects, view_eq, Validator.projectWith, projectWith_view]
  split
  · exact gives_pure.trans eq_comm
  · simp only [gives_map, eq_comm, Projects]

theorem projects_erased :
    fs.Projects (.erased v) x o ↔ (∃ a, fs.Projects v x a) ∧ o = .value x := by
  rw [Projects, view_eq, Validator.projectWith, projectWith_view, gives_map]
  simp only [exists_and_right, eq_comm, Projects]

theorem projects_wrapped : fs.Projects (.wrapped v) x o ↔ fs.Projects v x o := by
  rw [Projects, view_eq, Validator.projectWith, projectWith_view, Projects]

theorem projects_array : fs.Projects (.array v) x o ↔ ∃ items os, x = .array items ∧
    List.Forall₂ (fs.Projects v) items os ∧ o = .list os := by
  cases x with
  | array items =>
    rw [Projects, view_eq, Validator.projectWith, projectWith_view, gives_map]
    simp only [gives_mapM fun y _ => fs.appends_view v y, Value.array.injEq, exists_and_left,
      exists_eq_left', eq_comm]
    rfl
  | _ =>
    refine iff_of_false ?_ (by simp)
    rw [Projects, view_eq]
    exact not_gives_failure

theorem projects_tuple {form : Form} {vs : List Validator} :
    fs.Projects (.tuple form vs) x o ↔ ∃ items os, x = .array items ∧ items.length ≤ vs.length ∧
      List.Forall₂ (fun e a => fs.Projects e.1 e.2 a)
        (vs.mapIdx fun i v => (v, items[i]?.getD .undefined)) os ∧ o = form.gather os := by
  cases x with
  | array items =>
    rw [Projects, view_eq, Validator.projectWith, Validator.projectElements_eq_mapM,
      projectWith_view]
    simp only [Value.array.injEq, exists_and_left, exists_eq_left']
    by_cases hl : vs.length < items.length
    · rw [if_pos hl]
      refine iff_of_false (fun h => ?_) fun h => Nat.not_le_of_lt hl h.1
      obtain ⟨events, h⟩ := h
      cases h
    · rw [if_neg hl, gives_map, and_iff_right (Nat.not_lt.1 hl)]
      simp only [gives_mapM (f := fun e : Validator × Value => fs.view e.1 e.2)
        fun e _ => fs.appends_view e.1 e.2, eq_comm]
      rfl
  | _ =>
    refine iff_of_false ?_ (by simp)
    rw [Projects, view_eq]
    exact not_gives_failure

theorem projects_record {k : Validator} :
    fs.Projects (.record k v) x o ↔ ∃ object entries, x = .object object ∧
      List.Forall₂ (fun e out =>
          (∃ a, fs.Projects k (.string e.1) a) ∧ ∃ a, fs.Projects v e.2 a ∧ out = (e.1, a))
        (object.properties.filter (·.1 != reservedKey)) entries ∧
      o = .map (Entries.ofList entries) := by
  cases x with
  | object object =>
    have hvalue : ∀ e : String × Value,
        (fs.view v e.2 >>= fun a => pure (e.1, a) : Projecting (String × Output)).Appends :=
      fun e => (fs.appends_view v e.2).bind fun a => appends_pure _
    have hentry : ∀ e : String × Value, Appends (fs.view k (.string e.1) >>= fun _ =>
        fs.view v e.2 >>= fun a => pure (e.1, a) : Projecting (String × Output)) :=
      fun e => (fs.appends_view k _).bind fun _ => hvalue e
    rw [Projects, view_eq, Validator.projectWith, projectWith_view, gives_map]
    simp only [gives_mapM fun e _ => hentry e, gives_bind fun _ => hvalue _, gives_map,
      exists_and_right, Value.object.injEq, exists_and_left, exists_eq_left', eq_comm]
    rfl
  | _ =>
    refine iff_of_false ?_ (by simp)
    rw [Projects, view_eq]
    exact not_gives_failure

theorem projects_object {form : Form} {fields : List (String × Validator)} {exact : Bool} :
    fs.Projects (.object form fields exact) x o ↔ ∃ object outs, x = .object object ∧
      List.Forall₂ (fun field out =>
          ∃ a, fs.Projects field.2 (Validator.fieldInput object field.1) a ∧ out = (field.1, a))
        fields outs ∧
      o = form.gatherFields outs := by
  cases x with
  | object object =>
    rw [Projects, view_eq, Validator.projectWith, Validator.projectFields_eq_mapM,
      projectWith_view, gives_map]
    have hfield : ∀ field : String × Validator,
        Appends (fs.view field.2 (Validator.fieldInput object field.1) >>= fun out =>
          pure (field.1, out) : Projecting (String × Output)) :=
      fun field => (fs.appends_view _ _).bind fun _ => appends_pure _
    simp only [gives_mapM fun field _ => hfield field, gives_map, Value.object.injEq,
      exists_and_left, exists_eq_left', eq_comm]
    rfl
  | _ =>
    refine iff_of_false ?_ (by simp)
    rw [Projects, view_eq]
    exact not_gives_failure

theorem projects_intersection {form : Form} {vs : List Validator} :
    fs.Projects (.intersection form vs) x o ↔
      ∃ os, List.Forall₂ (fun v a => fs.Projects v x a) vs os ∧ o = form.gather os := by
  rw [Projects, view_eq, Validator.projectWith, Validator.projectEach_eq_mapM, projectWith_view,
    gives_map]
  simp only [gives_mapM fun v _ => fs.appends_view v x, eq_comm]
  rfl

theorem projects_forward {f : Forward} :
    fs.Projects (.forward f) x o ↔ ∃ v, fs.target? f = some v ∧ fs.Projects v x o := by
  rw [Projects, view_eq, Validator.projectWith]
  cases ht : fs.target? f with
  | none =>
    rw [projectTarget_of_undefined _ x ht]
    exact iff_of_false not_gives_failure (by simp)
  | some v =>
    rw [projectTarget_of_defined _ x ht]
    simp [Projects]

theorem appends_projectFirst (fs : Forwards) (form : Form) (vs : List Validator) (x : Value)
    (i : Nat) : (Validator.projectFirst (fs.projectTarget fs.view)
      (fun w y => answer (fs.judge w y)) form vs i x).Appends := by
  refine @Validator.projectFirst_related _ _ (fs.projectTarget fs.view) _
    (fun w y => answer (fs.judge w y)) appends_congruence form vs x (fun _ _ => appends_answer _)
    (fun v _ => ?_) i
  rw [projectWith_view]
  exact fs.appends_view v x

/-- What a union does on the answer of a member: it projects the member or goes on. -/
theorem appends_choice (fs : Forwards) (form : Form) (v : Validator) (rest : List Validator)
    (x : Value) (i : Nat) (b : Bool) : Appends (if b = true then
        fs.view v x >>= fun a => pure (form.choose i a)
      else Validator.projectFirst (fs.projectTarget fs.view)
        (fun w y => answer (fs.judge w y)) form rest (i + 1) x : Projecting Output) := by
  cases b with
  | true => exact (fs.appends_view v x).bind fun a => appends_pure _
  | false => exact fs.appends_projectFirst form rest x (i + 1)

/-- The first member that accepts is projected, and numbered from where the members start. -/
theorem gives_projectFirst {form : Form} {vs : List Validator} {i : Nat} :
    Gives (Validator.projectFirst (fs.projectTarget fs.view)
      (fun w y => answer (fs.judge w y)) form vs i x) o ↔
      ∃ before v after a, vs = before ++ v :: after ∧ (∀ u ∈ before, fs.Rejects u x) ∧
        fs.Passes v x ∧ fs.Projects v x a ∧ o = form.choose (i + before.length) a := by
  induction vs generalizing i with
  | nil => exact iff_of_false not_gives_failure (by simp)
  | cons v rest ih =>
    have hlength : ∀ before : List Validator,
        i + (v :: before).length = i + 1 + before.length := by
      intro before
      rw [List.length_cons]
      omega
    rw [Validator.projectFirst, projectWith_view, gives_bind (fs.appends_choice form v rest x i)]
    constructor
    · rintro ⟨b, hb, h⟩
      obtain ⟨d, hd, rfl⟩ := gives_answer.1 hb
      cases hp : d.passed with
      | true =>
        rw [hp, if_pos rfl, gives_map] at h
        obtain ⟨a, ha, rfl⟩ := h
        exact ⟨[], v, rest, a, rfl, by simp, ⟨d, hd, hp⟩, ha, rfl⟩
      | false =>
        rw [hp, if_neg Bool.false_ne_true] at h
        obtain ⟨before, w, after, a, rfl, hb, hw, ha, rfl⟩ := ih.1 h
        have hfirst := List.forall_mem_cons.2 ⟨⟨d, hd, hp⟩, hb⟩
        exact ⟨v :: before, w, after, a, rfl, hfirst, hw, ha, by rw [hlength before]⟩
    · rintro ⟨before, w, after, a, hvs, hb, hw, ha, rfl⟩
      cases before with
      | nil =>
        cases hvs
        exact ⟨true, gives_answer.2 hw, gives_map.2 ⟨a, ha, rfl⟩⟩
      | cons u before =>
        cases hvs
        obtain ⟨hu, hb⟩ := List.forall_mem_cons.1 hb
        refine ⟨false, gives_answer.2 hu, ih.2 ⟨before, w, after, a, rfl, hb, hw, ha, ?_⟩⟩
        rw [hlength before]

theorem projects_union {form : Form} {vs : List Validator} :
    fs.Projects (.union form vs) x o ↔ ∃ before v after a, vs = before ++ v :: after ∧
      (∀ u ∈ before, fs.Rejects u x) ∧ fs.Passes v x ∧ fs.Projects v x a ∧
      o = form.choose before.length a := by
  rw [Projects, view_eq, Validator.projectWith, gives_projectFirst]
  simp only [Nat.zero_add]

end Forwards

end Conform
