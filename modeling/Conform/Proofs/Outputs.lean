import Conform.Proofs.Certification
import Conform.Proofs.Likeness

namespace Conform

open Projecting Forwards

variable {fs : Forwards} {ordered : Prop} {S : Value → Value → Prop}
  {L : List Path → List Path → Prop} {v : Validator} {x y : Value}

theorem succeeds_bind_answer {α : Type} {d : Option Verdict} {k : Bool → Projecting α}
    (hk : ∀ b, (k b).Appends) :
    (OptionT.lift (answer d) >>= k : Projecting α).Succeeds ↔
      ∃ e, d = some e ∧ (k e.passed).Succeeds := by
  simp only [Succeeds, gives_bind hk, gives_answer]
  constructor
  · rintro ⟨a, _, ⟨e, rfl, rfl⟩, ha⟩
    exact ⟨e, rfl, a, ha⟩
  · rintro ⟨e, rfl, a, ha⟩
    exact ⟨a, _, ⟨e, rfl, rfl⟩, ha⟩

namespace Validator

variable {enter : Forward → Value → Projecting Output}
  {judge : Validator → Value → Option Verdict}

theorem appends_projectFirst (happends : ∀ f x, (enter f x).Appends) (form : Form)
    (vs : List Validator) (i : Nat) (x : Value) :
    (projectFirst enter (fun w y => answer (judge w y)) form vs i x).Appends :=
  @projectFirst_related _ enter enter (fun w y => answer (judge w y)) (fun _ _ => failure)
    appends_congruence form vs x (fun _ _ => appends_answer _)
    (fun v _ => appends_viewWith happends v x) i

/-- Of values that are judged alike a union projects the same member. -/
theorem projectFirst_succeeds_iff (happends : ∀ f x, (enter f x).Appends) {form : Form}
    {vs : List Validator} (hjudge : ∀ v ∈ vs, Verdict.Agree L (judge v x) (judge v y))
    (h : ∀ v ∈ vs, (v.projectWith enter (fun w y => answer (judge w y)) x).Succeeds ↔
      (v.projectWith enter (fun w y => answer (judge w y)) y).Succeeds) (i : Nat) :
    (projectFirst enter (fun w y => answer (judge w y)) form vs i x).Succeeds ↔
      (projectFirst enter (fun w y => answer (judge w y)) form vs i y).Succeeds := by
  induction vs generalizing i with
  | nil => exact Iff.rfl
  | cons v rest ih =>
    obtain ⟨hj, hjudge⟩ := List.forall_mem_cons.1 hjudge
    obtain ⟨hv, h⟩ := List.forall_mem_cons.1 h
    have hchoice : ∀ z b, Appends (if b = true then
          v.projectWith enter (fun w y => answer (judge w y)) z >>= fun a => pure (form.choose i a)
        else projectFirst enter (fun w y => answer (judge w y)) form rest (i + 1) z :
          Projecting Output) := by
      intro z b
      cases b with
      | true => exact (appends_viewWith happends v z).bind fun a => appends_pure _
      | false => exact appends_projectFirst happends form rest (i + 1) z
    rw [projectFirst, projectFirst]
    refine (succeeds_bind_answer (hchoice x)).trans
      (Iff.trans ?_ (succeeds_bind_answer (hchoice y)).symm)
    rcases hj.none_or_some with ⟨hx, hy⟩ | ⟨d, e, hx, hy, hd⟩
    · simp [hx, hy]
    · simp only [hx, hy, Option.some.injEq, exists_eq_left', ← hd.passed]
      cases d.passed with
      | true => simpa only [if_pos, succeeds_map] using hv
      | false => simpa only [Bool.false_eq_true, if_false] using ih hjudge h (i + 1)

/-- Values that are alike both have a projection or both have none, if this holds of the references
that are met. -/
theorem projectWith_succeeds_iff (hS : Value.Likeness ordered S)
    (happends : ∀ f x, (enter f x).Appends)
    (henter : ∀ f, fs.Everywhere IsPlain (.forward f) →
      ∀ x y, S x y → ((enter f x).Succeeds ↔ (enter f y).Succeeds))
    (hjudge : ∀ w, fs.Everywhere IsPlain w → ∀ x y, S x y → Verdict.Agree L (judge w x) (judge w y))
    (hv : fs.Everywhere IsPlain v) (h : S x y) :
    (v.projectWith enter (fun w y => answer (judge w y)) x).Succeeds ↔
      (v.projectWith enter (fun w y => answer (judge w y)) y).Succeeds := by
  have hxy := hS.resembles h
  have hview : ∀ w z, (projectWith enter (fun w y => answer (judge w y)) w z).Appends :=
    appends_viewWith happends
  induction v generalizing x y with
  | leaf l =>
    rw [projectWith, projectWith, succeeds_ofOption, succeeds_ofOption, l.isSome_project,
      l.isSome_project, hxy.accepts_eq hv.here]
  | extension e => exact hv.here.elim
  | optional v ih =>
    rw [projectWith, projectWith, hxy.isNullish_eq]
    split
    · exact Iff.rfl
    · simp only [succeeds_map, ih (hv.part (by simp [parts])) h hxy]
  | nullable v ih =>
    rw [projectWith, projectWith, hxy.isNull_eq]
    split
    · exact Iff.rfl
    · simp only [succeeds_map, ih (hv.part (by simp [parts])) h hxy]
  | erased v ih => simp only [projectWith, succeeds_map, ih (hv.part (by simp [parts])) h hxy]
  | wrapped v ih => exact ih (hv.part (by simp [parts])) h hxy
  | array v ih =>
    cases x with
    | array items =>
      obtain ⟨items', rfl, hitems⟩ := hxy.exists_array
      simp only [projectWith, succeeds_map, succeeds_mapM fun y _ => hview v y]
      exact forall_mem_iff_of_forall₂ hitems fun y z hyz =>
        ih (hv.part (by simp [parts])) hyz (hS.resembles hyz)
    | _ => cases hxy <;> exact Iff.rfl
  | tuple form vs ih =>
    cases x with
    | array items =>
      obtain ⟨items', rfl, hitems⟩ := hxy.exists_array
      rw [projectWith, projectWith, projectElements_eq_mapM, projectElements_eq_mapM,
        hitems.length_eq]
      split
      · exact Iff.rfl
      · simp only [succeeds_map, succeeds_mapM (f := fun e : Validator × Value =>
          projectWith enter _ e.1 e.2) fun e _ => hview e.1 e.2]
        have helements : List.Forall₂ (fun a b => a.1 = b.1 ∧ a.1 ∈ vs ∧ S a.2 b.2)
            (vs.mapIdx fun i v => (v, items[i]?.getD .undefined))
            (vs.mapIdx fun i v => (v, items'[i]?.getD .undefined)) :=
          forall₂_mapIdx_mapIdx fun i v hi =>
            ⟨rfl, List.mem_of_getElem? hi, forall₂_getElem? hitems (hS.scalar rfl) i⟩
        refine forall_mem_iff_of_forall₂ helements ?_
        rintro ⟨v, y⟩ ⟨_, z⟩ ⟨rfl, hm, hyz⟩
        exact ih v hm (hv.part hm) hyz (hS.resembles hyz)
    | _ => cases hxy <;> exact Iff.rfl
  | record k v ihk ihv =>
    cases x with
    | object o =>
      obtain ⟨o', rfl, ho⟩ := hxy.exists_object
      obtain ⟨moved, hperm, -, halike⟩ := ho.entries
      have hvalue : ∀ e : String × Value,
          (projectWith enter (fun w y => answer (judge w y)) v e.2 >>= fun a => pure (e.1, a) :
            Projecting (String × Output)).Appends :=
        fun e => (hview v e.2).bind fun a => appends_pure _
      have hentry : ∀ e : String × Value,
          (projectWith enter (fun w y => answer (judge w y)) k (.string e.1) >>= fun _ =>
            projectWith enter (fun w y => answer (judge w y)) v e.2 >>= fun a => pure (e.1, a) :
            Projecting (String × Output)).Appends :=
        fun e => (hview k _).bind fun _ => hvalue e
      simp only [projectWith, succeeds_map, succeeds_mapM fun e _ => hentry e,
        succeeds_seq (hvalue _), hperm.mem_iff]
      refine forall_mem_iff_of_forall₂ halike ?_
      rintro ⟨name, y⟩ ⟨_, z⟩ ⟨rfl, hyz⟩
      exact and_congr_right fun _ => ihv (hv.part (by simp [parts])) hyz (hS.resembles hyz)
    | _ => cases hxy <;> exact Iff.rfl
  | object form fields exact ih =>
    cases x with
    | object o =>
      obtain ⟨o', rfl, ho⟩ := hxy.exists_object
      have hfield : ∀ (o : Object) (field : String × Validator),
          (projectWith enter (fun w y => answer (judge w y)) field.2 (fieldInput o field.1) >>=
            fun a => pure (field.1, a) : Projecting (String × Output)).Appends :=
        fun o field => (hview _ _).bind fun a => appends_pure _
      simp only [projectWith, projectFields_eq_mapM, succeeds_map,
        succeeds_mapM fun field _ => hfield _ field]
      refine forall₂_congr fun field hf => ?_
      have hread : S (fieldInput o field.1) (fieldInput o' field.1) := by
        rw [fieldInput, fieldInput]
        split
        · exact hS.scalar rfl
        · exact ho.field _ ‹_›
      exact ih field hf (hv.part (List.mem_map_of_mem hf)) hread (hS.resembles hread)
    | _ => cases hxy <;> exact Iff.rfl
  | union form vs ih =>
    rw [projectWith, projectWith]
    exact projectFirst_succeeds_iff happends (fun v hm => hjudge v (hv.part hm) x y h)
      (fun v hm => ih v hm (hv.part hm) h hxy) 0
  | intersection form vs ih =>
    simp only [projectWith, projectEach_eq_mapM, succeeds_map, succeeds_mapM fun v _ => hview v _]
    exact forall₂_congr fun v hm => ih v hm (hv.part hm) h hxy
  | forward f => exact henter f hv x y h

end Validator

namespace Forwards

theorem overlooks_true (hv : fs.Everywhere Validator.IsPlain v) :
    fs.Everywhere (Validator.Overlooks ordered fun _ _ => True) v :=
  fun w hw => ⟨hv w hw, fun _ => .inr fun _ _ _ => trivial⟩

theorem projectTarget_succeeds_iff {project : Validator → Value → Projecting Output} {f : Forward}
    (h : ∀ w, fs.target? f = some w → ((project w x).Succeeds ↔ (project w y).Succeeds)) :
    (fs.projectTarget project f x).Succeeds ↔ (fs.projectTarget project f y).Succeeds := by
  cases ht : fs.target? f with
  | none => rw [projectTarget_of_undefined _ x ht, projectTarget_of_undefined _ y ht]
  | some w =>
    rw [projectTarget_of_defined _ x ht, projectTarget_of_defined _ y ht]
    exact h w ht

theorem viewWithin_succeeds_iff (hS : Value.Likeness ordered S) (n : Nat)
    (hv : fs.Everywhere Validator.IsPlain v) (h : S x y) :
    (fs.viewWithin n v x).Succeeds ↔ (fs.viewWithin n v y).Succeeds := by
  have hjudge : ∀ n w, fs.Everywhere Validator.IsPlain w → ∀ x y, S x y →
      Verdict.Agree (fun _ _ => True) (fs.judgeWithin n w x) (fs.judgeWithin n w y) :=
    fun n w hw x y h => judgeWithin_agree Path.comparison_true hS n (overlooks_true hw) h
  refine Validator.projectWith_succeeds_iff hS (fs.appends_enterView n) (fun f hf x y h => ?_)
    (hjudge n) hv h
  induction n generalizing f x y with
  | zero => exact projectTarget_succeeds_iff fun _ _ => Iff.rfl
  | succ n ih =>
    exact projectTarget_succeeds_iff fun w ht =>
      Validator.projectWith_succeeds_iff hS (fs.appends_enterView n) ih (hjudge n) (hf.target ht) h

/-- Values that are alike both have an output or both have none. -/
theorem hasOutput_iff_of_likeness (hS : Value.Likeness ordered S)
    (hv : fs.Everywhere Validator.IsPlain v) (h : S x y) :
    fs.HasOutput v x ↔ fs.HasOutput v y := by
  have hlocal := hv.isLocal_of_isPlain
  rw [hasOutput_iff_projectable hlocal, hasOutput_iff_projectable hlocal]
  change (fs.view v x).Succeeds ↔ (fs.view v y).Succeeds
  rw [← fs.viewWithin_of_le v (le_max_left _ (fs.fuelFor y)),
    ← fs.viewWithin_of_le v (le_max_right (fs.fuelFor x) _)]
  exact viewWithin_succeeds_iff hS _ hv h

end Forwards

end Conform
