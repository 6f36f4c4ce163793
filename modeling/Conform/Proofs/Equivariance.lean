import Conform.Proofs.Lists
import Conform.Proofs.Replay

namespace Conform

open Checking

namespace Validator

variable {enter : Forward → Value → Path → Checking Bool}
  {enterVerdict : Forward → Value → Option Verdict}

theorem elementParts_replays {vs : List Validator}
    (ih : ∀ v ∈ vs, ∀ x p, (v.checkWith enter x p).Replays p (v.judgeWith enterVerdict x))
    (items : List Value) (p : Path) (i : Nat) :
    List.Forall₂
      (fun a b => a.path = p.push b.segment ∧ a.check.Replays (p.push b.segment) b.verdict)
      (elementParts enter vs items p i) (elementVerdicts enterVerdict vs items i) := by
  induction vs generalizing items i with
  | nil => exact forall₂_mapIdx_mapIdx fun j y _ => ⟨rfl, replays_pure false _⟩
  | cons v rest hrest =>
    obtain ⟨hv, hvs⟩ := List.forall_mem_cons.1 ih
    exact .cons ⟨rfl, hv _ _⟩ (hrest hvs items.tail (i + 1))

/-- A check gives the same verdict at every place and to every reporter, if the references it
meets do. -/
theorem checkWith_replays (fs : Forwards)
    (henter : ∀ f, fs.Everywhere IsLocal (.forward f) →
      ∀ x p, (enter f x p).Replays p (enterVerdict f x))
    (v : Validator) (hv : fs.Everywhere IsLocal v) (x : Value) (p : Path) :
    (v.checkWith enter x p).Replays p (v.judgeWith enterVerdict x) := by
  induction v generalizing x p with
  | leaf l => exact replays_pure _ p
  | extension e =>
    have he : e.IsLocal := hv.here
    intro r
    have hc : e.update x p = (·.extend p (e.verdict x)) := funext (he.update_eq x p)
    simp [checkWith, judgeWith, Extension.run, Reporter.extend, Verdict.events, he.check x p, hc,
      Extension.verdict]
  | optional v ih =>
    rw [checkWith, judgeWith]
    split
    · exact replays_pure true p
    · exact ih (hv.part (by simp [parts])) x p
  | nullable v ih =>
    rw [checkWith, judgeWith]
    split
    · exact replays_pure true p
    · exact ih (hv.part (by simp [parts])) x p
  | erased v ih | wrapped v ih => exact ih (hv.part (by simp [parts])) x p
  | array v ih =>
    have hv' := hv.part (w := v) (by simp [parts])
    cases x with
    | array items =>
      apply everyPart_replays
      exact forall₂_mapIdx_mapIdx fun i y _ => ⟨rfl, ih hv' y _⟩
    | _ => exact replays_pure false p
  | tuple form vs ih =>
    cases x with
    | array items =>
      apply everyPart_replays
      exact elementParts_replays (fun v hm => ih v hm (hv.part hm)) items p 0
    | _ => exact replays_pure false p
  | record k v ihk ihv =>
    have hk' := hv.part (w := k) (by simp [parts])
    have hv' := hv.part (w := v) (by simp [parts])
    cases x with
    | object o =>
      apply everyPart_replays
      exact forall₂_flatMap_flatMap fun e _ =>
        .cons ⟨rfl, ihk hk' _ _⟩ (.cons ⟨rfl, ihv hv' _ _⟩ .nil)
    | _ => exact replays_pure false p
  | object form fields exact ih =>
    cases x with
    | object o =>
      have hparts : (everyPart (fieldParts enter fields o p)).Replays p
          (Verdict.everyPart (fieldVerdicts enterVerdict fields o)) := by
        rw [fieldParts_eq_map, fieldVerdicts_eq_map]
        apply everyPart_replays
        apply forall₂_map_map
        intro field hf
        have hm := (mem_unreserved.1 hf).1
        exact ⟨rfl, ih field hm (hv.part (List.mem_map_of_mem hm)) _ _⟩
      intro r
      rw [checkWith, bind_apply, hparts r, judgeWith]
      cases Verdict.everyPart (fieldVerdicts enterVerdict fields o) with
      | none => rfl
      | some d =>
        cases hd : d.passed <;>
          simp [hd, pure_apply, Verdict.and, Reporter.extend, Context.extend, Verdict.events]
    | _ => exact replays_pure false p
  | union form vs ih =>
    rw [checkWith, judgeWith, memberChecks_eq_map, memberVerdicts_eq_map]
    apply anyOf_replays
    exact forall₂_map_map fun v hm => ih v hm (hv.part hm) x p
  | intersection form vs ih =>
    rw [checkWith, judgeWith, memberChecks_eq_map, memberVerdicts_eq_map]
    apply allOf_replays
    exact forall₂_map_map fun v hm => ih v hm (hv.part hm) x p
  | forward f => exact henter f hv x p

end Validator

namespace Forwards

variable {fs : Forwards} {v : Validator}

theorem checkTarget_replays {check : Validator → Value → Path → Checking Bool}
    {judge : Validator → Value → Option Verdict} {f : Forward} {x : Value} {p : Path}
    (h : ∀ w, fs.target? f = some w → (check w x p).Replays p (judge w x)) :
    (fs.checkTarget check f x p).Replays p (fs.judgeTarget judge f x) := by
  cases ht : fs.target? f with
  | none =>
    intro r
    cases hc : r.context <;>
      simp [checkTarget, judgeTarget, ht, bind_apply, report_apply, pure_apply, Reporter.extend,
        Context.extend, Verdict.events, hc]
  | some w =>
    rw [checkTarget, judgeTarget, ht]
    exact h w ht

theorem checkWithin_replays (n : Nat) (hv : fs.Everywhere Validator.IsLocal v) (x : Value)
    (p : Path) : (fs.checkWithin n v x p).Replays p (fs.judgeWithin n v x) := by
  induction n generalizing v x p with
  | zero =>
    refine v.checkWith_replays fs (fun f _ y q => ?_) hv x p
    exact checkTarget_replays fun _ _ _ => rfl
  | succ n ih =>
    refine v.checkWith_replays fs (fun f hf y q => ?_) hv x p
    exact checkTarget_replays fun w ht => ih (hf.target ht) y q

theorem check_eq (hv : fs.Everywhere Validator.IsLocal v) (x : Value) (c : Option Context)
    (p : Path) (log : Log) :
    fs.check v x c p log =
      (fs.judge v x).map fun d => ((d.passed, c.map (·.extend p d)), log ++ d.events p) := by
  rw [check, Checking.within, checkWithin_replays (fs.fuelFor x) hv x p ⟨c, log⟩, Option.map_map]
  rfl

theorem isValid_eq (hv : fs.Everywhere Validator.IsLocal v) (x : Value) (log : Log) :
    fs.isValid v x log = (fs.judge v x).map fun d => (d.passed, log ++ d.events .root) := by
  have h : fs.isValid v x log = (fs.check v x none .root log).bind fun r => some (r.1.1, r.2) := rfl
  rw [h, check_eq hv]
  cases fs.judge v x <;> rfl

theorem validate_eq (hv : fs.Everywhere Validator.IsLocal v) (x : Value) (c : Context)
    (log : Log) :
    fs.validate v x c log =
      (fs.judge v x).map fun d => ((d.passed, c.extend .root d), log ++ d.events .root) := by
  have h : fs.validate v x c log = (fs.check v x (some c) .root log).bind fun r =>
    some ((r.1.1, r.1.2.getD c), r.2) := rfl
  rw [h, check_eq hv]
  cases fs.judge v x <;> rfl

end Forwards

/-- What a check does: its answer, the paths that it appends to a context, and the events that it
appends to the log. -/
structure Effect where
  passed : Bool
  recorded : List Path := []
  events : Log := []

def Verdict.effect (d : Verdict) (p : Path) : Effect where
  passed := d.passed
  recorded := d.failures.map (p ++ ·.path)
  events := d.events p

theorem Verdict.recorded_effect (d : Verdict) (p : Path) :
    (d.effect p).recorded = (d.failures.map Failure.path).map (p ++ ·) := by
  rw [List.map_map]
  rfl

namespace Forwards

/-- A check at a place has this effect, whatever the context and the log hold before it. -/
def Performs (fs : Forwards) (v : Validator) (x : Value) (p : Path) (e : Effect) : Prop :=
  ∀ c log, fs.check v x c p log =
    some ((e.passed, c.map fun c => { errors := c.errors ++ e.recorded }), log ++ e.events)

/-- The answer of a validator that is asked alone, without a context, unless its check does not
return. -/
def askedAlone (fs : Forwards) (v : Validator) (x : Value) : Option Bool :=
  (fs.isValid v x []).map Prod.fst

variable {fs : Forwards} {v : Validator} {x : Value} {p : Path} {d : Verdict}

theorem performs_of_judge (hv : fs.Everywhere Validator.IsLocal v) (h : fs.judge v x = some d)
    (p : Path) : fs.Performs v x p (d.effect p) := by
  intro c log
  rw [check_eq hv, h]
  rfl

/-- A check that starts from an empty context and an empty log shows the whole effect. -/
theorem Performs.unique {e e' : Effect} (h : fs.Performs v x p e) (h' : fs.Performs v x p e') :
    e = e' := by
  have heq := (h (some .empty) []).symm.trans (h' (some .empty) [])
  cases e
  cases e'
  simpa [Context.empty, and_assoc] using heq

theorem askedAlone_eq (hv : fs.Everywhere Validator.IsLocal v) (x : Value) :
    fs.askedAlone v x = (fs.judge v x).map Verdict.passed := by
  rw [askedAlone, isValid_eq hv, Option.map_map]
  rfl

theorem askedAlone_eq_some_iff (hv : fs.Everywhere Validator.IsLocal v) {b : Bool} :
    fs.askedAlone v x = some b ↔ ∃ d, fs.judge v x = some d ∧ d.passed = b := by
  rw [askedAlone_eq hv, Option.map_eq_some_iff]

end Forwards

end Conform
