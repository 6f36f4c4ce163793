import Conform.Proofs.Congruence
import Conform.Proofs.Equivariance

namespace Conform

namespace Forwards

def answer (d : Option Verdict) : Logged Bool :=
  fun log => d.map fun d => (d.passed, log ++ d.events .root)

theorem appends_answer (d : Option Verdict) : Projecting.Appends (OptionT.lift (answer d)) := by
  intro log
  cases d <;> rfl

theorem answer_approx {d e : Option Verdict} (h : Approx d e) :
    Projecting.Approx (OptionT.lift (answer d)) (OptionT.lift (answer e)) := by
  intro log r hr
  cases d with
  | none => cases hr
  | some d =>
    rw [h d rfl]
    exact hr

/-- The projection of a reference that enters definitions inside definitions at most `fuel`
deep. The members of unions are chosen by judgements. -/
def enterView (fs : Forwards) : (fuel : Nat) → Forward → Value → Projecting Output
  | 0 => fs.projectTarget fun _ _ => OptionT.lift failure
  | fuel + 1 => fs.projectTarget fun v x =>
    v.projectWith (fs.enterView fuel) (fun w y => answer (fs.judgeWithin fuel w y)) x

def viewWithin (fs : Forwards) (fuel : Nat) (v : Validator) (x : Value) : Projecting Output :=
  v.projectWith (fs.enterView fuel) (fun w y => answer (fs.judgeWithin fuel w y)) x

def view (fs : Forwards) (v : Validator) (x : Value) : Projecting Output :=
  fs.viewWithin (fs.fuelFor x) v x

variable {fs : Forwards} {f : Forward} {v : Validator}

theorem projectTarget_of_defined (project : Validator → Value → Projecting Output) (x : Value)
    (h : fs.target? f = some v) : fs.projectTarget project f x = project v x := by
  rw [projectTarget, h]

theorem projectTarget_of_undefined (project : Validator → Value → Projecting Output) (x : Value)
    (h : fs.target? f = none) : fs.projectTarget project f x = failure := by
  rw [projectTarget, h]

theorem projectTarget_related {R : (α : Type) → Projecting α → Projecting α → Prop}
    (hR : Projecting.Congruence R) {project project' : Validator → Value → Projecting Output}
    {x : Value} (h : ∀ v, fs.target? f = some v → R Output (project v x) (project' v x)) :
    R Output (fs.projectTarget project f x) (fs.projectTarget project' f x) := by
  cases ht : fs.target? f with
  | none =>
    rw [projectTarget_of_undefined _ x ht, projectTarget_of_undefined _ x ht]
    exact hR.failure
  | some v =>
    rw [projectTarget_of_defined _ x ht, projectTarget_of_defined _ x ht]
    exact h v ht

theorem projectTarget_closed {P : (α : Type) → Projecting α → Prop}
    (hP : Projecting.Congruence fun α c _ => P α c)
    {project : Validator → Value → Projecting Output} {x : Value}
    (h : ∀ v, P Output (project v x)) : P Output (fs.projectTarget project f x) :=
  @projectTarget_related fs f _ hP project project x fun v _ => h v

theorem appends_viewWith {enter : Forward → Value → Projecting Output}
    {judge : Validator → Value → Option Verdict} (h : ∀ f x, (enter f x).Appends) (v : Validator)
    (x : Value) : (v.projectWith enter (fun w y => answer (judge w y)) x).Appends :=
  Validator.projectWith_closed Projecting.appends_congruence h (fun _ _ => appends_answer _) v x

/-- A projection depends on references and choices only at its own input and at deeper ones. -/
theorem viewWith_approx {enter enter' : Forward → Value → Projecting Output}
    {judge judge' : Validator → Value → Option Verdict} (v : Validator) (x : Value)
    (henter : ∀ f y, y = x ∨ y.depth < x.depth → (enter f y).Approx (enter' f y))
    (hjudge : ∀ w y, y.depth ≤ x.depth → Approx (judge w y) (judge' w y)) :
    (v.projectWith enter (fun w y => answer (judge w y)) x).Approx
      (v.projectWith enter' (fun w y => answer (judge' w y)) x) := by
  refine Validator.projectWith_related Projecting.approx_congruence
    (Q := fun _ y => y = x ∨ y.depth < x.depth) ⟨fun hy _ => hy, ?_⟩
    (fun f y hy => henter f y hy) ?_ v x (.inl rfl)
  · rintro _ _ y z (rfl | hy) - hz
    · exact .inr hz
    · exact .inr (hz.trans hy)
  · rintro w y hy
    apply answer_approx
    apply hjudge
    rcases hy with rfl | hy
    · exact le_rfl
    · exact hy.le

theorem appends_enterView (fs : Forwards) (n : Nat) (f : Forward) (x : Value) :
    (fs.enterView n f x).Appends := by
  induction n generalizing f x with
  | zero => exact projectTarget_closed Projecting.appends_congruence fun _ _ => rfl
  | succ n ih =>
    exact projectTarget_closed Projecting.appends_congruence fun v => appends_viewWith ih v x

theorem appends_view (fs : Forwards) (v : Validator) (x : Value) : (fs.view v x).Appends :=
  appends_viewWith (fs.appends_enterView _) v x

theorem enterView_succ_approx (fs : Forwards) (n : Nat) (f : Forward) (x : Value) :
    (fs.enterView n f x).Approx (fs.enterView (n + 1) f x) := by
  have hjudge : ∀ n w y, Approx (fs.judgeWithin n w y) (fs.judgeWithin (n + 1) w y) :=
    fun n => fs.judgeWithin_mono n.le_succ
  induction n generalizing f x with
  | zero => exact projectTarget_related Projecting.approx_congruence fun _ _ _ => .none
  | succ n ih =>
    exact projectTarget_related Projecting.approx_congruence fun v _ =>
      viewWith_approx v x (fun g y _ => ih g y) fun w y _ => hjudge n w y

theorem enterView_mono (fs : Forwards) {m n : Nat} (h : m ≤ n) (f : Forward) (x : Value) :
    (fs.enterView m f x).Approx (fs.enterView n f x) := by
  induction h with
  | refl => exact .refl _
  | step _ ih => exact ih.trans (fs.enterView_succ_approx _ f x)

/-- The place where a union projects what it has judged needs the fuel of a judgement once more. -/
theorem enterView_fueled (fs : Forwards) : fs.Fueled 1 fun n f x => (fs.enterView n f x).run [] where
  undefined {f x m n} ht := by
    cases m <;> cases n <;> simp only [enterView, projectTarget_of_undefined _ x ht]
  zero {f v x} ht := by
    rw [enterView, projectTarget_of_defined _ x ht]
    rfl
  mono h := fs.enterView_mono h _ _ []
  step {f x m n} hn here below := by
    have henter : ∀ g y, y = x ∨ y.depth < x.depth →
        (fs.enterView m g y).Approx (fs.enterView n g y) := by
      intro g y hy
      apply Projecting.approx_of_appends (fs.appends_enterView m g y) (fs.appends_enterView n g y)
      rcases hy with rfl | hy
      · exact here g
      · exact below g y hy
    have hjudge : ∀ w y, y.depth ≤ x.depth →
        Approx (fs.judgeWithin m w y) (fs.judgeWithin n w y) := by
      intro w y hy
      exact fs.judgeWithin_approx_of_le m w ((Nat.mul_le_mul_left _ (Nat.succ_le_succ hy)).trans hn)
    exact projectTarget_related Projecting.approx_congruence
      (fun v _ => viewWith_approx v x henter hjudge) []

theorem enterView_approx_fuelFor (fs : Forwards) (n : Nat) (f : Forward) {x y : Value}
    (hle : y.depth ≤ x.depth) :
    (fs.enterView n f y).Approx (fs.enterView (fs.fuelFor x) f y) := by
  have henough := Projecting.approx_of_appends (fs.appends_enterView n f y)
    (fs.appends_enterView _ f y) (fs.enterView_fueled.enough n f y)
  exact henough.trans (fs.enterView_mono (Nat.mul_le_mul_left _ (by omega)) f y)

theorem viewWithin_approx_view (fs : Forwards) (n : Nat) (v : Validator) (x : Value) :
    (fs.viewWithin n v x).Approx (fs.view v x) := by
  refine viewWith_approx v x (fun f y hy => fs.enterView_approx_fuelFor n f ?_) fun w y hy => ?_
  · rcases hy with rfl | hy
    · exact le_rfl
    · exact hy.le
  · exact fs.judgeWithin_approx_of_le n w <|
      (Nat.mul_le_mul_left _ (Nat.succ_le_succ hy)).trans (fs.le_fuelFor x)

theorem viewWithin_of_le (fs : Forwards) {n : Nat} (v : Validator) {x : Value}
    (hn : fs.fuelFor x ≤ n) : fs.viewWithin n v x = fs.view v x :=
  Projecting.Approx.antisymm (fs.viewWithin_approx_view n v x) <|
    viewWith_approx v x (fun f y _ => fs.enterView_mono hn f y) fun w y _ =>
      fs.judgeWithin_mono hn w y

theorem enterView_approx_view (fs : Forwards) (n : Nat) (f : Forward) (x : Value) :
    (fs.enterView n f x).Approx (fs.projectTarget fs.view f x) := by
  cases n with
  | zero => exact projectTarget_related Projecting.approx_congruence fun _ _ _ => .none
  | succ n =>
    exact projectTarget_related Projecting.approx_congruence fun v _ =>
      fs.viewWithin_approx_view n v x

/-- The projection without fuel. -/
theorem view_eq (fs : Forwards) (v : Validator) (x : Value) :
    fs.view v x =
      v.projectWith (fs.projectTarget fs.view) (fun w y => answer (fs.judge w y)) x := by
  apply Projecting.Approx.antisymm
  · exact viewWith_approx v x (fun f y _ => fs.enterView_approx_view _ f y)
      fun w y _ => fs.judgeWithin_approx_judge _ w y
  · refine viewWith_approx v x (fun f y hy => ?_) fun w y hy => ?_
    · refine fs.enterView_approx_fuelFor (fs.fuelFor y + 1) f ?_
      rcases hy with rfl | hy
      · exact le_rfl
      · exact hy.le
    · exact fs.judgeWithin_approx_of_le _ w <|
        (Nat.mul_le_mul_left _ (Nat.succ_le_succ hy)).trans (fs.le_fuelFor x)

/-- Where hand-written validators are local, a projection chooses the members of unions by
judgements. -/
theorem projectWithin_eq (n : Nat) (hv : fs.Everywhere Validator.IsLocal v) (x : Value) :
    fs.projectWithin n v x = fs.viewWithin n v x := by
  -- The check by which a union chooses starts at the root without a context.
  have hanswer : ∀ n w y, fs.Everywhere Validator.IsLocal w →
      (fs.checkWithin n w y .root).silently = answer (fs.judgeWithin n w y) := by
    intro n w y hw
    funext log
    change ((fs.checkWithin n w y .root).within none log).bind _ = _
    rw [Checking.within, checkWithin_replays n hw y .root ⟨none, log⟩, answer]
    cases fs.judgeWithin n w y <;> rfl
  have hparts := Everywhere.inherited fs Validator.IsLocal
  induction n generalizing v x with
  | zero =>
    refine Validator.projectWith_related Projecting.eq_congruence hparts (fun f y _ => rfl) ?_
      v x hv
    intro w y hw
    rw [hanswer 0 w y hw]
  | succ n ih =>
    refine Validator.projectWith_related Projecting.eq_congruence hparts (fun f y hf => ?_) ?_
      v x hv
    · exact projectTarget_related Projecting.eq_congruence fun w ht => ih (hf.target ht) y
    · intro w y hw
      rw [hanswer (n + 1) w y hw]

theorem project_eq (hv : fs.Everywhere Validator.IsLocal v) (x : Value) :
    fs.project v x = (fs.view v x).run :=
  congrArg OptionT.run (projectWithin_eq (fs.fuelFor x) hv x)

end Forwards

end Conform
