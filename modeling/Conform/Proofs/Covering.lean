import Conform.Proofs.Parts
import Conform.Proofs.Unfolding

namespace Conform

def Checking.Approx {α : Type} (c c' : Checking α) : Prop := ∀ r, Conform.Approx (c r) (c' r)

namespace Checking

variable {α : Type} {a b c : Checking α}

theorem Approx.refl (c : Checking α) : c.Approx c := fun _ => .refl _

theorem Approx.trans (h : a.Approx b) (k : b.Approx c) : a.Approx c := fun r => (h r).trans (k r)

theorem approx_congruence : Congruence fun _ c c' => c.Approx c' where
  pure _ := .refl _
  bind hc hk r := (hc r).bind fun s => hk s.1 s.2
  record _ := .refl _
  undefined _ := .refl _
  run _ _ _ := .refl _

theorem Approx.silently {c c' : Checking Bool} (h : c.Approx c') :
    Projecting.Approx (OptionT.lift c.silently) (OptionT.lift c'.silently) := by
  intro log
  rw [silently_run, silently_run]
  exact (h _).map _

end Checking

namespace Forwards

/-- What the first validator does with so much fuel the second one does with so much of its own.
The outputs of projections may differ, and nothing else. -/
structure Covers (fs fs' : Forwards) (n m : Nat) (v w : Validator) : Prop where
  check (x : Value) (p : Path) : (fs.checkWithin n v x p).Approx (fs'.checkWithin m w x p)
  project (x : Value) : (fs.projectWithin n v x).Mirrors (fs'.projectWithin m w x)

variable {fs fs' fs'' : Forwards} {l m n : Nat} {f : Forward} {u v w : Validator}

theorem Covers.trans (h : fs.Covers fs' n m u v) (k : fs'.Covers fs'' m l v w) :
    fs.Covers fs'' n l u w :=
  ⟨fun x p => (h.check x p).trans (k.check x p), fun x => (h.project x).trans (k.project x)⟩

theorem covers_of_eq
    (hcheck : ∀ x p, fs.checkWithin n v x p = fs'.checkWithin m w x p)
    (hproject : ∀ x, fs.projectWithin n v x = fs'.projectWithin m w x) :
    fs.Covers fs' n m v w ∧ fs'.Covers fs m n w v :=
  ⟨⟨fun x p => hcheck x p ▸ .refl _, fun x => hproject x ▸ Projecting.mirrors_refl _⟩,
    ⟨fun x p => hcheck x p ▸ .refl _, fun x => hproject x ▸ Projecting.mirrors_refl _⟩⟩

/-- Covering the parts is covering the whole, whatever the parts are replaced by. -/
theorem Covers.withParts {ws : List Validator}
    (hforward : ∀ f, v = .forward f → fs.Covers fs' n m (.forward f) (.forward f))
    (h : List.Forall₂ (fs.Covers fs' n m) v.parts ws) : fs.Covers fs' n m v (v.withParts ws) where
  check x p := by
    rw [checkWithin_eq, checkWithin_eq]
    refine Validator.checkWith_withParts Checking.approx_congruence (fun f hf x p => ?_)
      (h.imp fun a b hab x p => ?_) x p
    · have := (hforward f hf).check x p
      rwa [checkWithin_eq, checkWithin_eq] at this
    · have := hab.check x p
      rwa [checkWithin_eq, checkWithin_eq] at this
  project x := by
    rw [projectWithin_eq_projectWith, projectWithin_eq_projectWith]
    refine Validator.projectWith_withParts (fun f hf x => ?_) (h.imp fun a b hab x => ⟨?_, ?_⟩) x
    · have := (hforward f hf).project x
      rwa [projectWithin_eq_projectWith, projectWithin_eq_projectWith] at this
    · exact (hab.check x .root).silently
    · have := hab.project x
      rwa [projectWithin_eq_projectWith, projectWithin_eq_projectWith] at this

theorem covers_erased (fs : Forwards) (n : Nat) (v : Validator) :
    fs.Covers fs n n v (.erased v) ∧ fs.Covers fs n n (.erased v) v := by
  refine ⟨⟨fun x p => ?_, fun x => ?_⟩, ⟨fun x p => ?_, fun x => ?_⟩⟩
  · rw [checkWithin_erased]
    exact .refl _
  · rw [projectWithin_erased]
    have h := Projecting.mirrors_refl (fs.projectWithin n v x)
    simpa only [bind_pure] using h.bind fun o _ => Projecting.mirrors_pure o (Output.value x)
  · rw [checkWithin_erased]
    exact .refl _
  · rw [projectWithin_erased]
    have h := Projecting.mirrors_refl (fs.projectWithin n v x)
    simpa only [bind_pure] using h.bind fun _ o => Projecting.mirrors_pure (Output.value x) o

theorem covers_wrapped (fs : Forwards) (n : Nat) (v : Validator) :
    fs.Covers fs n n v (.wrapped v) ∧ fs.Covers fs n n (.wrapped v) v := by
  exact (covers_of_eq (fun x p => fs.checkWithin_wrapped n p v x)
    fun x => fs.projectWithin_wrapped n v x).symm

theorem checkWithin_forward (ht : fs.target? f = some w) (n : Nat) (x : Value) (p : Path) :
    fs.checkWithin (n + 1) (.forward f) x p = fs.checkWithin n w x p := by
  rw [checkWithin_eq, Validator.checkWith, checkTarget, ht, checkDefinition]

theorem checkWithin_zero_forward (ht : fs.target? f = some w) (x : Value) (p : Path)
    (r : Reporter) : fs.checkWithin 0 (.forward f) x p r = none := by
  rw [checkWithin_eq, Validator.checkWith, checkTarget, ht]
  rfl

/-- Entering a definition takes one unit of fuel. -/
theorem covers_forward (ht : fs.target? f = some w) (n : Nat) :
    fs.Covers fs n (n + 1) w (.forward f) ∧ fs.Covers fs (n + 1) n (.forward f) w := by
  have hproject : ∀ x, fs.projectWithin (n + 1) (.forward f) x = fs.projectWithin n w x := by
    intro x
    rw [projectWithin_eq_projectWith, Validator.projectWith, projectTarget, ht, projectDefinition]
  exact (covers_of_eq (checkWithin_forward ht n) hproject).symm

/-- Without fuel a defined reference does not return. -/
theorem covers_zero (ht : fs.target? f = some w) : fs.Covers fs' 0 m (.forward f) v where
  check x p r s hs := by
    rw [checkWithin_zero_forward ht] at hs
    cases hs
  project x log o log' ho := by
    rw [projectWithin_eq_projectWith, Validator.projectWith, projectTarget, ht] at ho
    cases ho

theorem covers_undefined (ht : fs.target? f = none) (ht' : fs'.target? f = none) (n m : Nat) :
    fs.Covers fs' n m (.forward f) (.forward f) := by
  refine (covers_of_eq (fun x p => ?_) fun x => ?_).1
  · rw [checkWithin_eq, checkWithin_eq, Validator.checkWith, Validator.checkWith, checkTarget,
      checkTarget, ht, ht']
  · rw [projectWithin_eq_projectWith, projectWithin_eq_projectWith, Validator.projectWith,
      Validator.projectWith, projectTarget, projectTarget, ht, ht']

theorem covers_self (hforward : ∀ f, fs.Covers fs n m (.forward f) (.forward f)) (v : Validator) :
    fs.Covers fs n m v v := by
  induction v using Validator.parts_induction with
  | step v ih =>
    have := Covers.withParts (fun f _ => hforward f) (List.forall₂_same.2 ih)
    rwa [Validator.withParts_parts] at this

/-- What returns does the same with more fuel. -/
theorem covers_of_le (fs : Forwards) (h : n ≤ m) (v : Validator) : fs.Covers fs n m v v := by
  refine covers_self (fun f => ?_) v
  induction n generalizing m f with
  | zero =>
    cases ht : fs.target? f with
    | none => exact covers_undefined ht ht _ _
    | some w => exact covers_zero ht
  | succ n ih =>
    obtain ⟨m, rfl⟩ := Nat.exists_eq_add_of_lt h
    cases ht : fs.target? f with
    | none => exact covers_undefined ht ht _ _
    | some w =>
      have hdefinition : fs.Covers fs n (n + m) w w :=
        covers_self (fun f => ih (Nat.le_add_right n m) f) w
      exact ((covers_forward ht n).2.trans hdefinition).trans (covers_forward ht _).1

theorem Covers.mono (h : fs.Covers fs' n l v w) (hle : l ≤ m) : fs.Covers fs' n m v w :=
  h.trans (fs'.covers_of_le hle w)

/-- The fuel that a check computes is enough, if validators written by hand do not read the context
or the recursion is guarded. -/
theorem checkWithin_approx_fuelFor (hv : fs.Everywhere Validator.IsLocal v ∨ fs.Guarded v)
    (n : Nat) (x : Value) (p : Path) :
    (fs.checkWithin n v x p).Approx (fs.checkWithin (fs.fuelFor x) v x p) := by
  intro r
  rcases hv with hlocal | hg
  · rw [checkWithin_replays n hlocal x p r, checkWithin_replays (fs.fuelFor x) hlocal x p r]
    exact (fs.judgeWithin_approx_judge n v x).map _
  · have hsuffices := suffices_of_guarded hg (fs.le_fuelFor x)
    rw [← (checkWithin_settles hsuffices (Nat.le_max_right n _) p r).2]
    exact (fs.covers_of_le (Nat.le_max_left n (fs.fuelFor x)) v).check x p r

theorem projectWithin_approx_of_definition (h : n ≤ m)
    (hdefinition : ∀ w y, (fs.projectDefinition n w y).Approx (fs.projectDefinition m w y))
    (v : Validator) (x : Value) : (fs.projectWithin n v x).Approx (fs.projectWithin m v x) := by
  rw [projectWithin_eq_projectWith, projectWithin_eq_projectWith]
  refine Validator.projectWith_related Projecting.approx_congruence Validator.inherited_true
    (fun f y _ => ?_) (fun w y _ => ((fs.covers_of_le h w).check y .root).silently) v x trivial
  exact projectTarget_related Projecting.approx_congruence fun w _ => hdefinition w y

/-- A projection that returns has the same output with more fuel. -/
theorem projectWithin_approx_of_le (fs : Forwards) (h : n ≤ m) (v : Validator) (x : Value) :
    (fs.projectWithin n v x).Approx (fs.projectWithin m v x) := by
  induction n generalizing m v x with
  | zero => exact projectWithin_approx_of_definition h (fun _ _ _ => .none) v x
  | succ n ih =>
    obtain ⟨l, rfl⟩ := Nat.exists_eq_add_of_lt h
    exact projectWithin_approx_of_definition h (ih (Nat.le_add_right n l)) v x

theorem projectWithin_approx_fuelFor (hv : fs.Everywhere Validator.IsLocal v ∨ fs.Guarded v)
    (n : Nat) (x : Value) :
    (fs.projectWithin n v x).Approx (fs.projectWithin (fs.fuelFor x) v x) := by
  rcases hv with hlocal | hg
  · rw [projectWithin_eq n hlocal, projectWithin_eq _ hlocal]
    exact fs.viewWithin_approx_view n v x
  · have hsuffices := suffices_of_guarded hg (fs.le_fuelFor x)
    have heq : fs.projectWithin (max n (fs.fuelFor x)) v x = fs.projectWithin (fs.fuelFor x) v x :=
      funext fun log => (projectWithin_settles hsuffices (Nat.le_max_right n _) log).2
    rw [← heq]
    exact fs.projectWithin_approx_of_le (Nat.le_max_left n (fs.fuelFor x)) v x

end Forwards

end Conform
