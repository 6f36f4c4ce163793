import Conform.Proofs.Termination

namespace Conform

namespace Projecting

variable {α β γ δ : Type} {R : α → β → Prop} {S : γ → δ → Prop}

/-- Two projections that return together and with the same log, either both without an output or
with outputs that are related. -/
def Corresponds (R : α → β → Prop) (c : Projecting α) (d : Projecting β) : Prop :=
  ∀ log, Option.Rel (fun r s => Option.Rel R r.1 s.1 ∧ r.2 = s.2) (c.run log) (d.run log)

theorem corresponds_pure {a : α} {b : β} (h : R a b) :
    Corresponds R (pure a) (pure b) := fun _ => .some ⟨.some h, rfl⟩

theorem corresponds_failure : Corresponds R failure failure := fun _ => .some ⟨.none, rfl⟩

theorem corresponds_refl (c : Projecting α) : Corresponds Eq c c := by
  intro log
  cases c.run log with
  | none => exact .none
  | some r =>
    obtain ⟨_ | a, log⟩ := r
    · exact .some ⟨.none, rfl⟩
    · exact .some ⟨.some rfl, rfl⟩

theorem Corresponds.of_eq {c d : Projecting α} (h : c = d) : Corresponds Eq c d :=
  h ▸ corresponds_refl c

theorem Corresponds.bind {c : Projecting α} {d : Projecting β} {k : α → Projecting γ}
    {l : β → Projecting δ} (h : Corresponds R c d)
    (hk : ∀ a b, R a b → Corresponds S (k a) (l b)) : Corresponds S (c >>= k) (d >>= l) := by
  intro log
  rw [run_bind, run_bind]
  have hlog := h log
  generalize c.run log = o, d.run log = o' at hlog ⊢
  cases hlog with
  | none => exact .none
  | @some r s hrs =>
    obtain ⟨o, after⟩ := r
    obtain ⟨o', after'⟩ := s
    obtain ⟨hout, rfl : after = after'⟩ := hrs
    cases hout with
    | none => exact .some ⟨.none, rfl⟩
    | some hab => exact hk _ _ hab after

theorem Corresponds.map {c : Projecting α} {d : Projecting β} {f : α → γ} {g : β → δ}
    (h : Corresponds R c d) (hfg : ∀ a b, R a b → S (f a) (g b)) :
    Corresponds S (c >>= fun a => pure (f a)) (d >>= fun b => pure (g b)) :=
  h.bind fun a b hab => corresponds_pure (hfg a b hab)

theorem Corresponds.mono {R' : α → β → Prop} {c : Projecting α} {d : Projecting β}
    (h : Corresponds R c d) (hR : ∀ a b, R a b → R' a b) : Corresponds R' c d := by
  have := h.bind fun a b hab => corresponds_pure (hR a b hab)
  rwa [bind_pure, bind_pure] at this

/-- Outputs that are collected correspond one by one, and there is one for each projection. -/
theorem corresponds_mapM {as : List γ} {bs : List δ} {f : γ → Projecting α} {g : δ → Projecting β}
    (h : List.Forall₂ (fun a b => Corresponds R (f a) (g b)) as bs) :
    Corresponds (fun os os' => List.Forall₂ R os os' ∧ os.length = as.length)
      (as.mapM f) (bs.mapM g) := by
  induction h with
  | nil => exact corresponds_pure ⟨.nil, rfl⟩
  | cons h _ ih =>
    rw [List.mapM_cons, List.mapM_cons]
    refine h.bind fun o o' ho => ih.map fun os os' hos => ?_
    exact ⟨.cons ho hos.1, congrArg (· + 1) hos.2⟩

theorem corresponds_mapM_refl (as : List α) (f : α → Projecting β) :
    Corresponds (fun os os' => os = os' ∧ os.length = as.length) (as.mapM f) (as.mapM f) := by
  refine (corresponds_mapM (List.forall₂_same.2 fun a _ => corresponds_refl (f a))).mono ?_
  rintro os os' ⟨heq, hlength⟩
  exact ⟨List.forall₂_eq_eq_eq ▸ heq, hlength⟩

end Projecting

namespace Forwards

variable {fs : Forwards} {v w : Validator} {x y : Value} {R : Output → Output → Prop}

/-- Two checks that cannot be told apart: the answer, the paths and the events are the same at every
place, with every context, log and fuel. -/
structure ChecksAlike (fs : Forwards) (v : Validator) (x : Value) (w : Validator) (y : Value) :
    Prop where
  within (n : Nat) (p : Path) : fs.checkWithin n v x p = fs.checkWithin n w y p
  check (c : Option Context) (p : Path) (log : Log) : fs.check v x c p log = fs.check w y c p log

structure ProjectsAlike (fs : Forwards) (R : Output → Output → Prop) (v : Validator) (x : Value)
    (w : Validator) (y : Value) : Prop where
  within (n : Nat) : Projecting.Corresponds R (fs.projectWithin n v x) (fs.projectWithin n w y)
  project (log : Log) : Option.Rel (fun r s => Option.Rel R r.1 s.1 ∧ r.2 = s.2)
    (fs.project v x log) (fs.project w y log)

/-- Two projections that return together and with the same output, whatever the fuel. What they tell
the log may differ. -/
structure OutputsAlike (fs : Forwards) (v : Validator) (x : Value) (w : Validator) (y : Value) :
    Prop where
  within (n : Nat) (log : Log) : ((fs.projectWithin n v x).run log).map Prod.fst =
    ((fs.projectWithin n w y).run log).map Prod.fst
  project (log : Log) : (fs.project v x log).map Prod.fst = (fs.project w y log).map Prod.fst

theorem fuelFor_congr (fs : Forwards) (h : x.depth = y.depth) : fs.fuelFor x = fs.fuelFor y := by
  rw [fuelFor, fuelFor, h]

theorem checksAlike_of_within (hdepth : x.depth = y.depth)
    (h : ∀ n p, fs.checkWithin n v x p = fs.checkWithin n w y p) : fs.ChecksAlike v x w y := by
  refine ⟨h, fun c p log => ?_⟩
  rw [check, check, fs.fuelFor_congr hdepth, h]

theorem projectsAlike_of_within (hdepth : x.depth = y.depth)
    (h : ∀ n, Projecting.Corresponds R (fs.projectWithin n v x) (fs.projectWithin n w y)) :
    fs.ProjectsAlike R v x w y := by
  refine ⟨h, fun log => ?_⟩
  rw [project, project, fs.fuelFor_congr hdepth]
  exact h _ log

theorem outputsAlike_of_within (hdepth : x.depth = y.depth)
    (h : ∀ n log, ((fs.projectWithin n v x).run log).map Prod.fst =
      ((fs.projectWithin n w y).run log).map Prod.fst) : fs.OutputsAlike v x w y := by
  refine ⟨h, fun log => ?_⟩
  rw [project, project, fs.fuelFor_congr hdepth]
  exact h _ log

end Forwards

end Conform
