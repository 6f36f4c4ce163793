import Conform.Proofs.Covering

namespace Conform

namespace Forwards

/-- The same tree with wrappers around any of its parts, also one around the other: erasures,
pointers, and references that are defined as what they wrap. -/
inductive Wraps (fs : Forwards) : Validator → Validator → Prop
  | parts {v : Validator} {ws : List Validator} : v.parts.length = ws.length →
    (∀ a b, (a, b) ∈ v.parts.zip ws → Wraps fs a b) → Wraps fs v (v.withParts ws)
  | erased {v w} : Wraps fs v w → Wraps fs v (.erased w)
  | wrapped {v w} : Wraps fs v w → Wraps fs v (.wrapped w)
  | forward {v w g} : fs.target? g = some w → Wraps fs v w → Wraps fs v (.forward g)

def Rewraps (fs fs' : Forwards) : Validator → Prop
  | .forward f => Option.Rel fs'.Wraps (fs.target? f) (fs'.target? f)
  | _ => True

variable {fs fs' : Forwards} {v w : Validator} {m n : Nat}

theorem Wraps.withParts {l : List Validator} (h : List.Forall₂ fs.Wraps v.parts l) :
    fs.Wraps v (v.withParts l) := by
  obtain ⟨hlength, hparts⟩ := List.forall₂_iff_zip.1 h
  exact .parts hlength fun a b => hparts

theorem wraps_refl (fs : Forwards) (v : Validator) : fs.Wraps v v := by
  induction v using Validator.parts_induction with
  | step v ih =>
    have := Wraps.withParts (List.forall₂_same.2 ih)
    rwa [Validator.withParts_parts] at this

theorem Rewraps.undefined_or_wraps {f : Forward} (h : fs.Rewraps fs' (.forward f)) :
    (fs.target? f = none ∧ fs'.target? f = none) ∨
      ∃ w w', fs.target? f = some w ∧ fs'.target? f = some w' ∧ fs'.Wraps w w' :=
  none_or_some_of_rel h

/-- What a tree does with some fuel the wrapped tree does with enough. -/
theorem Wraps.exists_covers_of
    (hforward : ∀ f, fs.Everywhere (fs.Rewraps fs') (.forward f) →
      ∃ m, fs.Covers fs' n m (.forward f) (.forward f))
    (hv : fs.Everywhere (fs.Rewraps fs') v) (h : fs'.Wraps v w) : ∃ m, fs.Covers fs' n m v w := by
  induction h with
  | @parts v ws hlength _ ih =>
    have hparts : List.Forall₂ (fun a b => ∃ m, fs.Covers fs' n m a b) v.parts ws :=
      List.forall₂_iff_zip.2 ⟨hlength, fun hm => ih _ _ hm (hv.part (List.of_mem_zip hm).1)⟩
    obtain ⟨m, hm⟩ := exists_forall₂_of_mono (fun _ _ _ _ hle h => h.mono hle) hparts
    obtain ⟨k, hk⟩ : ∃ k, ∀ f, v = .forward f → fs.Covers fs' n k (.forward f) (.forward f) := by
      by_cases hf : ∃ f, v = .forward f
      · obtain ⟨f, rfl⟩ := hf
        obtain ⟨k, hk⟩ := hforward f hv
        exact ⟨k, fun g hg => Validator.forward.inj hg ▸ hk⟩
      · exact ⟨0, fun f h => absurd ⟨f, h⟩ hf⟩
    exact ⟨max m k, .withParts (fun f hf => (hk f hf).mono (Nat.le_max_right m k))
      (hm.imp fun _ _ h => h.mono (Nat.le_max_left m k))⟩
  | @erased v w _ ih =>
    obtain ⟨m, hm⟩ := ih hv
    exact ⟨m, hm.trans (fs'.covers_erased m w).1⟩
  | @wrapped v w _ ih =>
    obtain ⟨m, hm⟩ := ih hv
    exact ⟨m, hm.trans (fs'.covers_wrapped m w).1⟩
  | forward ht _ ih =>
    obtain ⟨m, hm⟩ := ih hv
    exact ⟨m + 1, hm.trans (covers_forward ht m).1⟩

theorem Wraps.exists_covers (n : Nat) (hv : fs.Everywhere (fs.Rewraps fs') v) (h : fs'.Wraps v w) :
    ∃ m, fs.Covers fs' n m v w := by
  refine h.exists_covers_of (fun f hf => ?_) hv
  induction n generalizing f with
  | zero =>
    rcases hf.here.undefined_or_wraps with ⟨ht, ht'⟩ | ⟨w, w', ht, ht', hw⟩
    · exact ⟨0, covers_undefined ht ht' 0 0⟩
    · exact ⟨0, covers_zero ht⟩
  | succ n ih =>
    rcases hf.here.undefined_or_wraps with ⟨ht, ht'⟩ | ⟨w, w', ht, ht', hw⟩
    · exact ⟨0, covers_undefined ht ht' _ 0⟩
    · obtain ⟨m, hm⟩ := hw.exists_covers_of ih (hf.target ht)
      exact ⟨m + 1, ((covers_forward ht n).2.trans hm).trans (covers_forward ht' m).1⟩

/-- What a wrapped tree does with some fuel the tree itself does with no more. -/
theorem Wraps.covers_of
    (hforward : ∀ f, fs.Everywhere (fs.Rewraps fs') (.forward f) →
      fs'.Covers fs n n (.forward f) (.forward f))
    (hv : fs.Everywhere (fs.Rewraps fs') v) (h : fs'.Wraps v w) : fs'.Covers fs n n w v := by
  induction h with
  | @parts v ws hlength _ ih =>
    have hparts : List.Forall₂ (fs'.Covers fs n n) (v.withParts ws).parts v.parts := by
      rw [Validator.parts_withParts hlength]
      refine List.Forall₂.flip (List.forall₂_iff_zip.2 ⟨hlength, fun hm => ?_⟩)
      exact ih _ _ hm (hv.part (List.of_mem_zip hm).1)
    have := Covers.withParts (fun f hf => ?_) hparts
    · rwa [Validator.withParts_withParts hlength] at this
    · obtain rfl := Validator.eq_forward_of_withParts hf
      exact hforward f hv
  | @erased v w _ ih => exact (fs'.covers_erased n w).2.trans (ih hv)
  | @wrapped v w _ ih => exact (fs'.covers_wrapped n w).2.trans (ih hv)
  | @forward v w g ht _ ih =>
    cases n with
    | zero => exact covers_zero ht
    | succ n => exact ((covers_forward ht n).2.mono (Nat.le_succ n)).trans (ih hv)

theorem Wraps.covers (n : Nat) (hv : fs.Everywhere (fs.Rewraps fs') v) (h : fs'.Wraps v w) :
    fs'.Covers fs n n w v := by
  refine h.covers_of (fun f hf => ?_) hv
  induction n generalizing f with
  | zero =>
    rcases hf.here.undefined_or_wraps with ⟨ht, ht'⟩ | ⟨w, w', ht, ht', hw⟩
    · exact covers_undefined ht' ht 0 0
    · exact covers_zero ht'
  | succ n ih =>
    rcases hf.here.undefined_or_wraps with ⟨ht, ht'⟩ | ⟨w, w', ht, ht', hw⟩
    · exact covers_undefined ht' ht _ _
    · have hm := hw.covers_of ih (hf.target ht)
      exact ((covers_forward ht' n).2.trans hm).trans (covers_forward ht n).1

/-- What the whole uses stands for what the tree uses, if no wrapper is outermost. -/
theorem exists_uses_of_wrapped {ws : List Validator} (hv : fs.Rewraps fs' v)
    (hlength : v.parts.length = ws.length)
    (hparts : ∀ a b, (a, b) ∈ v.parts.zip ws → fs'.Wraps a b) (hw : fs'.Uses (v.withParts ws) w) :
    ∃ u, fs.Uses v u ∧ fs'.Wraps u w := by
  refine exists_uses_of_withParts ?_ (List.forall₂_iff_zip.2 ⟨hlength, fun hm => hparts _ _ hm⟩) hw
  rintro f rfl
  exact hv

theorem Wraps.exists_reaches (hv : fs.Everywhere (fs.Rewraps fs') v) (h : fs'.Wraps v w)
    {w' : Validator} (hw : fs'.Reaches w w') : ∃ v', fs.Reaches v v' ∧ fs'.Wraps v' w' := by
  induction hw with
  | refl => exact ⟨v, .refl, h⟩
  | tail _ huse ih =>
    obtain ⟨v', hv', h'⟩ := ih
    cases h' with
    | parts hlength hparts =>
      obtain ⟨u, hu, hwraps⟩ := exists_uses_of_wrapped (hv v' hv') hlength hparts huse
      exact ⟨u, hv'.tail hu, hwraps⟩
    | erased h | wrapped h =>
      cases huse with
      | part hp => exact ⟨v', hv', List.mem_singleton.1 hp ▸ h⟩
    | forward ht h =>
      cases huse with
      | part hp => cases hp
      | target ht' => exact ⟨v', hv', Option.some.inj (ht.symm.trans ht') ▸ h⟩

theorem Wraps.isLocal (hv : fs.Everywhere (fs.Rewraps fs') v) (h : fs'.Wraps v w)
    (hlocal : fs.Everywhere Validator.IsLocal v) : fs'.Everywhere Validator.IsLocal w := by
  intro w' hw'
  obtain ⟨v', hv', h'⟩ := h.exists_reaches hv hw'
  cases h' with
  | parts => exact Validator.isLocal_withParts.2 (hlocal v' hv')
  | erased | wrapped | forward => trivial

/-- A wrapped tree has no cycle of its own. -/
theorem Wraps.acyclic (hv : fs.Everywhere (fs.Rewraps fs') v) (hg : fs.Guarded v)
    (h : fs'.Wraps v w) : ¬Relation.TransGen fs'.Stays w w := by
  refine hg.induction (motive := fun v => fs.Everywhere (fs.Rewraps fs') v → ∀ w, fs'.Wraps v w →
    ¬Relation.TransGen fs'.Stays w w) ?_ hv w h
  intro v ih hv w h
  induction h with
  | @parts v ws hlength hparts _ =>
    intro hcycle
    obtain ⟨u, hu, hback⟩ := Relation.TransGen.head'_iff.1 hcycle
    obtain ⟨huse, hstay⟩ := stays_iff.1 hu
    obtain ⟨a, ha, hwraps⟩ := exists_uses_of_wrapped hv.here hlength hparts huse
    have hstays : fs.Stays v a :=
      stays_iff.2 ⟨ha, fun hs => hstay (Validator.isStructural_withParts.2 hs)⟩
    exact ih a hstays (hv.uses ha) u hwraps (.tail' hback hu)
  | erased _ ihw | wrapped _ ihw =>
    intro hcycle
    obtain ⟨u, hu, hback⟩ := Relation.TransGen.head'_iff.1 hcycle
    cases hu
    exact ihw ih hv (.tail' hback (by constructor))
  | forward ht _ ihw =>
    intro hcycle
    obtain ⟨u, hu, hback⟩ := Relation.TransGen.head'_iff.1 hcycle
    cases hu with
    | target ht' =>
      obtain rfl := Option.some.inj (ht.symm.trans ht')
      exact ihw ih hv (.tail' hback (.target ht))

theorem Wraps.guarded (hv : fs.Everywhere (fs.Rewraps fs') v) (h : fs'.Wraps v w)
    (hg : fs.Guarded v) : fs'.Guarded w := by
  intro f hf
  obtain ⟨u, hu, hwraps⟩ := h.exists_reaches hv hf
  exact hwraps.acyclic (hv.reaches hu) (hg.reaches hu)

theorem Wraps.check_eq (hv : fs.Everywhere (fs.Rewraps fs') v) (h : fs'.Wraps v w)
    (hreturns : fs.Everywhere Validator.IsLocal v ∨ fs.Guarded v) (x : Value)
    (c : Option Context) (p : Path) (log : Log) : fs'.check w x c p log = fs.check v x c p log := by
  have hreturns' := hreturns.imp (h.isLocal hv) (h.guarded hv)
  obtain ⟨m, hm⟩ := h.exists_covers (fs.fuelFor x) hv
  have hback := h.covers (fs'.fuelFor x) hv
  have hcheck : ∀ r, fs'.checkWithin (fs'.fuelFor x) w x p r =
      fs.checkWithin (fs.fuelFor x) v x p r := fun r =>
    ((hback.check x p).trans (checkWithin_approx_fuelFor hreturns _ x p) r).antisymm
      ((hm.check x p).trans (checkWithin_approx_fuelFor hreturns' m x p) r)
  rw [check, check, Checking.within, Checking.within, hcheck]

theorem Wraps.project_eq (hv : fs.Everywhere (fs.Rewraps fs') v) (h : fs'.Wraps v w)
    (hreturns : fs.Everywhere Validator.IsLocal v ∨ fs.Guarded v) (x : Value) (log : Log) :
    (fs'.project w x log).map (fun r => (r.1.isSome, r.2)) =
      (fs.project v x log).map fun r => (r.1.isSome, r.2) := by
  have hreturns' := hreturns.imp (h.isLocal hv) (h.guarded hv)
  obtain ⟨m, hm⟩ := h.exists_covers (fs.fuelFor x) hv
  have hback := h.covers (fs'.fuelFor x) hv
  have hthere := (hm.project x).trans (.of_approx (projectWithin_approx_fuelFor hreturns' m x))
  have hhere := (hback.project x).trans (.of_approx (projectWithin_approx_fuelFor hreturns _ x))
  exact hhere.outcome_eq hthere log

theorem eq_value_of_project_erased {x : Value} {o : Output} {log log' : Log}
    (h : (fs.projectWithin n (.erased v) x).run log = some (some o, log')) : o = .value x := by
  rw [projectWithin_erased, Projecting.run_bind] at h
  obtain ⟨⟨_ | a, after⟩, -, h⟩ := Option.bind_eq_some_iff.1 h
  · cases h
  · cases h
    rfl

end Forwards

/-- Wrappers change nothing, wherever they stand: checks return the same, and projections the same
log, with an output for both or for neither. -/
theorem check_of_wraps (fs fs' : Forwards) (v w : Validator)
    (hv : fs.Everywhere (fs.Rewraps fs') v) (h : fs'.Wraps v w) :
    (∀ x p r s, (∃ n, fs'.checkWithin n w x p r = some s) ↔
      ∃ n, fs.checkWithin n v x p r = some s) ∧
    (∀ x b log log',
      (∃ n o, (fs'.projectWithin n w x).run log = some (o, log') ∧ o.isSome = b) ↔
        ∃ n o, (fs.projectWithin n v x).run log = some (o, log') ∧ o.isSome = b) ∧
    (∀ u, w = .erased u → ∀ n x o log log',
      (fs'.projectWithin n w x).run log = some (some o, log') → o = .value x) ∧
    (fs.Everywhere Validator.IsLocal v ∨ fs.Guarded v → ∀ x,
      (∀ c p log, fs'.check w x c p log = fs.check v x c p log) ∧
      ∀ log, (fs'.project w x log).map (fun r => (r.1.isSome, r.2)) =
        (fs.project v x log).map fun r => (r.1.isSome, r.2)) := by
  refine ⟨fun x p r s => ⟨?_, ?_⟩, fun x b log log' => ⟨?_, ?_⟩, ?_, fun hreturns x => ⟨?_, ?_⟩⟩
  · rintro ⟨n, hn⟩
    exact ⟨n, (h.covers n hv).check x p r s hn⟩
  · rintro ⟨n, hn⟩
    obtain ⟨m, hm⟩ := h.exists_covers n hv
    exact ⟨m, hm.check x p r s hn⟩
  · rintro ⟨n, o, ho, rfl⟩
    exact ⟨n, (h.covers n hv).project x log o log' ho⟩
  · rintro ⟨n, o, ho, rfl⟩
    obtain ⟨m, hm⟩ := h.exists_covers n hv
    exact ⟨m, hm.project x log o log' ho⟩
  · rintro u rfl n x o log log' ho
    exact Forwards.eq_value_of_project_erased ho
  · exact h.check_eq hv hreturns x
  · exact h.project_eq hv hreturns x

def nestedNames : Forwards where
  cells := [some (.array (.union .list [.leaf .string, .forward ⟨0⟩]))]

/-- The same with wrappers, among them a reference to the erased string. -/
def coatedNames : Forwards where
  cells := [some (.array (.wrapped (.union .list [.forward ⟨1⟩, .erased (.forward ⟨0⟩)]))),
    some (.erased (.leaf .string))]

theorem coatedNames_wraps :
    coatedNames.Wraps (.array (.union .list [.leaf .string, .forward ⟨0⟩]))
      (.array (.wrapped (.union .list [.forward ⟨1⟩, .erased (.forward ⟨0⟩)]))) := by
  have hstring : coatedNames.Wraps (.leaf .string) (.forward ⟨1⟩) :=
    .forward rfl (.erased (coatedNames.wraps_refl _))
  have hnested : coatedNames.Wraps (.forward ⟨0⟩) (.erased (.forward ⟨0⟩)) :=
    .erased (coatedNames.wraps_refl _)
  have hunion : coatedNames.Wraps (.union .list [.leaf .string, .forward ⟨0⟩])
      (.union .list [.forward ⟨1⟩, .erased (.forward ⟨0⟩)]) :=
    .withParts (l := [_, _]) (.cons hstring (.cons hnested .nil))
  exact .withParts (l := [_]) (.cons (.wrapped hunion) .nil)

def names : Value := .array [.string "a", .array [.string "b", .array []]]

theorem check_coatedNames :
    (nestedNames.Everywhere (nestedNames.Rewraps coatedNames) (.forward ⟨0⟩) ∧
      coatedNames.Wraps (.forward ⟨0⟩) (.erased (.wrapped (.forward ⟨0⟩))) ∧
      nestedNames.Everywhere Validator.IsLocal (.forward ⟨0⟩)) ∧
      (∀ c p log, coatedNames.check (.erased (.wrapped (.forward ⟨0⟩))) names c p log =
        some ((true, c), log)) ∧
      coatedNames.project (.erased (.wrapped (.forward ⟨0⟩))) names [] =
        some (some (.value names), []) := by
  have hv : nestedNames.Everywhere (nestedNames.Rewraps coatedNames) (.forward ⟨0⟩) := by
    have hforward : nestedNames.Rewraps coatedNames (.forward ⟨0⟩) := .some coatedNames_wraps
    have hplain : ∀ w, (∀ f, w ≠ .forward f) → nestedNames.Rewraps coatedNames w := by
      intro w hw
      cases w with
      | forward f => exact absurd rfl (hw f)
      | _ => trivial
    refine Forwards.everywhere_of_throughout (.mk hforward (by simp [Validator.parts]))
      fun w hw => ?_
    obtain rfl : w = .array (.union .list [.leaf .string, .forward ⟨0⟩]) := by
      simpa [nestedNames] using hw
    simp [Validator.throughout_iff, Validator.parts, hforward, hplain]
  have hw : coatedNames.Wraps (.forward ⟨0⟩) (.erased (.wrapped (.forward ⟨0⟩))) :=
    .erased (.wrapped (coatedNames.wraps_refl _))
  have hlocal : nestedNames.Everywhere Validator.IsLocal (.forward ⟨0⟩) := by
    apply Forwards.everywhere_of_throughout <;>
      simp [nestedNames, Validator.throughout_iff, Validator.parts, Validator.IsLocal]
  obtain ⟨-, -, herased, hsame⟩ := check_of_wraps nestedNames coatedNames _ _ hv hw
  obtain ⟨hcheck, hproject⟩ := hsame (.inl hlocal) names
  refine ⟨⟨hv, hw, hlocal⟩, fun c p log => ?_, ?_⟩
  · rw [hcheck]
    rfl
  · have hsome : (coatedNames.project (.erased (.wrapped (.forward ⟨0⟩))) names []).map
        (fun r => (r.1.isSome, r.2)) = some (true, []) := (hproject []).trans rfl
    obtain ⟨⟨o, log⟩, ho, hr⟩ := Option.map_eq_some_iff.1 hsome
    simp only [Prod.mk.injEq] at hr
    obtain ⟨hr, rfl⟩ := hr
    obtain ⟨o, rfl⟩ := Option.isSome_iff_exists.1 hr
    rw [ho, herased _ rfl _ _ _ _ _ ho]

end Conform
