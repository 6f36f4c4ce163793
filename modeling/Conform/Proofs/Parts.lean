import Conform.Proofs.Checking
import Conform.Proofs.Congruence
import Conform.Proofs.Guarded
import Conform.Proofs.Replay

namespace Conform

namespace Validator

def withParts : Validator → List Validator → Validator
  | .optional v, ws => .optional (ws.headD v)
  | .nullable v, ws => .nullable (ws.headD v)
  | .erased v, ws => .erased (ws.headD v)
  | .wrapped v, ws => .wrapped (ws.headD v)
  | .array v, ws => .array (ws.headD v)
  | .tuple form _, ws => .tuple form ws
  | .record k v, ws => .record (ws.headD k) (ws.tail.headD v)
  | .object form fields exact, ws => .object form ((fields.map Prod.fst).zip ws) exact
  | .union form _, ws => .union form ws
  | .intersection form _, ws => .intersection form ws
  | v, _ => v

variable {v : Validator} {ws : List Validator}

theorem parts_withParts (h : v.parts.length = ws.length) : (v.withParts ws).parts = ws := by
  cases v with
  | leaf | extension | forward => exact (List.eq_nil_of_length_eq_zero h.symm).symm
  | optional | nullable | erased | wrapped | array =>
    obtain ⟨w, rfl⟩ := List.length_eq_one_iff.1 h.symm
    rfl
  | record k v =>
    obtain ⟨k', v', rfl⟩ := List.length_eq_two.1 h.symm
    rfl
  | object form fields exact =>
    rw [withParts, parts, List.map_snd_zip]
    simpa [parts] using h.ge
  | tuple | union | intersection => rfl

theorem names_zip {fields : List (String × Validator)} (h : fields.length ≤ ws.length) :
    ((fields.map Prod.fst).zip ws).map Prod.fst = fields.map Prod.fst :=
  List.map_fst_zip (by rwa [List.length_map])

/-- The parts that were replaced can be put back. -/
theorem withParts_withParts (h : v.parts.length = ws.length) :
    (v.withParts ws).withParts v.parts = v := by
  cases v with
  | leaf | extension | forward | optional | nullable | erased | wrapped | array | record => rfl
  | object form fields exact =>
    have hlength : fields.length ≤ ws.length := by simpa [parts] using h.le
    rw [withParts, withParts, names_zip hlength, parts, ← List.unzip_fst, ← List.unzip_snd,
      List.zip_unzip]
  | tuple | union | intersection => rfl

theorem withParts_parts (v : Validator) : v.withParts v.parts = v := by
  cases v with
  | object form fields exact =>
    rw [withParts, parts, ← List.unzip_fst, ← List.unzip_snd, List.zip_unzip]
  | _ => rfl

theorem eq_forward_of_withParts {f : Forward} (h : v.withParts ws = .forward f) :
    v = .forward f := by
  cases v with
  | forward => exact h
  | _ => cases h

theorem isLocal_withParts : (v.withParts ws).IsLocal ↔ v.IsLocal := by
  cases v <;> exact Iff.rfl

theorem isStructural_withParts : (v.withParts ws).IsStructural ↔ v.IsStructural := by
  cases v <;> exact Iff.rfl

theorem forall₂_fields {T : Validator → Validator → Prop} {fields : List (String × Validator)}
    (h : List.Forall₂ T (fields.map Prod.snd) ws) :
    List.Forall₂ (fun a b => a.1 = b.1 ∧ T a.2 b.2) fields ((fields.map Prod.fst).zip ws) := by
  have hlength := h.length_eq
  rw [List.length_map] at hlength
  refine forall₂_pairs (names_zip hlength.le).symm ?_
  rwa [List.map_snd_zip (by simp [hlength])]

theorem declares_congr {fields fields' : List (String × Validator)}
    (h : fields.map Prod.fst = fields'.map Prod.fst) : declares fields = declares fields' := by
  funext key
  have hnames : ∀ l : List (String × Validator), declares l key =
      (l.map Prod.fst).any fun name => name != reservedKey && name == key := by
    intro l
    rw [List.any_map]
    rfl
  rw [hnames, hnames, h]

section Checks

variable {R : (α : Type) → Checking α → Checking α → Prop}
  {enter enter' : Forward → Value → Path → Checking Bool}

open Checking.Congruence in
theorem elementParts_of_forall₂ (hR : Checking.Congruence R) {vs : List Validator}
    (h : List.Forall₂ (fun v w => ∀ x p, R Bool (v.checkWith enter x p) (w.checkWith enter' x p))
      vs ws) (items : List Value) (p : Path) (i : Nat) :
    List.Forall₂ (Parts R) (elementParts enter vs items p i)
      (elementParts enter' ws items p i) := by
  induction h generalizing items i with
  | nil => exact forall₂_mapIdx_mapIdx fun j y _ => ⟨rfl, hR.pure false⟩
  | cons h _ ih => exact .cons ⟨rfl, h _ _⟩ (ih items.tail (i + 1))

/-- Checks are related when those of the parts are, whatever the parts are replaced by. -/
theorem checkWith_withParts (hR : Checking.Congruence R)
    (hforward : ∀ f, v = .forward f → ∀ x p, R Bool (enter f x p) (enter' f x p))
    (h : List.Forall₂ (fun v w => ∀ x p, R Bool (v.checkWith enter x p) (w.checkWith enter' x p))
      v.parts ws) (x : Value) (p : Path) :
    R Bool (v.checkWith enter x p) ((v.withParts ws).checkWith enter' x p) := by
  cases v with
  | leaf l => exact hR.pure _
  | extension e => exact hR.run e x p
  | optional v =>
    obtain ⟨w, _, hw, -, rfl⟩ := List.forall₂_cons_left_iff.1 h
    rw [withParts, checkWith, checkWith]
    split
    · exact hR.pure true
    · exact hw x p
  | nullable v =>
    obtain ⟨w, _, hw, -, rfl⟩ := List.forall₂_cons_left_iff.1 h
    rw [withParts, checkWith, checkWith]
    split
    · exact hR.pure true
    · exact hw x p
  | erased v | wrapped v =>
    obtain ⟨w, _, hw, -, rfl⟩ := List.forall₂_cons_left_iff.1 h
    exact hw x p
  | array v =>
    obtain ⟨w, _, hw, -, rfl⟩ := List.forall₂_cons_left_iff.1 h
    cases x with
    | array items => exact hR.everyPart (forall₂_mapIdx_mapIdx fun i y _ => ⟨rfl, hw y _⟩)
    | _ => exact hR.pure false
  | tuple form vs =>
    cases x with
    | array items => exact hR.everyPart (elementParts_of_forall₂ hR h items p 0)
    | _ => exact hR.pure false
  | record k v =>
    obtain ⟨k', _, hk, hrest, rfl⟩ := List.forall₂_cons_left_iff.1 h
    obtain ⟨v', _, hv, -, rfl⟩ := List.forall₂_cons_left_iff.1 hrest
    cases x with
    | object o =>
      exact hR.everyPart (forall₂_flatMap_flatMap fun e _ =>
        .cons ⟨rfl, hk _ _⟩ (.cons ⟨rfl, hv _ _⟩ .nil))
    | _ => exact hR.pure false
  | object form fields exact =>
    have hfields := forall₂_fields h
    have hlength : fields.length ≤ ws.length := by simpa [parts] using h.length_eq.le
    cases x with
    | object o =>
      rw [withParts, checkWith, checkWith, fieldParts_eq_map, fieldParts_eq_map,
        declares_congr (names_zip hlength)]
      have hunreserved := List.rel_filter (p := (·.1 != reservedKey)) (q := (·.1 != reservedKey))
        (fun a b hab => by simp only [hab.1]) hfields
      refine hR.bind (hR.everyPart ?_) fun b => ?_
      · rw [List.forall₂_map_left_iff, List.forall₂_map_right_iff]
        refine hunreserved.imp ?_
        rintro ⟨name, v⟩ ⟨_, w⟩ ⟨rfl, hvw⟩
        exact ⟨rfl, hvw _ _⟩
      · cases b <;> exact hR.pure _
    | _ => exact hR.pure false
  | union form vs =>
    rw [withParts, checkWith, checkWith, memberChecks_eq_map, memberChecks_eq_map]
    refine hR.anyOf ?_
    rw [List.forall₂_map_left_iff, List.forall₂_map_right_iff]
    exact h.imp fun v w hvw => hvw x p
  | intersection form vs =>
    rw [withParts, checkWith, checkWith, memberChecks_eq_map, memberChecks_eq_map]
    refine hR.allOf ?_
    rw [List.forall₂_map_left_iff, List.forall₂_map_right_iff]
    exact h.imp fun v w hvw => hvw x p
  | forward f => exact hforward f rfl x p

end Checks

section Projections

open Projecting

variable {enter enter' : Forward → Value → Projecting Output}
  {accepts accepts' : Validator → Value → Logged Bool}

theorem projectFirst_mirrors (form : Form) {vs : List Validator} {x : Value}
    (h : List.Forall₂ (fun v w =>
      Projecting.Approx (OptionT.lift (accepts v x)) (OptionT.lift (accepts' w x)) ∧
      (v.projectWith enter accepts x).Mirrors (w.projectWith enter' accepts' x)) vs ws) (i : Nat) :
    (projectFirst enter accepts form vs i x).Mirrors
      (projectFirst enter' accepts' form ws i x) := by
  induction h generalizing i with
  | nil => exact mirrors_failure
  | cons h _ ih =>
    rw [projectFirst, projectFirst]
    refine .bind_approx h.1 fun b => ?_
    cases b with
    | true => exact h.2.bind fun _ _ => mirrors_pure _ _
    | false => exact ih (i + 1)

/-- Projections mirror each other when those of the parts do and the choices of unions agree. -/
theorem projectWith_withParts
    (hforward : ∀ f, v = .forward f → ∀ x, (enter f x).Mirrors (enter' f x))
    (h : List.Forall₂ (fun v w => ∀ x,
      Projecting.Approx (OptionT.lift (accepts v x)) (OptionT.lift (accepts' w x)) ∧
      (v.projectWith enter accepts x).Mirrors (w.projectWith enter' accepts' x)) v.parts ws)
    (x : Value) :
    (v.projectWith enter accepts x).Mirrors ((v.withParts ws).projectWith enter' accepts' x) := by
  cases v with
  | leaf | extension => exact mirrors_refl _
  | optional v =>
    obtain ⟨w, _, hw, -, rfl⟩ := List.forall₂_cons_left_iff.1 h
    rw [withParts, projectWith, projectWith]
    split
    · exact mirrors_pure _ _
    · exact (hw x).2.bind fun _ _ => mirrors_pure _ _
  | nullable v =>
    obtain ⟨w, _, hw, -, rfl⟩ := List.forall₂_cons_left_iff.1 h
    rw [withParts, projectWith, projectWith]
    split
    · exact mirrors_pure _ _
    · exact (hw x).2.bind fun _ _ => mirrors_pure _ _
  | erased v =>
    obtain ⟨w, _, hw, -, rfl⟩ := List.forall₂_cons_left_iff.1 h
    rw [withParts, projectWith, projectWith]
    exact (hw x).2.bind fun _ _ => mirrors_pure _ _
  | wrapped v =>
    obtain ⟨w, _, hw, -, rfl⟩ := List.forall₂_cons_left_iff.1 h
    exact (hw x).2
  | array v =>
    obtain ⟨w, _, hw, -, rfl⟩ := List.forall₂_cons_left_iff.1 h
    cases x with
    | array items =>
      rw [withParts, projectWith, projectWith]
      exact (mirrors_mapM (List.forall₂_same.2 fun y _ => (hw y).2)).bind
        fun _ _ => mirrors_pure _ _
    | _ => exact mirrors_failure
  | tuple form vs =>
    cases x with
    | array items =>
      have helements : List.Forall₂
          (fun a b => (a.1.projectWith enter accepts a.2).Mirrors
            (b.1.projectWith enter' accepts' b.2))
          (vs.mapIdx fun i v => (v, items[i]?.getD .undefined))
          (ws.mapIdx fun i w => (w, items[i]?.getD .undefined)) :=
        forall₂_mapIdx h fun i v w hvw => (hvw _).2
      rw [withParts, projectWith, projectWith, projectElements_eq_mapM, projectElements_eq_mapM,
        show vs.length = ws.length from h.length_eq]
      have hgather := (mirrors_mapM helements).bind
        fun os os' => mirrors_pure (form.gather os) (form.gather os')
      split
      · exact mirrors_failure.bind fun _ _ => hgather
      · exact hgather
    | _ => exact mirrors_failure
  | record k v =>
    obtain ⟨k', _, hk, hrest, rfl⟩ := List.forall₂_cons_left_iff.1 h
    obtain ⟨v', _, hv, -, rfl⟩ := List.forall₂_cons_left_iff.1 hrest
    cases x with
    | object o =>
      rw [withParts, projectWith, projectWith]
      refine (mirrors_mapM (List.forall₂_same.2 fun e _ => ?_)).bind fun _ _ => mirrors_pure _ _
      exact (hk _).2.bind fun _ _ => (hv _).2.bind fun _ _ => mirrors_pure _ _
    | _ => exact mirrors_failure
  | object form fields exact =>
    cases x with
    | object o =>
      rw [withParts, projectWith, projectWith, projectFields_eq_mapM, projectFields_eq_mapM]
      refine (mirrors_mapM ((forall₂_fields h).imp ?_)).bind fun _ _ => mirrors_pure _ _
      rintro ⟨name, v⟩ ⟨_, w⟩ ⟨rfl, hvw⟩
      exact (hvw _).2.bind fun _ _ => mirrors_pure _ _
    | _ => exact mirrors_failure
  | union form vs => exact projectFirst_mirrors form (h.imp fun v w hvw => hvw x) 0
  | intersection form vs =>
    rw [withParts, projectWith, projectWith, projectEach_eq_mapM, projectEach_eq_mapM]
    exact (mirrors_mapM (h.imp fun v w hvw => (hvw x).2)).bind fun _ _ => mirrors_pure _ _
  | forward f => exact hforward f rfl x

end Projections

end Validator

/-- What the validator with other parts uses stands for what the validator itself uses. -/
theorem Forwards.exists_uses_of_withParts {fs fs' : Forwards} {T : Validator → Validator → Prop}
    {v w : Validator} {ws : List Validator}
    (hforward : ∀ f, v = .forward f → Option.Rel T (fs.target? f) (fs'.target? f))
    (h : List.Forall₂ T v.parts ws) (hw : fs'.Uses (v.withParts ws) w) :
    ∃ u, fs.Uses v u ∧ T u w := by
  generalize hwhole : v.withParts ws = whole at hw
  cases hw with
  | part hw =>
    subst hwhole
    rw [Validator.parts_withParts h.length_eq] at hw
    obtain ⟨u, hu, huw⟩ := exists_left_of_forall₂ h hw
    exact ⟨u, .part hu, huw⟩
  | target ht =>
    have hv := Validator.eq_forward_of_withParts hwhole
    rcases none_or_some_of_rel (hforward _ hv) with ⟨-, ht'⟩ | ⟨u, u', hu, hu', huw⟩
    · cases ht'.symm.trans ht
    · cases hu'.symm.trans ht
      exact ⟨u, hv ▸ .target hu, huw⟩

end Conform
