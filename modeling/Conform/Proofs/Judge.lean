import Conform.Proofs.Fuel

namespace Conform.Forwards

/-- A defined reference is judged by its definition, and an undefined one is noted and rejects. -/
def judgeTarget (fs : Forwards) (judge : Validator → Value → Option Verdict) (f : Forward)
    (x : Value) : Option Verdict :=
  match fs.target? f with
  | some v => judge v x
  | none => some { passed := false, undefined := [[]] }

def enterWithin (fs : Forwards) : (fuel : Nat) → Forward → Value → Option Verdict
  | 0 => fs.judgeTarget fun _ _ => none
  | fuel + 1 => fs.judgeTarget fun v => v.judgeWith (fs.enterWithin fuel)

def judgeWithin (fs : Forwards) (fuel : Nat) (v : Validator) (x : Value) : Option Verdict :=
  v.judgeWith (fs.enterWithin fuel) x

/-- The verdict of a validator on an input, unless the judgement does not return. -/
def judge (fs : Forwards) (v : Validator) (x : Value) : Option Verdict :=
  fs.judgeWithin (fs.fuelFor x) v x

variable {fs : Forwards} {f : Forward} {v : Validator}

theorem judgeTarget_of_defined (judge : Validator → Value → Option Verdict) (x : Value)
    (h : fs.target? f = some v) : fs.judgeTarget judge f x = judge v x := by
  rw [judgeTarget, h]

theorem judgeTarget_of_undefined (judge : Validator → Value → Option Verdict) (x : Value)
    (h : fs.target? f = none) :
    fs.judgeTarget judge f x = some { passed := false, undefined := [[]] } := by
  rw [judgeTarget, h]

theorem judgeTarget_approx {judge judge' : Validator → Value → Option Verdict} {x : Value}
    (h : ∀ v, fs.target? f = some v → Approx (judge v x) (judge' v x)) :
    Approx (fs.judgeTarget judge f x) (fs.judgeTarget judge' f x) := by
  cases ht : fs.target? f with
  | none =>
    rw [judgeTarget_of_undefined _ x ht, judgeTarget_of_undefined _ x ht]
    exact .refl _
  | some v =>
    rw [judgeTarget_of_defined _ x ht, judgeTarget_of_defined _ x ht]
    exact h v ht

theorem enterWithin_succ_approx (fs : Forwards) (n : Nat) (f : Forward) (x : Value) :
    Approx (fs.enterWithin n f x) (fs.enterWithin (n + 1) f x) := by
  induction n generalizing f x with
  | zero => exact judgeTarget_approx fun _ _ => .none
  | succ n ih =>
    exact judgeTarget_approx fun v _ => v.judgeWith_approx x (ih · x) fun g y _ => ih g y

theorem enterWithin_fueled (fs : Forwards) : fs.Fueled 0 fs.enterWithin where
  undefined {f x m n} ht := by
    cases m <;> cases n <;>
      exact (judgeTarget_of_undefined _ x ht).trans (judgeTarget_of_undefined _ x ht).symm
  zero {f v x} ht := judgeTarget_of_defined _ x ht
  mono {f x m n} hle := by
    induction hle with
    | refl => exact .refl _
    | step _ ih => exact ih.trans (fs.enterWithin_succ_approx _ f x)
  step {f x m n} _ here below := judgeTarget_approx fun v _ => v.judgeWith_approx x here below

theorem le_fuelFor (fs : Forwards) (x : Value) :
    fs.cells.length * (x.depth + 1) ≤ fs.fuelFor x := Nat.mul_le_mul_left _ (by omega)

theorem enterWithin_approx_of_le (fs : Forwards) (m : Nat) (f : Forward) {x y : Value} {n : Nat}
    (hle : y.depth ≤ x.depth) (hn : fs.cells.length * (x.depth + 1) ≤ n) :
    Approx (fs.enterWithin m f y) (fs.enterWithin n f y) :=
  (fs.enterWithin_fueled.enough m f y).trans <|
    fs.enterWithin_fueled.mono <| (Nat.mul_le_mul_left _ (Nat.succ_le_succ hle)).trans hn

/-- No amount of fuel returns more than one entry of each reference at each nested place. -/
theorem judgeWithin_approx_of_le (fs : Forwards) (m : Nat) (v : Validator) {x : Value} {n : Nat}
    (hn : fs.cells.length * (x.depth + 1) ≤ n) :
    Approx (fs.judgeWithin m v x) (fs.judgeWithin n v x) :=
  v.judgeWith_approx x (fun f => fs.enterWithin_approx_of_le m f le_rfl hn)
    fun f _ hy => fs.enterWithin_approx_of_le m f hy.le hn

theorem judgeWithin_mono (fs : Forwards) {m n : Nat} (h : m ≤ n) (v : Validator) (x : Value) :
    Approx (fs.judgeWithin m v x) (fs.judgeWithin n v x) :=
  v.judgeWith_approx x (fun _ => fs.enterWithin_fueled.mono h)
    fun _ _ _ => fs.enterWithin_fueled.mono h

/-- No amount of fuel returns more than the amount that `judge` computes. -/
theorem judgeWithin_approx_judge (fs : Forwards) (n : Nat) (v : Validator) (x : Value) :
    Approx (fs.judgeWithin n v x) (fs.judge v x) :=
  fs.judgeWithin_approx_of_le n v (fs.le_fuelFor x)

theorem judgeWithin_of_le (fs : Forwards) {n : Nat} (v : Validator) {x : Value}
    (hn : fs.fuelFor x ≤ n) : fs.judgeWithin n v x = fs.judge v x :=
  Approx.antisymm (fs.judgeWithin_approx_judge n v x) (fs.judgeWithin_mono hn v x)

theorem enterWithin_approx_judge (fs : Forwards) (n : Nat) (f : Forward) (x : Value) :
    Approx (fs.enterWithin n f x) (fs.judgeTarget fs.judge f x) := by
  cases n with
  | zero => exact judgeTarget_approx fun _ _ => .none
  | succ n => exact judgeTarget_approx fun v _ => fs.judgeWithin_approx_judge n v x

theorem judge_approx_enterWithin (fs : Forwards) (f : Forward) {x y : Value}
    (hle : y.depth ≤ x.depth) :
    Approx (fs.judgeTarget fs.judge f y) (fs.enterWithin (fs.fuelFor x) f y) :=
  fs.enterWithin_approx_of_le (fs.fuelFor y + 1) f hle (fs.le_fuelFor x)

/-- The judgement without fuel: what a reference is defined as is judged like any other
validator. -/
theorem judge_eq (fs : Forwards) (v : Validator) (x : Value) :
    fs.judge v x = v.judgeWith (fs.judgeTarget fs.judge) x :=
  Approx.antisymm
    (v.judgeWith_approx x (fun f => fs.enterWithin_approx_judge _ f x)
      fun f y _ => fs.enterWithin_approx_judge _ f y)
    (v.judgeWith_approx x (fun f => fs.judge_approx_enterWithin f le_rfl)
      fun f _ hy => fs.judge_approx_enterWithin f hy.le)

theorem judgeWith_judge (fs : Forwards) :
    Validator.judgeWith (fs.judgeTarget fs.judge) = fs.judge :=
  funext₂ fun v x => (fs.judge_eq v x).symm

section Equations

variable (fs : Forwards)

theorem judge_leaf (l : Leaf) (x : Value) :
    fs.judge (.leaf l) x = some { passed := l.accepts x } := fs.judge_eq _ x

theorem judge_extension (e : Extension) (x : Value) :
    fs.judge (.extension e) x = some (e.verdict x) := fs.judge_eq _ x

theorem judge_optional (v : Validator) (x : Value) :
    fs.judge (.optional v) x =
      if x.isNullish then some { passed := true } else fs.judge v x := by
  rw [fs.judge_eq v]
  exact fs.judge_eq _ x

theorem judge_nullable (v : Validator) (x : Value) :
    fs.judge (.nullable v) x = if x.isNull then some { passed := true } else fs.judge v x := by
  rw [fs.judge_eq v]
  exact fs.judge_eq _ x

theorem judge_erased (v : Validator) (x : Value) : fs.judge (.erased v) x = fs.judge v x :=
  (fs.judge_eq _ x).trans (fs.judge_eq v x).symm

theorem judge_wrapped (v : Validator) (x : Value) : fs.judge (.wrapped v) x = fs.judge v x :=
  (fs.judge_eq _ x).trans (fs.judge_eq v x).symm

theorem judge_array (v : Validator) (items : List Value) :
    fs.judge (.array v) (.array items) =
      Verdict.everyPart (items.mapIdx fun i y => ⟨.index i, .rejected v y, fs.judge v y⟩) := by
  simp only [fs.judge_eq v]
  exact fs.judge_eq _ _

theorem judge_tuple (form : Form) (vs : List Validator) (items : List Value) :
    fs.judge (.tuple form vs) (.array items) =
      Verdict.everyPart ((List.range (max vs.length items.length)).map
        (Validator.elementVerdict fs.judge vs items)) := by
  rw [judge_eq, Validator.judgeWith, Validator.elementVerdicts_eq_map, fs.judgeWith_judge]

theorem judge_record (k v : Validator) (o : Object) :
    fs.judge (.record k v) (.object o) =
      Verdict.everyPart ((o.properties.filter (·.1 != reservedKey)).flatMap fun (name, y) =>
        [⟨.key name, .rejectedKey k name, fs.judge k (.string name)⟩,
          ⟨.key name, .rejected v y, fs.judge v y⟩]) := by
  simp only [fs.judge_eq k, fs.judge_eq v]
  exact fs.judge_eq _ _

theorem judge_object (form : Form) (fields : List (String × Validator)) (exact : Bool)
    (o : Object) :
    fs.judge (.object form fields exact) (.object o) =
      (Verdict.everyPart ((fields.filter (·.1 != reservedKey)).map fun (name, v) =>
        ⟨.key name, .rejected v ((o.get? name).getD .undefined),
          fs.judge v ((o.get? name).getD .undefined)⟩)).map fun d =>
        d.and { passed := !exact || o.keys.all (declares fields) } := by
  rw [judge_eq, Validator.judgeWith, Validator.fieldVerdicts_eq_map]
  simp only [← fs.judge_eq]

theorem judge_union (form : Form) (vs : List Validator) (x : Value) :
    fs.judge (.union form vs) x = Verdict.search true (vs.map fun v => fs.judge v x) := by
  rw [judge_eq, Validator.judgeWith, Validator.memberVerdicts_eq_map]
  simp only [← fs.judge_eq]

theorem judge_intersection (form : Form) (vs : List Validator) (x : Value) :
    fs.judge (.intersection form vs) x = Verdict.search false (vs.map fun v => fs.judge v x) := by
  rw [judge_eq, Validator.judgeWith, Validator.memberVerdicts_eq_map]
  simp only [← fs.judge_eq]

end Equations

theorem judge_forward_of_defined (x : Value) (h : fs.target? f = some v) :
    fs.judge (.forward f) x = fs.judge v x :=
  (fs.judge_eq (.forward f) x).trans (judgeTarget_of_defined _ x h)

theorem judge_forward_of_undefined (x : Value) (h : fs.target? f = none) :
    fs.judge (.forward f) x = some { passed := false, undefined := [[]] } :=
  (fs.judge_eq (.forward f) x).trans (judgeTarget_of_undefined _ x h)

end Conform.Forwards
