import Conform.Proofs.Evaluation
import Conform.Proofs.Lists
import Conform.Proofs.Replay

namespace Conform

def Validator.IsUnion : Validator → Prop
  | .union .. => True
  | _ => False

def Validator.IsIntersection : Validator → Prop
  | .intersection .. => True
  | _ => False

/-- One validator leaves a whole input to another one. A modifier that absorbs the input leaves it
to nobody, and neither does an undefined reference. -/
inductive Forwards.Defers (fs : Forwards) : Validator → Value → Validator → Prop
  | optional {v x} : x.isNullish = false → fs.Defers (.optional v) x v
  | nullable {v x} : x.isNull = false → fs.Defers (.nullable v) x v
  | erased {v x} : fs.Defers (.erased v) x v
  | wrapped {v x} : fs.Defers (.wrapped v) x v
  | target {f v x} : fs.target? f = some v → fs.Defers (.forward f) x v

/-- A part that a container is checked for, with its value and its validator, which an element past
the last validator of a tuple lacks. -/
structure Site where
  segment : Segment
  question : Option (Validator × Value)

/-- The parts that a container is checked for, in the order of the check. A value of another kind
has none. -/
def Validator.sites : Validator → Value → List Site
  | .array v, .array items => items.mapIdx fun i y => ⟨.index i, some (v, y)⟩
  | .tuple _ vs, .array items => (List.range (max vs.length items.length)).map fun i =>
      ⟨.index i, vs[i]?.map fun v => (v, items[i]?.getD .undefined)⟩
  | .record k v, .object o =>
    (o.properties.filter (·.1 != reservedKey)).flatMap fun (name, y) =>
      [⟨.key name, some (k, .string name)⟩, ⟨.key name, some (v, y)⟩]
  | .object _ fields _, .object o => (fields.filter (·.1 != reservedKey)).map fun (name, v) =>
      ⟨.key name, some (v, (o.get? name).getD .undefined)⟩
  | _, _ => []

inductive Validator.Opens : Validator → Value → Prop
  | array {v items} : Opens (.array v) (.array items)
  | tuple {form vs items} : Opens (.tuple form vs) (.array items)
  | record {k v o} : Opens (.record k v) (.object o)
  | object {form fields exact o} : Opens (.object form fields exact) (.object o)

def Validator.admitsKeys : Validator → Value → Bool
  | .object _ fields exact, .object o => !exact || o.keys.all (declares fields)
  | _, _ => true

def Site.verdict (fs : Forwards) (s : Site) : Option Verdict :=
  match s.question with
  | some (v, x) => fs.judge v x
  | none => some { passed := false }

structure Site.Yields (fs : Forwards) (s : Site) (part : Verdict.Part) : Prop where
  segment : part.segment = s.segment
  verdict : part.verdict = s.verdict fs

inductive Forwards.Decides (fs : Forwards) : Validator → Value → Verdict → Prop
  /-- By itself: a leaf, an input that a modifier absorbs, or one of the wrong kind. -/
  | alone {v x b} : v.sites x = [] → (∀ w y, ¬fs.Asks v x w y) → fs.Decides v x { passed := b }
  | written {e x} : fs.Decides (.extension e) x (e.verdict x)
  | undefined {f x} : fs.target? f = none →
    fs.Decides (.forward f) x { passed := false, undefined := [[]] }
  | defers {v x w d} : fs.Defers v x w → fs.judge w x = some d → fs.Decides v x d
  | parts {v x parts d} : v.Opens x → List.Forall₂ (Site.Yields fs) (v.sites x) parts →
    Verdict.everyPart parts = some d → fs.Decides v x (d.and { passed := v.admitsKeys x })
  | alternatives {form vs x d} : Verdict.search true (vs.map (fs.judge · x)) = some d →
    fs.Decides (.union form vs) x d
  | conjuncts {form vs x d} : Verdict.search false (vs.map (fs.judge · x)) = some d →
    fs.Decides (.intersection form vs) x d

namespace Forwards

variable {fs : Forwards} {v w w' : Validator} {x y : Value} {d : Verdict}

theorem Defers.asks (h : fs.Defers v x w) : fs.Asks v x w x := by
  cases h with
  | optional hx => exact .optional hx
  | nullable hx => exact .nullable hx
  | erased => exact .erased
  | wrapped => exact .wrapped
  | target ht => exact .target ht

theorem Defers.unique (h : fs.Defers v x w) (h' : fs.Defers v x w') : w = w' := by
  cases h with
  | target ht =>
    cases h' with
    | target ht' => exact Option.some.inj (ht.symm.trans ht')
  | _ =>
    cases h'
    rfl

theorem Defers.judge_eq (h : fs.Defers v x w) : fs.judge v x = fs.judge w x := by
  cases h with
  | optional hx => rw [judge_optional, hx, if_neg Bool.false_ne_true]
  | nullable hx => rw [judge_nullable, hx, if_neg Bool.false_ne_true]
  | erased => rw [judge_erased]
  | wrapped => rw [judge_wrapped]
  | target ht => rw [judge_forward_of_defined x ht]

theorem asks_of_mem_sites {s : Site} (hs : s ∈ v.sites x) (hq : s.question = some (w, y)) :
    fs.Asks v x w y := by
  cases v with
  | array v =>
    cases x with
    | array items =>
      obtain ⟨i, hi, rfl⟩ := List.mem_mapIdx.1 hs
      cases hq
      exact .item (List.getElem_mem hi)
    | _ => cases hs
  | tuple form vs =>
    cases x with
    | array items =>
      obtain ⟨i, -, rfl⟩ := List.mem_map.1 hs
      obtain ⟨v, hv, hq⟩ := Option.map_eq_some_iff.1 hq
      cases hq
      exact .element hv
    | _ => cases hs
  | record k v =>
    cases x with
    | object o =>
      obtain ⟨e, he, hs⟩ := List.mem_flatMap.1 hs
      obtain ⟨he, hk⟩ := mem_unreserved.1 he
      rcases List.mem_pair.1 hs with rfl | rfl
      · cases hq
        exact .key he hk
      · cases hq
        exact .entry he hk
    | _ => cases hs
  | object form fields exact =>
    cases x with
    | object o =>
      obtain ⟨field, hf, rfl⟩ := List.mem_map.1 hs
      obtain ⟨hf, hk⟩ := mem_unreserved.1 hf
      cases hq
      exact .field hf hk
    | _ => cases hs
  | _ => cases hs

/-- The parts of a container's verdict are its sites, and the test of the keys comes after them. -/
theorem judge_of_opens (fs : Forwards) (h : v.Opens x) :
    ∃ parts, List.Forall₂ (Site.Yields fs) (v.sites x) parts ∧
      fs.judge v x =
        (Verdict.everyPart parts).map fun d => d.and { passed := v.admitsKeys x } := by
  have hadmits : ∀ o : Option Verdict, o = o.map fun d => d.and { passed := true } := fun o => by
    cases o <;> simp [Verdict.and]
  cases h with
  | array =>
    rw [judge_array]
    refine ⟨_, ?_, hadmits _⟩
    exact forall₂_mapIdx_mapIdx fun i y _ => ⟨rfl, rfl⟩
  | @tuple form vs items =>
    rw [judge_tuple]
    refine ⟨_, ?_, hadmits _⟩
    refine forall₂_map_map fun i _ => ?_
    rw [Validator.elementVerdict]
    cases hv : vs[i]? <;> exact ⟨rfl, by rw [Site.verdict]; rfl⟩
  | record =>
    rw [judge_record]
    refine ⟨_, ?_, hadmits _⟩
    exact forall₂_flatMap_flatMap fun e _ => .cons ⟨rfl, rfl⟩ (.cons ⟨rfl, rfl⟩ .nil)
  | object =>
    rw [judge_object]
    refine ⟨_, ?_, rfl⟩
    exact forall₂_map_map fun field _ => ⟨rfl, rfl⟩

theorem decides_of_opens (ho : v.Opens x) (h : fs.judge v x = some d) : fs.Decides v x d := by
  obtain ⟨parts, hparts, hj⟩ := judge_of_opens fs ho
  rw [hj, Option.map_eq_some_iff] at h
  obtain ⟨e, he, rfl⟩ := h
  exact .parts ho hparts he

/-- A value of the wrong kind is rejected as a whole. -/
theorem decides_of_reject (hr : fs.judge v x = some { passed := false }) (hs : v.sites x = [])
    (ha : ∀ w y, ¬fs.Asks v x w y) (h : fs.judge v x = some d) : fs.Decides v x d := by
  cases hr.symm.trans h
  exact .alone hs ha

theorem decides_of_judge (h : fs.judge v x = some d) : fs.Decides v x d := by
  cases v with
  | leaf l =>
    rw [judge_leaf] at h
    cases h
    exact .alone rfl nofun
  | extension e =>
    rw [judge_extension] at h
    cases h
    exact .written
  | optional v =>
    rw [judge_optional] at h
    cases hx : x.isNullish with
    | true =>
      rw [hx, if_pos rfl] at h
      cases h
      exact .alone rfl fun w y hw => by
        cases hw with
        | optional hn => cases hx.symm.trans hn
    | false =>
      rw [hx, if_neg Bool.false_ne_true] at h
      exact .defers (.optional hx) h
  | nullable v =>
    rw [judge_nullable] at h
    cases hx : x.isNull with
    | true =>
      rw [hx, if_pos rfl] at h
      cases h
      exact .alone rfl fun w y hw => by
        cases hw with
        | nullable hn => cases hx.symm.trans hn
    | false =>
      rw [hx, if_neg Bool.false_ne_true] at h
      exact .defers (.nullable hx) h
  | erased v => exact .defers .erased (judge_erased fs v x ▸ h)
  | wrapped v => exact .defers .wrapped (judge_wrapped fs v x ▸ h)
  | array v =>
    cases x with
    | array items => exact decides_of_opens .array h
    | _ => exact decides_of_reject (fs.judge_eq _ _) rfl nofun h
  | tuple form vs =>
    cases x with
    | array items => exact decides_of_opens .tuple h
    | _ => exact decides_of_reject (fs.judge_eq _ _) rfl nofun h
  | record k v =>
    cases x with
    | object o => exact decides_of_opens .record h
    | _ => exact decides_of_reject (fs.judge_eq _ _) rfl nofun h
  | object form fields exact =>
    cases x with
    | object o => exact decides_of_opens .object h
    | _ => exact decides_of_reject (fs.judge_eq _ _) rfl nofun h
  | union form vs => exact .alternatives (judge_union fs form vs x ▸ h)
  | intersection form vs => exact .conjuncts (judge_intersection fs form vs x ▸ h)
  | forward f =>
    cases ht : fs.target? f with
    | none =>
      rw [judge_forward_of_undefined x ht] at h
      cases h
      exact .undefined ht
    | some v => exact .defers (.target ht) (judge_forward_of_defined x ht ▸ h)

/-- A verdict that comes from the parts of a container, which may also reject the container as a
whole. -/
def Gathers (fs : Forwards) (sites : List Site) (d : Verdict) : Prop :=
  ∃ parts e, List.Forall₂ (Site.Yields fs) sites parts ∧ Verdict.everyPart parts = some e ∧
    d.failures = e.failures ∧ (d.passed = true → e.passed = true)

theorem gathers_nil {b : Bool} {undefined : List Path} :
    fs.Gathers [] { passed := b, undefined := undefined } :=
  ⟨[], _, .nil, rfl, rfl, fun _ => rfl⟩

/-- The failures of a validator that leaves its input to no other one stem from its sites. -/
theorem gathers_of_judge (hv : v.IsBuiltin) (hu : ¬v.IsUnion) (hi : ¬v.IsIntersection)
    (hd : ∀ w, ¬fs.Defers v x w) (h : fs.judge v x = some d) : fs.Gathers (v.sites x) d := by
  cases decides_of_judge h with
  | alone hs => exact hs ▸ gathers_nil
  | written => exact hv.elim
  | undefined => exact gathers_nil
  | defers hw => exact absurd hw (hd _)
  | parts _ hparts he =>
    exact ⟨_, _, hparts, he, List.append_nil _, fun hp => (Bool.and_eq_true_iff.1 hp).1⟩
  | alternatives => exact absurd trivial hu
  | conjuncts => exact absurd trivial hi

end Forwards

end Conform
