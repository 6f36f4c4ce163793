import Conform.Proofs.Equivariance
import Conform.Proofs.Evaluation
import Conform.Proofs.Passing
import Conform.Proofs.WellFormed

namespace Conform

theorem Value.access_append (x : Value) (p q : Path) :
    x.access (p ++ q) = (x.access p).bind (·.access q) := by
  induction p generalizing x with
  | nil => rfl
  | cons s p ih =>
    rw [List.cons_append, access, access, Option.bind_assoc]
    exact Option.bind_congr fun y _ => ih y

theorem Value.access_push (x : Value) (p : Path) (s : Segment) :
    x.access (p.push s) = (x.access p).bind (·.part? s) := by
  rw [Path.push, access_append]
  congr 1
  funext y
  simp [access]

/-- The segment names a part in the way that the container names its parts. -/
def Segment.Fits : Segment → Value → Prop
  | .key _, .object _ => True
  | .index _, .array _ => True
  | _, _ => False

def Segment.IsSymbol : Segment → Prop
  | .symbol _ => True
  | _ => False

theorem Segment.Fits.not_isSymbol {s : Segment} {x : Value} (h : s.Fits x) : ¬s.IsSymbol := by
  cases s with
  | symbol => exact h.elim
  | _ => exact id

theorem Segment.Fits.depth_pos {s : Segment} {x : Value} (h : s.Fits x) : 0 < x.depth := by
  cases x with
  | array items => exact Value.depth_array_pos items
  | object o => exact Value.depth_object_pos o
  | _ => cases s <;> exact h.elim

theorem Value.depth_pos_of_part? {x y : Value} {s : Segment} (h : x.part? s = some y) :
    0 < x.depth := by
  cases x with
  | array items => exact depth_array_pos items
  | object o => exact depth_object_pos o
  | _ => cases s <;> cases h

/-- What the failure of a part has to do with the container and with the validator that read the
part there. -/
def Cause.Explains (fs : Forwards) (u : Validator) (container : Value) (s : Segment) :
    Cause → Prop
  | .rejected w y =>
    fs.Asks u container w y ∧ fs.Rejects w y ∧ y = (container.part? s).getD .undefined
  | .rejectedKey w key =>
    fs.Asks u container w (.string key) ∧ fs.Rejects w (.string key) ∧ s = .key key ∧
      (container.part? s).isSome
  | .surplus => ∃ form vs i, u = .tuple form vs ∧ s = .index i ∧ vs.length ≤ i ∧
      (container.part? s).isSome
  | .reported _ => False

namespace Failure

/-- A failure belongs to the part `s` of the container at `parent`, where `u` read it. -/
structure Located (fs : Forwards) (v : Validator) (x : Value) (f : Failure) (parent : Path)
    (s : Segment) (container : Value) (u : Validator) : Prop where
  path : f.path = parent.push s
  named : ∀ t ∈ f.path, ¬t.IsSymbol
  access : x.access parent = some container
  fits : s.Fits container
  reaches : fs.Reaches v u
  cause : f.cause.Explains fs u container s

def Navigates (fs : Forwards) (v : Validator) (x : Value) (f : Failure) : Prop :=
  ∃ parent s container u, f.Located fs v x parent s container u

variable {fs : Forwards} {v w : Validator} {x y : Value} {s : Segment} {f : Failure}

theorem Navigates.depth_pos (h : f.Navigates fs v x) : 0 < x.depth := by
  obtain ⟨parent, s, container, u, h⟩ := h
  cases parent with
  | nil =>
    cases h.access
    exact h.fits.depth_pos
  | cons t rest =>
    obtain ⟨y, hy, -⟩ := Option.bind_eq_some_iff.1 h.access
    exact Value.depth_pos_of_part? hy

theorem Navigates.mono (h : f.Navigates fs w x) (hw : fs.Uses v w) : f.Navigates fs v x := by
  obtain ⟨parent, s, container, u, h⟩ := h
  exact ⟨parent, s, container, u, { h with reaches := .head hw h.reaches }⟩

theorem Navigates.below (h : f.Navigates fs w y) (hw : fs.Uses v w) (hs : s.Fits x)
    (hy : y = (x.part? s).getD .undefined) : (f.below s).Navigates fs v x := by
  -- A missing part is judged as undefined, and nothing is found inside of that.
  have hpart : x.part? s = some y := by
    cases hp : x.part? s with
    | none =>
      rw [hp] at hy
      exact absurd h.depth_pos (by rw [hy]; exact Nat.lt_irrefl 0)
    | some z => rw [hy, hp]; rfl
  obtain ⟨parent, t, container, u, h⟩ := h
  refine ⟨s :: parent, t, container, u, ?_⟩
  exact {
    path := congrArg (s :: ·) h.path
    named := List.forall_mem_cons.2 ⟨hs.not_isSymbol, h.named⟩
    access := by rw [Value.access, hpart]; exact h.access
    fits := h.fits
    reaches := .head hw h.reaches
    cause := h.cause }

theorem navigates_here {cause : Cause} (hs : s.Fits x) (hc : cause.Explains fs v x s) :
    (⟨[s], cause⟩ : Failure).Navigates fs v x :=
  ⟨.root, s, x, v, {
    path := rfl
    named := List.forall_mem_singleton.2 hs.not_isSymbol
    access := rfl
    fits := hs
    reaches := .refl
    cause := hc }⟩

/-- A part's failures and its own one are found in the container that asks for its judgement. -/
theorem navigates_of_inside {e : Verdict} {cause : Cause} (hf : f ∈ (e.inside s cause).failures)
    (hw : fs.Asks v x w y) (he : fs.judge w y = some e) (hs : s.Fits x)
    (hy : 0 < y.depth → y = (x.part? s).getD .undefined)
    (hc : fs.Rejects w y → cause.Explains fs v x s)
    (ih : ∀ f ∈ e.failures, f.Navigates fs w y) : f.Navigates fs v x := by
  rcases List.mem_append.1 hf with hf | hf
  · obtain ⟨g, hg, rfl⟩ := List.mem_map.1 hf
    exact (ih g hg).below hw.uses hs (hy (ih g hg).depth_pos)
  · cases hp : e.passed with
    | true => simp [hp] at hf
    | false =>
      rw [hp, if_neg Bool.false_ne_true, List.mem_singleton] at hf
      exact hf ▸ navigates_here hs (hc ⟨e, he, hp⟩)

theorem navigates_of_part {e : Verdict} (hf : f ∈ (e.inside s (.rejected w y)).failures)
    (hw : fs.Asks v x w y) (he : fs.judge w y = some e) (hs : s.Fits x)
    (hy : y = (x.part? s).getD .undefined) (ih : ∀ f ∈ e.failures, f.Navigates fs w y) :
    f.Navigates fs v x :=
  navigates_of_inside hf hw he hs (fun _ => hy) (fun hr => ⟨hw, hr, hy⟩) ih

end Failure

theorem Forwards.Asks.wellFormed {fs : Forwards} {v w : Validator} {x y : Value}
    (h : fs.Asks v x w y) (hx : x.WellFormed) : y.WellFormed := by
  cases h with
  | item hy => exact hx.item hy
  | element => exact hx.element _
  | key => exact .scalar rfl
  | entry he => exact hx.property he
  | field => exact hx.field _
  | _ => exact hx

namespace Forwards

variable {fs : Forwards} {v : Validator} {x : Value} {d : Verdict}

/-- What a container reports is found in it, if what its parts report is found in them. -/
theorem navigates_of_asks (hv : v.IsBuiltin) (hx : x.WellFormed) (h : fs.judge v x = some d)
    (ih : ∀ w y, fs.Asks v x w y → ∀ e, fs.judge w y = some e → ∀ f ∈ e.failures,
      f.Navigates fs w y) {f : Failure} (hf : f ∈ d.failures) : f.Navigates fs v x := by
  cases v with
  | leaf l =>
    rw [judge_leaf] at h
    cases h
    cases hf
  | extension => exact hv.elim
  | optional v =>
    rw [judge_optional] at h
    obtain ⟨hn, h⟩ := Verdict.eq_of_mem_failures_ite h hf
    have hw : fs.Asks (.optional v) x v x := .optional hn
    exact (ih v x hw d h f hf).mono hw.uses
  | nullable v =>
    rw [judge_nullable] at h
    obtain ⟨hn, h⟩ := Verdict.eq_of_mem_failures_ite h hf
    have hw : fs.Asks (.nullable v) x v x := .nullable hn
    exact (ih v x hw d h f hf).mono hw.uses
  | erased v =>
    rw [judge_erased] at h
    exact (ih v x .erased d h f hf).mono (.part (by simp [Validator.parts]))
  | wrapped v =>
    rw [judge_wrapped] at h
    exact (ih v x .wrapped d h f hf).mono (.part (by simp [Validator.parts]))
  | array v =>
    cases x with
    | array items =>
      rw [judge_array] at h
      obtain ⟨part, hpart, e, he, hf⟩ := Verdict.mem_failures_everyPart h hf
      obtain ⟨i, hi, rfl⟩ := List.mem_mapIdx.1 hpart
      have hw : fs.Asks (.array v) (.array items) v items[i] := .item (List.getElem_mem hi)
      have hy : items[i] = ((Value.array items).part? (.index i)).getD .undefined := by
        simp [Value.part?, hi]
      exact Failure.navigates_of_part hf hw he trivial hy (ih _ _ hw e he)
    | _ =>
      rw [judge_eq] at h
      cases h
      cases hf
  | tuple form vs =>
    cases x with
    | array items =>
      rw [judge_tuple] at h
      obtain ⟨part, hpart, e, he, hf⟩ := Verdict.mem_failures_everyPart h hf
      obtain ⟨i, hi, rfl⟩ := List.mem_map.1 hpart
      rw [Validator.elementVerdict] at he hf
      cases hv : vs[i]? with
      | none =>
        rw [hv] at he hf
        cases he
        have hi := lt_max_iff.1 (List.mem_range.1 hi)
        have hl := List.getElem?_eq_none_iff.1 hv
        rw [List.mem_singleton.1 hf]
        refine Failure.navigates_here trivial ⟨form, vs, i, rfl, rfl, hl, ?_⟩
        simp only [Value.part?, isSome_getElem?]
        omega
      | some v =>
        rw [hv] at he hf
        have hw : fs.Asks (.tuple form vs) (.array items) v _ := .element hv
        exact Failure.navigates_of_part hf hw he trivial rfl (ih _ _ hw e he)
    | _ =>
      rw [judge_eq] at h
      cases h
      cases hf
  | record k v =>
    cases x with
    | object o =>
      rw [judge_record] at h
      obtain ⟨part, hpart, e, he, hf⟩ := Verdict.mem_failures_everyPart h hf
      obtain ⟨entry, hm, hpart⟩ := List.mem_flatMap.1 hpart
      obtain ⟨hm, hk⟩ := mem_unreserved.1 hm
      have hget : (Value.object o).part? (.key entry.1) = some entry.2 := hx.get?_of_mem hm
      rcases List.mem_pair.1 hpart with rfl | rfl
      · have hw : fs.Asks (.record k v) (.object o) k _ := .key hm hk
        -- The key itself is not at the path, but a string has no parts to report.
        exact Failure.navigates_of_inside hf hw he trivial (fun hd => absurd hd (Nat.lt_irrefl 0))
          (fun hr => ⟨hw, hr, rfl, by rw [hget]; rfl⟩) (ih _ _ hw e he)
      · have hw : fs.Asks (.record k v) (.object o) v _ := .entry hm hk
        have hy : entry.2 = ((Value.object o).part? (.key entry.1)).getD .undefined := by
          rw [hget]
          rfl
        exact Failure.navigates_of_part hf hw he trivial hy (ih _ _ hw e he)
    | _ =>
      rw [judge_eq] at h
      cases h
      cases hf
  | object form fields exact =>
    cases x with
    | object o =>
      rw [judge_object] at h
      obtain ⟨d, hd, rfl⟩ := Option.map_eq_some_iff.1 h
      rw [Verdict.and, List.append_nil] at hf
      obtain ⟨part, hpart, e, he, hf⟩ := Verdict.mem_failures_everyPart hd hf
      obtain ⟨field, hm, rfl⟩ := List.mem_map.1 hpart
      obtain ⟨hm, hk⟩ := mem_unreserved.1 hm
      have hw : fs.Asks (.object form fields exact) (.object o) field.2 _ := .field hm hk
      exact Failure.navigates_of_part hf hw he trivial rfl (ih _ _ hw e he)
    | _ =>
      rw [judge_eq] at h
      cases h
      cases hf
  | union form vs =>
    rw [judge_union] at h
    obtain ⟨before, w, after, rfl, hb, e, he, hf⟩ := Verdict.mem_failures_search_map h hf
    exact (ih w x (.alternative rfl hb) e he f hf).mono (.part (by simp [Validator.parts]))
  | intersection form vs =>
    rw [judge_intersection] at h
    obtain ⟨before, w, after, rfl, hb, e, he, hf⟩ := Verdict.mem_failures_search_map h hf
    exact (ih w x (.conjunct rfl hb) e he f hf).mono (.part (by simp [Validator.parts]))
  | forward f =>
    cases ht : fs.target? f with
    | none =>
      rw [judge_forward_of_undefined x ht] at h
      cases h
      cases hf
    | some v =>
      rw [judge_forward_of_defined x ht] at h
      exact (ih v x (.target ht) d h _ hf).mono (.target ht)

theorem navigates_of_mem_failures (hv : fs.Everywhere Validator.IsBuiltin v) (hx : x.WellFormed)
    (h : fs.judge v x = some d) : ∀ f ∈ d.failures, f.Navigates fs v x := by
  refine judge_induction (P := fun v x d => fs.Everywhere Validator.IsBuiltin v → x.WellFormed →
    ∀ f ∈ d.failures, f.Navigates fs v x) ?_ h hv hx
  intro v x d h ih hv hx f hf
  refine navigates_of_asks hv.here hx h (fun w y hw e he => ?_) hf
  obtain ⟨e', he', hall⟩ := ih w y hw
  cases he.symm.trans he'
  exact hall (hv.uses hw.uses) (hw.wellFormed hx)

theorem isValid_of_rejects {w : Validator} {y : Value} (h : fs.Rejects w y)
    (hw : fs.Everywhere Validator.IsLocal w) (log : Log) :
    ∃ log', fs.isValid w y log = some (false, log') := by
  obtain ⟨d, hd, hp⟩ := h
  exact ⟨log ++ d.events .root, by rw [isValid_eq hw, hd, Option.map_some, hp]⟩

end Forwards

/-- Every recorded path leads through keys and indices to a part that was rejected there, a surplus
element, or an entry whose key was. -/
theorem validate_navigates (fs : Forwards) (v : Validator)
    (hv : fs.Everywhere Validator.IsBuiltin v) (x : Value) (hx : x.WellFormed) (c c' : Context)
    (log log' : Log) (b : Bool) (h : fs.validate v x c log = some ((b, c'), log')) :
    ∃ d, fs.judge v x = some d ∧ c'.errors = c.errors ++ d.failures.map Failure.path ∧
      ∀ f ∈ d.failures, f.path ≠ .root ∧
        (∀ s ∈ f.path, (∃ name, s = .key name) ∨ ∃ i, s = .index i) ∧
        ∃ parent s container u, f.path.parent? = some parent ∧ f.path.last? = some s ∧
          x.access parent = some container ∧
          (∀ name, s = .key name → container.kind = .object) ∧
          (∀ i, s = .index i → container.kind = .array) ∧ fs.Reaches v u ∧
          match f.cause with
          | .rejected w y => fs.Asks u container w y ∧ y = (x.access f.path).getD .undefined ∧
              ∀ log, ∃ log', fs.isValid w y log = some (false, log')
          | .rejectedKey w key => fs.Asks u container w (.string key) ∧ s = .key key ∧
              (∃ y, container.get? key = some y ∧ x.access f.path = some y) ∧
              ∀ log, ∃ log', fs.isValid w (.string key) log = some (false, log')
          | .surplus => (∃ form vs i, u = .tuple form vs ∧ s = .index i ∧ vs.length ≤ i) ∧
              (x.access f.path).isSome
          | .reported _ => False := by
  have hlocal : fs.Everywhere Validator.IsLocal v := fun w hw => (hv w hw).isLocal
  rw [Forwards.validate_eq hlocal, Option.map_eq_some_iff] at h
  obtain ⟨d, hd, h⟩ := h
  cases h
  refine ⟨d, hd, rfl, fun f hf => ?_⟩
  obtain ⟨parent, s, container, u, h⟩ := Forwards.navigates_of_mem_failures hv hx hd f hf
  have haccess : x.access f.path = container.part? s := by
    rw [h.path, Value.access_push, h.access, Option.bind_some]
  have hrejects : ∀ {w y}, fs.Asks u container w y → fs.Rejects w y → ∀ log,
      ∃ log', fs.isValid w y log = some (false, log') := by
    intro w y hw hr
    exact Forwards.isValid_of_rejects hr fun a ha => hlocal a (h.reaches.trans (.head hw.uses ha))
  refine ⟨by simp [h.path, Path.push, Path.root], fun t ht => ?_, parent, s, container, u,
    by simp [Path.parent?, h.path, Path.push], by simp [Path.last?, h.path, Path.push],
    h.access, ?_, ?_, h.reaches, ?_⟩
  · have hn := h.named t ht
    cases t with
    | key name => exact .inl ⟨name, rfl⟩
    | index i => exact .inr ⟨i, rfl⟩
    | symbol => exact absurd trivial hn
  · rintro name rfl
    cases container with
    | object => rfl
    | _ => exact h.fits.elim
  · rintro i rfl
    cases container with
    | array => rfl
    | _ => exact h.fits.elim
  · have hc := h.cause
    rw [haccess]
    cases hcause : f.cause with
    | rejected w y =>
      rw [hcause] at hc
      obtain ⟨hw, hr, hy⟩ := hc
      exact ⟨hw, hy, hrejects hw hr⟩
    | rejectedKey w key =>
      rw [hcause] at hc
      obtain ⟨hw, hr, rfl, hsome⟩ := hc
      obtain ⟨y, hy⟩ := Option.isSome_iff_exists.1 hsome
      refine ⟨hw, rfl, ⟨y, ?_, hy⟩, hrejects hw hr⟩
      cases container with
      | object o => exact hy
      | _ => exact h.fits.elim
    | surplus =>
      rw [hcause] at hc
      obtain ⟨form, vs, i, hu, hs, hl, hsome⟩ := hc
      exact ⟨⟨form, vs, i, hu, hs, hl⟩, hsome⟩
    | reported e =>
      rw [hcause] at hc
      exact hc

/-- Rejects the key of every entry but one, and every value that is not a list of one string. -/
def idRecord : Validator := .record (.leaf (.enum ["id"])) (.tuple .tuple [.leaf .string])

def twoNulls : Value := .object ⟨[("no", .array [.null, .null])], []⟩

theorem validate_twoNulls :
    Forwards.Everywhere {} Validator.IsBuiltin idRecord ∧ twoNulls.WellFormed ∧
      ∃ d, Forwards.judge {} idRecord twoNulls = some d ∧
        d.failures.map Failure.path =
          [[.key "no"], [.key "no", .index 0], [.key "no", .index 1], [.key "no"]] ∧
        ∀ f ∈ d.failures, ∃ parent, f.path.parent? = some parent ∧
          (twoNulls.access parent).isSome := by
  have hv : Forwards.Everywhere {} Validator.IsBuiltin idRecord := by
    apply Forwards.everywhere_of_throughout <;>
      simp [idRecord, Validator.throughout_iff, Validator.parts, Validator.IsBuiltin]
  have hx : twoNulls.WellFormed := by
    refine .object (by simp [ObjectOf.keys, Entries.keys]) .nil ?_ (by simp)
    refine List.forall_mem_singleton.2 (.array ?_)
    simpa using Value.WellFormed.scalar rfl
  have hrun : Forwards.validate {} idRecord twoNulls .empty [] = some ((false,
      ⟨[[.key "no"], [.key "no", .index 0], [.key "no", .index 1], [.key "no"]]⟩), []) := rfl
  obtain ⟨d, hd, herrors, hall⟩ := validate_navigates {} idRecord hv twoNulls hx _ _ _ _ _ hrun
  refine ⟨hv, hx, d, hd, herrors.symm, fun f hf => ?_⟩
  obtain ⟨-, -, parent, s, container, u, hparent, -, haccess, -⟩ := hall f hf
  exact ⟨parent, hparent, by rw [haccess]; rfl⟩

end Conform
