import Conform.Proofs.Equivariance
import Conform.Proofs.Sites

namespace Conform

/-- The validator alone rejects the value at a site. An element past the last validator of a tuple
is always rejected. -/
def Site.rejected (fs : Forwards) (s : Site) : Bool :=
  match s.question with
  | some (v, x) => fs.askedAlone v x == some false
  | none => true

/-- An exact object passes every field that it checks, and its input has a key that none of its
fields declares. -/
def Forwards.Overflows (fs : Forwards) (v : Validator) (x : Value) : Prop :=
  ∃ form fields o, v = .object form fields true ∧ x = .object o ∧
    (∀ field ∈ fields, field.1 ≠ reservedKey →
      fs.askedAlone field.2 ((o.get? field.1).getD .undefined) = some true) ∧
    ∃ key ∈ o.keys, declares fields key = false

namespace Verdict

variable {d e : Verdict}

theorem path_ne_nil_of_mem_inside {s : Segment} {cause : Cause} {f : Failure}
    (hf : f ∈ (e.inside s cause).failures) : f.path ≠ [] := by
  rcases List.mem_append.1 hf with hf | hf
  · obtain ⟨g, -, rfl⟩ := List.mem_map.1 hf
    exact List.cons_ne_nil s g.path
  · cases hp : e.passed with
    | true => simp [hp] at hf
    | false =>
      rw [hp, if_neg Bool.false_ne_true, List.mem_singleton] at hf
      exact hf ▸ List.cons_ne_nil s []

def direct (d : Verdict) : List Path := (d.failures.map Failure.path).filter (·.length = 1)

theorem direct_and (d e : Verdict) : (d.and e).direct = d.direct ++ e.direct := by
  rw [direct, Verdict.and, List.map_append, List.filter_append]
  rfl

/-- What is reported inside a part lies deeper than the part, whose own path is reported when it is
rejected. -/
theorem direct_inside (h : ∀ f ∈ d.failures, f.path ≠ []) (s : Segment) (cause : Cause) :
    (d.inside s cause).direct = if d.passed then [] else [[s]] := by
  have hbelow : ((d.failures.map Failure.path).map (s :: ·)).filter (·.length = 1) = [] := by
    rw [List.filter_eq_nil_iff, List.forall_mem_map, List.forall_mem_map]
    intro f hf
    simpa using h f hf
  rw [direct, paths_inside, List.filter_append, hbelow]
  cases d.passed <;> rfl

theorem direct_and_silent (d : Verdict) (b : Bool) : (d.and { passed := b }).direct = d.direct := by
  rw [direct_and]
  exact List.append_nil _

theorem children_effect (d : Verdict) (p : Path) :
    (d.effect p).recorded.filter (·.length = p.length + 1) = d.direct.map (p ++ ·) := by
  rw [recorded_effect, List.filter_map, direct]
  congr 2
  funext r
  simp [Nat.add_comm p.length]

end Verdict

namespace Forwards

variable {fs : Forwards} {v w : Validator} {x y : Value} {d : Verdict}

/-- A validator that is not written by hand reports nothing at its own place. -/
theorem path_ne_nil_of_judge (hv : fs.Everywhere Validator.IsBuiltin v)
    (h : fs.judge v x = some d) : ∀ f ∈ d.failures, f.path ≠ [] := by
  refine judge_induction (P := fun v _ d => fs.Everywhere Validator.IsBuiltin v →
    ∀ f ∈ d.failures, f.path ≠ []) ?_ h hv
  intro v x d h ih hv
  have hasks : ∀ w y, fs.Asks v x w y → ∀ e, fs.judge w y = some e →
      ∀ f ∈ e.failures, f.path ≠ [] := by
    intro w y hw e he
    obtain ⟨e', he', hne⟩ := ih w y hw
    cases he.symm.trans he'
    exact hne (hv.uses hw.uses)
  cases decides_of_judge h with
  | alone | undefined => exact fun f hf => nomatch hf
  | written => exact hv.here.elim
  | defers hw hd => exact hasks _ _ hw.asks d hd
  | parts _ _ he =>
    intro f hf
    rw [Verdict.failures_and_silent] at hf
    obtain ⟨part, -, e, -, hf⟩ := Verdict.mem_failures_everyPart he hf
    exact Verdict.path_ne_nil_of_mem_inside hf
  | alternatives hs =>
    intro f hf
    obtain ⟨before, w, after, hvs, hb, e, he, hf⟩ := Verdict.mem_failures_search_map hs hf
    exact hasks w x (.alternative hvs hb) e he f hf
  | conjuncts hs =>
    intro f hf
    obtain ⟨before, w, after, hvs, hb, e, he, hf⟩ := Verdict.mem_failures_search_map hs hf
    exact hasks w x (.conjunct hvs hb) e he f hf

/-- The verdict at a site tells whether the site is rejected, and reports nothing there itself. -/
structure Sounds (fs : Forwards) (s : Site) (e : Verdict) : Prop where
  rejected : s.rejected fs = !e.passed
  deeper : ∀ f ∈ e.failures, f.path ≠ []

theorem sounds_of_verdict {s : Site}
    (hs : ∀ w y, s.question = some (w, y) → fs.Everywhere Validator.IsBuiltin w) {e : Verdict}
    (he : s.verdict fs = some e) : fs.Sounds s e := by
  obtain ⟨t, question⟩ := s
  cases question with
  | none =>
    cases he
    exact ⟨rfl, fun f hf => nomatch hf⟩
  | some q =>
    have hv := hs q.1 q.2 rfl
    have halone := (askedAlone_eq_some_iff fun u hu => (hv u hu).isLocal).2 ⟨e, he, rfl⟩
    refine ⟨?_, path_ne_nil_of_judge hv he⟩
    rw [Site.rejected]
    change (fs.askedAlone q.1 q.2 == some false) = _
    rw [halone]
    cases e.passed <;> rfl

/-- A container reports the sites that are rejected, each once, and passes when there are none. -/
theorem direct_of_everyPart {sites : List Site} {parts : List Verdict.Part}
    (hs : List.Forall₂ (Site.Yields fs) sites parts) (h : Verdict.everyPart parts = some d)
    (hsound : ∀ s ∈ sites, ∀ e, s.verdict fs = some e → fs.Sounds s e) :
    d.direct = (sites.filter (·.rejected fs)).map (fun s => [s.segment]) ∧
      (d.passed = false ↔ d.direct ≠ []) := by
  induction hs generalizing d with
  | nil =>
    cases h
    exact ⟨rfl, by simp [Verdict.direct]⟩
  | @cons s part sites parts hpart _ ih =>
    obtain ⟨hs, hrest⟩ := List.forall_mem_cons.1 hsound
    obtain ⟨e, he, h⟩ := Option.bind_eq_some_iff.1 h
    obtain ⟨r, hr, h⟩ := Option.bind_eq_some_iff.1 h
    cases h
    obtain ⟨hdirect, hpassed⟩ := ih hr hrest
    have hse := hs e (hpart.verdict ▸ he)
    have hand : ∀ t cause, ((e.inside t cause).and r).passed = (e.passed && r.passed) :=
      fun _ _ => rfl
    rw [Verdict.direct_and, Verdict.direct_inside hse.deeper, hpart.segment, List.filter_cons,
      hse.rejected, hdirect, hand]
    cases hp : e.passed with
    | true =>
      rw [hdirect] at hpassed
      simpa using hpassed
    | false => simp

/-- A container is judged when all of its sites are. -/
theorem judge_isSome_iff_of_opens (ho : v.Opens x) :
    (fs.judge v x).isSome ↔ ∀ s ∈ v.sites x, (s.verdict fs).isSome := by
  obtain ⟨parts, hparts, hj⟩ := judge_of_opens fs ho
  rw [hj, Option.isSome_map, Verdict.everyPart_isSome_iff]
  exact (forall_mem_iff_of_forall₂ hparts fun s part h => by rw [h.verdict]).symm

/-- The validators at the sites of a container, asked alone, answer. -/
theorem askedAlone_of_mem_sites (hv : fs.Everywhere Validator.IsBuiltin v) {s : Site}
    (hs : s ∈ v.sites x) (hq : s.question = some (w, y)) :
    fs.askedAlone w y = (s.verdict fs).map Verdict.passed := by
  have hasks : fs.Asks v x w y := asks_of_mem_sites hs hq
  have hw := hv.uses hasks.uses
  rw [askedAlone_eq fun u hu => (hw u hu).isLocal, Site.verdict, hq]

theorem overflows_iff (hv : fs.Everywhere Validator.IsBuiltin v) (ho : v.Opens x)
    (hsome : ∀ s ∈ v.sites x, (s.verdict fs).isSome) :
    fs.Overflows v x ↔ (∀ s ∈ v.sites x, s.rejected fs = false) ∧ v.admitsKeys x = false := by
  cases ho with
  | @object form fields exact o =>
    have hsites : (∀ s ∈ (Validator.object form fields exact).sites (.object o),
        s.rejected fs = false) ↔ ∀ field ∈ fields, field.1 ≠ reservedKey →
          fs.askedAlone field.2 ((o.get? field.1).getD .undefined) = some true := by
      rw [Validator.sites, List.forall_mem_map]
      simp only [mem_unreserved, and_imp]
      refine forall₃_congr fun field hf hk => ?_
      have hm : ⟨.key field.1, some (field.2, (o.get? field.1).getD .undefined)⟩ ∈
          (Validator.object form fields exact).sites (.object o) :=
        List.mem_map.2 ⟨field, mem_unreserved.2 ⟨hf, hk⟩, rfl⟩
      have halone := askedAlone_of_mem_sites hv hm rfl
      obtain ⟨e, he⟩ := Option.isSome_iff_exists.1 (hsome _ hm)
      rw [he, Option.map_some] at halone
      rw [Site.rejected]
      change (fs.askedAlone field.2 _ == some false) = false ↔ _
      rw [halone]
      cases e.passed <;> simp
    have hkeys : (Validator.object form fields exact).admitsKeys (.object o) = false ↔
        exact = true ∧ ∃ key ∈ o.keys, declares fields key = false := by
      simp [Validator.admitsKeys]
    rw [hsites, hkeys]
    constructor
    · rintro ⟨_, _, _, h, h', hall, hkey⟩
      cases h
      cases h'
      exact ⟨hall, rfl, hkey⟩
    · rintro ⟨hall, rfl, hkey⟩
      exact ⟨_, _, _, rfl, rfl, hall, hkey⟩
  | _ =>
    refine iff_of_false ?_ fun ⟨_, h⟩ => nomatch h
    rintro ⟨_, _, _, h, -⟩
    cases h

/-- What a container reports of its sites themselves, and when it rejects. -/
theorem direct_of_judge (hv : fs.Everywhere Validator.IsBuiltin v) (ho : v.Opens x)
    (h : fs.judge v x = some d) :
    d.direct = ((v.sites x).filter (·.rejected fs)).map (fun s => [s.segment]) ∧
      (d.passed = false ↔ d.direct ≠ [] ∨ fs.Overflows v x) ∧
      (fs.Overflows v x → d.direct = []) := by
  have hsome := (judge_isSome_iff_of_opens ho).1 (Option.isSome_of_eq_some h)
  have hoverflows := overflows_iff hv ho hsome
  obtain ⟨parts, hparts, hjudge⟩ := judge_of_opens fs ho
  rw [h] at hjudge
  obtain ⟨e, he, rfl⟩ := Option.map_eq_some_iff.1 hjudge.symm
  obtain ⟨hdirect, hpassed⟩ := direct_of_everyPart hparts he fun s hs e he =>
    sounds_of_verdict (fun w y hq => hv.uses (asks_of_mem_sites hs hq).uses) he
  have hnone : (∀ s ∈ v.sites x, s.rejected fs = false) ↔ e.direct = [] := by
    simp [hdirect, List.filter_eq_nil_iff]
  rw [hnone] at hoverflows
  rw [Verdict.direct_and_silent]
  refine ⟨hdirect, ?_, fun hkeys => (hoverflows.1 hkeys).1⟩
  change (e.passed && v.admitsKeys x) = false ↔ _
  rw [Bool.and_eq_false_iff, hpassed, hoverflows]
  by_cases hd : e.direct = [] <;> simp [hd]

end Forwards

/-- A container appends one path for each part that its validator rejects alone, in order, and
rejects for such a path or an undeclared key. -/
theorem check_reports_children (fs : Forwards) (v : Validator)
    (hv : fs.Everywhere Validator.IsBuiltin v) (x : Value) (p : Path) :
    ((∀ c log, fs.check v x c p log = none) ∧
      (v.Opens x → ∃ s ∈ v.sites x, ∃ w y, s.question = some (w, y) ∧
        fs.askedAlone w y = none)) ∨
    ∃ e, fs.Performs v x p e ∧ (∀ r ∈ e.recorded, p <+: r ∧ r ≠ p) ∧
      (v.Opens x →
        let children := e.recorded.filter (·.length = p.length + 1)
        (∀ s ∈ v.sites x, ∀ w y, s.question = some (w, y) → (fs.askedAlone w y).isSome) ∧
        children = ((v.sites x).filter (·.rejected fs)).map (p.push ·.segment) ∧
        (e.passed = false ↔ children ≠ [] ∨ fs.Overflows v x) ∧
        (fs.Overflows v x → children = [])) := by
  have hlocal : fs.Everywhere Validator.IsLocal v := fun w hw => (hv w hw).isLocal
  cases hj : fs.judge v x with
  | none =>
    refine .inl ⟨fun c log => by rw [Forwards.check_eq hlocal, hj]; rfl, fun ho => ?_⟩
    have hnone : ¬∀ s ∈ v.sites x, (s.verdict fs).isSome := by
      rw [← Forwards.judge_isSome_iff_of_opens ho, hj]
      exact Bool.false_ne_true
    simp only [not_forall, exists_prop, Option.not_isSome_iff_eq_none] at hnone
    obtain ⟨⟨t, question⟩, hs, hn⟩ := hnone
    cases question with
    | none => cases hn
    | some q =>
      refine ⟨_, hs, q.1, q.2, rfl, ?_⟩
      rw [Forwards.askedAlone_of_mem_sites hv hs rfl, hn]
      rfl
  | some d =>
    refine .inr ⟨d.effect p, Forwards.performs_of_judge hlocal hj p, ?_, fun ho => ?_⟩
    · intro r hr
      obtain ⟨f, hf, rfl⟩ := List.mem_map.1 hr
      refine ⟨List.prefix_append p f.path, ?_⟩
      simpa using Forwards.path_ne_nil_of_judge hv hj f hf
    · obtain ⟨hdirect, hpassed, hempty⟩ := Forwards.direct_of_judge hv ho hj
      have hsome := (Forwards.judge_isSome_iff_of_opens ho).1 (Option.isSome_of_eq_some hj)
      intro children
      have hchildren : children = d.direct.map (p ++ ·) := Verdict.children_effect d p
      refine ⟨fun s hs w y hq => ?_, ?_, ?_, fun hkeys => ?_⟩
      · rw [Forwards.askedAlone_of_mem_sites hv hs hq, Option.isSome_map]
        exact hsome s hs
      · rw [hchildren, hdirect, List.map_map]
        rfl
      · rw [hchildren, ne_eq, List.map_eq_nil_iff]
        exact hpassed
      · rw [hchildren, hempty hkeys, List.map_nil]

def file : Validator :=
  .object .tuple
    [("size", .union .list [.array (.leaf .number), .record (.leaf .string) (.leaf .number),
      .leaf .any]), ("__proto__", .leaf .null), ("owner", .optional (.leaf .string))] true

/-- The size is a list without a number, and the mode is declared by no field. -/
def fileWithMode : Value := .object ⟨[("size", .array [.null]), ("mode", .string "r")], []⟩

theorem check_fileWithMode :
    Forwards.Everywhere {} Validator.IsBuiltin file ∧ file.Opens fileWithMode ∧
      Forwards.Overflows {} file fileWithMode ∧
      ∃ e, Forwards.Performs {} file fileWithMode [.key "at"] e ∧ e.passed = false ∧
        e.recorded = [[.key "at", .key "size", .index 0]] ∧
        e.recorded.filter (·.length = 2) = [] := by
  have hv : Forwards.Everywhere {} Validator.IsBuiltin file := by
    apply Forwards.everywhere_of_throughout <;>
      simp [file, Validator.throughout_iff, Validator.parts, Validator.IsBuiltin]
  have hkeys : Forwards.Overflows {} file fileWithMode := by
    refine ⟨_, _, _, rfl, rfl, ?_, "mode", by simp [ObjectOf.keys, Entries.keys], rfl⟩
    simp only [List.forall_mem_cons, List.not_mem_nil, false_implies, implies_true, and_true]
    exact ⟨fun _ => rfl, fun h => absurd rfl h, fun _ => rfl⟩
  rcases check_reports_children {} file hv fileWithMode [.key "at"] with
    ⟨hnone, -⟩ | ⟨e, he, -, hchildren⟩
  · have hsome : (Forwards.check {} file fileWithMode none [.key "at"] []).isSome := rfl
    rw [hnone] at hsome
    cases hsome
  · obtain ⟨-, -, hpassed, hempty⟩ := hchildren .object
    have hlocal : Forwards.Everywhere {} Validator.IsLocal file := fun w hw => (hv w hw).isLocal
    obtain rfl := he.unique (Forwards.performs_of_judge hlocal rfl _)
    exact ⟨hv, .object, hkeys, _, he, hpassed.2 (.inr hkeys), rfl, hempty hkeys⟩

end Conform
