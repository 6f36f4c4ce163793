import Conform.Proofs.Evaluation
import Conform.Proofs.Projectable

namespace Conform

namespace Forwards

/-- The validator of a field of the reserved name. No check of the object asks it, and the
projection asks it about undefined. -/
inductive Skips : Validator → Value → Validator → Prop
  | field {form fields exact o field} : field ∈ fields → field.1 = reservedKey →
    Skips (.object form fields exact) (.object o) field.2

/-- The validators that the projection of an accepted input asks about undefined, in place of
properties that the check skips. -/
inductive Unread (fs : Forwards) : Validator → Value → Validator → Prop
  | here {v x u} : Skips v x u → fs.Unread v x u
  | part {v x w y u} : fs.Asks v x w y → fs.Passes w y → fs.Unread w y u → fs.Unread v x u

variable {fs : Forwards} {u v : Validator} {x : Value}

theorem Skips.uses (h : Skips v x u) : fs.Uses v u := by
  cases h with
  | field hf => exact .part (List.mem_map_of_mem hf)

theorem Unread.reaches (h : fs.Unread v x u) : fs.Reaches v u := by
  induction h with
  | here h => exact .single h.uses
  | part hw _ _ ih => exact .head hw.uses ih

/-- An accepted input has a projection when each part has one that was asked for and passed, and
everything that was skipped has one of undefined. -/
theorem projectable_iff_of_passes (hv : v.IsBuiltin) (hp : fs.Passes v x) :
    fs.Projectable v x ↔ (∀ w y, fs.Asks v x w y → fs.Passes w y → fs.Projectable w y) ∧
      ∀ u, Skips v x u → fs.Projectable u .undefined := by
  cases v with
  | leaf l =>
    have hl : fs.Projectable (.leaf l) x := projectable_leaf.2 (passes_leaf.1 hp)
    exact ⟨fun _ => ⟨by rintro _ _ ⟨⟩, by rintro _ ⟨⟩⟩, fun _ => hl⟩
  | extension => exact hv.elim
  | optional v =>
    rw [projectable_optional]
    constructor
    · refine fun h => ⟨fun w y hw _ => ?_, by rintro _ ⟨⟩⟩
      cases hw with
      | optional hx => exact h.resolve_left (by simp [hx])
    · intro h
      cases hx : x.isNullish with
      | true => exact .inl rfl
      | false =>
        have hv := (passes_optional.1 hp).resolve_left (by simp [hx])
        exact .inr (h.1 v x (.optional hx) hv)
  | nullable v =>
    rw [projectable_nullable]
    constructor
    · refine fun h => ⟨fun w y hw _ => ?_, by rintro _ ⟨⟩⟩
      cases hw with
      | nullable hx => exact h.resolve_left (by simp [hx])
    · intro h
      cases hx : x.isNull with
      | true => exact .inl rfl
      | false =>
        have hv := (passes_nullable.1 hp).resolve_left (by simp [hx])
        exact .inr (h.1 v x (.nullable hx) hv)
  | erased v =>
    rw [projectable_erased]
    constructor
    · refine fun h => ⟨fun w y hw _ => ?_, by rintro _ ⟨⟩⟩
      cases hw with
      | erased => exact h
    · exact fun h => h.1 v x .erased (passes_erased.1 hp)
  | wrapped v =>
    rw [projectable_wrapped]
    constructor
    · refine fun h => ⟨fun w y hw _ => ?_, by rintro _ ⟨⟩⟩
      cases hw with
      | wrapped => exact h
    · exact fun h => h.1 v x .wrapped (passes_wrapped.1 hp)
  | array v =>
    obtain ⟨items, rfl, hitems⟩ := passes_array.1 hp
    simp only [projectable_array, Value.array.injEq, exists_eq_left']
    constructor
    · refine fun h => ⟨fun w y hw _ => ?_, by rintro _ ⟨⟩⟩
      cases hw with
      | item hy => exact h y hy
    · exact fun h y hy => h.1 v y (.item hy) (hitems y hy)
  | tuple form vs =>
    obtain ⟨items, rfl, hl, helements⟩ := passes_tuple.1 hp
    simp only [projectable_tuple, Value.array.injEq, exists_eq_left']
    constructor
    · refine fun h => ⟨fun w y hw _ => ?_, by rintro _ ⟨⟩⟩
      cases hw with
      | element hw =>
        obtain ⟨hi, rfl⟩ := List.getElem?_eq_some_iff.1 hw
        exact h.2 _ hi
    · exact fun h => ⟨hl, fun i hi =>
        h.1 _ _ (.element (List.getElem?_eq_getElem hi)) (helements i hi)⟩
  | record k v =>
    obtain ⟨o, rfl, hentries⟩ := passes_record.1 hp
    simp only [projectable_record, Value.object.injEq, exists_eq_left']
    constructor
    · refine fun h => ⟨fun w y hw _ => ?_, by rintro _ ⟨⟩⟩
      cases hw with
      | key he hk => exact (h _ he hk).1
      | entry he hk => exact (h _ he hk).2
    · exact fun h e he hk =>
        ⟨h.1 _ _ (.key he hk) (hentries e he hk).1, h.1 _ _ (.entry he hk) (hentries e he hk).2⟩
  | object form fields exact =>
    obtain ⟨o, rfl, hfields, -⟩ := passes_object.1 hp
    simp only [projectable_object, Value.object.injEq, exists_eq_left']
    constructor
    · refine fun h => ⟨fun w y hw _ => ?_, fun u hu => ?_⟩
      · cases hw with
        | field hf hk =>
          have := h _ hf
          rwa [Validator.fieldInput, if_neg hk] at this
      · cases hu with
        | field hf hk =>
          have := h _ hf
          rwa [Validator.fieldInput, if_pos hk] at this
    · intro h field hf
      rw [Validator.fieldInput]
      by_cases hk : field.1 = reservedKey
      · rw [if_pos hk]
        exact h.2 _ (.field hf hk)
      · rw [if_neg hk]
        exact h.1 _ _ (.field hf hk) (hfields field hf hk)
  | union form vs =>
    obtain ⟨d, hd, hpd⟩ := hp
    rw [judge_union] at hd
    rcases Verdict.search_map_cases hd with ⟨hr, -⟩ | ⟨-, before, v, after, rfl, hb, hv⟩
    · cases hpd.symm.trans hr
    · rw [projectable_union]
      constructor
      · rintro ⟨before', v', after', hvs, hb', hv', ho⟩
        refine ⟨fun w y hw hpw => ?_, by rintro _ ⟨⟩⟩
        cases hw with
        | alternative hvs' hb'' =>
          -- The check and the projection stop at one member, as only one is the first to pass.
          obtain ⟨-, rfl, -⟩ := first_unique (P := fun u => fs.Passes u x) (hvs'.symm.trans hvs)
            (fun u hu => Rejects.not_passes (hb'' u hu)) hpw
            (fun u hu => Rejects.not_passes (hb' u hu)) hv'
          exact ho
      · exact fun h => ⟨before, v, after, rfl, hb, hv, h.1 v x (.alternative rfl hb) hv⟩
  | intersection form vs =>
    have hall := passes_intersection.1 hp
    rw [projectable_intersection]
    constructor
    · refine fun h => ⟨fun w y hw _ => ?_, by rintro _ ⟨⟩⟩
      cases hw with
      | conjunct hvs => exact h w (by simp [hvs])
    · exact fun h v hm => h.1 v x (.of_mem_intersection hm hall) (hall v hm)
  | forward f =>
    obtain ⟨v, ht, hv⟩ := passes_forward.1 hp
    rw [projectable_forward]
    constructor
    · rintro ⟨v', ht', h⟩
      refine ⟨fun w y hw _ => ?_, by rintro _ ⟨⟩⟩
      cases hw with
      | target ht =>
        cases ht.symm.trans ht'
        exact h
    · exact fun h => ⟨v, ht, h.1 v x (.target ht) hv⟩

theorem projectable_iff_unread (hv : fs.Everywhere Validator.IsBuiltin v) (h : fs.Passes v x) :
    fs.Projectable v x ↔ ∀ u, fs.Unread v x u → fs.Projectable u .undefined := by
  obtain ⟨d, hd, hp⟩ := h
  refine judge_induction (P := fun v x d => fs.Everywhere Validator.IsBuiltin v →
    d.passed = true → (fs.Projectable v x ↔
      ∀ u, fs.Unread v x u → fs.Projectable u .undefined)) ?_ hd hv hp
  intro v x d hd ih hv hp
  have hpart : ∀ w y, fs.Asks v x w y → fs.Passes w y →
      (fs.Projectable w y ↔ ∀ u, fs.Unread w y u → fs.Projectable u .undefined) := by
    rintro w y hw ⟨e, he, hpe⟩
    obtain ⟨e', he', hiff⟩ := ih w y hw
    cases he.symm.trans he'
    exact hiff (hv.uses hw.uses) hpe
  rw [projectable_iff_of_passes hv.here ⟨d, hd, hp⟩]
  constructor
  · rintro ⟨hasks, hskips⟩ u hu
    cases hu with
    | here hu => exact hskips u hu
    | part hw hpw hu => exact (hpart _ _ hw hpw).1 (hasks _ _ hw hpw) u hu
  · exact fun hu => ⟨fun w y hw hpw => (hpart w y hw hpw).2 fun u hwu => hu u (.part hw hpw hwu),
      fun u hs => hu u (.here hs)⟩

def HasOutput (fs : Forwards) (v : Validator) (x : Value) : Prop :=
  ∀ log, ∃ o log', fs.project v x log = some (some o, log')

theorem hasOutput_iff_projectable (hv : fs.Everywhere Validator.IsLocal v) :
    fs.HasOutput v x ↔ fs.Projectable v x := by
  rw [HasOutput, project_eq hv]
  constructor
  · intro h
    obtain ⟨o, events, h⟩ := h []
    exact ⟨o, events, h⟩
  · rintro ⟨o, h⟩ log
    obtain ⟨events, h⟩ := (fs.appends_view v x).run_of_gives h log
    exact ⟨o, log ++ events, h⟩

/-- The parse of an accepted input is its projection. -/
theorem parse_of_judge (hv : fs.Everywhere Validator.IsLocal v) {d : Verdict}
    (hd : fs.judge v x = some d) (hp : d.passed = true) (log : Log) :
    fs.parse v x log = (fs.project v x (log ++ d.events .root)).bind fun r =>
      match r.1 with
      | some o => some (.ok o, r.2)
      | none => some (.error .unprojectable, r.2 ++ [.inputUnprojectable x.kind]) := by
  have hvalidate := validate_eq hv x .empty log
  rw [hd, Option.map_some, hp] at hvalidate
  change (fs.validate v x .empty log).bind _ = _
  rw [hvalidate, Option.bind_some]
  change (fs.project v x (log ++ d.events .root)).bind _ = _
  congr 1
  funext r
  obtain ⟨_ | o, log⟩ := r <;> rfl

/-- The parse of an accepted input succeeds exactly when there is an output. -/
theorem parse_ok_iff_of_passes (hv : fs.Everywhere Validator.IsLocal v) (h : fs.Passes v x) :
    (∀ log, ∃ o log', fs.parse v x log = some (.ok o, log')) ↔ fs.HasOutput v x := by
  obtain ⟨d, hd, hp⟩ := h
  have hparse := parse_of_judge hv hd hp
  rw [hasOutput_iff_projectable hv]
  constructor
  · intro h
    obtain ⟨o, log', h⟩ := h []
    rw [hparse, project_eq hv, Option.bind_eq_some_iff] at h
    obtain ⟨⟨_ | o, log⟩, hrun, h⟩ := h
    · cases h
    · exact ⟨o, (fs.appends_view v x).gives_of_run hrun⟩
  · rintro ⟨o, h⟩ log
    obtain ⟨events, h⟩ := (fs.appends_view v x).run_of_gives h (log ++ d.events .root)
    exact ⟨o, _, by rw [hparse, project_eq hv, h]; rfl⟩

end Forwards

def Validator.ReadsFields : Validator → Prop
  | .object _ fields _ => ∀ field ∈ fields, field.1 ≠ reservedKey
  | _ => True

theorem Forwards.Unread.exists_not_readsFields {fs : Forwards} {u v : Validator} {x : Value}
    (h : fs.Unread v x u) : ∃ w, fs.Reaches v w ∧ ¬w.ReadsFields := by
  induction h with
  | here h =>
    cases h with
    | field hf hk => exact ⟨_, .refl, fun h => h _ hf hk⟩
  | part hw _ _ ih =>
    obtain ⟨w, hreach, h⟩ := ih
    exact ⟨w, .head hw.uses hreach, h⟩

theorem Forwards.projectable_of_passes {fs : Forwards} {v : Validator} {x : Value}
    (hv : fs.Everywhere Validator.IsBuiltin v) (hread : fs.Everywhere Validator.ReadsFields v)
    (h : fs.Passes v x) : fs.Projectable v x := by
  refine (projectable_iff_unread hv h).2 fun u hu => ?_
  obtain ⟨w, hw, hn⟩ := hu.exists_not_readsFields
  exact absurd (hread w hw) hn

theorem Forwards.passes_of_check {fs : Forwards} {v : Validator}
    (hv : fs.Everywhere Validator.IsLocal v) {x : Value} {c c' : Option Context} {p : Path}
    {log log' : Log} (h : fs.check v x c p log = some ((true, c'), log')) : fs.Passes v x := by
  rw [check_eq hv, Option.map_eq_some_iff] at h
  obtain ⟨d, hd, h⟩ := h
  exact ⟨d, hd, congrArg (·.1.1) h⟩

theorem Forwards.hasOutput_iff_of_passes {fs : Forwards} {v : Validator}
    (hv : fs.Everywhere Validator.IsBuiltin v) {x : Value} (h : fs.Passes v x) :
    fs.HasOutput v x ↔ ∀ u, fs.Unread v x u → fs.HasOutput u .undefined := by
  have hlocal : fs.Everywhere Validator.IsLocal v := fun w hw => (hv w hw).isLocal
  rw [hasOutput_iff_projectable hlocal, projectable_iff_unread hv h]
  refine forall₂_congr fun u hu => ?_
  exact (hasOutput_iff_projectable fun w hw => hlocal w (hu.reaches.trans hw)).symm

/-- Where every field is read, an accepted input has an output and is parsed. -/
theorem hasOutput_of_check (fs : Forwards) (v : Validator)
    (hv : fs.Everywhere Validator.IsBuiltin v) (hread : fs.Everywhere Validator.ReadsFields v)
    (x : Value) (c c' : Option Context) (p : Path) (log log' : Log)
    (h : fs.check v x c p log = some ((true, c'), log')) :
    fs.HasOutput v x ∧ ∀ log, ∃ o log', fs.parse v x log = some (.ok o, log') := by
  have hlocal : fs.Everywhere Validator.IsLocal v := fun w hw => (hv w hw).isLocal
  have hpasses := Forwards.passes_of_check hlocal h
  have houtput : fs.HasOutput v x :=
    (Forwards.hasOutput_iff_projectable hlocal).2 (Forwards.projectable_of_passes hv hread hpasses)
  exact ⟨houtput, (Forwards.parse_ok_iff_of_passes hlocal hpasses).2 houtput⟩

/-- An accepted input has an output, and a parse, exactly when every validator that the check skips
has an output of undefined. -/
theorem hasOutput_iff_unread (fs : Forwards) (v : Validator)
    (hv : fs.Everywhere Validator.IsBuiltin v) (x : Value) (c c' : Option Context) (p : Path)
    (log log' : Log) (h : fs.check v x c p log = some ((true, c'), log')) :
    (fs.HasOutput v x ↔ ∀ u, fs.Unread v x u → fs.HasOutput u .undefined) ∧
      ((∀ log, ∃ o log', fs.parse v x log = some (.ok o, log')) ↔
        ∀ u, fs.Unread v x u → fs.HasOutput u .undefined) := by
  have hlocal : fs.Everywhere Validator.IsLocal v := fun w hw => (hv w hw).isLocal
  have hpasses := Forwards.passes_of_check hlocal h
  have houtput := Forwards.hasOutput_iff_of_passes hv hpasses
  exact ⟨houtput, (Forwards.parse_ok_iff_of_passes hlocal hpasses).trans houtput⟩

def optionalSkip : Validator := .object .tuple [("__proto__", .optional (.leaf .string))] true

theorem hasOutput_optionalSkip :
    Forwards.Everywhere {} Validator.IsBuiltin optionalSkip ∧
      Forwards.HasOutput {} optionalSkip (.object {}) ∧
      ∀ log, ∃ o log', Forwards.parse {} optionalSkip (.object {}) log = some (.ok o, log') := by
  have hv : Forwards.Everywhere {} Validator.IsBuiltin optionalSkip := by
    apply Forwards.everywhere_of_throughout <;>
      simp [optionalSkip, Validator.throughout_iff, Validator.parts, Validator.IsBuiltin]
  have hcheck : Forwards.check {} optionalSkip (.object {}) none .root [] =
      some ((true, none), []) := rfl
  obtain ⟨houtput, hparse⟩ := hasOutput_iff_unread {} optionalSkip hv _ none none .root [] [] hcheck
  have hunread : ∀ u, Forwards.Unread {} optionalSkip (.object {}) u →
      Forwards.HasOutput {} u .undefined := by
    intro u hu
    cases hu with
    | here hu =>
      cases hu with
      | field hf =>
        rw [List.mem_singleton.1 hf]
        exact fun log => ⟨.absent, log, rfl⟩
    | part hw =>
      cases hw with
      | field hf hk => exact absurd (congrArg Prod.fst (List.mem_singleton.1 hf)) hk
  exact ⟨hv, houtput.2 hunread, hparse.2 hunread⟩

/-- An object that may have anything under the reserved name, and is projected to itself. -/
def textSkip : Validator := .erased (.object .tuple [("__proto__", .leaf .string)] false)

/-- Not every accepted input has an output, even if it has the right thing under the reserved
name. -/
theorem not_hasOutput_textSkip :
    let x : Value := .object ⟨[("__proto__", .string "x")], []⟩
    Forwards.Everywhere {} Validator.IsBuiltin textSkip ∧
      Forwards.check {} textSkip x none .root [] = some ((true, none), []) ∧
      Forwards.project {} textSkip x [] = some (none, []) ∧
      Forwards.parse {} textSkip x [] =
        some (.error .unprojectable, [.inputUnprojectable .object]) := by
  refine ⟨?_, rfl, rfl, rfl⟩
  apply Forwards.everywhere_of_throughout <;>
    simp [textSkip, Validator.throughout_iff, Validator.parts, Validator.IsBuiltin]

end Conform
