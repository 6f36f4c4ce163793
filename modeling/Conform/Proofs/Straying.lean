import Conform.Proofs.Certification
import Conform.Proofs.Sites
import Conform.Proofs.Termination

namespace Conform

namespace Projecting

variable {α β : Type} {c : Projecting α}

def Returns (c : Projecting α) : Prop := (c.run []).isSome

theorem returns_pure (a : α) : (pure a : Projecting α).Returns := rfl

theorem returns_failure : (failure : Projecting α).Returns := rfl

theorem returns_ofOption (o : Option α) : Returns (OptionT.mk (return o)) := rfl

theorem Gives.returns {a : α} (h : c.Gives a) : c.Returns := by
  obtain ⟨events, h⟩ := h
  rw [Returns, h, Option.isSome_some]

theorem Appends.isSome_run (hc : c.Appends) (h : c.Returns) (log : Log) : (c.run log).isSome := by
  rw [hc log, Option.isSome_map]
  exact h

/-- What comes after a projection is only run on an output of it. -/
theorem Returns.bind {k : α → Projecting β} (hc : c.Returns) (hk : ∀ a, (k a).Appends)
    (h : ∀ a, c.Gives a → (k a).Returns) : (c >>= k).Returns := by
  obtain ⟨⟨o, events⟩, hrun⟩ := Option.isSome_iff_exists.1 hc
  rw [Returns, run_bind, hrun, Option.bind_some]
  cases o with
  | none => rfl
  | some a => exact (hk a).isSome_run (h a ⟨events, hrun⟩) events

theorem Returns.map (hc : c.Returns) (f : α → β) : (c >>= fun a => pure (f a)).Returns :=
  hc.bind (fun a => appends_pure (f a)) fun a _ => returns_pure (f a)

/-- Projections in a row return when each returns that is reached. -/
theorem returns_mapM {l : List α} {f : α → Projecting β} (hf : ∀ a ∈ l, (f a).Appends)
    (h : ∀ before a after, l = before ++ a :: after → (∀ b ∈ before, ∃ o, (f b).Gives o) →
      (f a).Returns) : (l.mapM f).Returns := by
  induction l with
  | nil => exact returns_pure []
  | cons a rest ih =>
    obtain ⟨-, hrest⟩ := List.forall_mem_cons.1 hf
    rw [List.mapM_cons]
    refine (h [] a rest rfl (by simp)).bind
      (fun o => (appends_mapM hrest).bind fun os => appends_pure _) fun o ho => ?_
    refine Returns.map (ih hrest fun before b after hl hb => ?_) _
    exact h (a :: before) b after (by rw [hl]; rfl) (List.forall_mem_cons.2 ⟨⟨o, ho⟩, hb⟩)

theorem returns_mapM_of_forall {l : List α} {f : α → Projecting β} (hf : ∀ a ∈ l, (f a).Appends)
    (h : ∀ a ∈ l, (f a).Returns) : (l.mapM f).Returns :=
  returns_mapM hf fun before a after hl _ => h a (by simp [hl])

end Projecting

/-- Outside of unions, the check asks an exact object about an object with a key that it does not
declare. -/
inductive Forwards.Strays (fs : Forwards) : Validator → Value → Prop
  | here {form fields o key} : key ∈ o.keys → declares fields key = false →
    fs.Strays (.object form fields true) (.object o)
  | part {v x w y} : ¬v.IsUnion → fs.Asks v x w y → fs.Strays w y → fs.Strays v x

namespace Forwards

open Projecting

variable {fs : Forwards} {v : Validator} {x : Value}

/-- Members of an intersection that have a projection pass, if this holds of those that are
asked. -/
theorem forall_passes_of_projectable {form : Form} {before after : List Validator}
    (h : ∀ w, fs.Asks (.intersection form (before ++ after)) x w x → fs.Projectable w x →
      fs.Passes w x) (hb : ∀ u ∈ before, fs.Projectable u x) : ∀ u ∈ before, fs.Passes u x := by
  -- From the front on: a member is asked when all before it pass.
  induction before using List.reverseRecOn generalizing after with
  | nil => simp
  | append_singleton before u ih =>
    rw [List.append_assoc] at h
    rw [List.forall_mem_append] at hb ⊢
    have hbefore := ih h hb.1
    refine ⟨hbefore, fun w hw => ?_⟩
    obtain rfl := List.mem_singleton.1 hw
    exact h w (.conjunct rfl hbefore) (hb.2 w hw)

/-- One step: what has a projection passes, if nothing strays and this holds of the parts. -/
theorem passes_of_projectable_of_asks {d : Verdict} (hv : v.IsBuiltin)
    (hj : fs.judge v x = some d) (hs : ¬fs.Strays v x)
    (h : ∀ w y, ¬v.IsUnion → fs.Asks v x w y → fs.Projectable w y → fs.Passes w y)
    (hp : fs.Projectable v x) : fs.Passes v x := by
  cases v with
  | leaf => exact passes_leaf.2 (projectable_leaf.1 hp)
  | extension => exact hv.elim
  | optional v =>
    rw [passes_optional]
    cases hx : x.isNullish with
    | true => exact .inl rfl
    | false =>
      have hv := (projectable_optional.1 hp).resolve_left (by simp [hx])
      exact .inr (h _ _ id (.optional hx) hv)
  | nullable v =>
    rw [passes_nullable]
    cases hx : x.isNull with
    | true => exact .inl rfl
    | false =>
      have hv := (projectable_nullable.1 hp).resolve_left (by simp [hx])
      exact .inr (h _ _ id (.nullable hx) hv)
  | erased v => exact passes_erased.2 (h _ _ id .erased (projectable_erased.1 hp))
  | wrapped v => exact passes_wrapped.2 (h _ _ id .wrapped (projectable_wrapped.1 hp))
  | array v =>
    obtain ⟨items, rfl, hitems⟩ := projectable_array.1 hp
    exact passes_array.2 ⟨items, rfl, fun y hy => h _ _ id (.item hy) (hitems y hy)⟩
  | tuple form vs =>
    obtain ⟨items, rfl, hl, helements⟩ := projectable_tuple.1 hp
    exact passes_tuple.2 ⟨items, rfl, hl, fun i hi =>
      h _ _ id (.element (List.getElem?_eq_getElem hi)) (helements i hi)⟩
  | record k v =>
    obtain ⟨o, rfl, hentries⟩ := projectable_record.1 hp
    exact passes_record.2 ⟨o, rfl, fun e he hk =>
      ⟨h _ _ id (.key he hk) (hentries e he hk).1, h _ _ id (.entry he hk) (hentries e he hk).2⟩⟩
  | object form fields exact =>
    obtain ⟨o, rfl, hfields⟩ := projectable_object.1 hp
    refine passes_object.2 ⟨o, rfl, fun field hf hk => h _ _ id (.field hf hk) ?_, ?_⟩
    · have hfield := hfields field hf
      rwa [Validator.fieldInput, if_neg hk] at hfield
    · rintro rfl key hkey
      by_contra hdeclares
      exact hs (.here hkey (Bool.eq_false_of_not_eq_true hdeclares))
  | union form vs =>
    obtain ⟨before, v, after, rfl, -, hv, -⟩ := projectable_union.1 hp
    rw [passes_iff_of_judge hj]
    rw [judge_union] at hj
    rcases Verdict.search_map_cases hj with ⟨-, hall⟩ | ⟨hd, -⟩
    · exact absurd hv (Rejects.not_passes (hall v (by simp)))
    · exact hd
  | intersection form vs =>
    have hall := projectable_intersection.1 hp
    have hasked : ∀ w, fs.Asks (.intersection form (vs ++ [])) x w x → fs.Projectable w x →
        fs.Passes w x := by
      rw [List.append_nil]
      exact fun w => h w x id
    exact passes_intersection.2 (forall_passes_of_projectable hasked hall)
  | forward f =>
    obtain ⟨v, ht, hv⟩ := projectable_forward.1 hp
    exact passes_forward.2 ⟨v, ht, h _ _ id (.target ht) hv⟩

/-- What has a projection passes, unless something strays. -/
theorem passes_of_projectable {d : Verdict} (hv : fs.Everywhere Validator.IsBuiltin v)
    (hj : fs.judge v x = some d) (hs : ¬fs.Strays v x) (hp : fs.Projectable v x) :
    fs.Passes v x := by
  refine judge_induction (P := fun v x _ => fs.Everywhere Validator.IsBuiltin v →
    ¬fs.Strays v x → fs.Projectable v x → fs.Passes v x) ?_ hj hv hs hp
  intro v x d hj ih hv hs
  refine passes_of_projectable_of_asks hv.here hj hs fun w y hu hw => ?_
  obtain ⟨e, -, hpart⟩ := ih w y hw
  exact hpart (hv.uses hw.uses) fun hwy => hs (.part hu hw hwy)

theorem returns_answer {d : Option Verdict} (h : d.isSome) :
    Returns (OptionT.lift (answer d)) := by
  obtain ⟨e, rfl⟩ := Option.isSome_iff_exists.1 h
  rfl

/-- The choice of a union's member returns if the judgements of members return, and the projection
of one that passes. -/
theorem returns_projectFirst {form : Form} {vs : List Validator} {i : Nat}
    (h : ∀ before v after, vs = before ++ v :: after → (∀ u ∈ before, fs.Rejects u x) →
      (fs.judge v x).isSome ∧ (fs.Passes v x → (fs.view v x).Returns)) :
    (Validator.projectFirst (fs.projectTarget fs.view)
      (fun w y => answer (fs.judge w y)) form vs i x).Returns := by
  induction vs generalizing i with
  | nil => exact returns_failure
  | cons v rest ih =>
    obtain ⟨hjudge, hview⟩ := h [] v rest rfl (by simp)
    rw [Validator.projectFirst, projectWith_view]
    refine (returns_answer hjudge).bind (fs.appends_choice form v rest x i) fun b hb => ?_
    have hv : ∃ d, fs.judge v x = some d ∧ d.passed = b := gives_answer.1 hb
    cases b with
    | true => exact (hview hv).map _
    | false =>
      refine ih fun before w after hrest hbefore => ?_
      exact h (v :: before) w after (by rw [hrest]; rfl) (List.forall_mem_cons.2 ⟨hv, hbefore⟩)

/-- A projection returns when the check does, and the projections of what it asks for; of a union's
members only those that pass. -/
theorem view_returns_of_asks (hv : v.IsBuiltin) (hread : v.ReadsFields)
    (hasked : ∀ w y, fs.Asks v x w y → (fs.judge w y).isSome)
    (hview : ∀ w y, fs.Asks v x w y → (v.IsUnion → fs.Passes w y) → (fs.view w y).Returns)
    (hpasses : ∀ w y, ¬v.IsUnion → fs.Asks v x w y → fs.Projectable w y → fs.Passes w y) :
    (fs.view v x).Returns := by
  rw [view_eq]
  cases v with
  | leaf => exact returns_ofOption _
  | extension => exact hv.elim
  | optional v =>
    rw [Validator.projectWith, projectWith_view]
    cases hx : x.isNullish with
    | true => exact returns_pure _
    | false => exact (hview v x (.optional hx) False.elim).map _
  | nullable v =>
    rw [Validator.projectWith, projectWith_view]
    cases hx : x.isNull with
    | true => exact returns_pure _
    | false => exact (hview v x (.nullable hx) False.elim).map _
  | erased v =>
    rw [Validator.projectWith, projectWith_view]
    exact (hview v x .erased False.elim).map _
  | wrapped v =>
    rw [Validator.projectWith, projectWith_view]
    exact hview v x .wrapped False.elim
  | array v =>
    cases x with
    | array items =>
      rw [Validator.projectWith, projectWith_view]
      refine Returns.map (returns_mapM_of_forall (fun y _ => fs.appends_view v y) ?_) _
      exact fun y hy => hview v y (.item hy) False.elim
    | _ => exact returns_failure
  | tuple form vs =>
    cases x with
    | array items =>
      rw [Validator.projectWith, Validator.projectElements_eq_mapM, projectWith_view]
      by_cases hl : vs.length < items.length
      · rw [if_pos hl]
        exact returns_failure
      · rw [if_neg hl]
        refine Returns.map (returns_mapM_of_forall (fun e _ => fs.appends_view e.1 e.2) ?_) _
        intro e he
        obtain ⟨i, hi, rfl⟩ := List.mem_mapIdx.1 he
        exact hview _ _ (.element (List.getElem?_eq_getElem hi)) False.elim
    | _ => exact returns_failure
  | record k v =>
    cases x with
    | object o =>
      rw [Validator.projectWith, projectWith_view]
      refine Returns.map (returns_mapM_of_forall (fun e _ => ?_) fun e he => ?_) _
      · exact (fs.appends_view k _).bind fun _ => (fs.appends_view v _).bind fun _ => appends_pure _
      · obtain ⟨he, hk⟩ := mem_unreserved.1 he
        refine (hview k _ (.key he hk) False.elim).bind
          (fun _ => (fs.appends_view v _).bind fun _ => appends_pure _) fun _ _ => ?_
        exact (hview v _ (.entry he hk) False.elim).map _
    | _ => exact returns_failure
  | object form fields exact =>
    cases x with
    | object o =>
      rw [Validator.projectWith, Validator.projectFields_eq_mapM, projectWith_view]
      refine Returns.map (returns_mapM_of_forall (fun field _ => ?_) fun field hf => ?_) _
      · exact (fs.appends_view _ _).bind fun _ => appends_pure _
      · have hk := hread field hf
        refine Returns.map ?_ _
        rw [Validator.fieldInput, if_neg hk]
        exact hview _ _ (.field hf hk) False.elim
    | _ => exact returns_failure
  | union form vs =>
    rw [Validator.projectWith]
    refine returns_projectFirst fun before v after hvs hb => ?_
    have hv : fs.Asks (.union form vs) x v x := .alternative hvs hb
    exact ⟨hasked v x hv, fun hp => hview v x hv fun _ => hp⟩
  | intersection form vs =>
    rw [Validator.projectWith, Validator.projectEach_eq_mapM, projectWith_view]
    refine Returns.map (returns_mapM (fun v _ => fs.appends_view v x) ?_) _
    rintro before v after rfl hb
    -- A member is projected after those before it, and the check has asked it, as they pass.
    have hbefore := forall_passes_of_projectable (fun w => hpasses w x id) hb
    exact hview v x (.conjunct rfl hbefore) False.elim
  | forward f =>
    rw [Validator.projectWith]
    cases ht : fs.target? f with
    | none =>
      rw [projectTarget_of_undefined _ x ht]
      exact returns_failure
    | some v =>
      rw [projectTarget_of_defined _ x ht]
      exact hview v x (.target ht) False.elim

/-- Where fields are read and nothing strays, a projection returns if the check does. -/
theorem view_returns {d : Verdict} (hv : fs.Everywhere Validator.IsBuiltin v)
    (hread : fs.Everywhere Validator.ReadsFields v) (hj : fs.judge v x = some d)
    (hs : ¬fs.Strays v x) : (fs.view v x).Returns := by
  refine judge_induction (P := fun v x _ => fs.Everywhere Validator.IsBuiltin v →
    fs.Everywhere Validator.ReadsFields v → ¬fs.Strays v x → (fs.view v x).Returns) ?_
    hj hv hread hs
  intro v x d hj ih hv hread hs
  refine view_returns_of_asks hv.here hread.here (fun w y hw => ?_) (fun w y hw hp => ?_)
    fun w y hu hw => ?_
  · obtain ⟨e, he, -⟩ := ih w y hw
    rw [he, Option.isSome_some]
  · obtain ⟨e, he, hreturns⟩ := ih w y hw
    have hvw := hv.uses hw.uses
    have hreadw := hread.uses hw.uses
    by_cases hu : v.IsUnion
    · obtain ⟨o, ho⟩ := projectable_of_passes hvw hreadw (hp hu)
      exact Gives.returns ho
    · exact hreturns hvw hreadw fun hwy => hs (.part hu hw hwy)
  · obtain ⟨e, he, -⟩ := ih w y hw
    exact passes_of_projectable (hv.uses hw.uses) he fun hwy => hs (.part hu hw hwy)

theorem rejects_of_check (hv : fs.Everywhere Validator.IsLocal v) {c c' : Option Context} {p : Path}
    {log log' : Log} (h : fs.check v x c p log = some ((false, c'), log')) : fs.Rejects v x := by
  rw [check_eq hv, Option.map_eq_some_iff] at h
  obtain ⟨d, hd, h⟩ := h
  exact ⟨d, hd, congrArg (·.1.1) h⟩

end Forwards

/-- A rejected input has no projection unless it strays: outside of unions, an exact object takes
undeclared keys when it projects. -/
theorem project_none_of_check (fs : Forwards) (v : Validator)
    (hv : fs.Everywhere Validator.IsBuiltin v) (x : Value) (c c' : Option Context) (p : Path)
    (log log' : Log) (h : fs.check v x c p log = some ((false, c'), log'))
    (hs : ¬fs.Strays v x) :
    (∀ log o log', fs.project v x log = some (o, log') → o = none) ∧
      (fs.Guarded v ∨ fs.Everywhere Validator.ReadsFields v →
        ∀ log, ∃ log', fs.project v x log = some (none, log')) := by
  have hlocal : fs.Everywhere Validator.IsLocal v := fun w hw => (hv w hw).isLocal
  obtain ⟨d, hd, hreject⟩ := Forwards.rejects_of_check hlocal h
  have hnone : ¬fs.Projectable v x := fun hp =>
    Forwards.Rejects.not_passes ⟨d, hd, hreject⟩ (Forwards.passes_of_projectable hv hd hs hp)
  have hall : ∀ log o log', fs.project v x log = some (o, log') → o = none := by
    intro log o log' hrun
    rw [← Option.not_isSome_iff_eq_none, Forwards.projectable_iff_of_project hlocal hrun]
    exact hnone
  refine ⟨hall, fun hreturns log => ?_⟩
  have hsome : (fs.project v x log).isSome := by
    rcases hreturns with hg | hread
    · exact hg.project_isSome x log
    · rw [Forwards.project_eq hlocal]
      exact (fs.appends_view v x).isSome_run (Forwards.view_returns hv hread hd hs) log
  obtain ⟨⟨o, after⟩, hrun⟩ := Option.isSome_iff_exists.1 hsome
  cases hall log o after hrun
  exact ⟨after, hrun⟩

def oneName : Validator := .object .tuple [("name", .leaf .string)] true

def plainName : Value := .object ⟨[("name", .string "a")], []⟩

def agedName : Value := .object ⟨[("name", .string "b"), ("age", .null)], []⟩

def chosenNames : Validator := .array (.union .list [oneName])

def twoNames : Value := .array [plainName, agedName]

/-- In a union an exact object takes no undeclared keys when it projects. -/
theorem project_twoNames :
    Forwards.Everywhere {} Validator.IsBuiltin chosenNames ∧
      Forwards.check {} chosenNames twoNames none .root [] = some ((false, none), []) ∧
      ¬Forwards.Strays {} chosenNames twoNames ∧
      Forwards.Everywhere {} Validator.ReadsFields chosenNames ∧
      ∀ log, ∃ log', Forwards.project {} chosenNames twoNames log = some (none, log') := by
  have hv : Forwards.Everywhere {} Validator.IsBuiltin chosenNames := by
    apply Forwards.everywhere_of_throughout <;>
      simp [chosenNames, oneName, Validator.throughout_iff, Validator.parts, Validator.IsBuiltin]
  have hread : Forwards.Everywhere {} Validator.ReadsFields chosenNames := by
    apply Forwards.everywhere_of_throughout <;>
      simp [chosenNames, oneName, Validator.throughout_iff, Validator.parts, Validator.ReadsFields,
        reservedKey]
  have hcheck : Forwards.check {} chosenNames twoNames none .root [] =
      some ((false, none), []) := rfl
  have hs : ¬Forwards.Strays {} chosenNames twoNames := by
    intro h
    cases h with
    | part _ hw hstrays =>
      cases hw with
      | item =>
        cases hstrays with
        | part hu => exact hu trivial
  obtain ⟨-, hnone⟩ := project_none_of_check {} chosenNames hv twoNames _ _ _ _ _ hcheck hs
  exact ⟨hv, hcheck, hs, hread, hnone (.inr hread)⟩

/-- Not every rejected input is without a projection. -/
theorem project_agedName :
    Forwards.Everywhere {} Validator.IsBuiltin oneName ∧
      Forwards.check {} oneName agedName none .root [] = some ((false, none), []) ∧
      Forwards.project {} oneName agedName [] = some (some (.tuple [.text "b"]), []) := by
  refine ⟨?_, rfl, rfl⟩
  apply Forwards.everywhere_of_throughout <;>
    simp [oneName, Validator.throughout_iff, Validator.parts, Validator.IsBuiltin]

end Conform
