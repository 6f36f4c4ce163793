import Conform.Proofs.Equivariance
import Conform.Proofs.Sites
import Conform.Proofs.Termination
import Mathlib.Data.List.Flatten

namespace Conform

/-- The judgement of a validator on an input comes to a reference that is not defined. -/
inductive Forwards.Misses (fs : Forwards) : Validator → Value → Prop
  | here {f x} : fs.target? f = none → fs.Misses (.forward f) x
  | asked {v x w y} : fs.Asks v x w y → fs.Misses w y → fs.Misses v x

namespace Verdict

variable {d e : Verdict}

/-- What passes has met no undefined reference. The places of those that were met are reported, if
the reference does not stand for the whole validator. -/
structure FailsClosed (d : Verdict) : Prop where
  silent : d.passed = true → d.undefined = []
  reported : d.undefined = [[]] ∨ d.undefined.Sublist (d.failures.map Failure.path)

theorem failsClosed_of_silent (h : d.undefined = []) : d.FailsClosed where
  silent _ := h
  reported := .inr (h ▸ List.nil_sublist _)

/-- A container reports each part that it rejects, after what was reported inside the part. -/
theorem FailsClosed.inside (h : d.FailsClosed) (s : Segment) (cause : Cause) :
    (d.inside s cause).undefined.Sublist ((d.inside s cause).failures.map Failure.path) := by
  rw [paths_inside]
  change (d.undefined.map (s :: ·)).Sublist _
  cases hp : d.passed with
  | true =>
    rw [h.silent hp]
    exact List.nil_sublist _
  | false =>
    rcases h.reported with hd | hd
    · rw [hd]
      exact List.sublist_append_right _ _
    · exact (hd.map _).trans (List.sublist_append_left _ _)

theorem failsClosed_of_everyPart {parts : List Part} (h : everyPart parts = some d)
    (hparts : ∀ part ∈ parts, ∀ e, part.verdict = some e → e.FailsClosed) (b : Bool) :
    (d.and { passed := b }).FailsClosed := by
  obtain ⟨hall, rfl⟩ := everyPart_eq_some_iff.1 h
  have hfound : ∀ part ∈ parts, ∃ e : Verdict, e.FailsClosed ∧
      part.found = e.inside part.segment part.cause := by
    intro part hm
    obtain ⟨e, he⟩ := Option.isSome_iff_exists.1 (hall part hm)
    exact ⟨e, hparts part hm e he, by rw [Part.found, he]; rfl⟩
  refine ⟨fun hp => ?_, .inr ?_⟩
  · obtain ⟨hpassed, -⟩ := Bool.and_eq_true_iff.1 hp
    rw [undefined_and_silent, total, List.flatMap_eq_nil_iff]
    intro part hm
    obtain ⟨e, he, hf⟩ := hfound part hm
    have hpart := List.all_eq_true.1 hpassed part hm
    rw [hf] at hpart ⊢
    rw [Verdict.inside, he.silent hpart, List.map_nil]
  · rw [undefined_and_silent, failures_and_silent, total, List.map_flatMap]
    refine List.Sublist.flatMap_right parts fun part hm => ?_
    obtain ⟨e, he, hf⟩ := hfound part hm
    rw [hf]
    exact he.inside _ _

/-- An undefined reference ends an intersection, and nothing was met before it. -/
theorem FailsClosed.orElse (hd : d.FailsClosed) (he : e.FailsClosed) (hp : d.passed = true) :
    (d.orElse e).FailsClosed := by
  have hundefined : (d.orElse e).undefined = e.undefined := by
    rw [Verdict.orElse, hd.silent hp, List.nil_append]
  refine ⟨fun hpe => hundefined.trans (he.silent hpe), ?_⟩
  rw [hundefined, Verdict.orElse, List.map_append]
  exact he.reported.imp_right fun h => h.trans (List.sublist_append_right _ _)

theorem undefined_everyPart_ne_nil_iff {parts : List Part} (h : everyPart parts = some d) :
    d.undefined ≠ [] ↔ ∃ part ∈ parts, ∃ e, part.verdict = some e ∧ e.undefined ≠ [] := by
  obtain ⟨hall, rfl⟩ := everyPart_eq_some_iff.1 h
  simp only [total, ne_eq, List.flatMap_eq_nil_iff, not_forall, exists_prop]
  refine exists_congr fun part => and_congr_right fun hm => ?_
  obtain ⟨e, he⟩ := Option.isSome_iff_exists.1 (hall part hm)
  simp [Part.found, he, Verdict.inside]

theorem undefined_search_ne_nil_iff {α : Type} {stop : Bool} {as : List α}
    {f : α → Option Verdict} (h : search stop (as.map f) = some d) :
    d.undefined ≠ [] ↔ ∃ before a after, as = before ++ a :: after ∧
      (∀ b ∈ before, ∃ e, f b = some e ∧ e.passed = !stop) ∧
      ∃ e, f a = some e ∧ e.undefined ≠ [] := by
  constructor
  · intro hd
    by_contra hnone
    refine hd (search_closed (P := fun d => d.undefined = []) rfl ?_ h ?_)
    · intro e r _ he hr
      rw [Verdict.orElse, he, hr, List.append_nil]
    · intro before a after hsplit hb e he
      by_contra hne
      exact hnone ⟨before, a, after, hsplit, hb, e, he, hne⟩
  · rintro ⟨before, a, after, rfl, hb, e, he, hne⟩
    induction before generalizing d with
    | nil =>
      obtain ⟨e', he', h⟩ := Option.bind_eq_some_iff.1 h
      cases he.symm.trans he'
      by_cases hp : e.passed = stop
      · rw [if_pos hp] at h
        cases h
        exact hne
      · rw [if_neg hp] at h
        obtain ⟨r, -, h⟩ := Option.bind_eq_some_iff.1 h
        cases h
        exact List.append_ne_nil_of_left_ne_nil hne _
    | cons b rest ih =>
      obtain ⟨⟨e', he', hp⟩, hrest⟩ := List.forall_mem_cons.1 hb
      obtain ⟨e'', he'', h⟩ := Option.bind_eq_some_iff.1 h
      cases he'.symm.trans he''
      rw [if_neg (by simp [hp])] at h
      obtain ⟨r, hr, h⟩ := Option.bind_eq_some_iff.1 h
      cases h
      exact List.append_ne_nil_of_right_ne_nil _ (ih hr hrest)

end Verdict

namespace Forwards

variable {fs : Forwards} {v w : Validator} {x y : Value} {d : Verdict}

theorem Defers.eq_of_asks (h : fs.Defers v x w) {u : Validator} (hu : fs.Asks v x u y) :
    u = w ∧ y = x := by
  cases h with
  | target ht =>
    cases hu with
    | target ht' => exact ⟨Option.some.inj (ht'.symm.trans ht), rfl⟩
  | _ =>
    cases hu
    exact ⟨rfl, rfl⟩

theorem exists_site_of_asks (ho : v.Opens x) (h : fs.Asks v x w y) :
    ∃ s ∈ v.sites x, s.question = some (w, y) := by
  cases ho with
  | array =>
    cases h with
    | item hy =>
      obtain ⟨i, hi, rfl⟩ := List.mem_iff_getElem.1 hy
      exact ⟨_, List.mem_mapIdx.2 ⟨i, hi, rfl⟩, rfl⟩
  | @tuple _ vs items =>
    cases h with
    | @element _ _ _ i _ hv =>
      have hi : i < max vs.length items.length :=
        lt_max_of_lt_left (List.getElem?_eq_some_iff.1 hv).1
      exact ⟨_, List.mem_map_of_mem (List.mem_range.2 hi), by rw [hv]; rfl⟩
  | record =>
    cases h with
    | key he hk =>
      exact ⟨_, List.mem_flatMap.2 ⟨_, mem_unreserved.2 ⟨he, hk⟩, List.mem_cons_self⟩, rfl⟩
    | entry he hk =>
      exact ⟨_, List.mem_flatMap.2 ⟨_, mem_unreserved.2 ⟨he, hk⟩,
        List.mem_cons_of_mem _ List.mem_cons_self⟩, rfl⟩
  | object =>
    cases h with
    | field hm hk => exact ⟨_, List.mem_map_of_mem (mem_unreserved.2 ⟨hm, hk⟩), rfl⟩

/-- Undefined references are noted exactly where the judgement comes to one. -/
theorem undefined_ne_nil_iff_misses (h : fs.judge v x = some d) :
    d.undefined ≠ [] ↔ fs.Misses v x := by
  refine judge_induction (P := fun v x d => d.undefined ≠ [] ↔ fs.Misses v x) ?_ h
  intro v x d h ih
  have hasks : ∀ w y e, fs.Asks v x w y → fs.judge w y = some e →
      (e.undefined ≠ [] ↔ fs.Misses w y) := by
    intro w y e hw he
    obtain ⟨e', he', hiff⟩ := ih w y hw
    cases he.symm.trans he'
    exact hiff
  cases decides_of_judge h with
  | alone _ hn =>
    refine iff_of_false (fun hne => hne rfl) fun hm => ?_
    cases hm with
    | here ht => cases h.symm.trans (judge_forward_of_undefined x ht)
    | asked hw => exact hn _ _ hw
  | written =>
    refine iff_of_false (fun hne => hne rfl) fun hm => ?_
    cases hm with
    | asked hw => cases hw
  | undefined ht => exact iff_of_true (List.cons_ne_nil _ _) (.here ht)
  | @defers _ _ w _ hw hd =>
    rw [hasks w x d hw.asks hd]
    refine ⟨.asked hw.asks, fun hm => ?_⟩
    cases hm with
    | here ht =>
      cases hw with
      | target ht' => cases ht.symm.trans ht'
    | asked ha hm =>
      obtain ⟨rfl, rfl⟩ := hw.eq_of_asks ha
      exact hm
  | parts ho hparts he =>
    rw [Verdict.undefined_and_silent, Verdict.undefined_everyPart_ne_nil_iff he]
    constructor
    · rintro ⟨part, hm, e, he, hne⟩
      obtain ⟨⟨t, question⟩, hs, hy⟩ := exists_left_of_forall₂ hparts hm
      rw [hy.verdict] at he
      cases question with
      | none =>
        cases he
        exact absurd rfl hne
      | some q =>
        have hw : fs.Asks v x q.1 q.2 := asks_of_mem_sites hs rfl
        exact .asked hw ((hasks _ _ e hw he).1 hne)
    · intro hm
      cases hm with
      | here => cases ho
      | @asked _ _ w y hw hm =>
        obtain ⟨⟨t, question⟩, hs, rfl⟩ := exists_site_of_asks ho hw
        obtain ⟨part, hpart, hy⟩ := exists_right_of_forall₂ hparts hs
        obtain ⟨e, he, hiff⟩ := ih w y hw
        exact ⟨part, hpart, e, hy.verdict.trans he, hiff.2 hm⟩
  | @alternatives form vs _ _ hs =>
    rw [Verdict.undefined_search_ne_nil_iff hs]
    constructor
    · rintro ⟨before, u, after, hvs, hb, e, he, hne⟩
      have hw : fs.Asks (.union form vs) x u x := .alternative hvs hb
      exact .asked hw ((hasks u x e hw he).1 hne)
    · intro hm
      cases hm with
      | asked hw hm =>
        obtain ⟨e, he, hiff⟩ := ih _ _ hw
        cases hw with
        | alternative hvs hb => exact ⟨_, _, _, hvs, hb, e, he, hiff.2 hm⟩
  | @conjuncts form vs _ _ hs =>
    rw [Verdict.undefined_search_ne_nil_iff hs]
    constructor
    · rintro ⟨before, u, after, hvs, hb, e, he, hne⟩
      have hw : fs.Asks (.intersection form vs) x u x := .conjunct hvs hb
      exact .asked hw ((hasks u x e hw he).1 hne)
    · intro hm
      cases hm with
      | asked hw hm =>
        obtain ⟨e, he, hiff⟩ := ih _ _ hw
        cases hw with
        | conjunct hvs hb => exact ⟨_, _, _, hvs, hb, e, he, hiff.2 hm⟩

/-- Without unions, a judgement fails closed. -/
theorem failsClosed_of_judge (hv : fs.Everywhere Validator.IsBuiltin v)
    (hu : fs.Everywhere (¬·.IsUnion) v) (h : fs.judge v x = some d) : d.FailsClosed := by
  refine judge_induction (P := fun v _ d => fs.Everywhere Validator.IsBuiltin v →
    fs.Everywhere (¬·.IsUnion) v → d.FailsClosed) ?_ h hv hu
  intro v x d h ih hv hu
  have hasks : ∀ w y, fs.Asks v x w y → ∀ e, fs.judge w y = some e → e.FailsClosed := by
    intro w y hw e he
    obtain ⟨e', he', hclosed⟩ := ih w y hw
    cases he.symm.trans he'
    exact hclosed (hv.uses hw.uses) (hu.uses hw.uses)
  cases decides_of_judge h with
  | alone => exact Verdict.failsClosed_of_silent rfl
  | written => exact hv.here.elim
  | undefined => exact ⟨nofun, .inl rfl⟩
  | defers hw hd => exact hasks _ _ hw.asks d hd
  | parts ho hparts he =>
    refine Verdict.failsClosed_of_everyPart he (fun part hm e hpart => ?_) _
    obtain ⟨⟨t, question⟩, hs, hy⟩ := exists_left_of_forall₂ hparts hm
    rw [hy.verdict] at hpart
    cases question with
    | none =>
      cases hpart
      exact Verdict.failsClosed_of_silent rfl
    | some q => exact hasks _ _ (asks_of_mem_sites hs rfl) e hpart
  | alternatives => exact absurd trivial hu.here
  | conjuncts hs =>
    refine Verdict.search_closed (Verdict.failsClosed_of_silent rfl) ?_ hs ?_
    · exact fun e r hp he hr => he.orElse hr hp
    · exact fun before w after hvs hb e he => hasks w x (.conjunct hvs hb) e he

end Forwards

namespace Projecting

def Quiet {α : Type} (c : Projecting α) : Prop := ∀ log r, c.run log = some r → r.2 = log

theorem quiet_congruence : Congruence fun _ c _ => c.Quiet where
  pure a log r h := by
    cases h
    rfl
  failure log r h := by
    cases h
    rfl
  bind {α β c _ k _} hc hk log r h := by
    rw [run_bind, Option.bind_eq_some_iff] at h
    obtain ⟨⟨_ | a, log'⟩, hlog, h⟩ := h
    · cases h
      exact hc log _ hlog
    · exact (hk a log' r h).trans (hc log _ hlog)

end Projecting

namespace Forwards

variable {fs : Forwards} {v : Validator} {x : Value}

/-- Without unions, a projection checks nothing, and a projection alone does not log. -/
theorem quiet_projectWithin (hu : fs.Everywhere (¬·.IsUnion) v) (n : Nat) (x : Value) :
    (fs.projectWithin n v x).Quiet := by
  have hparts := Everywhere.inherited fs fun v => ¬v.IsUnion
  induction n generalizing v x with
  | zero =>
    refine Validator.projectWith_closed_of_union Projecting.quiet_congruence hparts
      (fun f y hf => ?_) (fun form vs y hw => absurd trivial hw.here) v x hu
    exact projectTarget_closed Projecting.quiet_congruence fun _ => nofun
  | succ n ih =>
    refine Validator.projectWith_closed_of_union Projecting.quiet_congruence hparts
      (fun f y hf => ?_) (fun form vs y hw => absurd trivial hw.here) v x hu
    exact @projectTarget_related fs f _ Projecting.quiet_congruence (fs.projectWithin n)
      (fs.projectWithin n) y fun w ht => ih (hf.target ht) y

end Forwards

/-- Without unions, a check that comes to an undefined reference says so and rejects, and records
the places that it names, in order. -/
theorem check_fails_closed (fs : Forwards) (v : Validator)
    (hv : fs.Everywhere Validator.IsBuiltin v) (hu : fs.Everywhere (¬·.IsUnion) v)
    (hg : fs.Guarded v) (x : Value) :
    (∀ p, ∃ e places, fs.Performs v x p e ∧ e.events = places.map .forwardUndefined ∧
      (places ≠ [] → e.passed = false) ∧ (places = [p] ∨ places.Sublist e.recorded) ∧
      (places ≠ [] ↔ fs.Misses v x)) ∧
    ∀ log, ∃ o, fs.project v x log = some (o, log) := by
  have hlocal : fs.Everywhere Validator.IsLocal v := fun w hw => (hv w hw).isLocal
  obtain ⟨d, hd⟩ := Option.isSome_iff_exists.1 (hg.judge_isSome x)
  have hclosed := Forwards.failsClosed_of_judge hv hu hd
  refine ⟨fun p => ⟨d.effect p, d.undefined.map (p ++ ·), Forwards.performs_of_judge hlocal hd p,
    List.map_map.symm, fun hne => ?_, ?_, ?_⟩, fun log => ?_⟩
  · cases hp : d.passed with
    | false => exact hp
    | true => simp [hclosed.silent hp] at hne
  · rw [Verdict.recorded_effect]
    rcases hclosed.reported with hroot | hsub
    · exact .inl (by rw [hroot]; simp)
    · exact .inr (hsub.map _)
  · rw [← Forwards.undefined_ne_nil_iff_misses hd, ne_eq, List.map_eq_nil_iff]
  · obtain ⟨⟨o, log'⟩, hrun⟩ := Option.isSome_iff_exists.1 (hg.project_isSome x log)
    obtain rfl : log' = log := Forwards.quiet_projectWithin hu _ x log _ hrun
    exact ⟨o, hrun⟩

def notes : Forwards where
  cells := [some (.object .tuple
    [("tags", .optional (.record (.forward ⟨1⟩) (.forward ⟨1⟩))),
      ("notes", .array (.intersection .list [.nullable (.forward ⟨0⟩), .leaf .any]))] true), none]

def taggedNote : Value :=
  .object ⟨[("notes", .array [.null,
    .object ⟨[("tags", .object ⟨[("a", .null)], []⟩), ("notes", .array [])], []⟩])], []⟩

/-- The tag, where the whole is the eighth item of something. -/
def tagPlace : Path := [.index 7, .key "notes", .index 1, .key "tags", .key "a"]

theorem check_taggedNote :
    notes.Everywhere Validator.IsBuiltin (.forward ⟨0⟩) ∧
      notes.Everywhere (¬·.IsUnion) (.forward ⟨0⟩) ∧ notes.Guarded (.forward ⟨0⟩) ∧
      notes.Misses (.forward ⟨0⟩) taggedNote ∧
      ∃ recorded, notes.Performs (.forward ⟨0⟩) taggedNote [.index 7]
          ⟨false, recorded, [.forwardUndefined tagPlace, .forwardUndefined tagPlace]⟩ ∧
        [tagPlace, tagPlace].Sublist recorded := by
  have hv : notes.Everywhere Validator.IsBuiltin (.forward ⟨0⟩) := by
    apply Forwards.everywhere_of_throughout <;>
      simp [notes, Validator.throughout_iff, Validator.parts, Validator.IsBuiltin]
  have hu : notes.Everywhere (¬·.IsUnion) (.forward ⟨0⟩) := by
    apply Forwards.everywhere_of_throughout <;>
      simp [notes, Validator.throughout_iff, Validator.parts, Validator.IsUnion]
  have hg : notes.Guarded (.forward ⟨0⟩) := by
    apply Forwards.guarded_of_cells
    intro w u hw hs
    simp only [notes, List.mem_cons, Option.some.injEq, reduceCtorEq, List.not_mem_nil,
      or_false] at hw
    subst hw
    cases hs
  obtain ⟨hcheck, -⟩ := check_fails_closed notes _ hv hu hg taggedNote
  obtain ⟨e, places, hrun, hevents, -, hreported, hmisses⟩ := hcheck [.index 7]
  have hlocal : notes.Everywhere Validator.IsLocal (.forward ⟨0⟩) := fun w hw => (hv w hw).isLocal
  obtain rfl := hrun.unique (Forwards.performs_of_judge hlocal rfl _)
  have hinj : Function.Injective Event.forwardUndefined := fun _ _ h => Event.forwardUndefined.inj h
  obtain rfl : places = [tagPlace, tagPlace] := hinj.list_map hevents.symm
  exact ⟨hv, hu, hg, hmisses.1 (List.cons_ne_nil _ _), _, hrun, hreported.resolve_left (by simp)⟩

end Conform
