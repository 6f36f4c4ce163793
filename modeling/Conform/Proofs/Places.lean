import Conform.Proofs.Equivariance
import Conform.Proofs.Guarded
import Conform.Proofs.Sites

namespace Conform

inductive Place where
  | mk (site : Site) (below : List Place)

/-- A place by the way to it, and which value is put to which validator there. -/
structure Visit where
  path : Path
  question : Option (Validator × Value)

def Visit.below (s : Segment) (visit : Visit) : Visit := { visit with path := s :: visit.path }

mutual

/-- A place stands after everything below it. -/
def Place.postorder : Place → List Visit
  | .mk site below =>
    (Place.postorders below).map (.below site.segment) ++ [⟨[site.segment], site.question⟩]

def Place.postorders : List Place → List Visit
  | [] => []
  | place :: rest => place.postorder ++ Place.postorders rest

end

theorem Place.postorders_eq_flatMap (places : List Place) :
    postorders places = places.flatMap postorder := by
  induction places with
  | nil => rfl
  | cons place rest ih => rw [postorders, ih, List.flatMap_cons]

/-- The places below the root that a check comes to, decided by the validator that the input is left
to. Nothing is below what a modifier absorbs. -/
inductive Forwards.Unfolds (fs : Forwards) : Validator → Value → List Place → Prop
  | defers {v w x places} : fs.Defers v x w → fs.Unfolds w x places → fs.Unfolds v x places
  | sites {v x} (below : Site → List Place) : (∀ w, ¬fs.Defers v x w) →
    (∀ s ∈ v.sites x, ∀ w y, s.question = some (w, y) → fs.Unfolds w y (below s)) →
    (∀ s ∈ v.sites x, s.question = none → below s = []) →
    fs.Unfolds v x ((v.sites x).map fun s => .mk s (below s))

/-- The validator alone rejects the value there. Where there is no validator, nothing passes. -/
def Visit.rejected (fs : Forwards) (visit : Visit) : Bool :=
  match visit.question with
  | some (v, x) => (fs.isValid v x []).map Prod.fst = some false
  | none => true

namespace Forwards

variable {fs : Forwards} {v w : Validator} {x y : Value} {d : Verdict} {places : List Place}

theorem Unfolds.unique {places' : List Place} (h : fs.Unfolds v x places)
    (h' : fs.Unfolds v x places') : places = places' := by
  induction h generalizing places' with
  | defers hw _ ih =>
    cases h' with
    | defers hw' h' =>
      cases hw.unique hw'
      exact ih h'
    | sites _ hn => exact absurd hw (hn _)
  | sites below hn _ hnone ih =>
    cases h' with
    | defers hw => exact absurd hw (hn _)
    | sites below' _ hsome' hnone' =>
      apply List.map_congr_left
      intro s hs
      congr 1
      cases hq : s.question with
      | none => rw [hnone s hs hq, hnone' s hs hq]
      | some q => exact ih s hs _ _ hq (hsome' s hs _ _ hq)

/-- What is asked anywhere concerns a validator that occurs. -/
theorem Unfolds.reaches (h : fs.Unfolds v x places) :
    ∀ visit ∈ Place.postorders places, ∀ w y, visit.question = some (w, y) → fs.Reaches v w := by
  induction h with
  | defers hw _ ih =>
    exact fun visit hm w y hq => .head hw.asks.uses (ih visit hm w y hq)
  | @sites v x below _ _ hnone ih =>
    intro visit hm w y hq
    rw [Place.postorders_eq_flatMap] at hm
    obtain ⟨_, hplace, hm⟩ := List.mem_flatMap.1 hm
    obtain ⟨s, hs, rfl⟩ := List.mem_map.1 hplace
    rcases List.mem_append.1 hm with hm | hm
    · obtain ⟨inner, hinner, rfl⟩ := List.mem_map.1 hm
      cases hs' : s.question with
      | none =>
        rw [hnone s hs hs'] at hinner
        cases hinner
      | some q => exact .head (asks_of_mem_sites hs hs').uses (ih s hs _ _ hs' inner hinner w y hq)
    · rw [List.mem_singleton.1 hm] at hq
      exact .single (asks_of_mem_sites hs hq).uses

def rejectedPaths (fs : Forwards) (places : List Place) : List Path :=
  ((Place.postorders places).filter (·.rejected fs)).map Visit.path

theorem rejectedPaths_cons (s : Site) (below rest : List Place) :
    fs.rejectedPaths (.mk s below :: rest) =
      (fs.rejectedPaths below).map (s.segment :: ·) ++
        (if Visit.rejected fs ⟨[s.segment], s.question⟩ then [[s.segment]] else []) ++
        fs.rejectedPaths rest := by
  have hbelow : ((Place.postorders below).map (Visit.below s.segment)).filter (Visit.rejected fs) =
      ((Place.postorders below).filter (Visit.rejected fs)).map (Visit.below s.segment) :=
    List.filter_map
  simp only [rejectedPaths, Place.postorders, Place.postorder, List.filter_append, List.map_append,
    hbelow, List.map_map]
  congr 2
  cases h : Visit.rejected fs ⟨[s.segment], s.question⟩ <;> simp [h]

theorem rejected_eq_not_passed (hw : fs.Everywhere Validator.IsLocal w)
    (hd : fs.judge w y = some d) (p : Path) :
    Visit.rejected fs ⟨p, some (w, y)⟩ = !d.passed := by
  have hvalid := isValid_eq hw y []
  rw [hd] at hvalid
  cases hp : d.passed <;> simp [Visit.rejected, hvalid, hp]

structure Accounts (fs : Forwards) (s : Site) (below : List Place) : Prop where
  unfolds : ∀ w y, s.question = some (w, y) → fs.Unfolds w y below
  empty : s.question = none → below = []
  reported : ∀ e, s.verdict fs = some e → e.failures.map Failure.path = fs.rejectedPaths below
  rejected : ∀ e, s.verdict fs = some e →
    Visit.rejected fs ⟨[s.segment], s.question⟩ = !e.passed

theorem accounts_of_surplus (t : Segment) : fs.Accounts ⟨t, none⟩ [] where
  unfolds _ _ h := nomatch h
  empty _ := rfl
  reported _ h := by
    cases h
    rfl
  rejected _ h := by
    cases h
    rfl

theorem accounts_of_judge (t : Segment) (hw : fs.Everywhere Validator.IsLocal w)
    (hd : fs.judge w y = some d) (hu : fs.Unfolds w y places)
    (hp : d.failures.map Failure.path = fs.rejectedPaths places) :
    fs.Accounts ⟨t, some (w, y)⟩ places where
  unfolds _ _ h := by
    cases h
    exact hu
  empty h := nomatch h
  reported e he := by
    cases hd.symm.trans he
    exact hp
  rejected e he := by
    cases hd.symm.trans he
    exact rejected_eq_not_passed hw hd [t]

theorem rejectedPaths_of_everyPart {sites : List Site} {below : Site → List Place}
    {parts : List Verdict.Part} (hs : List.Forall₂ (Site.Yields fs) sites parts)
    (h : Verdict.everyPart parts = some d) (hb : ∀ s ∈ sites, fs.Accounts s (below s)) :
    d.failures.map Failure.path = fs.rejectedPaths (sites.map fun s => .mk s (below s)) := by
  induction hs generalizing d with
  | nil =>
    cases h
    rfl
  | @cons s part sites parts hpart _ ih =>
    obtain ⟨hs, hb⟩ := List.forall_mem_cons.1 hb
    obtain ⟨e, he, h⟩ := Option.bind_eq_some_iff.1 h
    obtain ⟨r, hr, h⟩ := Option.bind_eq_some_iff.1 h
    cases h
    rw [hpart.verdict] at he
    rw [List.map_cons, rejectedPaths_cons, ← ih hr hb, ← hs.reported e he, hs.rejected e he,
      hpart.segment]
    cases hp : e.passed <;> simp [Verdict.and, Verdict.inside, Failure.below, hp]

/-- Without unions and intersections, a judgement that returns unfolds into places, and reports
those that are rejected. -/
theorem exists_unfolds_of_judge (hv : fs.Everywhere Validator.IsBuiltin v)
    (hu : fs.Everywhere (¬·.IsUnion) v) (hi : fs.Everywhere (¬·.IsIntersection) v)
    (h : fs.judge v x = some d) :
    ∃ places, fs.Unfolds v x places ∧ d.failures.map Failure.path = fs.rejectedPaths places := by
  refine judge_induction (P := fun v x d => fs.Everywhere Validator.IsBuiltin v →
    fs.Everywhere (¬·.IsUnion) v → fs.Everywhere (¬·.IsIntersection) v →
    ∃ places, fs.Unfolds v x places ∧ d.failures.map Failure.path = fs.rejectedPaths places)
    ?_ h hv hu hi
  intro v x d h ih hv hu hi
  by_cases hw : ∃ w, fs.Defers v x w
  · obtain ⟨w, hw⟩ := hw
    obtain ⟨e, he, hplaces⟩ := ih w x hw.asks
    rw [hw.judge_eq, he] at h
    cases h
    have huse := hw.asks.uses
    obtain ⟨places, hunfolds, hpaths⟩ := hplaces (hv.uses huse) (hu.uses huse) (hi.uses huse)
    exact ⟨places, .defers hw hunfolds, hpaths⟩
  · have hw := not_exists.1 hw
    obtain ⟨parts, e, hparts, he, hfailures, -⟩ := gathers_of_judge hv.here hu.here hi.here hw h
    have hsites : ∀ s ∈ v.sites x, ∃ below, fs.Accounts s below := by
      rintro ⟨t, _ | ⟨w, y⟩⟩ hs
      · exact ⟨[], accounts_of_surplus t⟩
      · have hasks : fs.Asks v x w y := asks_of_mem_sites hs rfl
        have hv := hv.uses hasks.uses
        obtain ⟨a, ha, hplaces⟩ := ih w y hasks
        obtain ⟨below, hunfolds, hpaths⟩ := hplaces hv (hu.uses hasks.uses) (hi.uses hasks.uses)
        exact ⟨below, accounts_of_judge t (fun u hu => (hv u hu).isLocal) ha hunfolds hpaths⟩
    choose! below hbelow using hsites
    refine ⟨_, .sites below hw (fun s hs => (hbelow s hs).unfolds) fun s hs => (hbelow s hs).empty,
      ?_⟩
    rw [hfailures]
    exact rejectedPaths_of_everyPart hparts he hbelow

end Forwards

/-- Without unions and intersections, the recorded paths are exactly those of the places rejected
alone, and of surplus elements, each after those below it. -/
theorem check_records_rejected (fs : Forwards) (v : Validator)
    (hv : fs.Everywhere Validator.IsBuiltin v) (hu : fs.Everywhere (¬·.IsUnion) v)
    (hi : fs.Everywhere (¬·.IsIntersection) v) (hg : fs.Guarded v) (x : Value) :
    ∃ places, fs.Unfolds v x places ∧ (∀ places', fs.Unfolds v x places' → places' = places) ∧
      (∀ visit ∈ Place.postorders places, ∀ w y, visit.question = some (w, y) →
        ∃ b, ∀ log, ∃ log', fs.isValid w y log = some (b, log')) ∧
      ∀ (c : Context) (p : Path) (log : Log), ∃ b log', fs.check v x (some c) p log =
        some ((b, some { errors := c.errors ++
          ((Place.postorders places).filter (·.rejected fs)).map (p ++ ·.path) }), log') := by
  have hlocal : fs.Everywhere Validator.IsLocal v := fun w hw => (hv w hw).isLocal
  obtain ⟨d, hd⟩ := Option.isSome_iff_exists.1 (hg.judge_isSome x)
  obtain ⟨places, hunfolds, hpaths⟩ := Forwards.exists_unfolds_of_judge hv hu hi hd
  refine ⟨places, hunfolds, fun _ h => h.unique hunfolds, fun visit hm w y hq => ?_,
    fun c p log => ⟨d.passed, log ++ d.events p, ?_⟩⟩
  · have hw := hunfolds.reaches visit hm w y hq
    obtain ⟨e, he⟩ := Option.isSome_iff_exists.1 ((hg.reaches hw).judge_isSome y)
    refine ⟨e.passed, fun log => ⟨log ++ e.events .root, ?_⟩⟩
    rw [Forwards.isValid_eq (fun u hu => hlocal u (hw.trans hu)), he]
    rfl
  · have hmap : (d.failures.map Failure.path).map (p ++ ·) =
        ((Place.postorders places).filter (·.rejected fs)).map (p ++ ·.path) := by
      rw [hpaths, Forwards.rejectedPaths, List.map_map]
      rfl
    rw [Forwards.check_eq hlocal, hd, ← hmap, List.map_map]
    rfl

def twigs : Forwards where
  cells := [some (.object .tuple
    [("tags", .optional (.record (.leaf (.enum ["a"])) (.tuple .tuple [.leaf .string]))),
      ("twigs", .array (.forward ⟨0⟩))] true)]

/-- One tag is wrong in its name and in its length, and one twig has no list of twigs. -/
def badTwig : Value :=
  .object ⟨[("tags", .object ⟨[("b", .array [.string "", .null])], []⟩),
    ("twigs", .array [.object ⟨[("twigs", .null)], []⟩, .object ⟨[("twigs", .array [])], []⟩])], []⟩

theorem check_badTwig :
    twigs.Everywhere Validator.IsBuiltin (.forward ⟨0⟩) ∧
      twigs.Everywhere (¬·.IsUnion) (.forward ⟨0⟩) ∧
      twigs.Everywhere (¬·.IsIntersection) (.forward ⟨0⟩) ∧ twigs.Guarded (.forward ⟨0⟩) ∧
      ∃ places, twigs.Unfolds (.forward ⟨0⟩) badTwig places ∧
        ((Place.postorders places).filter (·.rejected twigs)).map Visit.path =
          [[.key "tags", .key "b"], [.key "tags", .key "b", .index 1], [.key "tags", .key "b"],
            [.key "tags"], [.key "twigs", .index 0, .key "twigs"], [.key "twigs", .index 0],
            [.key "twigs"]] := by
  have hv : twigs.Everywhere Validator.IsBuiltin (.forward ⟨0⟩) := by
    apply Forwards.everywhere_of_throughout <;>
      simp [twigs, Validator.throughout_iff, Validator.parts, Validator.IsBuiltin]
  have hu : twigs.Everywhere (¬·.IsUnion) (.forward ⟨0⟩) := by
    apply Forwards.everywhere_of_throughout <;>
      simp [twigs, Validator.throughout_iff, Validator.parts, Validator.IsUnion]
  have hi : twigs.Everywhere (¬·.IsIntersection) (.forward ⟨0⟩) := by
    apply Forwards.everywhere_of_throughout <;>
      simp [twigs, Validator.throughout_iff, Validator.parts, Validator.IsIntersection]
  have hg : twigs.Guarded (.forward ⟨0⟩) := by
    apply Forwards.guarded_of_cells
    intro w u hw hs
    rw [twigs, List.mem_singleton, Option.some.injEq] at hw
    subst hw
    cases hs
  obtain ⟨places, hunfolds, -, -, hcheck⟩ := check_records_rejected twigs _ hv hu hi hg badTwig
  refine ⟨hv, hu, hi, hg, places, hunfolds, ?_⟩
  obtain ⟨b, log, hrun⟩ := hcheck .empty .root []
  have hresult : (twigs.check (.forward ⟨0⟩) badTwig (some .empty) .root []).map
      (fun r => r.1.2.map Context.errors) = some (some
        [[.key "tags", .key "b"], [.key "tags", .key "b", .index 1], [.key "tags", .key "b"],
          [.key "tags"], [.key "twigs", .index 0, .key "twigs"], [.key "twigs", .index 0],
          [.key "twigs"]]) := rfl
  rw [hrun] at hresult
  exact Option.some.inj (Option.some.inj hresult)

end Conform
