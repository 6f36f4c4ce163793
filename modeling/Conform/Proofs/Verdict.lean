import Conform.Proofs.Tree

namespace Conform

inductive Cause where
  /-- The validator of a part rejects the value that is read there. -/
  | rejected (v : Validator) (x : Value)
  /-- The key of an entry, as a string, is rejected. -/
  | rejectedKey (v : Validator) (key : String)
  /-- An element lies past the last validator of a tuple. -/
  | surplus
  /-- A hand-written validator recorded the path. -/
  | reported (e : Extension)

structure Failure where
  path : Path
  cause : Cause

def Failure.below (s : Segment) (f : Failure) : Failure := { f with path := s :: f.path }

/-- What a check finds. Its paths start at the place that is checked. -/
structure Verdict where
  passed : Bool
  failures : List Failure := []
  /-- The places at which undefined references were asked. -/
  undefined : List Path := []

namespace Verdict

/-- The verdict on a part as its container sees it. The part's own failure comes after those
inside it. -/
def inside (d : Verdict) (s : Segment) (cause : Cause) : Verdict where
  passed := d.passed
  failures := d.failures.map (.below s) ++ if d.passed then [] else [⟨[s], cause⟩]
  undefined := d.undefined.map (s :: ·)

def and (d e : Verdict) : Verdict where
  passed := d.passed && e.passed
  failures := d.failures ++ e.failures
  undefined := d.undefined ++ e.undefined

/-- A second attempt decides, and what the first one found is kept. -/
def orElse (d e : Verdict) : Verdict where
  passed := e.passed
  failures := d.failures ++ e.failures
  undefined := d.undefined ++ e.undefined

@[simp] theorem failures_and_silent (d : Verdict) (b : Bool) :
    (d.and { passed := b }).failures = d.failures := List.append_nil _

@[simp] theorem undefined_and_silent (d : Verdict) (b : Bool) :
    (d.and { passed := b }).undefined = d.undefined := List.append_nil _

/-- A part of an input, with the verdict on it unless its check does not return. -/
structure Part where
  segment : Segment
  cause : Cause
  verdict : Option Verdict

def everyPart : List Part → Option Verdict
  | [] => some { passed := true }
  | part :: rest => do
    let d ← part.verdict
    let e ← everyPart rest
    return (d.inside part.segment part.cause).and e

/-- The attempts up to the first whose answer is `stop`, which is the answer then. -/
def search (stop : Bool) : List (Option Verdict) → Option Verdict
  | [] => some { passed := !stop }
  | c :: rest => do
    let d ← c
    if d.passed = stop then return d else return d.orElse (← search stop rest)

def afterAll (tried : List Verdict) (d : Verdict) : Verdict := tried.foldr orElse d

theorem paths_inside (d : Verdict) (s : Segment) (cause : Cause) :
    (d.inside s cause).failures.map Failure.path =
      (d.failures.map Failure.path).map (s :: ·) ++ if d.passed then [] else [[s]] := by
  cases hp : d.passed <;> simp [inside, Failure.below, hp]

def Part.found (part : Part) : Verdict :=
  (part.verdict.getD { passed := false }).inside part.segment part.cause

def total (parts : List Part) : Verdict where
  passed := parts.all (·.found.passed)
  failures := parts.flatMap (·.found.failures)
  undefined := parts.flatMap (·.found.undefined)

theorem total_cons (part : Part) (rest : List Part) :
    total (part :: rest) = part.found.and (total rest) := rfl

theorem everyPart_eq_some_iff {parts : List Part} {d : Verdict} :
    everyPart parts = some d ↔ (∀ part ∈ parts, part.verdict.isSome) ∧ total parts = d := by
  induction parts generalizing d with
  | nil => simp [everyPart, total]
  | cons part rest ih =>
    rw [total_cons, List.forall_mem_cons, everyPart]
    cases h : part.verdict with
    | none => simp
    | some e =>
      have hf : part.found = e.inside part.segment part.cause := by simp [Part.found, h]
      cases hr : everyPart rest with
      | none =>
        have hn : ¬∀ p ∈ rest, p.verdict.isSome := by
          intro hs
          have := ih.2 ⟨hs, rfl⟩
          simp [hr] at this
        simp [hn]
      | some r =>
        obtain ⟨hs, rfl⟩ := ih.1 hr
        simpa [hf] using fun _ => hs

theorem everyPart_isSome_iff {parts : List Part} :
    (everyPart parts).isSome ↔ ∀ part ∈ parts, part.verdict.isSome := by
  rw [Option.isSome_iff_exists]
  simp only [everyPart_eq_some_iff, exists_and_left, exists_eq', and_true]

@[simp] theorem passed_afterAll (tried : List Verdict) (d : Verdict) :
    (afterAll tried d).passed = d.passed := by
  induction tried with
  | nil => rfl
  | cons e rest ih => exact ih

/-- What attempts in vain find comes before everything that follows. -/
theorem search_append {stop : Bool} {tried : List Verdict} (h : ∀ e ∈ tried, e.passed = !stop)
    (cs : List (Option Verdict)) :
    search stop (tried.map some ++ cs) = (search stop cs).map (afterAll tried) := by
  induction tried with
  | nil => exact Option.map_id'.symm
  | cons e rest ih =>
    obtain ⟨he, hrest⟩ := List.forall_mem_cons.1 h
    have hne : e.passed ≠ stop := by simp [he]
    rw [List.map_cons, List.cons_append, search, Option.bind_eq_bind, Option.bind_some,
      if_neg hne, ih hrest]
    cases search stop cs <;> rfl

/-- A search that returns has tried everything in vain, or has stopped at the first answer it
looks for. -/
theorem search_eq_some {stop : Bool} {cs : List (Option Verdict)} {d : Verdict}
    (h : search stop cs = some d) :
    ∃ tried : List Verdict, (∀ e ∈ tried, e.passed = !stop) ∧
      ((cs = tried.map some ∧ d = afterAll tried { passed := !stop }) ∨
        ∃ e rest, e.passed = stop ∧ cs = tried.map some ++ some e :: rest ∧
          d = afterAll tried e) := by
  induction cs generalizing d with
  | nil =>
    simp only [search, Option.some.injEq] at h
    exact ⟨[], by simp, .inl ⟨rfl, h.symm⟩⟩
  | cons c rest ih =>
    obtain ⟨e, rfl, hd⟩ := Option.bind_eq_some_iff.1 h
    by_cases he : e.passed = stop
    · rw [if_pos he] at hd
      cases hd
      exact ⟨[], by simp, .inr ⟨d, rest, he, rfl, rfl⟩⟩
    · rw [if_neg he] at hd
      obtain ⟨r, hr, hd⟩ := Option.bind_eq_some_iff.1 hd
      cases hd
      have hne : e.passed = !stop := Bool.eq_not.2 he
      obtain ⟨tried, ht, hcase⟩ := ih hr
      refine ⟨e :: tried, List.forall_mem_cons.2 ⟨hne, ht⟩, ?_⟩
      rcases hcase with ⟨rfl, rfl⟩ | ⟨f, rest, hf, rfl, rfl⟩
      · exact .inl ⟨rfl, rfl⟩
      · exact .inr ⟨f, rest, hf, rfl, rfl⟩

/-- A search that returns has an answer from every attempt it made. -/
theorem isSome_of_search {stop : Bool} {before after : List (Option Verdict)}
    {c : Option Verdict} {d : Verdict} (h : search stop (before ++ c :: after) = some d)
    (hb : ∀ e, some e ∈ before → e.passed = !stop) : c.isSome := by
  induction before generalizing d with
  | nil =>
    obtain ⟨e, rfl, -⟩ := Option.bind_eq_some_iff.1 h
    rfl
  | cons b rest ih =>
    obtain ⟨e, rfl, he⟩ := Option.bind_eq_some_iff.1 h
    rw [if_neg (by simp [hb e (by simp)])] at he
    obtain ⟨r, hr, -⟩ := Option.bind_eq_some_iff.1 he
    exact ih hr fun f hf => hb f (List.mem_cons_of_mem _ hf)

theorem search_isSome {stop : Bool} {cs : List (Option Verdict)}
    (h : ∀ before c after, cs = before ++ c :: after →
      (∀ b ∈ before, ∃ e, b = some e ∧ e.passed = !stop) → c.isSome) :
    (search stop cs).isSome := by
  induction cs with
  | nil => rfl
  | cons c rest ih =>
    obtain ⟨e, rfl⟩ := Option.isSome_iff_exists.1 (h [] c rest rfl (by simp))
    by_cases he : e.passed = stop
    · simp [search, he]
    · have hrest := ih fun before c after hc hb =>
        h (some e :: before) c after (by rw [hc]; rfl)
          (List.forall_mem_cons.2 ⟨⟨e, rfl, Bool.eq_not.2 he⟩, hb⟩)
      obtain ⟨r, hr⟩ := Option.isSome_iff_exists.1 hrest
      simp [search, he, hr]

/-- A search among attempts either finds the first answer it looks for or has tried them all. -/
theorem search_map_cases {α : Type} {stop : Bool} {as : List α} {f : α → Option Verdict}
    {d : Verdict} (h : search stop (as.map f) = some d) :
    (d.passed = !stop ∧ ∀ a ∈ as, ∃ e, f a = some e ∧ e.passed = !stop) ∨
      d.passed = stop ∧ ∃ before a after, as = before ++ a :: after ∧
        (∀ b ∈ before, ∃ e, f b = some e ∧ e.passed = !stop) ∧
        ∃ e, f a = some e ∧ e.passed = stop := by
  obtain ⟨tried, ht, ⟨hf, rfl⟩ | ⟨e, rest, he, hf, rfl⟩⟩ := search_eq_some h
  · refine .inl ⟨passed_afterAll _ _, fun a ha => ?_⟩
    obtain ⟨e, hm, hfa⟩ := List.mem_map.1 (hf ▸ List.mem_map_of_mem ha)
    exact ⟨e, hfa.symm, ht e hm⟩
  · obtain ⟨before, rest, rfl, hb, hr⟩ := List.map_eq_append_iff.1 hf
    obtain ⟨a, after, rfl, ha, -⟩ := List.map_eq_cons_iff.1 hr
    refine .inr ⟨(passed_afterAll _ _).trans he, before, a, after, rfl, fun b hm => ?_, e, ha, he⟩
    obtain ⟨r, hr, hfb⟩ := List.mem_map.1 (hb ▸ List.mem_map_of_mem hm)
    exact ⟨r, hfb.symm, ht r hr⟩

/-- What is passed unseen reports nothing. -/
theorem eq_of_mem_failures_ite {b : Bool} {o : Option Verdict} {d : Verdict}
    (h : (if b then some { passed := true } else o) = some d) {failure : Failure}
    (hf : failure ∈ d.failures) : b = false ∧ o = some d := by
  cases b with
  | true =>
    cases h
    cases hf
  | false => exact ⟨rfl, h⟩

/-- What a search reports stems from an attempt that it made. -/
theorem mem_failures_search_map {α : Type} {stop : Bool} {as : List α} {f : α → Option Verdict}
    {d : Verdict} (h : search stop (as.map f) = some d) {failure : Failure}
    (hf : failure ∈ d.failures) :
    ∃ before a after, as = before ++ a :: after ∧
      (∀ b ∈ before, ∃ e, f b = some e ∧ e.passed = !stop) ∧
      ∃ e, f a = some e ∧ failure ∈ e.failures := by
  induction as generalizing d with
  | nil =>
    cases h
    cases hf
  | cons a rest ih =>
    obtain ⟨e, he, hd⟩ := Option.bind_eq_some_iff.1 h
    by_cases hp : e.passed = stop
    · rw [if_pos hp] at hd
      cases hd
      exact ⟨[], a, rest, rfl, by simp, d, he, hf⟩
    · rw [if_neg hp] at hd
      obtain ⟨r, hr, hd⟩ := Option.bind_eq_some_iff.1 hd
      cases hd
      rcases List.mem_append.1 hf with hf | hf
      · exact ⟨[], a, rest, rfl, by simp, e, he, hf⟩
      · obtain ⟨before, b, after, rfl, hb, hfailure⟩ := ih hr hf
        have hfirst := List.forall_mem_cons.2 ⟨⟨e, he, Bool.eq_not.2 hp⟩, hb⟩
        exact ⟨a :: before, b, after, rfl, hfirst, hfailure⟩

/-- A property passes from the attempts that were made to what the search finds. -/
theorem search_closed {α : Type} {stop : Bool} {P : Verdict → Prop}
    (nil : P { passed := !stop })
    (orElse : ∀ e r, e.passed = !stop → P e → P r → P (e.orElse r)) {as : List α}
    {f : α → Option Verdict} {d : Verdict} (h : search stop (as.map f) = some d)
    (htried : ∀ before a after, as = before ++ a :: after →
      (∀ b ∈ before, ∃ e, f b = some e ∧ e.passed = !stop) → ∀ e, f a = some e → P e) : P d := by
  induction as generalizing d with
  | nil =>
    cases h
    exact nil
  | cons a rest ih =>
    obtain ⟨e, he, h⟩ := Option.bind_eq_some_iff.1 h
    have hfirst := htried [] a rest rfl (by simp) e he
    by_cases hp : e.passed = stop
    · rw [if_pos hp] at h
      cases h
      exact hfirst
    · rw [if_neg hp] at h
      obtain ⟨r, hr, h⟩ := Option.bind_eq_some_iff.1 h
      cases h
      have hvain : e.passed = !stop := Bool.eq_not.2 hp
      refine orElse e r hvain hfirst (ih hr fun before b after hsplit hb => ?_)
      exact htried (a :: before) b after (congrArg (a :: ·) hsplit)
        (List.forall_mem_cons.2 ⟨⟨e, he, hvain⟩, hb⟩)

theorem mem_failures_everyPart {parts : List Part} {d : Verdict} (h : everyPart parts = some d)
    {failure : Failure} (hf : failure ∈ d.failures) :
    ∃ part ∈ parts, ∃ e, part.verdict = some e ∧
      failure ∈ (e.inside part.segment part.cause).failures := by
  obtain ⟨hall, rfl⟩ := everyPart_eq_some_iff.1 h
  obtain ⟨part, hpart, hf⟩ := List.mem_flatMap.1 hf
  obtain ⟨e, he⟩ := Option.isSome_iff_exists.1 (hall part hpart)
  refine ⟨part, hpart, e, he, ?_⟩
  rwa [Part.found, he] at hf

end Verdict

end Conform
