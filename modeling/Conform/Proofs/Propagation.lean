import Conform.Proofs.Equivariance
import Conform.Proofs.Guarded
import Conform.Proofs.Sites

namespace Conform

/-- Behind every path of two steps or more stands its parent. -/
def Climbs : List Path → Prop
  | [] => True
  | p :: rest => (1 < p.length → p.dropLast ∈ rest) ∧ Climbs rest

namespace Climbs

variable {ps qs : List Path}

theorem append (hp : Climbs ps) (hq : Climbs qs) : Climbs (ps ++ qs) := by
  induction ps with
  | nil => exact hq
  | cons p rest ih =>
    obtain ⟨hparent, hrest⟩ := hp
    exact ⟨fun hl => List.mem_append_left _ (hparent hl), ih hrest⟩

/-- Paths inside a part climb up to the part when its own path comes last. -/
theorem inside (h : Climbs ps) (s : Segment) : Climbs (ps.map (s :: ·) ++ [[s]]) := by
  induction ps with
  | nil => exact ⟨fun hl => absurd hl (Nat.lt_irrefl 1), trivial⟩
  | cons p rest ih =>
    obtain ⟨hparent, hrest⟩ := h
    refine ⟨fun hl => ?_, ih hrest⟩
    match p, hparent with
    | [], _ => exact absurd hl (Nat.lt_irrefl 1)
    | [t], _ => exact List.mem_append_right _ (List.mem_singleton.2 rfl)
    | t :: u :: p, hparent =>
      have hmem := hparent (Nat.succ_lt_succ (Nat.succ_pos p.length))
      exact List.mem_append_left _ (List.mem_map.2 ⟨_, hmem, rfl⟩)

theorem parent_mem {before after : List Path} {p : Path} (h : Climbs (before ++ p :: after))
    (hl : 1 < p.length) : p.dropLast ∈ after := by
  induction before with
  | nil => exact h.1 hl
  | cons q rest ih => exact ih h.2

theorem ancestor_mem (h : Climbs ps) {p q : Path} (hp : p ∈ ps) (hq : q <+: p) (hne : q ≠ []) :
    q ∈ ps := by
  induction p using List.reverseRecOn with
  | nil => exact absurd (List.prefix_nil.1 hq) hne
  | append_singleton p s ih =>
    rcases List.prefix_concat_iff.1 hq with rfl | hq
    · exact hp
    · have hp0 : p ≠ [] := by
        rintro rfl
        exact hne (List.prefix_nil.1 hq)
      obtain ⟨before, after, rfl⟩ := List.append_of_mem hp
      have hparent := h.parent_mem (by simpa using List.length_pos_iff.2 hp0)
      rw [List.dropLast_concat] at hparent
      exact ih (List.mem_append_right _ (List.mem_cons_of_mem _ hparent)) hq

end Climbs

namespace Verdict

/-- Acceptance reports nothing, and a failure is followed by the failures of all that is around
it. -/
structure Propagates (d : Verdict) : Prop where
  silent : d.passed = true → d.failures = []
  climbs : Climbs (d.failures.map Failure.path)

variable {d e : Verdict}

theorem propagates_of_no_failures (h : d.failures = []) : d.Propagates where
  silent _ := h
  climbs := by
    rw [h]
    trivial

theorem Propagates.inside (h : d.Propagates) (s : Segment) (cause : Cause) :
    (d.inside s cause).Propagates := by
  cases hp : d.passed with
  | true =>
    apply propagates_of_no_failures
    simp [Verdict.inside, h.silent hp, hp]
  | false =>
    refine ⟨fun hp' => absurd (hp.symm.trans hp') Bool.false_ne_true, ?_⟩
    rw [paths_inside, hp]
    exact h.climbs.inside s

theorem Propagates.and (hd : d.Propagates) (he : e.Propagates) : (d.and e).Propagates where
  silent hp := by
    obtain ⟨hpd, hpe⟩ := Bool.and_eq_true_iff.1 hp
    rw [Verdict.and, hd.silent hpd, he.silent hpe, List.nil_append]
  climbs := by
    rw [Verdict.and, List.map_append]
    exact hd.climbs.append he.climbs

theorem propagates_of_everyPart {parts : List Part} (h : everyPart parts = some d)
    (hparts : ∀ part ∈ parts, ∀ e, part.verdict = some e → e.Propagates) : d.Propagates := by
  induction parts generalizing d with
  | nil =>
    cases h
    exact propagates_of_no_failures rfl
  | cons part rest ih =>
    obtain ⟨hpart, hrest⟩ := List.forall_mem_cons.1 hparts
    obtain ⟨a, ha, h⟩ := Option.bind_eq_some_iff.1 h
    obtain ⟨b, hb, h⟩ := Option.bind_eq_some_iff.1 h
    cases h
    exact ((hpart a ha).inside part.segment part.cause).and (ih hb hrest)

/-- A search for a rejection reports what the rejection reports, as all before it is silent. -/
theorem propagates_of_search {α : Type} {as : List α} {f : α → Option Verdict}
    (h : search false (as.map f) = some d)
    (htried : ∀ before a after, as = before ++ a :: after →
      (∀ b ∈ before, ∃ e, f b = some e ∧ e.passed = true) → ∀ e, f a = some e → e.Propagates) :
    d.Propagates := by
  refine search_closed (propagates_of_no_failures rfl) (fun e r hp he hr => ?_) h htried
  have hfailures : (e.orElse r).failures = r.failures := by
    rw [orElse, he.silent hp, List.nil_append]
  exact ⟨fun hpr => hfailures.trans (hr.silent hpr), hfailures ▸ hr.climbs⟩

end Verdict

namespace Forwards

variable {fs : Forwards} {v : Validator} {x : Value} {d : Verdict}

theorem Gathers.propagates {sites : List Site} (h : fs.Gathers sites d)
    (hs : ∀ s ∈ sites, ∀ e, s.verdict fs = some e → e.Propagates) : d.Propagates := by
  obtain ⟨parts, e, hparts, he, hfailures, hpassed⟩ := h
  have hall : ∀ part ∈ parts, ∀ e, part.verdict = some e → e.Propagates := by
    clear he
    induction hparts with
    | nil => simp
    | cons h _ ih =>
      obtain ⟨hs, hrest⟩ := List.forall_mem_cons.1 hs
      exact List.forall_mem_cons.2 ⟨fun a ha => hs a (h.verdict ▸ ha), ih hrest⟩
  have hpropagates := Verdict.propagates_of_everyPart he hall
  exact ⟨fun hp => hfailures.trans (hpropagates.silent (hpassed hp)),
    hfailures ▸ hpropagates.climbs⟩

theorem propagates_of_judge (hv : fs.Everywhere Validator.IsBuiltin v)
    (hu : fs.Everywhere (¬·.IsUnion) v) (h : fs.judge v x = some d) : d.Propagates := by
  refine judge_induction (P := fun v _ d => fs.Everywhere Validator.IsBuiltin v →
    fs.Everywhere (¬·.IsUnion) v → d.Propagates) ?_ h hv hu
  intro v x d h ih hv hu
  have hasks : ∀ w y, fs.Asks v x w y → ∀ e, fs.judge w y = some e → e.Propagates := by
    intro w y hw e he
    obtain ⟨e', he', hpropagates⟩ := ih w y hw
    cases he.symm.trans he'
    exact hpropagates (hv.uses hw.uses) (hu.uses hw.uses)
  by_cases hi : v.IsIntersection
  · cases v with
    | intersection form vs =>
      rw [judge_intersection] at h
      exact Verdict.propagates_of_search h fun before w after hvs hb e he =>
        hasks w x (.conjunct hvs hb) e he
    | _ => exact hi.elim
  · by_cases hw : ∃ w, fs.Defers v x w
    · obtain ⟨w, hw⟩ := hw
      exact hasks w x hw.asks d (hw.judge_eq ▸ h)
    · refine (gathers_of_judge hv.here hu.here hi (not_exists.1 hw) h).propagates ?_
      rintro ⟨t, _ | ⟨w, y⟩⟩ hs e he
      · cases he
        exact Verdict.propagates_of_no_failures rfl
      · exact hasks w y (asks_of_mem_sites hs rfl) e he

end Forwards

/-- Without unions, acceptance records nothing, and behind every path that is added two steps or
more below the check's place stands its parent. -/
theorem check_propagates (fs : Forwards) (v : Validator)
    (hv : fs.Everywhere Validator.IsBuiltin v) (hu : fs.Everywhere (¬·.IsUnion) v)
    (hg : fs.Guarded v) (x : Value) (c : Option Context) (p : Path) (log : Log) :
    ∃ b c' recorded log', fs.check v x c p log = some ((b, c'), log') ∧
      c' = c.map (fun c => { errors := c.errors ++ recorded }) ∧ (b = true → c' = c) ∧
      (∀ before r after, recorded = before ++ r :: after → p.length + 1 < r.length →
        ∃ parent ∈ after, r.parent? = some parent) ∧
      ∀ r ∈ recorded, b = false ∧ ∀ q, p <+: q → q ≠ p → q <+: r → q ∈ recorded := by
  have hlocal : fs.Everywhere Validator.IsLocal v := fun w hw => (hv w hw).isLocal
  obtain ⟨d, hd⟩ := Option.isSome_iff_exists.1 (hg.judge_isSome x)
  have hpropagates := Forwards.propagates_of_judge hv hu hd
  refine ⟨d.passed, c.map (·.extend p d), (d.failures.map Failure.path).map (p ++ ·),
    log ++ d.events p, by rw [Forwards.check_eq hlocal, hd, Option.map_some], ?_, fun hp => ?_,
    fun before r after hsplit hl => ?_, fun r hr => ⟨?_, fun q hpq hne hqr => ?_⟩⟩
  · rw [List.map_map]
    rfl
  · have hsilent : ∀ c : Context, c.extend p d = c := fun c => by
      simp [Context.extend, hpropagates.silent hp]
    cases c <;> simp [hsilent]
  · obtain ⟨before, rest, hpaths, -, hrest⟩ := List.map_eq_append_iff.1 hsplit
    obtain ⟨q, after, rfl, rfl, rfl⟩ := List.map_eq_cons_iff.1 hrest
    have hlong : 1 < q.length := by
      rw [List.length_append] at hl
      omega
    have hne : q ≠ [] := List.length_pos_iff.1 (Nat.lt_of_succ_lt hlong)
    have hclimbs := hpropagates.climbs
    rw [hpaths] at hclimbs
    refine ⟨p ++ q.dropLast, List.mem_map_of_mem (hclimbs.parent_mem hlong), ?_⟩
    rw [← List.dropLast_append_of_ne_nil hne]
    simp [Path.parent?, hne]
  · cases hp : d.passed with
    | false => rfl
    | true => simp [hpropagates.silent hp] at hr
  · obtain ⟨path, hm, rfl⟩ := List.mem_map.1 hr
    obtain ⟨rest, rfl⟩ := hpq
    have hrest : rest ≠ [] := fun h => hne (by rw [h, List.append_nil])
    have hprefix := (List.prefix_append_right_inj p).1 hqr
    exact List.mem_map_of_mem (hpropagates.climbs.ancestor_mem hm hprefix hrest)

def boxes : Forwards where
  cells := [some (.record (.leaf (.enum ["a", "b"])) (.intersection .list
    [.nullable (.forward ⟨0⟩),
      .object .list [("b", .optional (.leaf .any)), ("b", .leaf .string)] false]))]

/-- One box has no label, and one holds nothing under a name that boxes do not have. -/
def strayBox : Value :=
  .object ⟨[("a", .object ⟨[], []⟩), ("b", .object ⟨[("c", .null)], []⟩)], []⟩

theorem check_strayBox :
    boxes.Everywhere Validator.IsBuiltin (.forward ⟨0⟩) ∧
      boxes.Everywhere (¬·.IsUnion) (.forward ⟨0⟩) ∧ boxes.Guarded (.forward ⟨0⟩) ∧
      ∃ b recorded log', boxes.check (.forward ⟨0⟩) strayBox (some ⟨[[.index 7]]⟩) [.key "at"] [] =
          some ((b, some ⟨[.index 7] :: recorded⟩), log') ∧ b = false ∧
        recorded = [[.key "at", .key "a", .key "b"], [.key "at", .key "a"],
          [.key "at", .key "b", .key "c"], [.key "at", .key "b", .key "c"],
          [.key "at", .key "b"]] := by
  have hv : boxes.Everywhere Validator.IsBuiltin (.forward ⟨0⟩) := by
    apply Forwards.everywhere_of_throughout <;>
      simp [boxes, Validator.throughout_iff, Validator.parts, Validator.IsBuiltin]
  have hu : boxes.Everywhere (¬·.IsUnion) (.forward ⟨0⟩) := by
    apply Forwards.everywhere_of_throughout <;>
      simp [boxes, Validator.throughout_iff, Validator.parts, Validator.IsUnion]
  have hg : boxes.Guarded (.forward ⟨0⟩) := by
    apply Forwards.guarded_of_cells
    intro w u hw hs
    rw [boxes, List.mem_singleton, Option.some.injEq] at hw
    subst hw
    cases hs
  obtain ⟨b, c', recorded, log', hcheck, rfl, -, -, hall⟩ :=
    check_propagates boxes _ hv hu hg strayBox (some ⟨[[.index 7]]⟩) [.key "at"] []
  have hrun : (boxes.check (.forward ⟨0⟩) strayBox (some ⟨[[.index 7]]⟩) [.key "at"] []).map
      (fun r => r.1.2.map Context.errors) = some (some [[.index 7],
        [.key "at", .key "a", .key "b"], [.key "at", .key "a"],
        [.key "at", .key "b", .key "c"], [.key "at", .key "b", .key "c"],
        [.key "at", .key "b"]]) := rfl
  rw [hcheck] at hrun
  obtain rfl := (List.cons.inj (Option.some.inj (Option.some.inj hrun))).2
  exact ⟨hv, hu, hg, b, _, log', hcheck, (hall _ List.mem_cons_self).1, rfl⟩

end Conform
