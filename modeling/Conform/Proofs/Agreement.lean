import Conform.Proofs.Equivariance
import Conform.Proofs.Passing

namespace Conform

/-- A way to compare the lists of places that two checks find. -/
structure Path.Comparison (L : List Path → List Path → Prop) : Prop where
  refl (l : List Path) : L l l
  trans {a b c : List Path} : L a b → L b c → L a c
  append {a b a' b' : List Path} : L a b → L a' b' → L (a ++ a') (b ++ b')
  below {a b : List Path} (s : Segment) : L a b → L (a.map (s :: ·)) (b.map (s :: ·))

theorem Path.comparison_eq : Comparison (· = ·) where
  refl _ := rfl
  trans := Eq.trans
  append h k := by rw [h, k]
  below _ h := by rw [h]

theorem Path.comparison_perm : Comparison List.Perm where
  refl := .refl
  trans := .trans
  append := .append
  below _ h := h.map _

theorem Path.comparison_true : Comparison fun _ _ => True :=
  ⟨fun _ => trivial, fun _ _ => trivial, fun _ _ => trivial, fun _ _ => trivial⟩

theorem Path.Comparison.and {L L' : List Path → List Path → Prop} (h : Comparison L)
    (h' : Comparison L') : Comparison fun a b => L a b ∧ L' a b where
  refl l := ⟨h.refl l, h'.refl l⟩
  trans hab hbc := ⟨h.trans hab.1 hbc.1, h'.trans hab.2 hbc.2⟩
  append hab hab' := ⟨h.append hab.1 hab'.1, h'.append hab.2 hab'.2⟩
  below s hab := ⟨h.below s hab.1, h'.below s hab.2⟩

theorem Path.Comparison.imp {L : List Path → List Path → Prop} (h : Comparison L) (P : Prop) :
    Comparison fun a b => P → L a b where
  refl l _ := h.refl l
  trans hab hbc hp := h.trans (hab hp) (hbc hp)
  append hab hab' hp := h.append (hab hp) (hab' hp)
  below s hab hp := h.below s (hab hp)

namespace Verdict

/-- The same answer, and places that compare. What caused the failures may differ. -/
structure Agrees (L : List Path → List Path → Prop) (d e : Verdict) : Prop where
  passed : d.passed = e.passed
  failures : L (d.failures.map (·.path)) (e.failures.map (·.path))
  undefined : L d.undefined e.undefined

variable {L : List Path → List Path → Prop} {d e d' e' : Verdict}

namespace Agrees

theorem refl (hL : Path.Comparison L) (d : Verdict) : d.Agrees L d := ⟨rfl, hL.refl _, hL.refl _⟩

theorem trans (hL : Path.Comparison L) (h : d.Agrees L e) (k : e.Agrees L d') : d.Agrees L d' :=
  ⟨h.passed.trans k.passed, hL.trans h.failures k.failures, hL.trans h.undefined k.undefined⟩

theorem inside (hL : Path.Comparison L) (h : d.Agrees L e) (s : Segment) (cause cause' : Cause) :
    (d.inside s cause).Agrees L (e.inside s cause') := by
  refine ⟨h.passed, ?_, hL.below s h.undefined⟩
  have hbelow := hL.below s h.failures
  simp only [Verdict.inside, List.map_append, List.map_map, ← h.passed] at hbelow ⊢
  refine hL.append hbelow ?_
  cases d.passed <;> exact hL.refl _

theorem and (hL : Path.Comparison L) (h : d.Agrees L e) (h' : d'.Agrees L e') :
    (d.and d').Agrees L (e.and e') := by
  refine ⟨congrArg₂ (· && ·) h.passed h'.passed, ?_, hL.append h.undefined h'.undefined⟩
  rw [Verdict.and, Verdict.and, List.map_append, List.map_append]
  exact hL.append h.failures h'.failures

theorem orElse (hL : Path.Comparison L) (h : d.Agrees L e) (h' : d'.Agrees L e') :
    (d.orElse d').Agrees L (e.orElse e') := by
  refine ⟨h'.passed, ?_, hL.append h.undefined h'.undefined⟩
  rw [Verdict.orElse, Verdict.orElse, List.map_append, List.map_append]
  exact hL.append h.failures h'.failures

end Agrees

abbrev Agree (L : List Path → List Path → Prop) : Option Verdict → Option Verdict → Prop :=
  Option.Rel (Agrees L)

theorem agree_refl (hL : Path.Comparison L) (o : Option Verdict) : Agree L o o := by
  cases o with
  | none => exact .none
  | some d => exact .some (.refl hL d)

theorem Agree.none_or_some {a b : Option Verdict} (h : Agree L a b) :
    (a = none ∧ b = none) ∨ ∃ d e, a = some d ∧ b = some e ∧ d.Agrees L e :=
  none_or_some_of_rel h

theorem Agree.trans (hL : Path.Comparison L) {a b c : Option Verdict} (h : Agree L a b)
    (k : Agree L b c) : Agree L a c := by
  cases h with
  | none => exact k
  | some h =>
    cases k with
    | some k => exact .some (h.trans hL k)

theorem Agree.bind {a b : Option Verdict} {f g : Verdict → Option Verdict} (h : Agree L a b)
    (k : ∀ d e, d.Agrees L e → Agree L (f d) (g e)) : Agree L (a >>= f) (b >>= g) := by
  cases h with
  | none => exact .none
  | some h => exact k _ _ h

theorem Agree.map {a b : Option Verdict} {f g : Verdict → Verdict}
    (k : ∀ d e, d.Agrees L e → (f d).Agrees L (g e)) (h : Agree L a b) :
    Agree L (a.map f) (b.map g) := by
  cases h with
  | none => exact .none
  | some h => exact .some (k _ _ h)

structure Part.Agree (L : List Path → List Path → Prop) (a b : Part) : Prop where
  segment : a.segment = b.segment
  verdict : Verdict.Agree L a.verdict b.verdict

theorem everyPart_agree (hL : Path.Comparison L) {as bs : List Part}
    (h : List.Forall₂ (Part.Agree L) as bs) : Agree L (everyPart as) (everyPart bs) := by
  induction h with
  | nil => exact agree_refl hL _
  | @cons a b as bs h _ ih =>
    rw [everyPart, everyPart, h.segment]
    refine h.verdict.bind fun d e hd => ih.bind fun d' e' hd' => .some ?_
    exact (hd.inside hL _ _ _).and hL hd'

theorem search_agree (hL : Path.Comparison L) (stop : Bool) {as bs : List (Option Verdict)}
    (h : List.Forall₂ (Agree L) as bs) : Agree L (search stop as) (search stop bs) := by
  induction h with
  | nil => exact agree_refl hL _
  | cons h _ ih =>
    rw [search, search]
    refine h.bind fun d e hd => ?_
    rw [← hd.passed]
    by_cases hstop : d.passed = stop
    · rw [if_pos hstop, if_pos hstop]
      exact .some hd
    · rw [if_neg hstop, if_neg hstop]
      exact ih.bind fun d' e' hd' => .some (hd.orElse hL hd')

theorem total_perm {as bs : List Part} (h : as.Perm bs) :
    (total as).Agrees List.Perm (total bs) where
  passed := h.all_eq
  failures := (h.flatMap_right _).map _
  undefined := h.flatMap_right _

/-- The order of the parts decides about the order of the places alone. -/
theorem everyPart_perm {as bs : List Part} (h : as.Perm bs) :
    Agree List.Perm (everyPart as) (everyPart bs) := by
  cases ha : everyPart as with
  | none =>
    have hb : everyPart bs = none := by
      rw [← Option.not_isSome_iff_eq_none, everyPart_isSome_iff] at ha ⊢
      exact fun hall => ha fun part hpart => hall part (h.mem_iff.1 hpart)
    rw [hb]
    exact .none
  | some d =>
    obtain ⟨hall, rfl⟩ := everyPart_eq_some_iff.1 ha
    have hb : everyPart bs = some (total bs) :=
      everyPart_eq_some_iff.2 ⟨fun part hpart => hall part (h.mem_iff.2 hpart), rfl⟩
    rw [hb]
    exact .some (total_perm h)

theorem Agree.mono {L' : List Path → List Path → Prop} {a b : Option Verdict}
    (hle : ∀ l l', L l l' → L' l l') (h : Agree L a b) : Agree L' a b := by
  cases h with
  | none => exact .none
  | some h => exact .some ⟨h.passed, hle _ _ h.failures, hle _ _ h.undefined⟩

end Verdict

def Context.recordAll (c : Context) (p : Path) (paths : List Path) : Context where
  errors := c.errors ++ paths.map (p ++ ·)

namespace Forwards

variable {fs : Forwards} {v : Validator} {x y : Value} {L : List Path → List Path → Prop}

theorem check_eq_of_judge (hv : fs.Everywhere Validator.IsLocal v) {d : Verdict}
    (h : fs.judge v x = some d) (c : Option Context) (p : Path) (log : Log) :
    fs.check v x c p log = some ((d.passed, c.map (·.recordAll p (d.failures.map (·.path)))),
      log ++ d.undefined.map (.forwardUndefined <| p ++ ·)) := by
  rw [check_eq hv, h, Option.map_some]
  simp only [Context.extend, Context.recordAll, List.map_map]
  rfl

/-- Checks of judgements that agree both do not return, or answer the same and record and log places
that compare. -/
theorem check_of_agree (hv : fs.Everywhere Validator.IsLocal v)
    (h : Verdict.Agree L (fs.judge v x) (fs.judge v y)) :
    (∀ c p log, fs.check v x c p log = none ∧ fs.check v y c p log = none) ∨
      ∃ b paths paths' undefined undefined', L paths paths' ∧ L undefined undefined' ∧
        ∀ c p log,
          fs.check v x c p log = some ((b, c.map (·.recordAll p paths)),
            log ++ undefined.map (.forwardUndefined <| p ++ ·)) ∧
          fs.check v y c p log = some ((b, c.map (·.recordAll p paths')),
            log ++ undefined'.map (.forwardUndefined <| p ++ ·)) := by
  rcases h.none_or_some with ⟨hx, hy⟩ | ⟨d, e, hx, hy, h⟩
  · refine .inl fun c p log => ⟨?_, ?_⟩
    · rw [check_eq hv, hx, Option.map_none]
    · rw [check_eq hv, hy, Option.map_none]
  · refine .inr ⟨d.passed, _, _, _, _, h.failures, h.undefined, fun c p log => ⟨?_, ?_⟩⟩
    · exact check_eq_of_judge hv hx c p log
    · rw [h.passed]
      exact check_eq_of_judge hv hy c p log

end Forwards

end Conform
