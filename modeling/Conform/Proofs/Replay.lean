import Conform.Proofs.Judge

namespace Conform

/-- A hand-written validator that decides by the input alone, and only appends to a context, under
the place it is given. -/
structure Extension.IsLocal (e : Extension) : Prop where
  check (x : Value) (p : Path) (c : Option Context) : e.check x p c = e.check x .root none
  update (x : Value) (p : Path) (c : Context) :
    (e.update x p c).errors = c.errors ++ (e.update x .root .empty).errors.map (p ++ ·)

def Validator.IsLocal : Validator → Prop
  | .extension e => e.IsLocal
  | _ => True

/-- Not written by hand. -/
def Validator.IsBuiltin : Validator → Prop
  | .extension _ => False
  | _ => True

theorem Validator.IsBuiltin.isLocal {v : Validator} (h : v.IsBuiltin) : v.IsLocal := by
  cases v with
  | extension => exact h.elim
  | _ => trivial

theorem Extension.recorder_isLocal (name : String) (accept : Bool) :
    (recorder name accept).IsLocal where
  check _ _ _ := rfl
  update x p c := by
    by_cases h : name.isEmpty <;>
      simp [recorder, Context.record, Context.empty, Path.root, Path.push, h]

def Context.extend (c : Context) (p : Path) (d : Verdict) : Context where
  errors := c.errors ++ d.failures.map (p ++ ·.path)

def Verdict.events (d : Verdict) (p : Path) : Log := d.undefined.map (.forwardUndefined <| p ++ ·)

def Reporter.extend (r : Reporter) (p : Path) (d : Verdict) : Reporter where
  context := r.context.map (·.extend p d)
  log := r.log ++ d.events p

theorem Extension.IsLocal.update_eq {e : Extension} (h : e.IsLocal) (x : Value) (p : Path)
    (c : Context) : e.update x p c = c.extend p (e.verdict x) := by
  rw [Context.extend, Extension.verdict, List.map_map]
  exact congrArg Context.mk (h.update x p c)

theorem Context.extend_of_silent (c : Context) (p : Path) (b : Bool) :
    c.extend p { passed := b } = c := by
  simp [Context.extend]

theorem Context.extend_extend (c : Context) (p : Path) (d e : Verdict) (b : Bool) :
    (c.extend p d).extend p e =
      c.extend p ⟨b, d.failures ++ e.failures, d.undefined ++ e.undefined⟩ := by
  simp [Context.extend]

theorem Reporter.extend_of_silent (r : Reporter) (p : Path) (b : Bool) :
    r.extend p { passed := b } = r := by
  simp [Reporter.extend, Verdict.events, Context.extend_of_silent]

theorem Reporter.extend_extend (r : Reporter) (p : Path) (d e : Verdict) (b : Bool) :
    (r.extend p d).extend p e =
      r.extend p ⟨b, d.failures ++ e.failures, d.undefined ++ e.undefined⟩ := by
  cases h : r.context <;>
    simp [Reporter.extend, Verdict.events, Context.extend_extend _ _ _ _ b, h]

namespace Checking

/-- A check at a place gives a verdict moved there, whatever the reporter holds. -/
def Replays (c : Checking Bool) (p : Path) (v : Option Verdict) : Prop :=
  ∀ r, c r = v.map fun d => (d.passed, r.extend p d)

theorem replays_pure (b : Bool) (p : Path) : Replays (pure b) p (some { passed := b }) := by
  intro r
  rw [Option.map_some, r.extend_of_silent p b]
  rfl

theorem bind_apply {α β : Type} (c : Checking α) (f : α → Checking β) (r : Reporter) :
    (c >>= f) r = (c r).bind fun s => f s.1 s.2 := rfl

theorem pure_apply {α : Type} (a : α) (r : Reporter) :
    (pure a : Checking α) r = some (a, r) := rfl

theorem record_apply (p : Path) (r : Reporter) :
    record p r = some ((), { r with context := r.context.map (·.record p) }) := rfl

theorem report_apply (e : Event) (r : Reporter) :
    report e r = some ((), { r with log := r.log ++ [e] }) := rfl

/-- A part's own failure follows what its check recorded. -/
theorem recordUnless_apply (d : Verdict) (p : Path) (s : Segment) (cause : Cause) (r : Reporter) :
    recordUnless d.passed (p.push s) (r.extend (p.push s) d) =
      some ((), r.extend p (d.inside s cause)) := by
  cases hd : d.passed with
  | true =>
    simp [recordUnless, Reporter.extend, Context.extend, Verdict.events, Verdict.inside,
      Failure.below, Path.push, Function.comp_def, hd, pure_apply]
  | false =>
    cases hc : r.context <;>
      simp [recordUnless, record_apply, Reporter.extend, Context.extend, Context.record,
        Verdict.events, Verdict.inside, Failure.below, Path.push, Function.comp_def, hd, hc]

theorem everyPart_replays {p : Path} {as : List Part} {bs : List Verdict.Part}
    (h : List.Forall₂
      (fun a b => a.path = p.push b.segment ∧ a.check.Replays (p.push b.segment) b.verdict) as bs) :
    (everyPart as).Replays p (Verdict.everyPart bs) := by
  induction h with
  | nil => exact replays_pure true p
  | @cons a b _ bs h _ ih =>
    intro r
    rw [everyPart, bind_apply, h.1, h.2 r, Verdict.everyPart]
    cases b.verdict with
    | none => rfl
    | some d =>
      simp only [Option.map_some, Option.bind_some, bind_apply,
        recordUnless_apply d p b.segment b.cause r]
      rw [ih (r.extend p (d.inside b.segment b.cause))]
      cases Verdict.everyPart bs with
      | none => rfl
      | some e =>
        simp [Reporter.extend_extend _ _ _ _ (d.passed && e.passed), pure_apply, Verdict.and,
          Verdict.inside]

/-- One attempt of a search, which ends it when its answer is `stop`. -/
theorem attempt_replays {p : Path} (stop : Bool) {c next : Checking Bool} {v w : Option Verdict}
    (hc : c.Replays p v) (hn : next.Replays p w) :
    Replays (c >>= fun b => if b = stop then return b else next) p
      (v >>= fun d => if d.passed = stop then return d else return d.orElse (← w)) := by
  intro r
  rw [bind_apply, hc r]
  cases v with
  | none => rfl
  | some d =>
    simp only [Option.map_some, Option.bind_some, Option.bind_eq_bind]
    by_cases hd : d.passed = stop
    · rw [if_pos hd, if_pos hd]
      rfl
    · rw [if_neg hd, if_neg hd, hn (r.extend p d)]
      cases w with
      | none => rfl
      | some e => simp [r.extend_extend p d e e.passed, Verdict.orElse]

theorem anyOf_cons (c : Checking Bool) (rest : List (Checking Bool)) :
    anyOf (c :: rest) = c >>= fun b => if b = true then return b else anyOf rest := by
  rw [anyOf]
  congr 1
  funext b
  cases b <;> rfl

theorem allOf_cons (c : Checking Bool) (rest : List (Checking Bool)) :
    allOf (c :: rest) = c >>= fun b => if b = false then return b else allOf rest := by
  rw [allOf]
  congr 1
  funext b
  cases b <;> rfl

theorem anyOf_replays {p : Path} {as : List (Checking Bool)} {bs : List (Option Verdict)}
    (h : List.Forall₂ (·.Replays p ·) as bs) :
    (anyOf as).Replays p (Verdict.search true bs) := by
  induction h with
  | nil => exact replays_pure false p
  | cons h _ ih =>
    rw [anyOf_cons]
    exact attempt_replays true h ih

theorem allOf_replays {p : Path} {as : List (Checking Bool)} {bs : List (Option Verdict)}
    (h : List.Forall₂ (·.Replays p ·) as bs) :
    (allOf as).Replays p (Verdict.search false bs) := by
  induction h with
  | nil => exact replays_pure true p
  | cons h _ ih =>
    rw [allOf_cons]
    exact attempt_replays false h ih

end Checking

end Conform
