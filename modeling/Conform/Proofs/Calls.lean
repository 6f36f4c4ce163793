import Conform.Proofs.Equivariance
import Mathlib.Data.List.DropRight

namespace Conform

inductive Call where
  | validate (v : Validator) (x : Value)
  | check (v : Validator) (x : Value) (p : Path)
  | record (p : Path)
  | clear

namespace Call

def run (fs : Forwards) : Call → Context → Logged Context
  | .validate v x, c => return (← fs.validate v x c).2
  | .check v x p, c => return (← fs.check v x (some c) p).2.getD c
  | .record p, c => return c.record p
  | .clear, c => return c.clear

def runAll (fs : Forwards) (calls : List Call) (c : Context) : Logged Context :=
  calls.foldlM (fun c call => call.run fs c) c

/-- What a call records into a fresh context, if it returns. -/
def fresh? (fs : Forwards) (call : Call) : Option (List Path) :=
  (call.run fs .empty []).map (·.1.errors)

def isClear : Call → Bool
  | .clear => true
  | _ => false

def IsLocal (fs : Forwards) : Call → Prop
  | .validate v _ => fs.Everywhere Validator.IsLocal v
  | .check v _ _ => fs.Everywhere Validator.IsLocal v
  | _ => True

/-- The errors of a context as a call finds them: none after a clear. -/
def kept (calls : List Call) (c : Context) : List Path :=
  if calls.any isClear then [] else c.errors

variable {fs : Forwards} {call : Call}

/-- A call does to every context what it does to a fresh one, after what the context holds. -/
theorem run_eq (h : call.IsLocal fs) (c : Context) (log : Log) :
    call.run fs c log = (call.run fs .empty []).map fun r =>
      ({ errors := kept [call] c ++ r.1.errors }, log ++ r.2) := by
  cases call with
  | validate v x =>
    have hr : ∀ c log, (Call.validate v x).run fs c log =
      (fs.validate v x c log).bind fun r => some (r.1.2, r.2) := fun _ _ => rfl
    rw [hr, hr, Forwards.validate_eq h, Forwards.validate_eq h]
    cases fs.judge v x <;> simp [kept, isClear, Context.extend, Context.empty]
  | check v x p =>
    have hr : ∀ c log, (Call.check v x p).run fs c log =
      (fs.check v x (some c) p log).bind fun r => some (r.1.2.getD c, r.2) := fun _ _ => rfl
    rw [hr, hr, Forwards.check_eq h, Forwards.check_eq h]
    cases fs.judge v x <;> simp [kept, isClear, Context.extend, Context.empty]
  | record p =>
    have hr : ∀ c log, (Call.record p).run fs c log = some (c.record p, log) := fun _ _ => rfl
    simp [hr, kept, isClear, Context.record, Context.empty]
  | clear =>
    have hr : ∀ c log, Call.clear.run fs c log = some (c.clear, log) := fun _ _ => rfl
    simp [hr, kept, isClear, Context.clear]

theorem fresh?_eq_some_iff {recorded : List Path} :
    call.fresh? fs = some recorded ↔
      ∃ events, call.run fs .empty [] = some ({ errors := recorded }, events) := by
  rw [fresh?, Option.map_eq_some_iff]
  constructor
  · rintro ⟨⟨c, events⟩, hc, rfl⟩
    exact ⟨events, hc⟩
  · rintro ⟨events, hc⟩
    exact ⟨_, hc, rfl⟩

theorem runAll_concat (calls : List Call) (call : Call) (c : Context) (log : Log) :
    runAll fs (calls ++ [call]) c log =
      (runAll fs calls c log).bind fun r => call.run fs r.1 r.2 := by
  rw [runAll, List.foldlM_append]
  simp only [List.foldlM_cons, List.foldlM_nil, bind_pure]
  rfl

/-- Calls in sequence return when each does, and the context then holds what each since the last
clear records into a fresh one. -/
theorem runAll_eq_some (calls : List Call) (h : ∀ call ∈ calls, call.IsLocal fs) (c : Context)
    (log : Log) (hs : ∀ call ∈ calls, (call.fresh? fs).isSome) :
    ∃ c' log' recorded, runAll fs calls c log = some (c', log') ∧
      List.Forall₂ (fun call paths => call.fresh? fs = some paths)
        (calls.rtakeWhile (!·.isClear)) recorded ∧
      c'.errors = kept calls c ++ recorded.flatten := by
  induction calls using List.reverseRecOn with
  | nil => exact ⟨c, log, [], rfl, .nil, by simp [kept]⟩
  | append_singleton calls call ih =>
    simp only [List.forall_mem_append, List.forall_mem_singleton] at h hs
    obtain ⟨c₁, log₁, recorded, hrun, hrec, herr⟩ := ih h.1 hs.1
    obtain ⟨paths, hp⟩ := Option.isSome_iff_exists.1 hs.2
    obtain ⟨events, he⟩ := fresh?_eq_some_iff.1 hp
    have hstep : runAll fs (calls ++ [call]) c log =
        some ({ errors := kept [call] c₁ ++ paths }, log₁ ++ events) := by
      rw [runAll_concat, hrun, Option.bind_some, run_eq h.2, he]
      rfl
    by_cases hc : call.isClear
    · obtain rfl : call = .clear := by cases call <;> simp_all [isClear]
      cases hp
      refine ⟨_, _, [], hstep, ?_, by simp [kept, isClear, Context.clear]⟩
      rw [List.rtakeWhile_concat_neg _ _ _ (by simp [hc])]
      exact .nil
    · refine ⟨_, _, recorded ++ [paths], hstep, ?_, ?_⟩
      · rw [List.rtakeWhile_concat_pos _ _ _ (by simp [hc])]
        exact List.rel_append hrec (.cons hp .nil)
      · simp [kept, hc, herr]

theorem fresh?_isSome_of_runAll {calls : List Call} (h : ∀ call ∈ calls, call.IsLocal fs)
    {c : Context} {log : Log} (hs : (runAll fs calls c log).isSome) :
    ∀ call ∈ calls, (call.fresh? fs).isSome := by
  induction calls using List.reverseRecOn with
  | nil => simp
  | append_singleton calls call ih =>
    rw [runAll_concat] at hs
    cases hr : runAll fs calls c log with
    | none => simp [hr] at hs
    | some r =>
      simp only [List.forall_mem_append, List.forall_mem_singleton] at h ⊢
      refine ⟨ih h.1 (by simp [hr]), ?_⟩
      rw [hr, Option.bind_some, run_eq h.2, Option.isSome_map] at hs
      rwa [fresh?, Option.isSome_map]

end Call

/-- Neither the context nor the place changes an answer, and a context is only added to, by paths
that move with the place. -/
theorem check_equivariant (fs : Forwards) :
    (∀ v, fs.Everywhere Validator.IsLocal v → ∀ x,
      (∀ c p log, fs.check v x c p log = none) ∨
      ∃ (b : Bool) (paths undefined : List Path), ∀ p log,
        let after := log ++ undefined.map (.forwardUndefined <| p ++ ·)
        fs.check v x none p log = some ((b, none), after) ∧
        ∀ c : Context, fs.check v x (some c) p log =
          some ((b, some { errors := c.errors ++ paths.map (p ++ ·) }), after)) ∧
    ∀ calls : List Call, (∀ call ∈ calls, call.IsLocal fs) → ∀ (c : Context) (log : Log),
      ((Call.runAll fs calls c log).isSome ↔ ∀ call ∈ calls, (call.fresh? fs).isSome) ∧
      ∀ c' log', Call.runAll fs calls c log = some (c', log') →
        ∃ recorded, List.Forall₂ (fun call paths => call.fresh? fs = some paths)
          (calls.rtakeWhile (!·.isClear)) recorded ∧
          c'.errors = (if calls.any Call.isClear then [] else c.errors) ++ recorded.flatten := by
  constructor
  · intro v hv x
    cases hj : fs.judge v x with
    | none =>
      left
      intro c p log
      rw [Forwards.check_eq hv, hj]
      rfl
    | some d =>
      right
      refine ⟨d.passed, d.failures.map Failure.path, d.undefined, fun p log => ⟨?_, fun c => ?_⟩⟩
      · rw [Forwards.check_eq hv, hj]
        rfl
      · rw [Forwards.check_eq hv, hj, List.map_map]
        rfl
  · intro calls h c log
    refine ⟨⟨Call.fresh?_isSome_of_runAll h, fun hs => ?_⟩, fun c' log' hr => ?_⟩
    · obtain ⟨c', log', _, hr, -⟩ := Call.runAll_eq_some calls h c log hs
      simp [hr]
    · have hsome : (Call.runAll fs calls c log).isSome := by simp [hr]
      have hs := Call.fresh?_isSome_of_runAll h hsome
      obtain ⟨c₁, log₁, recorded, hrun, hrec, herr⟩ := Call.runAll_eq_some calls h c log hs
      rw [hr] at hrun
      cases hrun
      exact ⟨recorded, hrec, herr⟩

/-- Nested arrays around a recorder, which every array that is empty abandons. -/
def recordedNesting : Forwards where
  cells := [some (.union .list [.extension (.recorder "seen" false), .array (.forward ⟨0⟩)])]

theorem recordedNesting_isLocal :
    recordedNesting.Everywhere Validator.IsLocal (.forward ⟨0⟩) := by
  apply Forwards.everywhere_of_throughout <;>
    simp [recordedNesting, Validator.throughout_iff, Validator.parts, Validator.IsLocal,
      Extension.recorder_isLocal]

def nestingCalls : List Call :=
  [.validate (.forward ⟨0⟩) (.array []), .clear,
    .check (.forward ⟨0⟩) (.array [.array []]) [.key "at"], .record [.index 7]]

theorem check_recordedNesting :
    recordedNesting.Everywhere Validator.IsLocal (.forward ⟨0⟩) ∧
    (∀ p log, (recordedNesting.check (.forward ⟨0⟩) (.array [.array []]) none p log).map (·.1) =
      some (true, none)) ∧
    (∀ call ∈ nestingCalls, call.IsLocal recordedNesting) ∧
    ∃ c log, Call.runAll recordedNesting nestingCalls { errors := [.root] } [] = some (c, log) ∧
      c.errors = [[.key "at", .key "seen"], [.key "at", .index 0, .key "seen"], [.index 7]] := by
  obtain ⟨hcheck, hcalls⟩ := check_equivariant recordedNesting
  have hlocal : ∀ call ∈ nestingCalls, call.IsLocal recordedNesting := by
    simp [nestingCalls, Call.IsLocal, recordedNesting_isLocal]
  refine ⟨recordedNesting_isLocal, ?_, hlocal, ?_⟩
  · rcases hcheck _ recordedNesting_isLocal (.array [.array []]) with hn | ⟨b, _, undefined, h⟩
    · exact absurd (hn none .root []) (by decide)
    · have hroot : recordedNesting.check (.forward ⟨0⟩) (.array [.array []]) none .root [] =
          some ((true, none), []) := rfl
      obtain ⟨rfl, -⟩ : b = true ∧ _ := by simpa using (h .root []).1.symm.trans hroot
      intro p log
      rw [(h p log).1]
      rfl
  · obtain ⟨hsome, herrors⟩ := hcalls nestingCalls hlocal { errors := [.root] } []
    obtain ⟨⟨c, log⟩, hrun⟩ := Option.isSome_iff_exists.1 (hsome.2 (by decide))
    obtain ⟨recorded, hrec, hc⟩ := herrors c log hrun
    refine ⟨c, log, hrun, hc.trans ?_⟩
    cases hrec with
    | cons h hrec =>
      cases hrec with
      | cons h' hrec =>
        cases hrec
        cases h
        cases h'
        rfl

end Conform
