import Conform.Proofs.Checking
import Conform.Proofs.View

namespace Conform

/-- A computation that does not read the log, and tells it of no definition. -/
structure Logged.Discreet {α : Type} (c : Logged α) : Prop where
  appends (log : Log) : c log = (c []).map fun r => (r.1, log ++ r.2)
  notMem {r : α × Log} : c [] = some r → Event.forwardDefined ∉ r.2

namespace Logged

variable {α β : Type}

theorem discreet_pure (a : α) : Discreet (pure a) where
  appends log := by
    change some (a, log) = some (a, log ++ [])
    rw [List.append_nil]
  notMem h := by
    cases h
    exact List.not_mem_nil

theorem discreet_none : Discreet fun _ => (none : Option (α × Log)) := ⟨fun _ => rfl, nofun⟩

theorem discreet_report (e : Event) (h : Event.forwardDefined ≠ e) : Discreet (report e) where
  appends _ := rfl
  notMem hr := by
    cases hr
    exact mt List.mem_singleton.1 h

theorem Discreet.bind {c : Logged α} {k : α → Logged β} (hc : c.Discreet)
    (hk : ∀ a, (k a).Discreet) : (c >>= k).Discreet where
  appends log := by
    change (c log).bind (fun r => k r.1 r.2) = ((c []).bind fun r => k r.1 r.2).map _
    rw [hc.appends log]
    cases c [] with
    | none => rfl
    | some r =>
      simp only [Option.map_some, Option.bind_some]
      rw [(hk r.1).appends (log ++ r.2), (hk r.1).appends r.2, Option.map_map]
      simp [Function.comp_def]
  notMem {s} hs := by
    obtain ⟨r, hr, hs⟩ := Option.bind_eq_some_iff.1 hs
    change k r.1 r.2 = some s at hs
    rw [(hk r.1).appends r.2] at hs
    obtain ⟨t, ht, rfl⟩ := Option.map_eq_some_iff.1 hs
    exact List.not_mem_append (hc.notMem hr) ((hk r.1).notMem ht)

theorem Discreet.map {c : Logged α} (hc : c.Discreet) (f : α → β) : (f <$> c).Discreet :=
  hc.bind fun a => discreet_pure (f a)

end Logged

namespace Checking

variable {α β : Type}

def logging (c : Checking α) (context : Option Context) : Logged (α × Option Context) :=
  fun log => (c ⟨context, log⟩).map fun (a, r) => ((a, r.context), r.log)

def Discreet (c : Checking α) : Prop := ∀ context, (c.logging context).Discreet

theorem discreet_congruence : Congruence fun _ c _ => c.Discreet where
  pure a context := Logged.discreet_pure (a, context)
  bind {α β c _ k _} hc hk context := by
    have hbind : (c >>= k).logging context =
        c.logging context >>= fun r => (k r.1).logging r.2 := by
      funext log
      change ((c ⟨context, log⟩).bind _).map _ = (Option.map _ (c ⟨context, log⟩)).bind _
      cases c ⟨context, log⟩ <;> rfl
    rw [hbind]
    exact (hc context).bind fun r => hk r.1 r.2
  record p context := Logged.discreet_pure ((), context.map (Context.record · p))
  undefined p context :=
    (Logged.discreet_report (.forwardUndefined p) nofun).map fun u => (u, context)
  run e x p context := Logged.discreet_pure (e.check x p context, context.map (e.update x p))

theorem Discreet.silently {c : Checking Bool} (h : c.Discreet) : c.silently.Discreet :=
  (h none).map Prod.fst

end Checking

namespace Projecting

def Discreet {α : Type} (c : Projecting α) : Prop := c.run.Discreet

theorem discreet_congruence : Congruence fun _ c _ => c.Discreet where
  pure a := Logged.discreet_pure (some a)
  failure := Logged.discreet_pure none
  bind {α β c _ k _} hc hk := by
    have hbind : (c >>= k).run = c.run >>= fun o => o.elim (pure none) fun a => (k a).run := by
      funext log
      rw [run_bind]
      change (c.run log).bind _ = (c.run log).bind _
      congr 1
      funext r
      obtain ⟨_ | a, log⟩ := r <;> rfl
    rw [Discreet, hbind]
    refine hc.bind fun o => ?_
    cases o with
    | none => exact Logged.discreet_pure none
    | some a => exact hk a

theorem discreet_lift {α : Type} {c : Logged α} (h : c.Discreet) : Discreet (OptionT.lift c) :=
  h.map some

end Projecting

namespace Forwards

variable (fs : Forwards)

theorem discreet_checkWithin (n : Nat) (v : Validator) (x : Value) (p : Path) :
    (fs.checkWithin n v x p).Discreet := by
  induction n generalizing v x p with
  | zero =>
    refine Validator.checkWith_closed Checking.discreet_congruence (fun f y q => ?_) v x p
    exact checkTarget_closed Checking.discreet_congruence fun _ _ => Logged.discreet_none
  | succ n ih =>
    refine Validator.checkWith_closed Checking.discreet_congruence (fun f y q => ?_) v x p
    exact checkTarget_closed Checking.discreet_congruence fun w => ih w y q

theorem discreet_projectWithin (n : Nat) (v : Validator) (x : Value) :
    (fs.projectWithin n v x).Discreet := by
  have hchoice : ∀ m w y, Projecting.Discreet
      (OptionT.lift (fs.checkWithin m w y .root).silently) := fun m w y =>
    Projecting.discreet_lift (fs.discreet_checkWithin m w y .root).silently
  induction n generalizing v x with
  | zero =>
    refine Validator.projectWith_closed Projecting.discreet_congruence (fun f y => ?_)
      (hchoice 0) v x
    exact projectTarget_closed Projecting.discreet_congruence fun _ => Logged.discreet_none
  | succ n ih =>
    refine Validator.projectWith_closed Projecting.discreet_congruence (fun f y => ?_)
      (hchoice (n + 1)) v x
    exact projectTarget_closed Projecting.discreet_congruence fun w => ih w y

theorem discreet_check (v : Validator) (x : Value) (context : Option Context) (p : Path) :
    (fs.check v x context p).Discreet :=
  fs.discreet_checkWithin _ v x p context

theorem discreet_validate (v : Validator) (x : Value) (context : Context) :
    (fs.validate v x context).Discreet :=
  (fs.discreet_check v x (some context) .root).bind fun _ => Logged.discreet_pure _

theorem discreet_project (v : Validator) (x : Value) : (fs.project v x).Discreet :=
  fs.discreet_projectWithin _ v x

theorem discreet_parse (v : Validator) (x : Value) : (fs.parse v x).Discreet := by
  refine (fs.discreet_validate v x .empty).bind fun r => ?_
  obtain ⟨passed, context⟩ := r
  cases passed with
  | true =>
    refine (fs.discreet_project v x).bind fun o => ?_
    cases o with
    | none => exact (Logged.discreet_report (.inputUnprojectable _) nofun).bind fun _ =>
      Logged.discreet_pure _
    | some o => exact Logged.discreet_pure _
  | false => exact (Logged.discreet_report (.inputRejected _) nofun).bind fun _ =>
    Logged.discreet_pure _

end Forwards

end Conform
