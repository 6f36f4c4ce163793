import Conform.Proofs.Fuel
import Conform.Validator.Reporter

namespace Conform

structure Projecting.Congruence (R : (α : Type) → Projecting α → Projecting α → Prop) : Prop where
  pure {α : Type} (a : α) : R α (pure a) (pure a)
  failure {α : Type} : R α failure failure
  bind {α β : Type} {c c' : Projecting α} {k k' : α → Projecting β} :
    R α c c' → (∀ a, R β (k a) (k' a)) → R β (c >>= k) (c' >>= k')

namespace Projecting.Congruence

variable {R : (α : Type) → Projecting α → Projecting α → Prop} {α β : Type}

theorem mapM (hR : Congruence R) {l : List α} {f g : α → Projecting β}
    (h : ∀ a ∈ l, R β (f a) (g a)) : R (List β) (l.mapM f) (l.mapM g) := by
  induction l with
  | nil => exact hR.pure []
  | cons a rest ih =>
    obtain ⟨ha, hrest⟩ := List.forall_mem_cons.1 h
    rw [List.mapM_cons, List.mapM_cons]
    exact hR.bind ha fun b => hR.bind (ih hrest) fun bs => hR.pure (b :: bs)

theorem ofOption (hR : Congruence R) (o : Option α) :
    R α (OptionT.mk (return o)) (OptionT.mk (return o)) := by
  cases o with
  | none => exact hR.failure
  | some a => exact hR.pure a

end Projecting.Congruence

namespace Projecting

variable {α β γ δ : Type}

theorem run_pure (a : α) (log : Log) : (pure a : Projecting α).run log = some (some a, log) := rfl

theorem run_failure (log : Log) : (failure : Projecting α).run log = some (none, log) := rfl

theorem run_bind (c : Projecting α) (k : α → Projecting β) (log : Log) :
    (c >>= k).run log = (c.run log).bind fun r =>
      match r.1 with
      | some a => (k a).run r.2
      | none => some (none, r.2) := by
  change (c.run log).bind _ = _
  congr 1
  funext r
  obtain ⟨_ | a, log⟩ := r <;> rfl

def Appends (c : Projecting α) : Prop :=
  ∀ log, c.run log = (c.run []).map fun r => (r.1, log ++ r.2)

theorem appends_pure (a : α) : Appends (pure a) := fun log => by simp [run_pure]

theorem appends_failure : Appends (failure : Projecting α) := fun log => by simp [run_failure]

theorem Appends.bind {c : Projecting α} {k : α → Projecting β} (hc : c.Appends)
    (hk : ∀ a, (k a).Appends) : (c >>= k).Appends := by
  intro log
  rw [run_bind, run_bind, hc log]
  cases c.run [] with
  | none => rfl
  | some r =>
    obtain ⟨_ | a, es⟩ := r
    · rfl
    · simp only [Option.map_some, Option.bind_some]
      rw [hk a (log ++ es), hk a es, Option.map_map]
      simp [Function.comp_def]

theorem appends_congruence : Congruence fun _ c _ => c.Appends :=
  ⟨appends_pure, appends_failure, .bind⟩

def Approx (c c' : Projecting α) : Prop := ∀ log, Conform.Approx (c.run log) (c'.run log)

theorem Approx.refl (c : Projecting α) : c.Approx c := fun _ => .refl _

theorem Approx.trans {a b c : Projecting α} (h : a.Approx b) (k : b.Approx c) : a.Approx c :=
  fun log => (h log).trans (k log)

theorem Approx.antisymm {c c' : Projecting α} (h : c.Approx c') (k : c'.Approx c) : c = c' :=
  funext fun log => (h log).antisymm (k log)

theorem Approx.bind {c c' : Projecting α} {k k' : α → Projecting β} (hc : c.Approx c')
    (hk : ∀ a, (k a).Approx (k' a)) : (c >>= k).Approx (c' >>= k') := by
  intro log
  rw [run_bind, run_bind]
  refine (hc log).bind fun r => ?_
  obtain ⟨_ | a, log⟩ := r
  · exact .refl _
  · exact hk a log

theorem approx_congruence : Congruence fun _ c c' => c.Approx c' :=
  ⟨fun _ => .refl _, .refl _, .bind⟩

theorem approx_of_appends {c c' : Projecting α} (hc : c.Appends) (hc' : c'.Appends)
    (h : Conform.Approx (c.run []) (c'.run [])) : c.Approx c' := by
  intro log
  rw [hc log, hc' log]
  exact h.map _

theorem eq_congruence : Congruence fun _ c c' => c = c' :=
  ⟨fun _ => rfl, rfl, fun hc hk => by rw [hc, funext hk]⟩

/-- Whenever the first projection returns, the second one does so with the same log, and has an
output if the first one has; the outputs may differ. -/
def Mirrors (c : Projecting α) (d : Projecting β) : Prop :=
  ∀ log o log', c.run log = some (o, log') → ∃ o', d.run log = some (o', log') ∧
    o'.isSome = o.isSome

theorem mirrors_pure (a : α) (b : β) : (pure a : Projecting α).Mirrors (pure b : Projecting β) := by
  intro log o log' h
  cases h
  exact ⟨some b, rfl, rfl⟩

theorem Mirrors.of_approx {c d : Projecting α} (h : c.Approx d) : c.Mirrors d :=
  fun log o _ ho => ⟨o, h log _ ho, rfl⟩

theorem mirrors_refl (c : Projecting α) : c.Mirrors c := .of_approx (.refl c)

theorem mirrors_failure : (failure : Projecting α).Mirrors (failure : Projecting β) := by
  intro log o log' h
  cases h
  exact ⟨none, rfl, rfl⟩

theorem Mirrors.trans {c : Projecting α} {d : Projecting β} {e : Projecting γ} (h : c.Mirrors d)
    (k : d.Mirrors e) : c.Mirrors e := by
  intro log o log' ho
  obtain ⟨o', ho', hsome⟩ := h log o log' ho
  obtain ⟨o'', ho'', hsome'⟩ := k log o' log' ho'
  exact ⟨o'', ho'', hsome'.trans hsome⟩

theorem Mirrors.outcome_eq {c : Projecting α} {d : Projecting β} (h : c.Mirrors d)
    (k : d.Mirrors c) (log : Log) :
    (c.run log).map (fun r => (r.1.isSome, r.2)) = (d.run log).map fun r => (r.1.isSome, r.2) := by
  cases hc : c.run log with
  | some r =>
    obtain ⟨o', ho', hsome⟩ := h log r.1 r.2 hc
    rw [ho', Option.map_some, Option.map_some, hsome]
  | none =>
    cases hd : d.run log with
    | none => rfl
    | some r =>
      obtain ⟨o, ho, -⟩ := k log r.1 r.2 hd
      cases hc.symm.trans ho

theorem Mirrors.bind {c : Projecting α} {d : Projecting β} {k : α → Projecting γ}
    {l : β → Projecting δ} (h : c.Mirrors d) (hk : ∀ a b, (k a).Mirrors (l b)) :
    (c >>= k).Mirrors (d >>= l) := by
  intro log o log' ho
  rw [run_bind] at ho
  obtain ⟨⟨a, after⟩, ha, ho⟩ := Option.bind_eq_some_iff.1 ho
  obtain ⟨b, hb, hsome⟩ := h log a after ha
  rw [run_bind, hb, Option.bind_some]
  cases a with
  | none =>
    obtain rfl : b = none := by simpa using hsome
    cases ho
    exact ⟨none, rfl, rfl⟩
  | some a =>
    obtain ⟨b, rfl⟩ := Option.isSome_iff_exists.1 hsome
    exact hk a b after o log' ho

theorem Mirrors.bind_approx {c d : Projecting α} {k : α → Projecting γ} {l : α → Projecting δ}
    (h : c.Approx d) (hk : ∀ a, (k a).Mirrors (l a)) : (c >>= k).Mirrors (d >>= l) := by
  intro log o log' ho
  rw [run_bind] at ho ⊢
  obtain ⟨⟨a, after⟩, ha, ho⟩ := Option.bind_eq_some_iff.1 ho
  rw [h log _ ha, Option.bind_some]
  cases a with
  | none =>
    cases ho
    exact ⟨none, rfl, rfl⟩
  | some a => exact hk a after o log' ho

theorem mirrors_mapM {as : List α} {bs : List β} {f : α → Projecting γ} {g : β → Projecting δ}
    (h : List.Forall₂ (fun a b => (f a).Mirrors (g b)) as bs) :
    (as.mapM f).Mirrors (bs.mapM g) := by
  induction h with
  | nil => exact mirrors_pure _ _
  | cons h _ ih =>
    rw [List.mapM_cons, List.mapM_cons]
    exact h.bind fun _ _ => ih.bind fun _ _ => mirrors_pure _ _

end Projecting

end Conform
