import Conform.Proofs.Projection

namespace Conform

namespace Projecting

variable {α β : Type}

/-- Projections with more and more fuel, which add to the log and repeat what has returned with
less. -/
structure Growing (c : Nat → Projecting α) : Prop where
  appends (n : Nat) : (c n).Appends
  mono {m n : Nat} : m ≤ n → (c m).Approx (c n)

def Yields (c : Nat → Projecting α) (a : α) : Prop := ∃ n, (c n).Gives a

theorem growing_pure (a : α) : Growing fun _ => (pure a : Projecting α) :=
  ⟨fun _ => appends_pure a, fun _ => .refl _⟩

theorem yields_pure {a b : α} : Yields (fun _ => (pure a : Projecting α)) b ↔ a = b := by
  simp [Yields, gives_pure]

namespace Growing

variable {c : Nat → Projecting α} {k : α → Nat → Projecting β}

theorem gives_of_le (hc : Growing c) {m n : Nat} (h : m ≤ n) {a : α} (ha : (c m).Gives a) :
    (c n).Gives a := by
  obtain ⟨events, ha⟩ := ha
  exact ⟨events, hc.mono h [] _ ha⟩

theorem bind (hc : Growing c) (hk : ∀ a, Growing (k a)) : Growing fun n => c n >>= fun a => k a n :=
  ⟨fun n => (hc.appends n).bind fun a => (hk a).appends n,
    fun h => (hc.mono h).bind fun a => (hk a).mono h⟩

theorem map (hc : Growing c) (f : α → β) : Growing fun n => c n >>= fun a => pure (f a) :=
  hc.bind fun a => growing_pure (f a)

/-- What follows a projection is run with some fuel of its own. -/
theorem yields_bind (hc : Growing c) (hk : ∀ a, Growing (k a)) {b : β} :
    Yields (fun n => c n >>= fun a => k a n) b ↔ ∃ a, Yields c a ∧ Yields (k a) b := by
  simp only [Yields, gives_bind fun a => (hk a).appends _]
  constructor
  · rintro ⟨n, a, ha, hb⟩
    exact ⟨a, ⟨n, ha⟩, n, hb⟩
  · rintro ⟨a, ⟨m, ha⟩, n, hb⟩
    exact ⟨max m n, a, hc.gives_of_le (Nat.le_max_left m n) ha,
      (hk a).gives_of_le (Nat.le_max_right m n) hb⟩

theorem yields_map (hc : Growing c) {f : α → β} {b : β} :
    Yields (fun n => c n >>= fun a => pure (f a)) b ↔ ∃ a, Yields c a ∧ f a = b := by
  simp only [hc.yields_bind fun a => growing_pure (f a), yields_pure]

variable {l : List α} {f : α → Nat → Projecting β}

theorem mapM (hf : ∀ a ∈ l, Growing (f a)) : Growing fun n => l.mapM fun a => f a n := by
  induction l with
  | nil => exact growing_pure []
  | cons a rest ih =>
    obtain ⟨ha, hrest⟩ := List.forall_mem_cons.1 hf
    simp only [List.mapM_cons]
    exact ha.bind fun b => (ih hrest).map _

/-- Outputs are collected one for each element, in the same order. -/
theorem yields_mapM (hf : ∀ a ∈ l, Growing (f a)) {bs : List β} :
    Yields (fun n => l.mapM fun a => f a n) bs ↔ List.Forall₂ (fun a b => Yields (f a) b) l bs := by
  induction l generalizing bs with
  | nil => simp [yields_pure, eq_comm]
  | cons a rest ih =>
    obtain ⟨ha, hrest⟩ := List.forall_mem_cons.1 hf
    simp only [List.mapM_cons]
    rw [ha.yields_bind fun b => (mapM hrest).map _, List.forall₂_cons_left_iff]
    simp only [(mapM hrest).yields_map, ih hrest]
    constructor
    · rintro ⟨b, hb, bs, hbs, rfl⟩
      exact ⟨b, bs, hb, hbs, rfl⟩
    · rintro ⟨b, bs, hb, hbs, rfl⟩
      exact ⟨b, hb, bs, hbs, rfl⟩

end Growing

end Projecting

end Conform
