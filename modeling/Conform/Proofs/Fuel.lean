import Conform.Proofs.Approx
import Mathlib.Data.Finset.Card
import Mathlib.Data.Nat.Find

namespace Conform

theorem Approx.antisymm {α : Type} {a b : Option α} (h : Approx a b) (k : Approx b a) : a = b := by
  cases a with
  | none =>
    cases b with
    | none => rfl
    | some r => exact k r rfl
  | some r => exact (h r rfl).symm

theorem Forward.cell_injective : Function.Injective Forward.cell :=
  fun ⟨_⟩ ⟨_⟩ h => congrArg Forward.mk h

theorem Forwards.cell_lt_of_target? {fs : Forwards} {f : Forward} {v : Validator}
    (h : fs.target? f = some v) : f.cell < fs.cells.length := by
  rw [Forwards.target?, Option.join_eq_some_iff] at h
  exact (List.getElem?_eq_some_iff.1 h).1

/-- An evaluation of references that enters definitions so many times. One step enters the
definition, which meets the same input or a deeper one. -/
structure Forwards.Fueled {α : Type} (fs : Forwards) (spare : Nat)
    (run : Nat → Forward → Value → Option α) : Prop where
  undefined {f x m n} : fs.target? f = none → run m f x = run n f x
  zero {f v x} : fs.target? f = some v → run 0 f x = none
  mono {f x m n} : m ≤ n → Approx (run m f x) (run n f x)
  step {f x m n} : fs.cells.length * (x.depth + spare) ≤ n →
    (∀ g, Approx (run m g x) (run n g x)) →
    (∀ g y, y.depth < x.depth → Approx (run m g y) (run n g y)) →
    Approx (run (m + 1) f x) (run (n + 1) f x)

namespace Forwards.Fueled

variable {α : Type} {fs : Forwards} {spare : Nat} {run : Nat → Forward → Value → Option α}

/-- A defined reference that returns does so for a least fuel. -/
theorem exists_least (h : fs.Fueled spare run) {f : Forward} {v : Validator} {x : Value} {n : Nat}
    (ht : fs.target? f = some v) (hr : (run n f x).isSome) :
    ∃ m, m < n ∧ run m f x = none ∧ run (m + 1) f x = run n f x := by
  have hex : ∃ m, (run m f x).isSome := ⟨n, hr⟩
  obtain ⟨m, hm⟩ : ∃ m, Nat.find hex = m + 1 := by
    apply Nat.exists_eq_succ_of_ne_zero
    intro h0
    have := Nat.find_spec hex
    simp [h0, h.zero ht] at this
  have hle : m + 1 ≤ n := hm ▸ Nat.find_min' hex hr
  refine ⟨m, hle, ?_, (h.mono hle).eq_of_isSome (hm ▸ Nat.find_spec hex)⟩
  have := Nat.find_min hex (m := m) (by omega)
  simpa using this

theorem none_of_le (h : fs.Fueled spare run) {f : Forward} {x : Value} {m n : Nat} (hle : m ≤ n)
    (hn : run n f x = none) : run m f x = none := by
  cases hm : run m f x with
  | none => rfl
  | some r => simp [h.mono hle r hm] at hn

/-- With the least fuel that returns, a reference is not met again inside itself at the same input,
only others that are still open. -/
theorem enough_of_open (h : fs.Fueled spare run) (x : Value) (opened : Finset Nat) (n : Nat)
    (f : Forward)
    (closed : ∀ g v, fs.target? g = some v → g.cell ∉ opened → run n g x = none) :
    Approx (run n f x) (run (fs.cells.length * (x.depth + spare) + opened.card) f x) := by
  -- Deeper inputs come first, and at one input the references that are still open there.
  induction hd : x.depth using Nat.strong_induction_on generalizing x opened n f with
  | _ d ihd =>
  induction opened using Finset.strongInduction generalizing n f with
  | _ opened ih =>
  subst hd
  cases ht : fs.target? f with
  | none => exact .of_eq (h.undefined ht)
  | some v =>
    cases hr : run n f x with
    | none => exact .none
    | some r =>
      have hs : (run n f x).isSome := by simp [hr]
      obtain ⟨m, hmn, hleast, hfull⟩ := h.exists_least ht hs
      have hin : f.cell ∈ opened := by
        by_contra hn
        simp [closed f v ht hn] at hr
      have hcard := Finset.card_erase_add_one hin
      have here : ∀ g, Approx (run m g x)
          (run (fs.cells.length * (x.depth + spare) + (opened.erase f.cell).card) g x) := by
        intro g
        apply ih _ (Finset.erase_ssubset hin) m g
        intro g w hg hout
        -- The fuel left is too little for the reference that closes, as its fuel was the least.
        by_cases hgf : g = f
        · exact hgf ▸ hleast
        · have hcell : g.cell ≠ f.cell := fun hc => hgf (Forward.cell_injective hc)
          have hg' := closed g w hg fun hc => hout (Finset.mem_erase.2 ⟨hcell, hc⟩)
          exact h.none_of_le hmn.le hg'
      have below : ∀ g y, y.depth < x.depth → Approx (run m g y)
          (run (fs.cells.length * (x.depth + spare) + (opened.erase f.cell).card) g y) := by
        intro g y hy
        have hall : ∀ g v, fs.target? g = some v → g.cell ∉ Finset.range fs.cells.length →
            run m g y = none :=
          fun g w hg hout => absurd (Finset.mem_range.2 (cell_lt_of_target? hg)) hout
        -- At a deeper input every reference is open again, and one level of fuel pays for them.
        refine (ihd y.depth hy y _ m g hall rfl).trans (h.mono ?_)
        have hle : y.depth + spare + 1 ≤ x.depth + spare := by omega
        calc
          _ = fs.cells.length * (y.depth + spare + 1) := by
            rw [Finset.card_range, Nat.mul_succ]
          _ ≤ fs.cells.length * (x.depth + spare) := Nat.mul_le_mul_left _ hle
          _ ≤ _ := Nat.le_add_right _ _
      have hstep := h.step (f := f) (Nat.le_add_right _ _) here below
      rw [Nat.add_assoc, hcard] at hstep
      exact hr ▸ hfull ▸ hstep

/-- More fuel than the references times the nested places of the input changes nothing. -/
theorem enough (h : fs.Fueled spare run) (n : Nat) (f : Forward) (x : Value) :
    Approx (run n f x) (run (fs.cells.length * (x.depth + spare + 1)) f x) := by
  have := h.enough_of_open x (Finset.range fs.cells.length) n f fun g v hg hout =>
    absurd (Finset.mem_range.2 (cell_lt_of_target? hg)) hout
  rwa [Finset.card_range, ← Nat.mul_succ] at this

end Forwards.Fueled

end Conform
