import Conform.Proofs.Equivariance
import Conform.Proofs.Projection

namespace Conform

open Projecting

namespace Forwards

variable {fs : Forwards} {v : Validator} {x : Value} {d : Verdict}

def Reject (fs : Forwards) (x : Value) : List Validator → List Verdict → Prop :=
  List.Forall₂ fun u e => fs.judge u x = some e ∧ e.passed = false

namespace Reject

variable {vs : List Validator} {tried : List Verdict}

theorem map_judge (h : fs.Reject x vs tried) : vs.map (fs.judge · x) = tried.map some := by
  induction h with
  | nil => rfl
  | cons h _ ih => rw [List.map_cons, List.map_cons, h.1, ih]

theorem passed (h : fs.Reject x vs tried) : ∀ e ∈ tried, e.passed = !true := by
  intro e he
  obtain ⟨u, -, -, hp⟩ := exists_left_of_forall₂ h he
  exact hp

/-- A union judges members that reject, and then the others. -/
theorem judge_union (h : fs.Reject x vs tried) (form : Form) (rest : List Validator) :
    fs.judge (.union form (vs ++ rest)) x =
      (fs.judge (.union form rest) x).map (Verdict.afterAll tried) := by
  rw [Forwards.judge_union, Forwards.judge_union, List.map_append, h.map_judge,
    Verdict.search_append h.passed]

end Reject

end Forwards

open Forwards

end Conform
