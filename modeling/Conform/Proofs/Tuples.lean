import Mathlib.Data.List.FinRange

namespace Conform

inductive Variant where
  | first
  | second
  | third
  | fourth
  | fifth
  | sixth
  | seventh
  | eighth

def Variant.number : Variant → Nat
  | first => 0
  | second => 1
  | third => 2
  | fourth => 3
  | fifth => 4
  | sixth => 5
  | seventh => 6
  | eighth => 7

/-- The places of the members in a tuple of each size, with the names of their outputs in a union.
There are no tuples of more than eight. -/
def memberPlaces : (k : Nat) → List (Fin k × Variant)
  | 1 => [(0, .first)]
  | 2 => [(0, .first), (1, .second)]
  | 3 => [(0, .first), (1, .second), (2, .third)]
  | 4 => [(0, .first), (1, .second), (2, .third), (3, .fourth)]
  | 5 => [(0, .first), (1, .second), (2, .third), (3, .fourth), (4, .fifth)]
  | 6 => [(0, .first), (1, .second), (2, .third), (3, .fourth), (4, .fifth), (5, .sixth)]
  | 7 => [(0, .first), (1, .second), (2, .third), (3, .fourth), (4, .fifth), (5, .sixth),
      (6, .seventh)]
  | 8 => [(0, .first), (1, .second), (2, .third), (3, .fourth), (4, .fifth), (5, .sixth),
      (6, .seventh), (7, .eighth)]
  | _ => []

def fieldPlaces : (k : Nat) → List (Fin k)
  | 1 => [0]
  | 2 => [0, 1]
  | 3 => [0, 1, 2]
  | 4 => [0, 1, 2, 3]
  | 5 => [0, 1, 2, 3, 4]
  | 6 => [0, 1, 2, 3, 4, 5]
  | 7 => [0, 1, 2, 3, 4, 5, 6]
  | 8 => [0, 1, 2, 3, 4, 5, 6, 7]
  | _ => []

/-- The places of members are the indices in order, and the names of the outputs stand in the same
order. -/
theorem memberPlaces_eq (k : Fin 9) : (memberPlaces k).map Prod.fst = List.finRange k ∧
    (memberPlaces k).map (fun place => place.2.number) = List.range k := by
  revert k
  decide

theorem fieldPlaces_eq (k : Fin 9) : fieldPlaces k = List.finRange k := by
  revert k
  decide

theorem find?_memberPlaces (k : Fin 9) (i : Fin k) :
    ((memberPlaces k).find? fun place => place.1.val == i.val).map Prod.fst = some i := by
  revert k
  decide

theorem find?_memberPlaces_of_le {k i : Nat} (h : k ≤ i) :
    (memberPlaces k).find? (fun place => place.1.val == i) = none := by
  rw [List.find?_eq_none]
  intro place _
  have hlt := place.1.isLt
  simpa using by omega

section Maps

variable {α : Type} {k : Fin 9} (f : Fin k → α)

theorem map_memberPlaces : ((memberPlaces k).map fun place => f place.1) = List.ofFn f := by
  rw [List.ofFn_eq_map, ← (memberPlaces_eq k).1, List.map_map]
  rfl

theorem map_fieldPlaces : (fieldPlaces k).map f = List.ofFn f := by
  rw [fieldPlaces_eq, List.ofFn_eq_map]

end Maps

end Conform
