import Conform.Proofs.Fraction
import Conform.Proofs.Unfolding

namespace Conform

namespace Number

theorem value_eq_intCast_iff (n : Number) (i : ℤ) : n.value = i ↔ n.units = i * unitsPerOne := by
  have hne : (unitsPerOne : ℚ) ≠ 0 := Nat.cast_ne_zero.2 unitsPerOne_pos.ne'
  have hcast : (2 : ℚ) ^ 1074 = unitsPerOne := by
    rw [unitsPerOne_eq, Nat.cast_pow, Nat.cast_ofNat]
  rw [value_eq, hcast, div_eq_iff hne]
  exact_mod_cast Iff.rfl

theorem units_one : one.units = unitsPerOne := by
  have hmagnitude : one.magnitude = 1023 * exponentWeight := by decide
  have hnegative : one.negative = false := by decide
  rw [units_eq, hmagnitude, hnegative, magnitudeUnits_one]
  rfl

theorem le_iff_of_isFinite {a b : Number} (ha : a.isFinite = true) (hb : b.isFinite = true) :
    a.le b = true ↔ a.units ≤ b.units := by
  rw [le, not_isNaN_of_isFinite ha, not_isNaN_of_isFinite hb, ← rank_le_rank_iff]
  simp

theorem lt_iff_of_isFinite {a b : Number} (ha : a.isFinite = true) (hb : b.isFinite = true) :
    a.lt b = true ↔ a.units < b.units := by
  rw [lt, not_isNaN_of_isFinite ha, not_isNaN_of_isFinite hb, ← rank_lt_rank_iff]
  simp

end Number

namespace Width

open Number

variable {w : Width} {n : Number} {i : ℤ}

theorem natAbs_lt (hl : w.least ≤ i) (hu : i ≤ w.greatest) : i.natAbs < 2 ^ 53 := by
  cases w <;> simp only [least, greatest] at hl hu <;> omega

theorem least_le_greatest (w : Width) : w.least ≤ w.greatest := by
  cases w <;> decide

theorem lower_exact (w : Width) :
    w.lower.isFinite = true ∧ w.lower.units = w.least * unitsPerOne :=
  ofInt_exact (natAbs_lt le_rfl w.least_le_greatest)

/-- The addition that gives the upper bound is not rounded. -/
theorem upper_exact (w : Width) :
    w.upper.isFinite = true ∧ w.upper.units = (w.greatest + 1) * unitsPerOne := by
  obtain ⟨hfinite, hunits⟩ := ofInt_exact (natAbs_lt w.least_le_greatest le_rfl)
  rw [upper, add_of_isFinite hfinite (by decide), hunits, units_one, ← add_one_mul]
  refine ofUnits_exact ?_ ?_ _ <;> cases w <;> decide

/-- The number is finite, and its exact value is an integer of the width. -/
def Represents (w : Width) (n : Number) (i : ℤ) : Prop :=
  n.Finite ∧ n.value = i ∧ w.least ≤ i ∧ i ≤ w.greatest

theorem represents_iff : w.Represents n i ↔
    n.isFinite = true ∧ n.units = i * unitsPerOne ∧ w.least ≤ i ∧ i ≤ w.greatest := by
  rw [Represents, isFinite_iff, value_eq_intCast_iff]

theorem admits_iff : w.admits n = true ↔ ∃ i, w.Represents n i := by
  have hpos : (0 : ℤ) < unitsPerOne := Nat.cast_pos.2 unitsPerOne_pos
  obtain ⟨hlower, hlowerUnits⟩ := w.lower_exact
  obtain ⟨hupper, hupperUnits⟩ := w.upper_exact
  simp only [represents_iff, admits, Bool.and_eq_true, same_zero_fract]
  constructor
  · rintro ⟨⟨⟨hfinite, i, hi⟩, hle⟩, hlt⟩
    rw [mul_comm] at hi
    rw [le_iff_of_isFinite hlower hfinite, hlowerUnits, hi, mul_le_mul_iff_left₀ hpos] at hle
    rw [lt_iff_of_isFinite hfinite hupper, hupperUnits, hi, mul_lt_mul_iff_left₀ hpos] at hlt
    exact ⟨i, hfinite, hi, hle, Int.le_of_lt_add_one hlt⟩
  · rintro ⟨i, hfinite, hi, hl, hu⟩
    rw [le_iff_of_isFinite hlower hfinite, lt_iff_of_isFinite hfinite hupper, hlowerUnits,
      hupperUnits, hi, mul_le_mul_iff_left₀ hpos, mul_lt_mul_iff_left₀ hpos]
    exact ⟨⟨⟨hfinite, Dvd.intro_left i rfl⟩, hl⟩, Int.lt_add_one_of_le hu⟩

theorem convert_eq (h : w.Represents n i) : w.convert n = i := by
  obtain ⟨hfinite, hi, hl, hu⟩ := represents_iff.1 h
  rw [convert, not_isNaN_of_isFinite hfinite, hfinite, hi,
    Int.mul_tdiv_cancel _ (Nat.cast_ne_zero.2 unitsPerOne_pos.ne')]
  simp [hl, hu]

theorem represents_ofInt (hl : w.least ≤ i) (hu : i ≤ w.greatest) :
    w.Represents (ofInt i) i := by
  obtain ⟨hfinite, hunits⟩ := ofInt_exact (natAbs_lt hl hu)
  exact represents_iff.2 ⟨hfinite, hunits, hl, hu⟩

end Width

namespace Leaf

variable {w : Width} {x : Value}

theorem accepts_integer_iff :
    (integer w).accepts x = true ↔ ∃ n i, x = .number n ∧ w.Represents n i := by
  rw [accepts, Option.any_eq_true_iff_get]
  cases x with
  | number n => simp [Value.number?, Width.admits_iff]
  | _ => simp [Value.number?]

theorem project_integer_iff {o : Output} : (integer w).project x = some o ↔
    ∃ n i, x = .number n ∧ w.Represents n i ∧ o = .integer w i := by
  cases x with
  | number n =>
    simp only [project, Value.number?, Option.map_eq_some_iff, Option.filter_eq_some_iff,
      Option.some.injEq, Width.admits_iff]
    constructor
    · rintro ⟨_, ⟨rfl, i, hi⟩, rfl⟩
      exact ⟨n, i, rfl, hi, by rw [Width.convert_eq hi]⟩
    · rintro ⟨_, i, hn, hi, rfl⟩
      cases hn
      exact ⟨n, ⟨rfl, i, hi⟩, by rw [Width.convert_eq hi]⟩
  | _ => simp [project, Value.number?]

end Leaf

/-- Exactly the finite numbers whose value is an integer of the width are accepted, and projected to
it; each such integer has a number. -/
theorem check_boundedInteger (fs : Forwards) (w : Width) :
    (∀ x, ∃ b, (∀ c p log, fs.check (.leaf (.integer w)) x c p log = some ((b, c), log)) ∧
      (b = true ↔ ∃ n i, x = .number n ∧ w.Represents n i)) ∧
    (∀ x, ∃ o, (∀ log, fs.project (.leaf (.integer w)) x log = some (o, log)) ∧
      ∀ a, o = some a ↔ ∃ n i, x = .number n ∧ w.Represents n i ∧ a = .integer w i) ∧
    ∀ i, w.least ≤ i → i ≤ w.greatest → (Number.ofInt i).Finite ∧ (Number.ofInt i).value = i ∧
      (∀ c p log, fs.check (.leaf (.integer w)) (.number (.ofInt i)) c p log =
        some ((true, c), log)) ∧
      ∀ log, fs.project (.leaf (.integer w)) (.number (.ofInt i)) log =
        some (some (.integer w i), log) := by
  refine ⟨fun x => ⟨_, fs.check_leaf _ x, Leaf.accepts_integer_iff⟩,
    fun x => ⟨_, fs.project_leaf _ x, fun o => Leaf.project_integer_iff⟩, fun i hl hu => ?_⟩
  have hi := Width.represents_ofInt hl hu
  refine ⟨hi.1, hi.2.1, fun c p log => ?_, fun log => ?_⟩
  · rw [fs.check_leaf, Leaf.accepts_integer_iff.2 ⟨_, i, rfl, hi⟩]
  · rw [fs.project_leaf, Leaf.project_integer_iff.2 ⟨_, i, rfl, hi, rfl⟩]

/-- Negative zero counts as zero. -/
theorem represents_negativeZero : Width.uint8.Represents ⟨0x8000000000000000⟩ 0 :=
  Width.represents_iff.2 (by decide)

theorem check_leastInt8 :
    (Width.int8.least ≤ -128 ∧ -128 ≤ Width.int8.greatest) ∧
      (∀ log, ({} : Forwards).project (.leaf (.integer .int8)) (.number (.ofInt (-128))) log =
        some (some (.integer .int8 (-128)), log)) ∧
      ∀ log, ({} : Forwards).project (.leaf (.integer .uint8)) (.number ⟨0x8000000000000000⟩) log =
        some (some (.integer .uint8 0), log) := by
  have hbounds : Width.int8.least ≤ -128 ∧ -128 ≤ Width.int8.greatest := by decide
  obtain ⟨-, -, hleast⟩ := check_boundedInteger {} .int8
  obtain ⟨-, hzero, -⟩ := check_boundedInteger {} .uint8
  refine ⟨hbounds, (hleast _ hbounds.1 hbounds.2).2.2.2, ?_⟩
  obtain ⟨o, hproject, ho⟩ := hzero (.number ⟨0x8000000000000000⟩)
  rwa [(ho _).2 ⟨_, 0, rfl, represents_negativeZero, rfl⟩] at hproject

end Conform
