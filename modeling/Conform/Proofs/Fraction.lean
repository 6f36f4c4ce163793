import Conform.Proofs.Rounding

namespace Conform.Number

variable {a b n : Number}

theorem exponentWeight_eq : exponentWeight = 2 ^ 52 := rfl

/-- From the exponent field 1075 on a number is whole. -/
theorem unitsPerOne_dvd_magnitudeUnits {m : Nat} (h : 1075 ≤ m / exponentWeight) :
    unitsPerOne ∣ magnitudeUnits m := by
  have hle : exponentWeight ≤ m := by
    unfold exponentWeight at *
    omega
  rw [magnitudeUnits_of_le hle, unitsPerOne_eq]
  exact Dvd.dvd.mul_left (pow_dvd_pow 2 (by omega)) _

theorem magnitudeUnits_one : magnitudeUnits (1023 * exponentWeight) = unitsPerOne := by
  rw [magnitudeUnits_of_le (by decide), Nat.mul_mod_left, Nat.mul_div_cancel _ (by decide),
    unitsPerOne_eq, Nat.add_zero, exponentWeight_eq, ← pow_add]

/-- Below the exponent field 1023 a number is less than one. -/
theorem magnitudeUnits_lt_unitsPerOne {m : Nat} (h : m / exponentWeight < 1023) :
    magnitudeUnits m < unitsPerOne := by
  rw [← magnitudeUnits_one]
  exact magnitudeUnits_strictMono ((Nat.div_lt_iff_lt_mul (by decide)).1 h)

/-- In between, what is less than one stands in the lowest bits. -/
theorem magnitudeUnits_clear {m k : Nat} (hpos : 0 < m / exponentWeight)
    (hk : m / exponentWeight + k = 1075) (hle : k ≤ 52) :
    magnitudeUnits (m >>> k <<< k) = magnitudeUnits m / unitsPerOne * unitsPerOne := by
  have hweight : exponentWeight = 2 ^ k * 2 ^ (52 - k) := by
    rw [← pow_add, Nat.add_sub_cancel' hle, exponentWeight_eq]
  have hone : unitsPerOne = 2 ^ k * 2 ^ (m / exponentWeight - 1) := by
    rw [unitsPerOne_eq, ← pow_add]
    congr 1
    omega
  have hcleared : m >>> k <<< k =
      exponentWeight * (m / exponentWeight) + 2 ^ k * (m % exponentWeight / 2 ^ k) := by
    rw [Nat.shiftLeft_eq, Nat.shiftRight_eq_div_pow, Nat.mul_comm]
    conv_lhs => rw [← Nat.div_add_mod m exponentWeight]
    rw [hweight, Nat.mul_assoc, Nat.mul_add_div (Nat.two_pow_pos k), Nat.mul_add]
  have hlt : 2 ^ k * (m % exponentWeight / 2 ^ k) < exponentWeight :=
    (Nat.mul_div_le _ _).trans_lt (Nat.mod_lt _ (by decide))
  have hm : exponentWeight ≤ m := by
    unfold exponentWeight at *
    omega
  have hfields : m >>> k <<< k / exponentWeight = m / exponentWeight ∧
      m >>> k <<< k % exponentWeight = 2 ^ k * (m % exponentWeight / 2 ^ k) := by
    rw [hcleared, Nat.mul_add_div (by decide), Nat.div_eq_of_lt hlt, Nat.add_zero,
      Nat.mul_add_mod, Nat.mod_eq_of_lt hlt]
    exact ⟨rfl, rfl⟩
  have hquotient : (exponentWeight + m % exponentWeight) / 2 ^ k * 2 ^ k =
      exponentWeight + 2 ^ k * (m % exponentWeight / 2 ^ k) := by
    generalize m % exponentWeight = r
    rw [hweight, Nat.mul_add_div (Nat.two_pow_pos k), ← Nat.mul_add, Nat.mul_comm]
  have hcle : exponentWeight ≤ m >>> k <<< k := by
    rw [hcleared]
    exact (Nat.le_mul_of_pos_right _ hpos).trans (Nat.le_add_right _ _)
  rw [magnitudeUnits_of_le hm, magnitudeUnits_of_le hcle, hfields.1, hfields.2, hone,
    Nat.mul_div_mul_right _ _ (Nat.two_pow_pos _), ← Nat.mul_assoc, hquotient]

/-- Truncation keeps the sign and what is whole of the value. -/
theorem exists_trunc_eq (h : n.isFinite = true) : ∃ m < infiniteMagnitude,
    n.trunc = ofMagnitude n.negative m ∧
      magnitudeUnits m = magnitudeUnits n.magnitude / unitsPerOne * unitsPerOne := by
  have hn : n.magnitude < infiniteMagnitude := by simpa [isFinite] using h
  rw [trunc, biasedExponent]
  split
  · exact ⟨n.magnitude, hn, n.ofMagnitude_magnitude.symm,
      (Nat.div_mul_cancel (unitsPerOne_dvd_magnitudeUnits ‹_›)).symm⟩
  · split
    · refine ⟨0, by decide, rfl, ?_⟩
      rw [Nat.div_eq_of_lt (magnitudeUnits_lt_unitsPerOne ‹_›), Nat.zero_mul,
        magnitudeUnits_eq_zero_iff]
    · refine ⟨_, ?_, rfl, magnitudeUnits_clear (by omega) (by omega) (by omega)⟩
      rw [Nat.shiftLeft_eq, Nat.shiftRight_eq_div_pow]
      exact (Nat.div_mul_le_self _ _).trans_lt hn

theorem isFinite_trunc (h : n.isFinite = true) : n.trunc.isFinite = true := by
  obtain ⟨m, hm, htrunc, -⟩ := exists_trunc_eq h
  rw [htrunc, isFinite_ofMagnitude hm]

theorem negative_trunc (h : n.isFinite = true) : n.trunc.negative = n.negative := by
  obtain ⟨m, hm, htrunc, -⟩ := exists_trunc_eq h
  rw [htrunc, negative_ofMagnitude (hm.trans (by decide))]

theorem units_trunc (h : n.isFinite = true) :
    n.trunc.units = n.units.tdiv unitsPerOne * unitsPerOne := by
  obtain ⟨m, hm, htrunc, hunits⟩ := exists_trunc_eq h
  rw [htrunc, units_ofMagnitude (hm.trans (by decide)), hunits, units_eq]
  split
  · rw [Int.neg_tdiv, ← Int.ofNat_tdiv, neg_mul, Nat.cast_mul]
  · rw [← Int.ofNat_tdiv, Nat.cast_mul]

theorem magnitude_neg (n : Number) : n.neg.magnitude = n.magnitude :=
  magnitude_ofMagnitude n.magnitude_lt

theorem negative_neg (n : Number) : n.neg.negative = !n.negative :=
  negative_ofMagnitude n.magnitude_lt

theorem units_neg (n : Number) : n.neg.units = -n.units := by
  rw [neg, units_ofMagnitude n.magnitude_lt, units_eq]
  cases n.negative <;> simp

theorem add_of_isFinite (ha : a.isFinite = true) (hb : b.isFinite = true) :
    a.add b = ofUnits (a.negative && b.negative) (a.units + b.units) := by
  rw [add, not_isNaN_of_isFinite ha, not_isNaN_of_isFinite hb, ha, hb]
  rfl

theorem fract_of_isFinite (h : n.isFinite = true) :
    n.fract = ofUnits false (n.units - n.units.tdiv unitsPerOne * unitsPerOne) := by
  have hneg : n.trunc.neg.isFinite = true := by
    rw [isFinite, magnitude_neg]
    exact isFinite_trunc h
  rw [fract, add_of_isFinite h hneg, negative_neg, negative_trunc h, Bool.and_not_self, units_neg,
    units_trunc h, sub_eq_add_neg]

/-- An infinity less itself is no number. -/
theorem fract_of_not_isFinite (h : n.isFinite = false) : n.fract = nan := by
  have hexponent : 1075 ≤ n.biasedExponent := by
    rw [isFinite, decide_eq_false_iff_not, infiniteMagnitude] at h
    rw [biasedExponent]
    unfold exponentWeight at *
    omega
  rw [fract, trunc, if_pos hexponent, add]
  split
  · rfl
  · have hneg : n.neg.isFinite = false := by rwa [isFinite, magnitude_neg]
    rw [h, hneg, negative_neg]
    cases n.negative <;> rfl

/-- The fraction is zero where the value is whole. -/
theorem same_zero_fract (n : Number) : n.fract.same zero = true ↔
    n.isFinite = true ∧ (unitsPerOne : ℤ) ∣ n.units := by
  cases h : n.isFinite with
  | false =>
    rw [fract_of_not_isFinite h]
    exact iff_of_false (by decide) (by simp)
  | true =>
    rw [fract_of_isFinite h, same_zero_ofUnits, sub_eq_zero]
    simp only [true_and]
    constructor
    · intro h
      exact ⟨_, h.trans (mul_comm _ _)⟩
    · intro h
      exact (Int.tdiv_mul_cancel h).symm

end Conform.Number
