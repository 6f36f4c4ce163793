import Conform.Number
import Mathlib.Algebra.Order.Field.Power
import Mathlib.Algebra.Order.Field.Rat
import Mathlib.Data.Rat.Cast.Order
import Mathlib.Order.Monotone.Basic
import Mathlib.Tactic.FieldSimp
import Mathlib.Tactic.Ring

namespace Conform.Number

/-- The field of the exponent is not the one of the infinities and NaN. -/
def Finite (n : Number) : Prop := n.bits.toNat / 2 ^ 52 % 2 ^ 11 ≠ 2047

/-- The exact value of a finite number, read from its fields. A one stands before the fraction, or a
zero where the exponent is least. -/
def value (n : Number) : ℚ :=
  let sign : ℚ := if n.bits.toNat / 2 ^ 63 = 0 then 1 else -1
  let exponent : ℕ := n.bits.toNat / 2 ^ 52 % 2 ^ 11
  let fraction : ℚ := (n.bits.toNat % 2 ^ 52 : ℕ) / 2 ^ 52
  if exponent = 0 then sign * fraction * 2 ^ (-1022 : ℤ)
  else sign * (1 + fraction) * 2 ^ ((exponent : ℤ) - 1023)

theorem magnitude_lt (n : Number) : n.magnitude < signWeight := Nat.mod_lt _ (by decide)

section OfMagnitude

variable {negative : Bool} {m : Nat} (hm : m < signWeight)
include hm

theorem toNat_ofMagnitude :
    (ofMagnitude negative m).bits.toNat = if negative then signWeight + m else m := by
  rw [ofMagnitude, UInt64.toNat_ofNat', Nat.mod_eq_of_lt]
  unfold signWeight at *
  split <;> omega

theorem negative_ofMagnitude : (ofMagnitude negative m).negative = negative := by
  rw [Number.negative, toNat_ofMagnitude hm]
  cases negative
  · simpa using hm
  · simp

theorem magnitude_ofMagnitude : (ofMagnitude negative m).magnitude = m := by
  rw [Number.magnitude, toNat_ofMagnitude hm]
  cases negative
  · exact Nat.mod_eq_of_lt hm
  · simpa using Nat.mod_eq_of_lt hm

end OfMagnitude

theorem ofMagnitude_magnitude (n : Number) : ofMagnitude n.negative n.magnitude = n := by
  have hn := n.bits.toNat_lt
  suffices h : (ofMagnitude n.negative n.magnitude).bits.toNat = n.bits.toNat by
    cases n
    exact congrArg mk (UInt64.toNat_inj.1 h)
  rw [toNat_ofMagnitude n.magnitude_lt, Number.negative, Number.magnitude]
  simp only [decide_eq_true_eq]
  unfold signWeight
  split <;> omega

def magnitudeUnits (m : Nat) : Nat :=
  if m < exponentWeight then m
  else (exponentWeight + m % exponentWeight) * 2 ^ (m / exponentWeight - 1)

theorem units_eq (n : Number) : n.units =
    if n.negative then -(magnitudeUnits n.magnitude : ℤ) else magnitudeUnits n.magnitude := by
  have h : n.significand <<< n.scale = magnitudeUnits n.magnitude := by
    rw [significand, scale, biasedExponent, magnitudeUnits, Nat.shiftLeft_eq]
    by_cases hm : n.magnitude < exponentWeight
    · rw [if_pos hm, if_pos (Nat.div_eq_of_lt hm), Nat.div_eq_of_lt hm, Nat.pow_zero, Nat.mul_one]
    · have hne : n.magnitude / exponentWeight ≠ 0 := by
        rw [ne_eq, Nat.div_eq_zero_iff]
        exact not_or.2 ⟨by decide, hm⟩
      rw [if_neg hm, if_neg hne]
  rw [units, h]

theorem magnitudeUnits_of_lt {m : Nat} (h : m < exponentWeight) : magnitudeUnits m = m := if_pos h

theorem magnitudeUnits_of_le {m : Nat} (h : exponentWeight ≤ m) : magnitudeUnits m =
    (exponentWeight + m % exponentWeight) * 2 ^ (m / exponentWeight - 1) := if_neg h.not_gt

theorem magnitudeUnits_lt_succ (m : Nat) : magnitudeUnits m < magnitudeUnits (m + 1) := by
  rcases Nat.lt_trichotomy (m + 1) exponentWeight with h | h | h
  · rw [magnitudeUnits_of_lt (Nat.lt_of_succ_lt h), magnitudeUnits_of_lt h]
    exact Nat.lt_succ_self m
  · rw [magnitudeUnits_of_lt (h ▸ Nat.lt_succ_self m), magnitudeUnits_of_le h.ge, h, Nat.mod_self,
      Nat.div_self (by decide), Nat.sub_self, Nat.pow_zero, Nat.mul_one, Nat.add_zero, ← h]
    exact Nat.lt_succ_self m
  · have hm : exponentWeight ≤ m := Nat.le_of_lt_succ h
    rw [magnitudeUnits_of_le hm, magnitudeUnits_of_le h.le]
    have hr : m % exponentWeight < exponentWeight := Nat.mod_lt _ (by decide)
    by_cases hcarry : m % exponentWeight + 1 = exponentWeight
    · have hq : (m + 1) / exponentWeight - 1 = m / exponentWeight - 1 + 1 ∧
          (m + 1) % exponentWeight = 0 := by
        unfold exponentWeight at *
        omega
      rw [hq.1, hq.2, Nat.pow_succ', Nat.add_zero, ← Nat.mul_assoc]
      exact Nat.mul_lt_mul_of_pos_right (by omega) (Nat.two_pow_pos _)
    · have hq : (m + 1) / exponentWeight = m / exponentWeight ∧
          (m + 1) % exponentWeight = m % exponentWeight + 1 := by
        unfold exponentWeight at *
        omega
      rw [hq.1, hq.2]
      exact Nat.mul_lt_mul_of_pos_right (by omega) (Nat.two_pow_pos _)

theorem magnitudeUnits_strictMono : StrictMono magnitudeUnits :=
  strictMono_nat_of_lt_succ magnitudeUnits_lt_succ

theorem magnitudeUnits_eq_zero_iff {m : Nat} : magnitudeUnits m = 0 ↔ m = 0 :=
  magnitudeUnits_strictMono.injective.eq_iff' (magnitudeUnits_of_lt (by decide))

theorem isFinite_ofMagnitude {negative : Bool} {m : Nat} (hm : m < infiniteMagnitude) :
    (ofMagnitude negative m).isFinite = true := by
  rw [isFinite, magnitude_ofMagnitude (hm.trans (by decide)), decide_eq_true_eq]
  exact hm

theorem units_ofMagnitude {negative : Bool} {m : Nat} (hm : m < signWeight) :
    (ofMagnitude negative m).units =
      if negative then -(magnitudeUnits m : ℤ) else magnitudeUnits m := by
  rw [units_eq, negative_ofMagnitude hm, magnitude_ofMagnitude hm]

theorem not_isNaN_of_isFinite {n : Number} (h : n.isFinite = true) : n.isNaN = false := by
  rw [isFinite, decide_eq_true_eq] at h
  rw [isNaN, decide_eq_false_iff_not]
  exact h.not_gt

/-- The position on the number line is in the order of the values. -/
theorem rank_le_rank_iff (a b : Number) : a.rank ≤ b.rank ↔ a.units ≤ b.units := by
  have hmono : (a.magnitude ≤ b.magnitude ↔
        magnitudeUnits a.magnitude ≤ magnitudeUnits b.magnitude) ∧
      (b.magnitude ≤ a.magnitude ↔ magnitudeUnits b.magnitude ≤ magnitudeUnits a.magnitude) :=
    ⟨magnitudeUnits_strictMono.le_iff_le.symm, magnitudeUnits_strictMono.le_iff_le.symm⟩
  have ha := magnitudeUnits_eq_zero_iff (m := a.magnitude)
  have hb := magnitudeUnits_eq_zero_iff (m := b.magnitude)
  rw [rank, rank, units_eq, units_eq]
  cases a.negative <;> cases b.negative <;>
    simp only [if_true, Bool.false_eq_true, if_false] <;> omega

theorem rank_lt_rank_iff (a b : Number) : a.rank < b.rank ↔ a.units < b.units := by
  rw [← not_le, rank_le_rank_iff, not_le]

theorem isFinite_iff (n : Number) : n.isFinite = true ↔ n.Finite := by
  have hn := n.bits.toNat_lt
  rw [isFinite, magnitude, Finite, decide_eq_true_eq]
  unfold signWeight infiniteMagnitude exponentWeight
  omega

theorem magnitude_fields (n : Number) :
    n.magnitude / exponentWeight = n.bits.toNat / 2 ^ 52 % 2 ^ 11 ∧
      n.magnitude % exponentWeight = n.bits.toNat % 2 ^ 52 := by
  rw [magnitude]
  unfold signWeight exponentWeight
  omega

theorem sign_eq (n : Number) :
    (if n.bits.toNat / 2 ^ 63 = 0 then 1 else -1 : ℚ) = if n.negative then -1 else 1 := by
  have h : n.negative = true ↔ ¬n.bits.toNat / 2 ^ 63 = 0 := by
    rw [negative, decide_eq_true_eq]
    unfold signWeight
    omega
  simp only [h, ite_not]

theorem value_eq (n : Number) : n.value = n.units / 2 ^ 1074 := by
  have hsign : (n.units : ℚ) =
      (if n.negative then -1 else 1) * (magnitudeUnits n.magnitude : ℚ) := by
    rw [units_eq]
    split <;> simp
  have hpow : (2 : ℚ) ^ 1074 = 2 ^ 52 * 2 ^ 1022 := pow_add 2 52 1022
  have hne : (2 : ℚ) ^ 1022 ≠ 0 := pow_ne_zero _ two_ne_zero
  obtain ⟨hexponent, hfraction⟩ := n.magnitude_fields
  rw [value, hsign, ← hexponent, ← hfraction, sign_eq, hpow]
  by_cases hm : n.magnitude < exponentWeight
  · rw [if_pos (Nat.div_eq_of_lt hm), magnitudeUnits_of_lt hm, Nat.mod_eq_of_lt hm, zpow_neg,
      zpow_ofNat]
    generalize (2 : ℚ) ^ 1022 = p at hne
    field_simp
  · obtain ⟨k, hk⟩ := Nat.exists_eq_add_of_lt
      (Nat.div_pos (not_lt.1 hm) (by decide : 0 < exponentWeight))
    rw [Nat.zero_add] at hk
    have hbias : ((k + 1 : ℕ) : ℤ) - 1023 = k - 1022 := by push_cast; ring
    have hweight : (exponentWeight : ℚ) = 2 ^ 52 := by norm_num [exponentWeight]
    rw [if_neg (by omega), magnitudeUnits_of_le (not_lt.1 hm), hk, hbias,
      zpow_sub₀ two_ne_zero, zpow_natCast, zpow_ofNat, Nat.add_sub_cancel]
    push_cast
    rw [hweight]
    generalize (2 : ℚ) ^ 1022 = p at hne
    field_simp

end Conform.Number
