import Conform.Proofs.Binary64

namespace Conform.Number

variable {a b m : Nat}

theorem roundedQuotient_mul (hb : 0 < b) (q : Nat) : roundedQuotient (q * b) b = q := by
  rw [roundedQuotient, Nat.mul_mod_left, Nat.mul_div_cancel q hb, if_pos (by omega)]

/-- The scale leaves 53 bits of a quotient, or fewer when it is the least one. -/
theorem quotientScale_bounds {q : Nat} (ha : 0 < a) (hb : 0 < b) (h : a * 2 ^ 1074 = q * b) :
    q < 2 ^ (quotientScale a b + 53) ∧
      (quotientScale a b = 0 ∨ 2 ^ (quotientScale a b + 52) ≤ q) := by
  rw [quotientScale]
  generalize he : (1074 : Nat) = e at *
  have hlower : q < 2 ^ (a.log2 + 1021 - b.log2 + 54) := by
    refine Nat.lt_of_mul_lt_mul_right (a := 2 ^ b.log2) ?_
    calc
      q * 2 ^ b.log2 ≤ q * b := Nat.mul_le_mul_left q (Nat.log2_self_le hb.ne')
      _ = a * 2 ^ e := h.symm
      _ < 2 ^ (a.log2 + 1) * 2 ^ e :=
        Nat.mul_lt_mul_of_pos_right Nat.lt_log2_self (Nat.two_pow_pos e)
      _ ≤ 2 ^ (a.log2 + 1021 - b.log2 + 54) * 2 ^ b.log2 := by
        rw [← Nat.pow_add, ← Nat.pow_add]
        exact Nat.pow_le_pow_right two_pos (by omega)
  have hupper : a.log2 + 1021 - b.log2 = 0 ∨ 2 ^ (a.log2 + 1021 - b.log2 + 52) ≤ q := by
    refine (Nat.eq_zero_or_pos _).imp_right fun hpos => ?_
    refine Nat.le_of_mul_le_mul_right (c := 2 ^ (b.log2 + 1)) ?_ (Nat.two_pow_pos _)
    calc
      2 ^ (a.log2 + 1021 - b.log2 + 52) * 2 ^ (b.log2 + 1) = 2 ^ a.log2 * 2 ^ e := by
        rw [← Nat.pow_add, ← Nat.pow_add]
        congr 1
        omega
      _ ≤ a * 2 ^ e := Nat.mul_le_mul_right _ (Nat.log2_self_le ha.ne')
      _ = q * b := h
      _ ≤ q * 2 ^ (b.log2 + 1) := Nat.mul_le_mul_left q Nat.lt_log2_self.le
  have hiff : b <<< (a.log2 + 1021 - b.log2 + 53) ≤ a <<< e ↔
      2 ^ (a.log2 + 1021 - b.log2 + 53) ≤ q := by
    rw [Nat.shiftLeft_eq, Nat.shiftLeft_eq, h, Nat.mul_comm b]
    exact Nat.mul_le_mul_right_iff hb
  simp only [hiff]
  split
  · exact ⟨hlower, .inr ‹_›⟩
  · exact ⟨not_le.1 ‹_›, hupper⟩

/-- Only one scale leaves so many bits. -/
theorem scale_unique {q s t : Nat} (hs : q < 2 ^ (s + 53) ∧ (s = 0 ∨ 2 ^ (s + 52) ≤ q))
    (ht : q < 2 ^ (t + 53) ∧ (t = 0 ∨ 2 ^ (t + 52) ≤ q)) : s = t := by
  have hle : ∀ {s t : Nat}, q < 2 ^ (s + 53) → (t = 0 ∨ 2 ^ (t + 52) ≤ q) → t ≤ s := by
    rintro s t hs (rfl | ht)
    · exact Nat.zero_le s
    · have hlt := (Nat.pow_lt_pow_iff_right (by decide)).1 (ht.trans_lt hs)
      omega
  exact le_antisymm (hle ht.1 hs.2) (hle hs.1 ht.2)

/-- A quotient of at most 53 bits after the zeros at its end is not rounded. -/
theorem nearestMagnitude_of_mul_eq {s t : Nat} (hb : 0 < b) (h : a * 2 ^ 1074 = s * 2 ^ t * b)
    (hpos : 0 < s) (hlt : s < 2 ^ 53) (hs : t = 0 ∨ 2 ^ 52 ≤ s) :
    nearestMagnitude a b = min (t * exponentWeight + s) infiniteMagnitude := by
  have ha : 0 < a := by
    refine Nat.pos_of_ne_zero fun ha => ?_
    rw [ha, Nat.zero_mul] at h
    exact (Nat.mul_pos (Nat.mul_pos hpos (Nat.two_pow_pos t)) hb).ne h
  have hscale : quotientScale a b = t := by
    refine scale_unique (quotientScale_bounds ha hb h) ⟨?_, hs.imp_right fun hs => ?_⟩
    · rw [Nat.add_comm, Nat.pow_add]
      exact Nat.mul_lt_mul_of_pos_right hlt (Nat.two_pow_pos t)
    · rw [Nat.add_comm, Nat.pow_add]
      exact Nat.mul_le_mul_right _ hs
  have hquotient : roundedQuotient (a <<< 1074) (b <<< t) = s := by
    generalize (1074 : Nat) = e at h
    rw [Nat.shiftLeft_eq, Nat.shiftLeft_eq, h, Nat.mul_assoc, Nat.mul_comm (2 ^ t)]
    exact roundedQuotient_mul (Nat.mul_pos hb (Nat.two_pow_pos t)) s
  rw [nearestMagnitude, if_neg ha.ne']
  simp only [hscale, hquotient]

/-- A magnitude is the one nearest to its own value. -/
theorem nearestMagnitude_magnitudeUnits (hb : 0 < b) (hm : m < infiniteMagnitude)
    (h : a * 2 ^ 1074 = magnitudeUnits m * b) : nearestMagnitude a b = m := by
  rcases Nat.eq_zero_or_pos m with rfl | hpos
  · rw [magnitudeUnits_eq_zero_iff.2 rfl, Nat.zero_mul, Nat.mul_eq_zero] at h
    generalize (1074 : Nat) = e at h
    rw [nearestMagnitude, if_pos (h.resolve_right (Nat.two_pow_pos e).ne')]
  · by_cases hlt : m < exponentWeight
    · rw [magnitudeUnits_of_lt hlt, ← Nat.mul_one m] at h
      rw [nearestMagnitude_of_mul_eq (t := 0) hb h hpos (hlt.trans (by decide)) (.inl rfl),
        Nat.zero_mul, Nat.zero_add, Nat.min_eq_left hm.le]
    · rw [magnitudeUnits_of_le (not_lt.1 hlt)] at h
      have hfields : (m / exponentWeight - 1) * exponentWeight +
          (exponentWeight + m % exponentWeight) = m ∧
          exponentWeight + m % exponentWeight < 2 ^ 53 := by
        unfold exponentWeight at *
        omega
      rw [nearestMagnitude_of_mul_eq hb h (Nat.add_pos_left (by decide) _) hfields.2
        (.inr (Nat.le_add_right _ _)), hfields.1, Nat.min_eq_left hm.le]

/-- Integers of at most 53 bits are numbers. -/
theorem exists_magnitudeUnits {i : Nat} (h : i < 2 ^ 53) :
    ∃ m < infiniteMagnitude, magnitudeUnits m = i * 2 ^ 1074 := by
  rcases Nat.eq_zero_or_pos i with rfl | hpos
  · exact ⟨0, by decide, by rw [Nat.zero_mul, magnitudeUnits_eq_zero_iff]⟩
  · have hlog : i.log2 ≤ 52 := Nat.le_of_lt_succ ((Nat.log2_lt hpos.ne').2 h)
    have hexponent : 52 - i.log2 + (i.log2 + 1022) = 1074 := by omega
    obtain ⟨s, hs⟩ : ∃ s, i * 2 ^ (52 - i.log2) = s := ⟨_, rfl⟩
    have hlower : 2 ^ 52 ≤ s := by
      calc
        2 ^ 52 = 2 ^ i.log2 * 2 ^ (52 - i.log2) := by
          rw [← Nat.pow_add, Nat.add_sub_cancel' hlog]
        _ ≤ i * 2 ^ (52 - i.log2) := Nat.mul_le_mul_right _ (Nat.log2_self_le hpos.ne')
        _ = s := hs
    have hupper : s < 2 ^ 53 := by
      calc
        s = i * 2 ^ (52 - i.log2) := hs.symm
        _ < 2 ^ (i.log2 + 1) * 2 ^ (52 - i.log2) :=
          Nat.mul_lt_mul_of_pos_right Nat.lt_log2_self (Nat.two_pow_pos _)
        _ = 2 ^ 53 := by
          rw [← Nat.pow_add]
          congr 1
          omega
    have hfields : ((i.log2 + 1022) * exponentWeight + s) / exponentWeight - 1 = i.log2 + 1022 ∧
        exponentWeight + ((i.log2 + 1022) * exponentWeight + s) % exponentWeight = s := by
      unfold exponentWeight
      omega
    refine ⟨(i.log2 + 1022) * exponentWeight + s, ?_, ?_⟩
    · unfold infiniteMagnitude exponentWeight
      omega
    · generalize (1074 : Nat) = e at hexponent
      rw [magnitudeUnits_of_le (by unfold exponentWeight; omega), hfields.1, hfields.2, ← hs,
        Nat.mul_assoc, ← Nat.pow_add, hexponent]

theorem unitsPerOne_eq : unitsPerOne = 2 ^ 1074 := by
  unfold unitsPerOne
  generalize 1074 = k
  exact Nat.one_shiftLeft k

theorem unitsPerOne_pos : 0 < unitsPerOne := unitsPerOne_eq ▸ pow_pos two_pos 1074

/-- A small integer is not rounded. -/
theorem ofMagnitude_nearestMagnitude {i : ℤ} (hi : i.natAbs < 2 ^ 53) (hb : 0 < b) :
    (ofMagnitude (i < 0) (nearestMagnitude (i.natAbs * b) b)).isFinite = true ∧
      (ofMagnitude (i < 0) (nearestMagnitude (i.natAbs * b) b)).units = i * unitsPerOne := by
  obtain ⟨m, hm, hunits⟩ := exists_magnitudeUnits hi
  have hnearest : nearestMagnitude (i.natAbs * b) b = m :=
    nearestMagnitude_magnitudeUnits hb hm (by rw [hunits, Nat.mul_right_comm])
  rw [hnearest, units_ofMagnitude (hm.trans (by decide)), hunits, ← unitsPerOne_eq, Nat.cast_mul]
  refine ⟨isFinite_ofMagnitude hm, ?_⟩
  by_cases hneg : i < 0
  · rw [if_pos (decide_eq_true hneg), Int.ofNat_natAbs_of_nonpos hneg.le, neg_mul, neg_neg]
  · rw [if_neg (by simpa using hneg), Int.natAbs_of_nonneg (not_lt.1 hneg)]

theorem ofInt_exact {i : ℤ} (hi : i.natAbs < 2 ^ 53) :
    (ofInt i).isFinite = true ∧ (ofInt i).units = i * unitsPerOne := by
  have h := ofMagnitude_nearestMagnitude hi one_pos
  rwa [Nat.mul_one] at h

theorem ofUnits_exact {i : ℤ} (hi : i.natAbs < 2 ^ 53) (hne : i ≠ 0) (negativeZero : Bool) :
    (ofUnits negativeZero (i * unitsPerOne)).isFinite = true ∧
      (ofUnits negativeZero (i * unitsPerOne)).units = i * unitsPerOne := by
  have hpos : (0 : ℤ) < unitsPerOne := Nat.cast_pos.2 unitsPerOne_pos
  have hu : ofUnits negativeZero (i * unitsPerOne) =
      ofMagnitude (i < 0) (nearestMagnitude (i.natAbs * unitsPerOne) unitsPerOne) := by
    rw [ofUnits, if_neg (mul_ne_zero hne hpos.ne'), Int.natAbs_mul, Int.natAbs_natCast]
    simp only [mul_neg_iff, hpos, hpos.not_gt, and_true, and_false, false_or]
  rw [hu]
  exact ofMagnitude_nearestMagnitude hi unitsPerOne_pos

theorem nearestMagnitude_pos {u : Nat} (hu : 0 < u) : 0 < nearestMagnitude u unitsPerOne := by
  have hself : u * 2 ^ 1074 = u * unitsPerOne := by rw [unitsPerOne_eq]
  by_cases hlt : u < 2 ^ 53
  · rw [nearestMagnitude_of_mul_eq (t := 0) unitsPerOne_pos
        (by rw [hself, Nat.pow_zero, Nat.mul_one])
      hu hlt (.inl rfl), Nat.zero_mul, Nat.zero_add]
    exact lt_min hu (by decide)
  · have hscale : quotientScale u unitsPerOne ≠ 0 := fun h0 => by
      have hbound := (quotientScale_bounds hu unitsPerOne_pos hself).1
      rw [h0] at hbound
      exact hlt hbound
    rw [nearestMagnitude, if_neg hu.ne']
    exact lt_min (Nat.add_pos_left (Nat.mul_pos (Nat.pos_of_ne_zero hscale) (by decide)) _)
      (by decide)

theorem nearestMagnitude_le (a b : Nat) : nearestMagnitude a b ≤ infiniteMagnitude := by
  rw [nearestMagnitude]
  split
  · exact Nat.zero_le _
  · exact min_le_right _ _

/-- Only zero units are rounded to zero. -/
theorem same_zero_ofUnits (negativeZero : Bool) (u : ℤ) :
    (ofUnits negativeZero u).same zero = true ↔ u = 0 := by
  rw [ofUnits]
  by_cases hu : u = 0
  · rw [if_pos hu]
    exact iff_of_true (by cases negativeZero <;> decide) hu
  · have hpos := nearestMagnitude_pos (Int.natAbs_pos.2 hu)
    have hlt := (nearestMagnitude_le u.natAbs unitsPerOne).trans_lt (by decide : _ < signWeight)
    have hrank : zero.rank = 0 := by decide
    rw [if_neg hu, same, Bool.and_eq_true, beq_iff_eq, hrank, rank, negative_ofMagnitude hlt,
      magnitude_ofMagnitude hlt]
    refine iff_of_false (fun h => ?_) hu
    split at h <;> omega

end Conform.Number
