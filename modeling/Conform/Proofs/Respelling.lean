import Conform.Proofs.Navigation
import Mathlib.Algebra.Group.Nat.Defs

namespace Conform

/-- The key is a number below two to the 64 in decimal: digits alone, the first of which is zero
only when it is the only one. -/
structure SpellsIndex (key : String) : Prop where
  ne_nil : key.toList ≠ []
  digits : ∀ c ∈ key.toList, c.isDigit = true
  leading : key.toList.head? = some '0' → key.toList = ['0']
  below : Nat.ofDigitChars 10 key.toList 0 < 2 ^ 64

theorem toList_toString (n : Nat) : (toString n).toList = Nat.toDigits 10 n := by
  rw [Nat.toString_eq_ofList_toDigits, String.toList_ofList]

theorem le_ofDigitChars (cs : List Char) (i : Nat) : i ≤ Nat.ofDigitChars 10 cs i := by
  induction cs generalizing i with
  | nil => rfl
  | cons c rest ih =>
    rw [Nat.ofDigitChars_cons]
    exact le_trans (by omega) (ih _)

theorem readDigits?_eq_some_iff {cs : List Char} {i n : Nat} (hi : i < indexBound) :
    readDigits? cs i = some n ↔
      (∀ c ∈ cs, c.isDigit = true) ∧ Nat.ofDigitChars 10 cs i = n ∧ n < indexBound := by
  induction cs generalizing i with
  | nil =>
    rw [readDigits?, Nat.ofDigitChars_nil, Option.some.injEq]
    exact ⟨fun h => ⟨by simp, h, h ▸ hi⟩, fun h => h.2.1⟩
  | cons c rest ih =>
    rw [readDigits?, List.forall_mem_cons, Nat.ofDigitChars_cons]
    by_cases hc : c.isDigit = true
    · by_cases hj : 10 * i + (c.toNat - '0'.toNat) < indexBound
      · simp only [hc, if_pos hj, if_true, ih hj, true_and]
      · simp only [hc, if_neg hj, if_true, reduceCtorEq, false_iff]
        rintro ⟨-, rfl, hn⟩
        exact hj ((le_ofDigitChars rest _).trans_lt hn)
    · simp only [hc, if_false, reduceCtorEq, false_and]

theorem dropPlus_of_digits {cs : List Char} (h : ∀ c ∈ cs, c.isDigit = true) :
    dropPlus cs = cs := by
  unfold dropPlus
  split
  · exact absurd (h '+' List.mem_cons_self) (by decide)
  · rfl

theorem lt_of_readIndex? {key : String} {n : Nat} (h : readIndex? key = some n) :
    n < indexBound := by
  unfold readIndex? at h
  split at h
  · cases h
  · exact ((readDigits?_eq_some_iff (by decide)).1 h).2.2

theorem readIndex?_toString {n : Nat} (h : n < indexBound) : readIndex? (toString n) = some n := by
  have hdigits : ∀ c ∈ Nat.toDigits 10 n, c.isDigit = true := fun c =>
    Nat.isDigit_of_mem_toDigits (by decide) (by decide)
  rw [readIndex?, toList_toString, dropPlus_of_digits hdigits]
  split
  · exact absurd ‹_› Nat.toDigits_ne_nil
  · exact (readDigits?_eq_some_iff (by decide)).2 ⟨hdigits, Nat.ofDigitChars_ten_toDigits, h⟩

/-- Printing and reading are inverse on the indices. -/
theorem canonicalIndex?_eq_some_iff {key : String} {n : Nat} :
    canonicalIndex? key = some n ↔ n < indexBound ∧ key = toString n := by
  rw [canonicalIndex?, Option.filter_eq_some_iff, beq_iff_eq]
  constructor
  · rintro ⟨hn, rfl⟩
    exact ⟨lt_of_readIndex? hn, rfl⟩
  · rintro ⟨hn, rfl⟩
    exact ⟨readIndex?_toString hn, rfl⟩

theorem digitChar_of_isDigit {c : Char} (h : c.isDigit = true) :
    Nat.digitChar (c.toNat - '0'.toNat) = c := by
  have hbounds : 48 ≤ c.toNat ∧ c.toNat ≤ 57 := Char.isDigit_iff_toNat.1 h
  rw [← Char.toNat_inj, Nat.toNat_digitChar_of_lt_ten] <;> simp <;> omega

theorem digit_lt_ten {c : Char} (h : c.isDigit = true) : c.toNat - '0'.toNat < 10 := by
  have hbounds : 48 ≤ c.toNat ∧ c.toNat ≤ 57 := Char.isDigit_iff_toNat.1 h
  simp
  omega

theorem head?_toDigits_ne {n : Nat} (h : 0 < n) : (Nat.toDigits 10 n).head? ≠ some '0' := by
  induction n using Nat.strong_induction_on with
  | _ n ih =>
    rw [Nat.toDigits_eq_if (by decide)]
    by_cases hn : n < 10
    · rw [if_pos hn, List.head?_singleton, ne_eq, Option.some.injEq, Nat.digitChar_eq_zero]
      exact h.ne'
    · rw [if_neg hn, List.head?_append_of_ne_nil _ Nat.toDigits_ne_nil]
      exact ih (n / 10) (by omega) (by omega)

/-- Digits after a positive number continue its text. -/
theorem toDigits_ofDigitChars {cs : List Char} (hcs : ∀ c ∈ cs, c.isDigit = true) {i : Nat}
    (hi : 0 < i) : Nat.toDigits 10 (Nat.ofDigitChars 10 cs i) = Nat.toDigits 10 i ++ cs := by
  induction cs generalizing i with
  | nil => rw [Nat.ofDigitChars_nil, List.append_nil]
  | cons c rest ih =>
    obtain ⟨hc, hrest⟩ := List.forall_mem_cons.1 hcs
    have hlt := digit_lt_ten hc
    rw [Nat.ofDigitChars_cons, ih hrest (by omega),
      ← Nat.toDigits_append_toDigits (by decide) hi hlt, Nat.toDigits_of_lt_base hlt,
      digitChar_of_isDigit hc, List.append_assoc, List.singleton_append]

/-- Digits without a leading zero are the text of what they read as. -/
theorem SpellsIndex.toDigits_eq {key : String} (h : SpellsIndex key) :
    Nat.toDigits 10 (Nat.ofDigitChars 10 key.toList 0) = key.toList := by
  obtain ⟨hne, hdigits, hleading, -⟩ := h
  cases hkey : key.toList with
  | nil => exact absurd hkey hne
  | cons c rest =>
    rw [hkey] at hdigits hleading
    obtain ⟨hc, hrest⟩ := List.forall_mem_cons.1 hdigits
    by_cases hzero : c = '0'
    · rw [hleading (by rw [hzero, List.head?_cons])]
      rfl
    · have hlt := digit_lt_ten hc
      have hpos : 0 < c.toNat - '0'.toNat := by
        rw [Nat.pos_iff_ne_zero, ne_eq, ← Nat.digitChar_eq_zero, digitChar_of_isDigit hc]
        exact hzero
      rw [Nat.ofDigitChars_cons, Nat.mul_zero, Nat.zero_add, toDigits_ofDigitChars hrest hpos,
        Nat.toDigits_of_lt_base hlt, digitChar_of_isDigit hc, List.singleton_append]

theorem spellsIndex_iff {key : String} : SpellsIndex key ↔ ∃ n < 2 ^ 64, key = toString n := by
  constructor
  · intro h
    refine ⟨_, h.below, String.toList_injective ?_⟩
    rw [toList_toString, h.toDigits_eq]
  · rintro ⟨n, hn, rfl⟩
    refine ⟨?_, ?_, fun hhead => ?_, ?_⟩ <;> rw [toList_toString] at *
    · exact Nat.toDigits_ne_nil
    · exact fun c => Nat.isDigit_of_mem_toDigits (by decide) (by decide)
    · obtain rfl : n = 0 := Nat.eq_zero_of_not_pos fun h => head?_toDigits_ne h hhead
      rfl
    · rwa [Nat.ofDigitChars_ten_toDigits]

/-- One segment twice, or an index and the key that is its decimal text. -/
inductive Segment.Respells : Segment → Segment → Prop
  | same (s : Segment) : Respells s s
  | asKey {n : Nat} (h : n < 2 ^ 64) : Respells (.index n) (.key (toString n))
  | asIndex {n : Nat} (h : n < 2 ^ 64) : Respells (.key (toString n)) (.index n)

theorem Value.part?_key_toString {n : Nat} (h : n < 2 ^ 64) (x : Value) :
    x.part? (.key (toString n)) = x.part? (.index n) := by
  cases x with
  | array items =>
    simp only [part?, canonicalIndex?_eq_some_iff.2 ⟨h, rfl⟩, Option.bind_some]
  | _ => rfl

theorem Segment.Respells.part?_eq {s t : Segment} (h : s.Respells t) (x : Value) :
    x.part? s = x.part? t := by
  cases h with
  | same => rfl
  | asKey h => exact (Value.part?_key_toString h x).symm
  | asIndex h => exact Value.part?_key_toString h x

theorem Value.access_eq_of_respells {p q : Path} (h : List.Forall₂ Segment.Respells p q)
    (x : Value) : x.access p = x.access q := by
  induction h generalizing x with
  | nil => rfl
  | cons hs _ ih =>
    rw [access, access, hs.part?_eq x]
    exact Option.bind_congr fun y _ => ih y

theorem Value.part?_array_key {items : List Value} {key : String} (h : ¬SpellsIndex key) :
    (Value.array items).part? (.key key) = none := by
  have hnone : canonicalIndex? key = none := by
    rw [Option.eq_none_iff_forall_not_mem]
    intro n hn
    obtain ⟨hlt, rfl⟩ := canonicalIndex?_eq_some_iff.1 hn
    exact h (spellsIndex_iff.2 ⟨n, hlt, rfl⟩)
  rw [part?, hnone, Option.bind_none]

/-- An index and the key with its decimal text read the same item of an array; every other key leads
nowhere from an array. -/
theorem access_respelled (x : Value) :
    (∀ p q, List.Forall₂ Segment.Respells p q → x.access p = x.access q) ∧
      (∀ p items n, x.access p = some (.array items) →
        x.access (p.push (.index n)) = items[n]?) ∧
      (∀ key, SpellsIndex key ↔ ∃ n < 2 ^ 64, key = toString n) ∧
      ∀ key p, ¬SpellsIndex key →
        (∀ items, x.access p = some (.array items) → ∀ q, x.access (p ++ .key key :: q) = none) ∧
        ∀ o, x.access p = some (.object o) → x.access (p.push (.key key)) = o.get? key := by
  refine ⟨fun p q h => Value.access_eq_of_respells h x, fun p items n hp => ?_,
    fun key => spellsIndex_iff, fun key p hkey => ⟨fun items hp q => ?_, fun o hp => ?_⟩⟩
  · rw [Value.access_push, hp, Option.bind_some, Value.part?]
  · rw [Value.access_append, hp, Option.bind_some, Value.access, Value.part?_array_key hkey,
      Option.bind_none]
  · rw [Value.access_push, hp, Option.bind_some, Value.part?]

/-- Rows by number, one of which is kept under digits and under digits with a sign. -/
def table : Value :=
  .object ⟨[("1", .array [.null, .object ⟨[("7", .boolean true), ("+7", .boolean false)], []⟩])], []⟩

theorem access_table :
    (List.Forall₂ Segment.Respells [.index 1, .key "1", .index 7] [.key "1", .index 1, .key "7"] ∧
      ¬SpellsIndex "+7" ∧ ¬SpellsIndex "01" ∧ ¬SpellsIndex "18446744073709551616") ∧
      table.access [.index 1, .key "1", .index 7] = some (.boolean true) ∧
      table.access [.key "1", .key "01", .key "7"] = none ∧
      table.access [.key "1", .key "18446744073709551616"] = none ∧
      table.access [.key "1", .key "1", .key "+7"] = some (.boolean false) := by
  have hpaths : List.Forall₂ Segment.Respells [.index 1, .key "1", .index 7]
      [.key "1", .index 1, .key "7"] :=
    .cons (.asKey (n := 1) (by decide)) (.cons (.asIndex (n := 1) (by decide))
      (.cons (.asKey (n := 7) (by decide)) .nil))
  have hsign : ¬SpellsIndex "+7" := fun h => absurd (h.digits '+' (by simp)) (by decide)
  have hzero : ¬SpellsIndex "01" := fun h => absurd (h.leading (by simp)) (by simp)
  have hbound : ¬SpellsIndex "18446744073709551616" := fun h => absurd h.below (by decide)
  obtain ⟨hrespelled, -, -, hkeys⟩ := access_respelled table
  refine ⟨⟨hpaths, hsign, hzero, hbound⟩, ?_, ?_, ?_, ?_⟩
  · rw [hrespelled _ _ hpaths]
    rfl
  · exact (hkeys _ [.key "1"] hzero).1 _ rfl [.key "7"]
  · exact (hkeys _ [.key "1"] hbound).1 _ rfl []
  · exact (hkeys _ [.key "1", .key "1"] hsign).2 _ rfl

end Conform
