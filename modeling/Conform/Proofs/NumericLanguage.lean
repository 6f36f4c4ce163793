import Mathlib.Data.List.TakeWhile
import Conform.Proofs.Equivariance
import Conform.Proofs.View

namespace Conform

namespace NumericString

def Blank (c : Char) : Prop :=
  9 ≤ c.toNat ∧ c.toNat ≤ 0xD ∨ 0x2000 ≤ c.toNat ∧ c.toNat ≤ 0x200A ∨
    c.toNat ∈ [0x20, 0xA0, 0x1680, 0x2028, 0x2029, 0x202F, 0x205F, 0x3000, 0xFEFF]

structure Digits (alphabet : String) (cs : List Char) : Prop where
  ne_nil : cs ≠ []
  subset : cs ⊆ alphabet.toList

def decimals : String := "0123456789"

inductive Sign : List Char → Prop
  | absent : Sign []
  | plus : Sign ['+']
  | minus : Sign ['-']

inductive Exponent : List Char → Prop
  | absent : Exponent []
  | power {letter : Char} {sign digits : List Char} (hl : letter ∈ ['e', 'E']) (hs : Sign sign)
      (hd : Digits decimals digits) : Exponent (letter :: (sign ++ digits))

/-- A decimal literal: digits, or digits with a point behind them and perhaps a fraction, or a point
with a fraction, and perhaps an exponent. -/
inductive Decimal : List Char → Prop
  | whole {digits exponent : List Char} (hd : Digits decimals digits)
      (he : Exponent exponent) : Decimal (digits ++ exponent)
  | mixed {digits fraction exponent : List Char} (hd : Digits decimals digits)
      (hf : fraction ⊆ decimals.toList) (he : Exponent exponent) :
      Decimal (digits ++ '.' :: (fraction ++ exponent))
  | fraction {fraction exponent : List Char} (hf : Digits decimals fraction)
      (he : Exponent exponent) : Decimal ('.' :: (fraction ++ exponent))

def Magnitude (cs : List Char) : Prop := cs = "Infinity".toList ∨ Decimal cs

def radices : List (Char × String) :=
  [('b', "01"), ('B', "01"), ('o', "01234567"), ('O', "01234567"), ('x', "0123456789abcdefABCDEF"),
    ('X', "0123456789abcdefABCDEF")]

/-- The texts that spell a number, without blank around them. -/
inductive Numeral : List Char → Prop
  | zero : Numeral []
  | radix {letter : Char} {alphabet : String} {digits : List Char}
      (hr : (letter, alphabet) ∈ radices) (hd : Digits alphabet digits) :
      Numeral ('0' :: letter :: digits)
  | signed {sign magnitude : List Char} (hs : Sign sign) (hm : Magnitude magnitude) :
      Numeral (sign ++ magnitude)

theorem isBlank_iff {c : Char} : isBlank c = true ↔ Blank c := by
  simp [isBlank, Blank, Char.ext_iff, Char.le_def, UInt32.le_iff_toNat_le, ← UInt32.toNat_inj]
  omega

theorem isBinaryDigit_iff {c : Char} : isBinaryDigit c = true ↔ c ∈ "01".toList := by
  simp [isBinaryDigit]

theorem isOctalDigit_iff {c : Char} : isOctalDigit c = true ↔ c ∈ "01234567".toList := by
  simp [isOctalDigit, Char.ext_iff, Char.le_def, UInt32.le_iff_toNat_le, ← UInt32.toNat_inj]
  omega

theorem isDigit_iff {c : Char} : c.isDigit = true ↔ c ∈ decimals.toList := by
  simp [decimals, Char.isDigit, Char.ext_iff, UInt32.le_iff_toNat_le, ← UInt32.toNat_inj]
  omega

theorem isHexDigit_iff {c : Char} :
    isHexDigit c = true ↔ c ∈ "0123456789abcdefABCDEF".toList := by
  simp [isHexDigit, Char.isDigit, Char.ext_iff, Char.le_def, UInt32.le_iff_toNat_le,
    ← UInt32.toNat_inj]
  omega

theorem digits_iff {p : Char → Bool} {alphabet : String}
    (h : ∀ {c}, p c = true ↔ c ∈ alphabet.toList) {cs : List Char} :
    (!cs.isEmpty && cs.all p) = true ↔ Digits alphabet cs := by
  rw [Bool.and_eq_true, List.all_eq_true]
  simp only [h]
  constructor
  · rintro ⟨hne, hall⟩
    exact ⟨by simpa using hne, fun c hc => hall c hc⟩
  · rintro ⟨hne, hall⟩
    exact ⟨by simpa using hne, fun c hc => hall hc⟩

theorem exists_sign (cs : List Char) : ∃ s, Sign s ∧ cs = s ++ dropSign cs := by
  fun_cases dropSign cs with
  | case1 rest => exact ⟨_, .plus, rfl⟩
  | case2 rest => exact ⟨_, .minus, rfl⟩
  | case3 => exact ⟨_, .absent, rfl⟩

/-- The sign in front of a text that begins with none is read off. -/
theorem dropSign_iff {P : List Char → Prop} (hP : ∀ c rest, P (c :: rest) → c ∉ ['+', '-'])
    {cs : List Char} : P (dropSign cs) ↔ ∃ s rest, Sign s ∧ P rest ∧ cs = s ++ rest := by
  constructor
  · intro h
    obtain ⟨s, hs, hcs⟩ := exists_sign cs
    exact ⟨s, _, hs, h, hcs⟩
  · rintro ⟨s, rest, hs, h, rfl⟩
    cases hs with
    | plus | minus => exact h
    | absent =>
      have hself : dropSign rest = rest := by
        unfold dropSign
        split
        · exact absurd (by simp) (hP _ _ h)
        · exact absurd (by simp) (hP _ _ h)
        · rfl
      rwa [List.nil_append, hself]

theorem not_mem_signs_of_mem {c : Char} (h : c ∈ decimals.toList) : c ∉ ['+', '-'] := by
  have hdigits : decimals.toList.all (· ∉ ['+', '-']) = true := by decide
  simpa using List.all_eq_true.1 hdigits c h

theorem isExponent_iff {cs : List Char} : isExponent cs = true ↔ Exponent cs := by
  cases cs with
  | nil => exact iff_of_true rfl .absent
  | cons letter rest =>
    have hiff : isExponent (letter :: rest) = true ↔
        letter ∈ ['e', 'E'] ∧ ∃ s ds, Sign s ∧ Digits decimals ds ∧ rest = s ++ ds := by
      rw [← dropSign_iff fun c _ h => not_mem_signs_of_mem (h.subset List.mem_cons_self),
        ← digits_iff isDigit_iff, isExponent, Bool.and_assoc]
      simp
    rw [hiff]
    constructor
    · rintro ⟨hl, s, ds, hs, hd, rfl⟩
      exact .power hl hs hd
    · rintro (_ | ⟨hl, hs, hd⟩)
      exact ⟨hl, _, _, hs, hd, rfl⟩

theorem Exponent.ends {cs : List Char} (h : Exponent cs) :
    ∀ c ∈ cs.head?, c.isDigit = false ∧ c ≠ '.' := by
  cases h with
  | absent => simp
  | @power letter sign digits hl =>
    intro c hc
    cases hc
    rcases List.mem_pair.1 hl with rfl | rfl <;> decide

section

variable {p : Char → Bool} {cs rest : List Char} (hcs : ∀ c ∈ cs, p c = true)
  (hrest : ∀ c ∈ rest.head?, p c = false)
include hcs hrest

theorem takeWhile_span : (cs ++ rest).takeWhile p = cs := by
  rw [List.takeWhile_append_of_pos hcs]
  cases rest with
  | nil => simp
  | cons c rest => simp [hrest c rfl]

theorem dropWhile_span : (cs ++ rest).dropWhile p = rest := by
  rw [List.dropWhile_append_of_pos hcs]
  cases rest with
  | nil => rfl
  | cons c rest => simp [hrest c rfl]

end

/-- Every text has digits at its start, up to a character that is none. -/
theorem exists_span (cs : List Char) : ∃ ds rest, cs = ds ++ rest ∧ ds ⊆ decimals.toList ∧
    ∀ c ∈ rest.head?, c.isDigit = false := by
  refine ⟨cs.takeWhile Char.isDigit, cs.dropWhile Char.isDigit,
    List.takeWhile_append_dropWhile.symm,
    fun c hc => isDigit_iff.1 (List.mem_takeWhile_imp hc), ?_⟩
  intro c hc
  have hstop := List.head?_dropWhile_not Char.isDigit cs
  rwa [Option.mem_def.1 hc] at hstop

section

variable {ds fs rest : List Char} (hd : ds ⊆ decimals.toList)
include hd

theorem isDecimal_whole (hr : ∀ c ∈ rest.head?, c.isDigit = false ∧ c ≠ '.') :
    isDecimal (ds ++ rest) = (!ds.isEmpty && isExponent rest) := by
  have hdigits : ∀ c ∈ ds, c.isDigit = true := fun c hc => isDigit_iff.2 (hd hc)
  have hstop : ∀ c ∈ rest.head?, c.isDigit = false := fun c hc => (hr c hc).1
  rw [isDecimal, takeWhile_span hdigits hstop, dropWhile_span hdigits hstop]
  split
  · exact absurd rfl (hr '.' rfl).2
  · rfl

theorem isDecimal_point (hf : fs ⊆ decimals.toList)
    (hr : ∀ c ∈ rest.head?, c.isDigit = false) :
    isDecimal (ds ++ '.' :: (fs ++ rest)) =
      ((!ds.isEmpty || !fs.isEmpty) && isExponent rest) := by
  have hwhole : ∀ c ∈ ds, c.isDigit = true := fun c hc => isDigit_iff.2 (hd hc)
  have hfraction : ∀ c ∈ fs, c.isDigit = true := fun c hc => isDigit_iff.2 (hf hc)
  have hpoint : ∀ c ∈ ('.' :: (fs ++ rest)).head?, c.isDigit = false := by simp
  rw [isDecimal, takeWhile_span hwhole hpoint, dropWhile_span hwhole hpoint]
  simp only [takeWhile_span hfraction hr, dropWhile_span hfraction hr]

end

theorem decimal_of_isDecimal {cs : List Char} (h : isDecimal cs = true) : Decimal cs := by
  obtain ⟨ds, rest, rfl, hd, hr⟩ := exists_span cs
  by_cases hpoint : ∀ c ∈ rest.head?, c ≠ '.'
  · rw [isDecimal_whole hd fun c hc => ⟨hr c hc, hpoint c hc⟩, Bool.and_eq_true] at h
    exact .whole ⟨by simpa using h.1, hd⟩ (isExponent_iff.1 h.2)
  · obtain ⟨rest, rfl⟩ : ∃ rest', rest = '.' :: rest' := by
      cases rest <;> simp_all
    obtain ⟨fs, rest, rfl, hf, hr⟩ := exists_span rest
    rw [isDecimal_point hd hf hr, Bool.and_eq_true] at h
    have he := isExponent_iff.1 h.2
    cases ds with
    | nil => exact .fraction ⟨by simpa using h.1, hf⟩ he
    | cons c ds => exact .mixed ⟨List.cons_ne_nil c ds, hd⟩ hf he

theorem isDecimal_iff {cs : List Char} : isDecimal cs = true ↔ Decimal cs := by
  refine ⟨decimal_of_isDecimal, fun h => ?_⟩
  cases h with
  | whole hd he =>
    rw [isDecimal_whole hd.subset he.ends, isExponent_iff.2 he]
    simpa using hd.ne_nil
  | mixed hd hf he =>
    rw [isDecimal_point hd.subset hf fun c hc => (he.ends c hc).1, isExponent_iff.2 he]
    simpa using Or.inl hd.ne_nil
  | fraction hf he =>
    have hpoint := isDecimal_point (List.nil_subset _) hf.subset fun c hc => (he.ends c hc).1
    rw [List.nil_append] at hpoint
    rw [hpoint, isExponent_iff.2 he]
    simpa using hf.ne_nil

theorem Decimal.begins {cs : List Char} (h : Decimal cs) :
    ∀ c ∈ cs.head?, c = '.' ∨ c ∈ decimals.toList := by
  cases h with
  | whole hd | mixed hd =>
    intro c hc
    rw [List.head?_append_of_ne_nil _ hd.ne_nil] at hc
    exact .inr (hd.subset (List.mem_of_mem_head? hc))
  | fraction => simp

theorem isSigned_iff {cs : List Char} :
    isSigned cs = true ↔ ∃ s rest, Sign s ∧ Magnitude rest ∧ cs = s ++ rest := by
  rw [← dropSign_iff (P := Magnitude), isSigned, Bool.or_eq_true, beq_iff_eq, isDecimal_iff,
    Magnitude]
  rintro c rest (h | h)
  · have hc : "Infinity".toList.head? = some c := h ▸ rfl
    obtain rfl : 'I' = c := Option.some.inj hc
    decide
  · rcases h.begins c rfl with rfl | hc
    · decide
    · exact not_mem_signs_of_mem hc

theorem isRadix_iff {letter : Char} {isRadixDigit : Char → Bool} {ds : List Char}
    (h : radixDigit? letter = some isRadixDigit) : (!ds.isEmpty && ds.all isRadixDigit) = true ↔
      ∃ alphabet, (letter, alphabet) ∈ radices ∧ Digits alphabet ds := by
  unfold radixDigit? at h
  split at h <;> cases h
  · simp [radices, digits_iff isBinaryDigit_iff]
  · simp [radices, digits_iff isBinaryDigit_iff]
  · simp [radices, digits_iff isOctalDigit_iff]
  · simp [radices, digits_iff isOctalDigit_iff]
  · simp [radices, digits_iff isHexDigit_iff]
  · simp [radices, digits_iff isHexDigit_iff]

/-- A zero and the letter of a radix begin no decimal literal. -/
theorem isSigned_radix {letter : Char} (h : (radixDigit? letter).isSome) (rest : List Char) :
    isSigned ('0' :: letter :: rest) = false := by
  unfold radixDigit? at h
  split at h <;> simp [isSigned, dropSign, isDecimal, isExponent] at h ⊢

theorem radixDigit?_isSome : ∀ r ∈ radices, (radixDigit? r.1).isSome := by decide

theorem isSigned_iff_numeral {cs : List Char} (hne : cs ≠ [])
    (h : ∀ letter rest, cs = '0' :: letter :: rest → radixDigit? letter = none) :
    isSigned cs = true ↔ Numeral cs := by
  rw [isSigned_iff]
  constructor
  · rintro ⟨s, rest, hs, hm, rfl⟩
    exact .signed hs hm
  · intro hcs
    cases hcs with
    | zero => exact absurd rfl hne
    | @radix letter alphabet digits hr =>
      have hsome := radixDigit?_isSome _ hr
      rw [h letter digits rfl] at hsome
      cases hsome
    | signed hs hm => exact ⟨_, _, hs, hm, rfl⟩

theorem isNumeral_iff {cs : List Char} : isNumeral cs = true ↔ Numeral cs := by
  fun_cases isNumeral cs with
  | case1 => exact iff_of_true rfl .zero
  | case2 letter rest isRadixDigit h =>
    rw [isRadix_iff h]
    constructor
    · rintro ⟨alphabet, hr, hd⟩
      exact .radix hr hd
    · intro hcs
      generalize hrest : '0' :: letter :: rest = cs at hcs
      cases hcs with
      | zero => cases hrest
      | radix hr hd =>
        cases hrest
        exact ⟨_, hr, hd⟩
      | signed hs hm =>
        -- a literal without a radix goes on behind its digits with a point or an exponent
        have hsigned := isSigned_iff.2 ⟨_, _, hs, hm, hrest⟩
        rw [isSigned_radix (Option.isSome_of_eq_some h)] at hsigned
        cases hsigned
  | case3 letter rest h =>
    refine isSigned_iff_numeral (List.cons_ne_nil _ _) fun letter' rest' hcs => ?_
    cases hcs
    exact h
  | case4 cs hne hzero =>
    exact isSigned_iff_numeral hne fun letter rest hcs => (hzero letter rest hcs).elim

def characters : List Char := "0123456789abcdefABCDEFoOxX+-.Infinity".toList

theorem not_isBlank_of_mem {c : Char} (h : c ∈ characters) : isBlank c = false := by
  have hall : characters.all (!isBlank ·) = true := by decide
  simpa using List.all_eq_true.1 hall c h

theorem subset_characters {ds : List Char} (h : ds ⊆ decimals.toList) : ds ⊆ characters :=
  List.Subset.trans h (by decide)

theorem Sign.subset {cs : List Char} (h : Sign cs) : cs ⊆ characters := by
  cases h <;> decide

theorem Exponent.subset {cs : List Char} (h : Exponent cs) : cs ⊆ characters := by
  cases h with
  | absent => exact List.nil_subset _
  | @power letter _ _ hl hs hd =>
    have hletter : letter ∈ characters := (by decide : ['e', 'E'] ⊆ characters) hl
    exact List.cons_subset.2
      ⟨hletter, List.append_subset.2 ⟨hs.subset, subset_characters hd.subset⟩⟩

theorem Decimal.subset {cs : List Char} (h : Decimal cs) : cs ⊆ characters := by
  have hpoint : '.' ∈ characters := by decide
  cases h with
  | whole hd he => exact List.append_subset.2 ⟨subset_characters hd.subset, he.subset⟩
  | mixed hd hf he =>
    exact List.append_subset.2 ⟨subset_characters hd.subset, List.cons_subset.2
      ⟨hpoint, List.append_subset.2 ⟨subset_characters hf, he.subset⟩⟩⟩
  | fraction hf he =>
    exact List.cons_subset.2
      ⟨hpoint, List.append_subset.2 ⟨subset_characters hf.subset, he.subset⟩⟩

theorem Numeral.subset {cs : List Char} (h : Numeral cs) : cs ⊆ characters := by
  cases h with
  | zero => exact List.nil_subset _
  | @radix letter alphabet digits hr hd =>
    have hzero : '0' ∈ characters := by decide
    have hradices : ∀ r ∈ radices, r.1 ∈ characters ∧ r.2.toList ⊆ characters := by decide
    obtain ⟨hletter, halphabet⟩ := hradices _ hr
    exact List.cons_subset.2
      ⟨hzero, List.cons_subset.2 ⟨hletter, List.Subset.trans hd.subset halphabet⟩⟩
  | signed hs hm =>
    refine List.append_subset.2 ⟨hs.subset, ?_⟩
    rcases hm with rfl | hm
    · decide
    · exact hm.subset

theorem exists_trim (cs : List Char) : ∃ before after, cs = before ++ trim cs ++ after ∧
    (∀ c ∈ before, isBlank c = true) ∧ ∀ c ∈ after, isBlank c = true := by
  -- the blank at the end is the blank at the start of the reversed text
  refine ⟨cs.takeWhile isBlank, ((cs.dropWhile isBlank).reverse.takeWhile isBlank).reverse, ?_,
    fun c hc => List.mem_takeWhile_imp hc,
    fun c hc => List.mem_takeWhile_imp (List.mem_reverse.1 hc)⟩
  rw [trim, List.append_assoc, ← List.reverse_append, List.takeWhile_append_dropWhile,
    List.reverse_reverse, List.takeWhile_append_dropWhile]

theorem trim_append {before t after : List Char} (hb : ∀ c ∈ before, isBlank c = true)
    (ha : ∀ c ∈ after, isBlank c = true) (ht : ∀ c ∈ t, isBlank c = false) :
    trim (before ++ t ++ after) = t := by
  rw [trim, List.append_assoc]
  cases t with
  | nil =>
    rw [List.nil_append, List.dropWhile_append_of_pos hb, List.dropWhile_eq_nil_iff.2 ha]
    rfl
  | cons c t =>
    have hfirst : ∀ d ∈ (c :: t ++ after).head?, isBlank d = false := by
      simpa using ht c List.mem_cons_self
    have hlast : ∀ d ∈ (c :: t).reverse.head?, isBlank d = false :=
      fun d hd => ht d (List.mem_reverse.1 (List.mem_of_mem_head? hd))
    rw [dropWhile_span hb hfirst, List.reverse_append,
      dropWhile_span (fun d hd => ha d (List.mem_reverse.1 hd)) hlast, List.reverse_reverse]

theorem isNumeral_trim_iff {cs : List Char} : isNumeral (trim cs) = true ↔
    ∃ before t after, cs = before ++ t ++ after ∧ (∀ c ∈ before, Blank c) ∧
      (∀ c ∈ after, Blank c) ∧ Numeral t := by
  simp only [isNumeral_iff, ← isBlank_iff]
  constructor
  · intro h
    obtain ⟨before, after, hcs, hb, ha⟩ := exists_trim cs
    exact ⟨before, trim cs, after, hcs, hb, ha, h⟩
  · rintro ⟨before, t, after, rfl, hb, ha, ht⟩
    rwa [trim_append hb ha fun c hc => not_isBlank_of_mem (ht.subset hc)]

example : ["\t0x1F ", "+.5e-1", " ", "0x", "-0x1", "1e", "."].map
    (fun s => isNumeral (trim s.toList)) = [true, true, true, false, false, false, false] := by
  decide

end NumericString

/-- A text is accepted when it is not empty and spells a number with blank around it, or is blank
alone; it projects to itself. -/
theorem check_numericString (fs : Forwards) (s : String) :
    ∃ b, (∀ p, fs.Performs (.leaf .numericString) (.string s) p { passed := b }) ∧
      (∀ log, fs.project (.leaf .numericString) (.string s) log =
        some (if b then some (.text s) else none, log)) ∧
      (b = true ↔ s ≠ "" ∧ ∃ before t after, s.toList = before ++ t ++ after ∧
        (∀ c ∈ before, NumericString.Blank c) ∧ (∀ c ∈ after, NumericString.Blank c) ∧
        NumericString.Numeral t) := by
  have hlocal : fs.Everywhere Validator.IsLocal (.leaf .numericString) :=
    Forwards.everywhere_leaf trivial
  refine ⟨isNumericString s, fun p => ?_, fun log => ?_, ?_⟩
  · exact Forwards.performs_of_judge hlocal (fs.judge_leaf .numericString (.string s)) p
  · rw [Forwards.project_eq hlocal, Forwards.view_eq]
    change some (((some s).filter isNumericString).map Output.text, log) = _
    cases h : isNumericString s <;> simp [h]
  · rw [isNumericString, Bool.and_eq_true, NumericString.isNumeral_trim_iff]
    simp

end Conform
