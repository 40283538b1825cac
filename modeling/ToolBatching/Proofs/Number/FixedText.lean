import ToolBatching.Command.Word
import ToolBatching.Command.Move
import ToolBatching.Proofs.Number.Arithmetic

namespace ToolBatching.Number

theorem isDigit_of_mem_digits {n : Nat} {c : Char} (h : c ∈ digits n) : c.isDigit = true :=
  Nat.isDigit_of_mem_toDigits (by decide) (by decide) h

theorem isDigit_of_mem_paddedDigits {width n : Nat} {c : Char} (h : c ∈ paddedDigits width n) :
    c.isDigit = true := by
  rcases List.mem_append.mp h with hzero | hdigit
  · rw [List.eq_of_mem_replicate hzero]
    rfl
  · exact isDigit_of_mem_digits hdigit

theorem length_paddedDigits (width n : Nat) : width ≤ (paddedDigits width n).length := by
  unfold paddedDigits
  rw [List.length_append, List.length_replicate]
  omega

theorem ofDigits_paddedDigits (width n : Nat) : ofDigits (paddedDigits width n) = n := by
  change Nat.ofDigitChars 10 (List.replicate _ '0' ++ Nat.toDigits 10 n) 0 = n
  rw [Nat.ofDigitChars_append, Nat.ofDigitChars_replicate_zero, Nat.mul_zero,
    Nat.ofDigitChars_ten_toDigits]

theorem ofDigits_eq_zero {text : List Char} (h : ∀ c ∈ text, c = '0') : ofDigits text = 0 := by
  rw [List.eq_replicate_of_mem h]
  exact (Nat.ofDigitChars_replicate_zero).trans (Nat.mul_zero _)

theorem isNumberChar_of_isDigit {c : Char} (h : c.isDigit = true) :
    Word.isNumberChar c = true := by
  simp [Word.isNumberChar, h]

theorem exists_placedText {places : Nat} (h : 0 < places) (units : Nat) :
    ∃ whole part, placedText places units = whole ++ '.' :: part ∧ whole ≠ [] ∧
      part.length = places ∧ (∀ c ∈ whole ++ part, c.isDigit = true) ∧
      ofDigits (whole ++ part) = units := by
  have hlength := length_paddedDigits (places + 1) units
  refine ⟨(paddedDigits (places + 1) units).take ((paddedDigits (places + 1) units).length - places),
    (paddedDigits (places + 1) units).drop ((paddedDigits (places + 1) units).length - places),
    ?_, ?_, ?_, ?_, ?_⟩
  · simp only [placedText, if_neg h.ne']
  · rw [← List.length_pos_iff, List.length_take]
    omega
  · rw [List.length_drop]
    omega
  · rw [List.take_append_drop]
    intro c hc
    exact isDigit_of_mem_paddedDigits hc
  · rw [List.take_append_drop, ofDigits_paddedDigits]

theorem isNumberChar_of_mem_placedText {places units : Nat} {c : Char}
    (h : c ∈ placedText places units) : Word.isNumberChar c = true := by
  rcases Nat.eq_zero_or_pos places with rfl | hpos
  · exact isNumberChar_of_isDigit (isDigit_of_mem_digits h)
  · obtain ⟨whole, part, heq, -, -, hdigits, -⟩ := exists_placedText hpos units
    rw [heq, List.mem_append, List.mem_cons] at h
    rcases h with hwhole | rfl | hpart
    · exact isNumberChar_of_isDigit (hdigits c (List.mem_append_left part hwhole))
    · rfl
    · exact isNumberChar_of_isDigit (hdigits c (List.mem_append_right whole hpart))

theorem read?_placedText (places units : Nat) :
    Decimal.read? (placedText places units) = some ⟨units, places⟩ := by
  rcases Nat.eq_zero_or_pos places with rfl | hpos
  · have hdigits : ∀ c ∈ digits units, c.isDigit = true := fun c => isDigit_of_mem_digits
    have htake : (digits units).takeWhile Char.isDigit = digits units := by
      rw [← List.append_nil (digits units), List.takeWhile_append_of_pos hdigits]
      rfl
    have hdrop : (digits units).dropWhile Char.isDigit = [] := by
      rw [← List.append_nil (digits units), List.dropWhile_append_of_pos hdigits]
      rfl
    have hne : digits units ≠ [] := Nat.toDigits_ne_nil
    have hunits : ofDigits (digits units) = units := Nat.ofDigitChars_ten_toDigits
    unfold Decimal.read?
    simp only [placedText, if_true, htake, hdrop, hunits]
    simp [hne]
  · obtain ⟨whole, part, heq, hne, hlength, hdigits, hunits⟩ := exists_placedText hpos units
    rw [List.forall_mem_append] at hdigits
    have htake : (whole ++ '.' :: part).takeWhile Char.isDigit = whole := by
      rw [List.takeWhile_append_of_pos hdigits.1, List.takeWhile_cons_of_neg (by decide),
        List.append_nil]
    have hdrop : (whole ++ '.' :: part).dropWhile Char.isDigit = '.' :: part := by
      rw [List.dropWhile_append_of_pos hdigits.1, List.dropWhile_cons_of_neg (by decide)]
    have hall : part.all Char.isDigit = true := List.all_eq_true.mpr hdigits.2
    unfold Decimal.read?
    simp only [heq, htake, hdrop, hall, hunits, hlength]
    simp [hne]

theorem abs_roundQuotient_sub_le (num : Nat) {den : Nat} (h : 0 < den) :
    |(roundQuotient .toEven num den : ℚ) - num / den| ≤ 1 / 2 := by
  have hpos : (0 : ℚ) < den := by exact_mod_cast h
  have hless : num % den < den := Nat.mod_lt num h
  have hsplit : (num : ℚ) = (num / den : Nat) * den + (num % den : Nat) := by
    rw [mul_comm]
    exact_mod_cast (Nat.div_add_mod num den).symm
  have hquotient : (num : ℚ) / den = (num / den : Nat) + (num % den : Nat) / den := by
    rw [div_eq_iff hpos.ne', add_mul, div_mul_cancel₀ _ hpos.ne']
    exact hsplit
  rw [hquotient]
  unfold roundQuotient
  generalize num / den = quotient
  generalize num % den = rest at hless
  simp only
  split
  · rename_i habove
    have hhalf : den ≤ 2 * rest := by
      simp only [Bool.or_eq_true, decide_eq_true_eq, Bool.and_eq_true, beq_iff_eq] at habove
      omega
    have hupper : (rest : ℚ) / den ≤ 1 := by
      rw [div_le_one hpos]
      exact_mod_cast hless.le
    have hlower : (1 : ℚ) / 2 ≤ rest / den := by
      rw [div_le_div_iff₀ (by norm_num) hpos]
      have hcast : (den : ℚ) ≤ 2 * rest := by exact_mod_cast hhalf
      linarith
    push_cast
    rw [abs_le]
    constructor <;> linarith
  · rename_i hbelow
    have hhalf : 2 * rest ≤ den := by
      simp only [Bool.or_eq_true, decide_eq_true_eq, Bool.and_eq_true, beq_iff_eq] at hbelow
      omega
    have hupper : (rest : ℚ) / den ≤ 1 / 2 := by
      rw [div_le_div_iff₀ hpos (by norm_num)]
      have hcast : (2 : ℚ) * rest ≤ den := by exact_mod_cast hhalf
      linarith
    have hlower : (0 : ℚ) ≤ rest / den := div_nonneg (Nat.cast_nonneg rest) hpos.le
    rw [abs_le]
    constructor <;> linarith

theorem value_eq (x : Float) :
    value x = if isNegative x then -((numerator x : ℚ) / denominator x)
      else (numerator x : ℚ) / denominator x := by
  unfold value signedNumerator
  split
  · push_cast
    rw [neg_div]
  · push_cast
    rfl

theorem abs_value_eq (x : Float) : |value x| = (numerator x : ℚ) / denominator x := by
  have hnonneg : (0 : ℚ) ≤ numerator x / denominator x :=
    div_nonneg (Nat.cast_nonneg _) (Nat.cast_nonneg _)
  rw [value_eq]
  split
  · rw [abs_neg, abs_of_nonneg hnonneg]
  · rw [abs_of_nonneg hnonneg]

theorem abs_unitsOf_sub_le (places : Nat) (x : Float) :
    |(unitsOf places x : ℚ) / 10 ^ places - (|value x|)| ≤ 1 / 2 / 10 ^ places := by
  have hpos : (0 : ℚ) < 10 ^ places := by positivity
  have hround := abs_roundQuotient_sub_le (numerator x * 10 ^ places) (denominator_pos x)
  rw [abs_value_eq, ← abs_of_pos hpos, le_div_iff₀ (abs_pos.mpr hpos.ne'), ← abs_mul, sub_mul,
    abs_of_pos hpos, div_mul_cancel₀ _ hpos.ne']
  have hsame : (numerator x : ℚ) / denominator x * 10 ^ places =
      ((numerator x * 10 ^ places : Nat) : ℚ) / denominator x := by
    push_cast
    ring
  rw [hsame]
  exact hround

theorem nearest_read_magnitude {places : Nat} (hpos : 0 < places) (hle : places ≤ 22) {x : Float}
    (hx : x.isFinite = true) :
    ((Decimal.mk (unitsOf places x) places).toFloat).isFinite = true ∧
      Nearest ((unitsOf places x : ℚ) / 10 ^ places)
        (value (Decimal.mk (unitsOf places x) places).toFloat) := by
  have hread : (Decimal.mk (unitsOf places x) places).toFloat =
      Float.ofScientific (unitsOf places x) true places := by
    have hneg : (0 : ℤ) - places < 0 := by omega
    have habs : ((0 : ℤ) - places).natAbs = places := by omega
    unfold Decimal.toFloat Decimal.scaled
    simp only [hneg, decide_true, habs]
  have hgrid : Grid |value x| := by
    rcases abs_choice (value x) with h | h
    · rw [h]
      exact grid_value hx
    · rw [h]
      exact (grid_value hx).neg
  have hunit : (1 : ℚ) / 2 / 10 ^ places ≤ 1 / 2 := by
    apply div_le_self (by norm_num)
    exact one_le_pow₀ (by norm_num)
  have hlarge := abs_value_add_one_lt hx
  rw [← abs_abs] at hlarge
  have hclose := abs_unitsOf_sub_le places x
  rw [hread]
  exact (rounds_ofScientific (unitsOf places x) hpos hle).value hgrid hlarge (by linarith)

end ToolBatching.Number

namespace ToolBatching

open Number

theorem fixedPoint_of_isFinite (places : Nat) {x : Float} (hx : x.isFinite = true) :
    (fixedPoint places x).toList =
      if isNegative x then '-' :: placedText places (unitsOf places x)
      else placedText places (unitsOf places x) := by
  have hnumber := isNaN_of_isFinite hx
  unfold fixedPoint magnitudeText
  simp only [hnumber, hx, if_true, Bool.not_false, Bool.and_true, Bool.false_eq_true, if_false,
    String.toList_ofList]

theorem exists_head_placedText (places units : Nat) :
    ∃ c rest, placedText places units = c :: rest ∧ c.isDigit = true := by
  rcases Nat.eq_zero_or_pos places with rfl | hpos
  · obtain ⟨c, rest, heq⟩ := List.exists_cons_of_ne_nil (Nat.toDigits_ne_nil : digits units ≠ [])
    exact ⟨c, rest, heq, isDigit_of_mem_digits (heq ▸ List.mem_cons_self)⟩
  · obtain ⟨whole, part, heq, hne, -, hdigits, -⟩ := exists_placedText hpos units
    obtain ⟨c, rest, rfl⟩ := List.exists_cons_of_ne_nil hne
    exact ⟨c, rest ++ '.' :: part, heq, hdigits c (by simp)⟩

theorem coordinate_cases (places : Nat) {x : Float} (hx : x.isFinite = true) :
    ((coordinate places x).toList = placedText places (unitsOf places x) ∧
        (isNegative x = false ∨ ∀ c ∈ placedText places (unitsOf places x), c = '0' ∨ c = '.')) ∨
      ((coordinate places x).toList = '-' :: placedText places (unitsOf places x) ∧
        isNegative x = true) := by
  obtain ⟨c, rest, htext, hdigit⟩ := exists_head_placedText places (unitsOf places x)
  unfold coordinate
  rw [String.toList_ofList, fixedPoint_of_isFinite places hx]
  cases hsign : isNegative x with
  | false =>
      left
      have hminus : c ≠ '-' := by
        rintro rfl
        exact absurd hdigit (by decide)
      refine ⟨?_, Or.inl rfl⟩
      rw [if_neg (by simp), htext]
      unfold dropZeroSign
      split
      · rename_i heq
        exact absurd (List.cons.inj heq).1 hminus
      · rfl
  | true =>
      simp only [if_true, dropZeroSign]
      split
      · rename_i hzeros
        exact Or.inl ⟨rfl, Or.inr (by simpa using hzeros)⟩
      · exact Or.inr ⟨rfl, trivial⟩

theorem isNumberChar_of_mem_coordinate {places : Nat} {x : Float} (hx : x.isFinite = true)
    {c : Char} (h : c ∈ (coordinate places x).toList) : Word.isNumberChar c = true := by
  rcases coordinate_cases places hx with ⟨heq, -⟩ | ⟨heq, -⟩
  · rw [heq] at h
    exact isNumberChar_of_mem_placedText h
  · rw [heq] at h
    rcases List.mem_cons.mp h with rfl | h
    · rfl
    · exact isNumberChar_of_mem_placedText h

theorem readPlain_placedText (places units : Nat) :
    readPlain (placedText places units) = some (Decimal.mk units places).toFloat ∧
      readPlain ('-' :: placedText places units) = some (-(Decimal.mk units places).toFloat) := by
  obtain ⟨c, rest, htext, hdigit⟩ := exists_head_placedText places units
  have hread := read?_placedText places units
  constructor
  · have hsign : splitSign (placedText places units) = (false, placedText places units) := by
      rw [htext]
      unfold splitSign
      split
      · rename_i heq
        obtain ⟨rfl, -⟩ := List.cons.inj heq
        exact absurd hdigit (by decide)
      · rename_i heq
        obtain ⟨rfl, -⟩ := List.cons.inj heq
        exact absurd hdigit (by decide)
      · rfl
    simp only [readPlain, hsign, hread]
    rfl
  · simp only [readPlain, splitSign, hread]
    rfl

theorem units_eq_zero {places units : Nat}
    (h : ∀ c ∈ placedText places units, c = '0' ∨ c = '.') : units = 0 := by
  obtain ⟨text, hdigits, hunits, hmem⟩ : ∃ text : List Char, (∀ c ∈ text, c.isDigit = true) ∧
      ofDigits text = units ∧ ∀ c ∈ text, c ∈ placedText places units := by
    rcases Nat.eq_zero_or_pos places with rfl | hpos
    · exact ⟨digits units, fun c => isDigit_of_mem_digits, Nat.ofDigitChars_ten_toDigits,
        fun c hc => hc⟩
    · obtain ⟨whole, part, heq, -, -, hdigits, hunits⟩ := exists_placedText hpos units
      refine ⟨whole ++ part, hdigits, hunits, ?_⟩
      intro c hc
      rw [heq]
      rcases List.mem_append.mp hc with hwhole | hpart
      · exact List.mem_append_left _ hwhole
      · exact List.mem_append_right whole (List.mem_cons_of_mem _ hpart)
  rw [← hunits]
  refine ofDigits_eq_zero fun c hc => ?_
  rcases h c (hmem c hc) with hzero | rfl
  · exact hzero
  · exact absurd (hdigits '.' hc) (by decide)

theorem exists_read_coordinate (places : Nat) {x : Float} (hx : x.isFinite = true)
    (hfinite : (Decimal.mk (unitsOf places x) places).toFloat.isFinite = true) :
    ∃ (r : Float) (s : ℚ), readPlain (coordinate places x).toList = some r ∧ r.isFinite = true ∧
      (s = 1 ∨ s = -1) ∧ value r = s * value (Decimal.mk (unitsOf places x) places).toFloat ∧
      |s * ((unitsOf places x : ℚ) / 10 ^ places) - value x| ≤ 1 / 2 / 10 ^ places := by
  obtain ⟨hplain, hminus⟩ := readPlain_placedText places (unitsOf places x)
  have hclose := abs_unitsOf_sub_le places x
  have hmagnitude := abs_value_eq x
  have hvalue := value_eq x
  rcases coordinate_cases places hx with ⟨htext, hpositive | hzeros⟩ | ⟨htext, hnegative⟩
  · refine ⟨_, 1, htext ▸ hplain, hfinite, Or.inl rfl, (one_mul _).symm, ?_⟩
    rw [if_neg (by simp [hpositive]), ← hmagnitude] at hvalue
    rw [hvalue, one_mul]
    exact hclose
  · -- A value that rounds to zero loses its sign.
    refine ⟨_, 1, htext ▸ hplain, hfinite, Or.inl rfl, (one_mul _).symm, ?_⟩
    rw [units_eq_zero hzeros, Nat.cast_zero, zero_div, zero_sub, abs_neg] at hclose
    rw [units_eq_zero hzeros, Nat.cast_zero, zero_div, mul_zero, zero_sub, abs_neg]
    rw [abs_abs] at hclose
    exact hclose
  · obtain ⟨hneg, hvneg⟩ := value_neg hfinite
    refine ⟨_, -1, htext ▸ hminus, hneg, Or.inr rfl, by rw [hvneg, neg_one_mul], ?_⟩
    rw [if_pos hnegative, ← hmagnitude] at hvalue
    rw [hvalue, neg_one_mul, neg_sub_neg, abs_sub_comm]
    exact hclose

theorem nearest_read_coordinate {places : Nat} (hpos : 0 < places) (hle : places ≤ 22) {x : Float}
    (hx : x.isFinite = true) :
    ∃ r, readPlain (coordinate places x).toList = some r ∧ r.isFinite = true ∧
      ∃ q, |q - value x| ≤ 1 / 2 / 10 ^ places ∧ Nearest q (value r) := by
  obtain ⟨hfinite, hnearest⟩ := nearest_read_magnitude hpos hle hx
  obtain ⟨r, s, hread, hr, hsign, hvalue, hclose⟩ := exists_read_coordinate places hx hfinite
  refine ⟨r, hread, hr, _, hclose, ?_⟩
  rw [hvalue]
  rcases hsign with rfl | rfl
  · rw [one_mul, one_mul]
    exact hnearest
  · rw [neg_one_mul, neg_one_mul]
    exact hnearest.neg

theorem read_coordinate {places : Nat} (hpos : 0 < places) (hle : places ≤ 22) {x : Float}
    (hx : x.isFinite = true) :
    ∃ r, readPlain (coordinate places x).toList = some r ∧ r.isFinite = true ∧
      |value r - value x| ≤ 1 / 10 ^ places := by
  obtain ⟨r, hread, hfinite, q, hclose, hnearest⟩ := nearest_read_coordinate hpos hle hx
  refine ⟨r, hread, hfinite, ?_⟩
  calc
    |value r - value x| ≤ 2 * |q - value x| := hnearest.abs_sub_le (grid_value hx)
    _ ≤ 2 * (1 / 2 / 10 ^ places) := by linarith
    _ = 1 / 10 ^ places := by ring

end ToolBatching
