import Mathlib.Data.List.DropRight
import StackScript.Proofs.Number.Figure
import StackScript.Proofs.Number.Rounding

/-! The text of a number: it is written as the number that fifteen significant digits leave of it. -/
namespace StackScript

namespace Numeral

/-- Zeros at the end of a fraction change nothing. -/
theorem toRat_append_zeros (negative : Bool) (whole fraction : List Char) (k : ℕ) :
    toRat ⟨negative, whole, fraction ++ List.replicate k '0'⟩ = toRat ⟨negative, whole, fraction⟩ := by
  have hten : (10 : ℚ) ^ k ≠ 0 := by positivity
  have hnumerator : numerator ⟨negative, whole, fraction ++ List.replicate k '0'⟩ =
      numerator ⟨negative, whole, fraction⟩ * 10 ^ k := by
    rw [numerator, ← List.append_assoc, digitsValue_append, digitsValue_zeros, List.length_replicate, Nat.add_zero]
    rfl
  have hdenominator : denominator ⟨negative, whole, fraction ++ List.replicate k '0'⟩ =
      denominator ⟨negative, whole, fraction⟩ * 10 ^ k := by
    rw [denominator, List.length_append, List.length_replicate, Nat.pow_eq, pow_add]
    rfl
  rw [toRat, hnumerator, hdenominator]
  push_cast
  rw [mul_div_mul_right _ _ hten]
  rfl

end Numeral

namespace Double

/-! ### Positions -/

theorem trimZeros_append (digits : List Char) : ∃ k, trimZeros digits ++ List.replicate k '0' = digits := by
  have hzeros : ∀ c ∈ digits.rtakeWhile (· = '0'), c = '0' := fun c hc => by simpa using List.mem_rtakeWhile_imp hc
  have happend : trimZeros digits ++ digits.rtakeWhile (· = '0') = digits := List.rdropWhile_append_rtakeWhile
  exact ⟨_, List.eq_replicate_of_mem hzeros ▸ happend⟩

theorem getLast?_trimZeros (digits : List Char) : (trimZeros digits).getLast? ≠ some '0' := by
  intro hlast
  obtain ⟨hne, hzero⟩ := List.mem_getLast?_eq_getLast hlast
  exact List.rdropWhile_last_not (· = '0') digits hne (decide_eq_true hzero.symm)

theorem fractionText_eq (digits : List Char) :
    fractionText digits = if trimZeros digits = [] then [] else '.' :: trimZeros digits := by
  unfold fractionText
  cases trimZeros digits <;> rfl

/-- So many steps of `10 ^ -decimals` as a numeral. -/
def positional (negative : Bool) (decimals steps : ℕ) : Numeral :=
  let digits := stepDigits decimals steps
  let whole := digits.length - decimals
  ⟨negative, digits.take whole, trimZeros (digits.drop whole)⟩

section
variable (negative : Bool) (decimals steps : ℕ)

theorem length_stepDigits : (stepDigits decimals steps).length = max (decimals + 1) (Nat.toDigits 10 steps).length := by
  rw [stepDigits, List.length_append, List.length_replicate]
  omega

theorem digitsValue_stepDigits : digitsValue (stepDigits decimals steps) = steps := by
  rw [stepDigits, digitsValue_append, digitsValue_zeros, Nat.zero_mul, Nat.zero_add, digitsValue_toDigits]

theorem isDigit_stepDigits {decimals steps : ℕ} {c : Char} (h : c ∈ stepDigits decimals steps) : c.isDigit = true := by
  obtain hc | hc := List.mem_append.1 h
  · obtain rfl := List.eq_of_mem_replicate hc
    rfl
  · exact isDigit_toDigits hc

theorem positional_text : (positional negative decimals steps).text =
    (if negative then ['-'] else []) ++ positionText decimals steps := by
  rw [Numeral.text_eq, positionText, fractionText_eq]
  rfl

theorem positional_toRat : (positional negative decimals steps).toRat =
    (if negative then -1 else 1) * (steps / 10 ^ decimals) := by
  have hlength : decimals ≤ (stepDigits decimals steps).length := by
    rw [length_stepDigits]
    omega
  obtain ⟨k, hk⟩ := trimZeros_append ((stepDigits decimals steps).drop ((stepDigits decimals steps).length - decimals))
  rw [positional, ← Numeral.toRat_append_zeros _ _ _ k, hk, Numeral.toRat, Numeral.numerator, Numeral.denominator,
    List.take_append_drop, digitsValue_stepDigits, List.length_drop, Nat.sub_sub_self hlength, Nat.pow_eq]
  push_cast
  rfl

theorem positional_isTidy {steps : ℕ} (h : 0 < steps) : (positional negative decimals steps).IsTidy := by
  constructor
  · refine List.ne_nil_of_length_pos ?_
    rw [positional, List.length_take, length_stepDigits]
    omega
  · exact fun c hc => isDigit_stepDigits (List.mem_of_mem_take hc)
  · obtain hshort | hlong := Nat.lt_or_ge decimals (Nat.toDigits 10 steps).length
    · right
      have hnone : decimals + 1 - (Nat.toDigits 10 steps).length = 0 := by omega
      have hdigits : stepDigits decimals steps = Nat.toDigits 10 steps := by
        rw [stepDigits, hnone, List.replicate_zero, List.nil_append]
      rw [positional, hdigits, List.head?_take, if_neg (by omega)]
      exact head?_toDigits h
    · left
      have hwhole : (stepDigits decimals steps).length - decimals = 1 := by
        rw [length_stepDigits]
        omega
      obtain ⟨n, hn⟩ : ∃ n, decimals + 1 - (Nat.toDigits 10 steps).length = n + 1 :=
        ⟨decimals - (Nat.toDigits 10 steps).length, by omega⟩
      rw [positional, hwhole, stepDigits, hn]
      rfl
  · intro c hc
    obtain ⟨k, hk⟩ := trimZeros_append ((stepDigits decimals steps).drop
      ((stepDigits decimals steps).length - decimals))
    exact isDigit_stepDigits (List.mem_of_mem_drop (hk ▸ List.mem_append_left _ hc))
  · exact getLast?_trimZeros _

end

/-! ### Exponents -/

/-- The exponent as it is written. -/
def writtenExponent (x : ℤ) : Exponent :=
  let digits := Nat.toDigits 10 x.natAbs
  ⟨x < 0, if digits.length < 2 then '0' :: digits else digits⟩

theorem writtenExponent_text (x : ℤ) : (writtenExponent x).text = exponentText x := by
  simp only [writtenExponent, Exponent.text, exponentText, decide_eq_true_eq]

theorem writtenExponent_toInt (x : ℤ) : (writtenExponent x).toInt = x := by
  have hdigits : digitsValue (writtenExponent x).digits = x.natAbs := by
    rw [writtenExponent]
    dsimp only
    split_ifs
    · rw [digitsValue_cons, digitsValue_toDigits, show digitValue '0' = 0 from rfl, Nat.zero_mul, Nat.zero_add]
    · exact digitsValue_toDigits _
  rw [Exponent.toInt, hdigits]
  simp only [writtenExponent, decide_eq_true_eq]
  split_ifs <;> omega

theorem writtenExponent_isTidy (x : ℤ) : (writtenExponent x).IsTidy := by
  constructor
  · simp only [writtenExponent]
    split_ifs with hshort
    · exact Nat.succ_le_succ Nat.length_toDigits_pos
    · exact not_lt.1 hshort
  · intro c hc
    simp only [writtenExponent] at hc
    split_ifs at hc
    · obtain rfl | hc := List.mem_cons.1 hc
      · rfl
      · exact isDigit_toDigits hc
    · exact isDigit_toDigits hc
  · simp only [writtenExponent]
    split_ifs with hshort
    · have hpos : 0 < (Nat.toDigits 10 x.natAbs).length := Nat.length_toDigits_pos
      left
      rw [List.length_cons]
      omega
    · right
      refine head?_toDigits (Nat.pos_of_ne_zero ?_)
      intro hzero
      rw [hzero] at hshort
      exact hshort (by decide)

/-! ### Full precision -/

section
variable {num den : ℕ}

theorem decimalSteps_mul_zpow (k : ℤ) (num : ℕ) (h : 0 < den) :
    (decimalSteps k num den : ℚ) * 10 ^ k = roundTo k (num / den) := by
  rw [roundTo, ← cast_decimalSteps k num h, Int.cast_natCast]

/-- The number that a decimal of full precision stands for. -/
def Scientific.toRat (s : Scientific) : ℚ := s.digits * 10 ^ (s.exponent - 14)

theorem Scientific.ofRatio_eq (hn : 0 < num) (hd : 0 < den) {steps : ℕ}
    (hsteps : decimalSteps (decimalExponent (num / den) - 14) num den = steps) :
    ofRatio num den =
      if steps = 10 ^ 15 then ⟨10 ^ 14, decimalExponent (num / den) + 1⟩ else ⟨steps, decimalExponent (num / den)⟩ := by
  rw [ofRatio, floorLog10_eq hn hd, show ((precision : ℤ) - 1) = 14 from rfl, hsteps]
  rfl

theorem Scientific.toRat_ofRatio (hn : 0 < num) (hd : 0 < den) :
    (ofRatio num den).toRat = roundSignificant 15 (num / den) := by
  have hsteps := decimalSteps_mul_zpow (decimalExponent (num / den) - 14) num hd
  rw [roundSignificant_succ 14, Nat.cast_ofNat, ← hsteps, ofRatio_eq hn hd rfl]
  split_ifs with hcarry
  · rw [hcarry, toRat]
    dsimp only
    rw [show decimalExponent (num / den) + 1 - 14 = decimalExponent (num / den) - 14 + 1 by ring,
      zpow_add_one₀ (by norm_num)]
    push_cast
    ring
  · rfl

/-- All digits of a decimal of full precision are significant. -/
theorem Scientific.digits_ofRatio (hn : 0 < num) (hd : 0 < den) :
    10 ^ 14 ≤ (ofRatio num den).digits ∧ (ofRatio num den).digits < 10 ^ 15 := by
  have hpos : (0 : ℚ) < num / den := div_pos (by exact_mod_cast hn) (by exact_mod_cast hd)
  obtain ⟨hlower, hupper⟩ := roundEven_digits 14 hpos
  rw [Nat.cast_ofNat, ← cast_decimalSteps _ _ hd] at hlower hupper
  rw [ofRatio_eq hn hd rfl]
  generalize decimalSteps (decimalExponent (num / den) - 14) num den = steps at hlower hupper ⊢
  split_ifs with hcarry
  · exact ⟨le_rfl, by norm_num⟩
  · dsimp only
    omega

theorem Scientific.exponent_ofRatio (hn : 0 < num) (hd : 0 < den) :
    (ofRatio num den).exponent = decimalExponent (roundSignificant 15 (num / den)) := by
  obtain ⟨hlower, hupper⟩ := digits_ofRatio hn hd
  rw [← toRat_ofRatio hn hd, toRat, decimalExponent_mul_zpow (d := 14) (by exact_mod_cast hlower)
    (by exact_mod_cast hupper)]
  omega

/-- In positions a ratio is rounded anew, to the place that its rounding to full precision has told, and comes out the same. -/
theorem decimalSteps_div (hn : 0 < num) (hd : 0 < den) {decimals : ℕ}
    (h : decimals + (Scientific.ofRatio num den).exponent = 14) :
    decimalSteps (-decimals) num den / 10 ^ decimals = roundSignificant 15 (num / den) := by
  have hpos : (0 : ℚ) < num / den := div_pos (by exact_mod_cast hn) (by exact_mod_cast hd)
  have hplace : -(decimals : ℤ) = decimalExponent (roundSignificant (14 + 1) (num / den)) - (14 : ℕ) := by
    rw [← Scientific.exponent_ofRatio hn hd]
    omega
  have hsteps := decimalSteps_mul_zpow (-decimals) num hd
  rw [zpow_neg, zpow_natCast, ← div_eq_mul_inv] at hsteps
  rw [hsteps, hplace, roundTo_decimalExponent 14 hpos]

/-- The figure that a positive ratio is written as. -/
def ratioFigure (negative : Bool) (num den : ℕ) : Figure :=
  let s := Scientific.ofRatio num den
  if s.exponent < -4 ∨ (precision : ℤ) ≤ s.exponent then
    ⟨positional negative (precision - 1) s.digits, some (writtenExponent s.exponent)⟩
  else
    let decimals := (precision - 1 - s.exponent).toNat
    ⟨positional negative decimals (decimalSteps (-decimals) num den), none⟩

theorem ratioFigure_text (negative : Bool) (num den : ℕ) :
    (ratioFigure negative num den).text = (if negative then ['-'] else []) ++ ratioText num den := by
  simp only [ratioFigure, ratioText]
  split
  · rw [Figure.text, positional_text, Option.elim_some, writtenExponent_text, List.append_assoc]
  · rw [Figure.text, positional_text, Option.elim_none, List.append_nil]

theorem ratioFigure_toRat (negative : Bool) (hn : 0 < num) (hd : 0 < den) :
    (ratioFigure negative num den).toRat = (if negative then -1 else 1) * roundSignificant 15 (num / den) := by
  simp only [ratioFigure]
  split
  · rw [Figure.toRat, positional_toRat, Option.elim_some, writtenExponent_toInt, ← Scientific.toRat_ofRatio hn hd,
      Scientific.toRat, zpow_sub₀ (by norm_num), show precision - 1 = 14 from rfl]
    norm_cast
    ring
  · rename_i hrange
    rw [precision] at hrange
    rw [Figure.toRat, positional_toRat, Option.elim_none, zpow_zero, mul_one, decimalSteps_div hn hd]
    rw [precision]
    omega

theorem ratioFigure_isTidy (negative : Bool) (hn : 0 < num) (hd : 0 < den) : (ratioFigure negative num den).IsTidy := by
  simp only [ratioFigure]
  split
  · obtain ⟨hlower, hupper⟩ := Scientific.digits_ofRatio hn hd
    have hpos : 0 < (Scientific.ofRatio num den).digits := by omega
    -- there are as many digits as decimals and one more, so that no zero is put in front of them
    have hwhole : (positional negative 14 (Scientific.ofRatio num den).digits).whole =
        (Nat.toDigits 10 (Scientific.ofRatio num den).digits).take 1 := by
      rw [positional, stepDigits, length_toDigits hlower hupper, Nat.sub_self, List.replicate_zero, List.nil_append,
        length_toDigits hlower hupper]
    refine { positional_isTidy negative 14 hpos with exponent := ?_ }
    intro e he
    obtain rfl := Option.some.inj he
    refine ⟨writtenExponent_isTidy _, ?_, ?_⟩
    · exact (congrArg List.length hwhole).trans (by rw [List.length_take, length_toDigits hlower hupper]; rfl)
    · intro hzero
      have hhead := congrArg List.head? (hwhole.symm.trans hzero)
      rw [List.head?_take, if_neg Nat.one_ne_zero] at hhead
      exact head?_toDigits hpos hhead
  · rename_i hrange
    rw [precision] at hrange
    have hround : (0 : ℚ) < roundSignificant 15 (num / den) :=
      roundSignificant_pos 14 (div_pos (by exact_mod_cast hn) (by exact_mod_cast hd))
    have hdecimals : (((precision : ℤ) - 1 - (Scientific.ofRatio num den).exponent).toNat : ℤ) +
        (Scientific.ofRatio num den).exponent = 14 := by
      rw [precision]
      omega
    rw [← decimalSteps_div hn hd hdecimals] at hround
    have hpos := (div_pos_iff_of_pos_right (by positivity)).1 hround
    exact { positional_isTidy negative _ (by exact_mod_cast hpos) with exponent := by rintro e ⟨⟩ }

theorem ratioFigure_exponent (negative : Bool) (hn : 0 < num) (hd : 0 < den) :
    (ratioFigure negative num den).exponent = none ↔
      -4 ≤ decimalExponent (roundSignificant 15 (num / den)) ∧
        decimalExponent (roundSignificant 15 (num / den)) < 15 := by
  rw [← Scientific.exponent_ofRatio hn hd]
  simp only [ratioFigure]
  split
  · rename_i hrange
    rw [precision] at hrange
    refine iff_of_false (Option.some_ne_none _) ?_
    omega
  · rename_i hrange
    rw [precision] at hrange
    refine iff_of_true rfl ?_
    omega

end

/-! ### Doubles -/

/-- A number, and none of the infinities. -/
def IsFinite (x : Double) : Prop := x.exponentField ≠ 2047

instance (x : Double) : Decidable x.IsFinite := inferInstanceAs (Decidable (_ ≠ _))

/-- The number that a finite double stands for. -/
def toRat (x : Double) : ℚ := (if x.isNegative then -1 else 1) * (x.significand * 2 ^ x.exponent)

section
variable {x : Double}

theorem ratio_snd_pos (x : Double) : 0 < x.ratio.2 := by
  unfold ratio
  split
  · exact Nat.one_pos
  · exact Nat.pow_pos (by decide)

theorem ratio_div (x : Double) : (x.ratio.1 / x.ratio.2 : ℚ) = x.significand * 2 ^ x.exponent := by
  unfold ratio
  split <;> rename_i q hq
  · rw [hq, Nat.pow_eq, Int.ofNat_eq_natCast, zpow_natCast]
    push_cast
    rw [div_one]
  · rw [hq, Nat.pow_eq, zpow_negSucc]
    push_cast
    exact div_eq_mul_inv _ _

theorem toRat_eq (x : Double) : x.toRat = (if x.isNegative then -1 else 1) * (x.ratio.1 / x.ratio.2) := by
  rw [toRat, ratio_div]

theorem significand_eq_zero_iff (x : Double) : x.significand = 0 ↔ x.isZero = true := by
  rw [isZero, Bool.and_eq_true, decide_eq_true_eq, decide_eq_true_eq, significand, Nat.pow_eq]
  split_ifs with hfield
  · simp [hfield]
  · simp [hfield]

theorem ratio_fst_pos (hzero : x.toRat ≠ 0) : 0 < x.ratio.1 := by
  refine Nat.pos_of_ne_zero ?_
  intro hnum
  rw [toRat_eq, hnum, Nat.cast_zero, zero_div, mul_zero] at hzero
  exact hzero rfl

theorem isZero_eq_false (hzero : x.toRat ≠ 0) : x.isZero = false := by
  rw [← Bool.not_eq_true, ← significand_eq_zero_iff]
  intro hnum
  rw [toRat, hnum, Nat.cast_zero, zero_mul, mul_zero] at hzero
  exact hzero rfl

/-- The figure that a double other than zero is written as. -/
def figure (x : Double) : Figure := ratioFigure x.isNegative x.ratio.1 x.ratio.2

theorem text_eq_figure (hfinite : x.IsFinite) (hzero : x.toRat ≠ 0) : x.text = String.ofList x.figure.text := by
  have hmagnitude : x.magnitudeText = ratioText x.ratio.1 x.ratio.2 := by
    rw [magnitudeText, isNaN, isInfinite, decide_eq_false hfinite, isZero_eq_false hzero]
    rfl
  rw [text, figure, ratioFigure_text, hmagnitude]
  cases x.isNegative <;> rfl

theorem figure_isTidy (hzero : x.toRat ≠ 0) : x.figure.IsTidy :=
  ratioFigure_isTidy _ (ratio_fst_pos hzero) (ratio_snd_pos x)

theorem figure_toRat (hzero : x.toRat ≠ 0) : x.figure.toRat = roundSignificant 15 x.toRat := by
  rw [figure, ratioFigure_toRat _ (ratio_fst_pos hzero) (ratio_snd_pos x), toRat_eq]
  cases x.isNegative
  · simp only [Bool.false_eq_true, if_false, one_mul]
  · simp only [if_true, neg_one_mul, roundSignificant_neg]

theorem figure_negative (hzero : x.toRat ≠ 0) : x.figure.numeral.negative = true ↔ x.toRat < 0 := by
  have hpos : (0 : ℚ) < x.ratio.1 / x.ratio.2 :=
    div_pos (by exact_mod_cast ratio_fst_pos hzero) (by exact_mod_cast ratio_snd_pos x)
  have hnegative : x.figure.numeral.negative = x.isNegative := by
    simp only [figure, ratioFigure]
    split <;> rfl
  rw [hnegative, toRat_eq]
  cases x.isNegative
  · simp only [Bool.false_eq_true, if_false, one_mul, false_iff, not_lt, hpos.le]
  · simp only [if_true, neg_one_mul, Left.neg_neg_iff, hpos]

theorem decimalExponent_roundSignificant (x : Double) :
    decimalExponent (roundSignificant 15 x.toRat) = decimalExponent (roundSignificant 15 (x.ratio.1 / x.ratio.2)) := by
  rw [toRat_eq]
  cases x.isNegative
  · simp only [Bool.false_eq_true, if_false, one_mul]
  · simp only [if_true, neg_one_mul, roundSignificant_neg, decimalExponent_neg]

/-- A finite number other than zero is written as the number that fifteen significant digits leave of it, in positions if the
first of them is not far from the point and with an exponent otherwise. In positions the number is rounded by itself, to as
many decimals as the last of fifteen digits would have, which is the same. -/
theorem text_of_isFinite (hfinite : x.IsFinite) (hzero : x.toRat ≠ 0) :
    ∃ f : Figure, x.text = String.ofList f.text ∧ f.IsTidy ∧ f.toRat = roundSignificant 15 x.toRat ∧
      (f.numeral.negative = true ↔ x.toRat < 0) ∧
      (f.exponent = none ↔
        -4 ≤ decimalExponent (roundSignificant 15 x.toRat) ∧ decimalExponent (roundSignificant 15 x.toRat) < 15) ∧
      roundTo (decimalExponent (roundSignificant 15 x.toRat) - 14) x.toRat = roundSignificant 15 x.toRat := by
  have hn := ratio_fst_pos hzero
  have hd := ratio_snd_pos x
  refine ⟨x.figure, text_eq_figure hfinite hzero, figure_isTidy hzero, figure_toRat hzero, figure_negative hzero, ?_, ?_⟩
  · rw [decimalExponent_roundSignificant]
    exact ratioFigure_exponent x.isNegative hn hd
  · have hpos : (0 : ℚ) < x.ratio.1 / x.ratio.2 := div_pos (by exact_mod_cast hn) (by exact_mod_cast hd)
    have hround := roundTo_decimalExponent 14 hpos
    rw [decimalExponent_roundSignificant, toRat_eq]
    cases x.isNegative
    · simp only [Bool.false_eq_true, if_false, one_mul]
      exact hround
    · simp only [if_true, neg_one_mul, roundTo_neg, roundSignificant_neg, neg_inj]
      exact hround

/-- The last number below `10 ^ 15`: rounding carries, and the text changes over to an exponent. -/
theorem text_below_power : (Double.mk 0x430c6bf52633ffff).text = "1e+15" ∧
    (Double.mk 0x430c6bf52633ffff).IsFinite ∧ (Double.mk 0x430c6bf52633ffff).toRat ≠ 0 ∧
    ∃ f : Figure, (Double.mk 0x430c6bf52633ffff).text = String.ofList f.text ∧ f.IsTidy ∧
      f.toRat = roundSignificant 15 (Double.mk 0x430c6bf52633ffff).toRat ∧ f.exponent ≠ none := by
  have hfinite : (Double.mk 0x430c6bf52633ffff).IsFinite := by decide
  have hzero : (Double.mk 0x430c6bf52633ffff).toRat ≠ 0 := by decide +kernel
  obtain ⟨f, htext, htidy, hvalue, -, hexponent, -⟩ := text_of_isFinite hfinite hzero
  refine ⟨by decide +kernel, hfinite, hzero, f, htext, htidy, hvalue, ?_⟩
  rw [ne_eq, hexponent]
  decide +kernel

end

end Double
end StackScript
