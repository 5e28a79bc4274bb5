import StackScript.Proofs.Number.Nearest

/-! Decimal numbers through doubles and back: one of at most fifteen digits is what the double nearest to it is written as. -/
namespace StackScript

namespace Double
variable {num den : ℕ}

/-- Ratios of the same value have the same nearest double. -/
theorem ofRatio_congr {num' den' : ℕ} (hd : 0 < den) (hd' : 0 < den') (h : (num / den : ℚ) = num' / den')
    (negative : Bool) :
    ofRatio negative num den = ofRatio negative num' den' := by
  have hden : (den : ℚ) ≠ 0 := by exact_mod_cast hd.ne'
  have hden' : (den' : ℚ) ≠ 0 := by exact_mod_cast hd'.ne'
  have hbits : nearestBits num den = nearestBits num' den' := by
    obtain rfl | hn := Nat.eq_zero_or_pos num
    · rw [Nat.cast_zero, zero_div, eq_comm, div_eq_zero_iff, Nat.cast_eq_zero, or_iff_left hden'] at h
      rw [h, nearestBits, nearestBits, if_pos rfl, if_pos rfl]
    · have hn' : 0 < num' := by
        refine Nat.pos_of_ne_zero ?_
        rintro rfl
        rw [Nat.cast_zero, zero_div, div_eq_zero_iff, Nat.cast_eq_zero, or_iff_left hden] at h
        exact hn.ne' h
      have hlog : floorLog2 num den = floorLog2 num' den' := by rw [floorLog2_eq hn hd, floorLog2_eq hn' hd', h]
      have hsteps (q : ℤ) : stepsOf q num den = stepsOf q num' den' := by
        have hcast := (cast_stepsOf q num hd).trans ((congrArg (fun v : ℚ => roundEven (v / 2 ^ q)) h).trans
          (cast_stepsOf q num' hd').symm)
        exact_mod_cast hcast
      simp only [nearestBits, if_neg hn.ne', if_neg hn'.ne', hlog, hsteps]
  simp only [ofRatio, hbits]

/-- Decimals of fifteen digits lie further apart than doubles do, so that each of them is what the double nearest to it
is rounded to. -/
theorem roundSignificant_ofRatio (hn : 0 < num) (hd : 0 < den) (hlower : -1022 ≤ Int.log 2 (num / den : ℚ))
    (hupper : Int.log 2 (num / den : ℚ) < 1023) {digits : ℕ} {k : ℤ} (hfull : 10 ^ 14 ≤ digits)
    (hless : digits < 10 ^ 15) (hvalue : (num / den : ℚ) = digits * 10 ^ k) :
    roundSignificant 15 (ofRatio false num den).toRat = num / den := by
  have hnear := abs_toRat_ofRatio_sub_le hn hd hlower hupper
  have hpos : (0 : ℚ) < num / den := div_pos (by exact_mod_cast hn) (by exact_mod_cast hd)
  rw [hvalue] at hnear hpos ⊢
  refine roundSignificant_of_near (d := 14) hfull hless (hnear.trans_lt ?_)
  exact div_lt_div_of_pos_left hpos (by norm_num) (by norm_num)

end Double

namespace Numeral
variable {n : Numeral}

/-- The digits without the zeros in front of them and behind them. -/
def significant (n : Numeral) : List Char := Double.trimZeros ((n.whole ++ n.fraction).dropWhile (· = '0'))

/-- A number of a few significant digits, and neither too large nor too small. -/
structure IsShort (n : Numeral) : Prop where
  digits : n.significant.length ≤ 15
  range : n.toRat = 0 ∨ 10 ^ (-290 : ℤ) ≤ n.toRat ∧ n.toRat ≤ 10 ^ 300

theorem denominator_pos (n : Numeral) : 0 < n.denominator := Nat.pow_pos (by decide)

theorem IsLiteral.toRat_eq (h : n.IsLiteral) : n.toRat = n.numerator / n.denominator := by
  rw [toRat, h.unsigned, if_neg Bool.false_ne_true, one_mul]

/-- What is written is the significant digits at some place. -/
theorem IsLiteral.toRat_eq_significant (h : n.IsLiteral) : ∃ k : ℤ, n.toRat = digitsValue n.significant * 10 ^ k := by
  have hfront : (n.whole ++ n.fraction).takeWhile (· = '0') =
      List.replicate ((n.whole ++ n.fraction).takeWhile (· = '0')).length '0' :=
    List.eq_replicate_of_mem fun c hc => by simpa using List.all_eq_true.1 List.all_takeWhile c hc
  obtain ⟨b, hb⟩ := Double.trimZeros_append ((n.whole ++ n.fraction).dropWhile (· = '0'))
  have hsplit := List.takeWhile_append_dropWhile (p := (· = '0')) (l := n.whole ++ n.fraction)
  have hnumerator : n.numerator = digitsValue n.significant * 10 ^ b := by
    rw [numerator, ← hsplit, digitsValue_append, hfront, digitsValue_zeros, Nat.zero_mul, Nat.zero_add, ← hb,
      digitsValue_append, digitsValue_zeros, List.length_replicate, Nat.add_zero]
    rfl
  refine ⟨(b : ℤ) - n.fraction.length, ?_⟩
  rw [h.toRat_eq, hnumerator, denominator, Nat.pow_eq, zpow_sub₀ (by norm_num), zpow_natCast, zpow_natCast]
  push_cast
  ring

/-- A number of a few digits, with zeros behind them until there are fifteen. -/
theorem exists_fifteen {m : ℕ} (hpos : 0 < m) (hless : m < 10 ^ 15) (k : ℤ) :
    ∃ digits j, 10 ^ 14 ≤ digits ∧ digits < 10 ^ 15 ∧ (m : ℚ) * 10 ^ k = (digits : ℕ) * 10 ^ (j : ℤ) := by
  have hlog : Nat.log 10 m ≤ 14 := by
    have hlt : Nat.log 10 m < 15 := Nat.log_lt_of_lt_pow hpos.ne' hless
    omega
  obtain ⟨zeros, hzeros⟩ : ∃ zeros, Nat.log 10 m + zeros = 14 := ⟨14 - Nat.log 10 m, by omega⟩
  refine ⟨m * 10 ^ zeros, k - zeros, ?_, ?_, ?_⟩
  · rw [← hzeros, pow_add]
    exact Nat.mul_le_mul_right _ (Nat.pow_log_le_self 10 hpos.ne')
  · have hfifteen : Nat.log 10 m + 1 + zeros = 15 := by omega
    rw [← hfifteen, pow_add]
    exact Nat.mul_lt_mul_of_pos_right (Nat.lt_pow_succ_log_self (by decide) m) (by positivity)
  · rw [zpow_sub₀ (by norm_num), zpow_natCast]
    push_cast
    field_simp

theorem IsLiteral.value_eq (h : n.IsLiteral) : n.value = Double.ofRatio false n.numerator n.denominator := by
  rw [value, h.unsigned]

theorem ten_pow_le (n : ℕ) : (10 : ℚ) ^ (3 * n) ≤ 2 ^ (10 * n) := by
  rw [pow_mul, pow_mul]
  exact pow_le_pow_left₀ (by norm_num) (by norm_num) n

/-- A number in the range has a double of normal size next to it. -/
theorem log_bounds {v : ℚ} (hlower : 10 ^ (-290 : ℤ) ≤ v) (hupper : v ≤ 10 ^ 300) :
    -1022 ≤ Int.log 2 v ∧ Int.log 2 v < 1023 := by
  have hpos : 0 < v := (ten_zpow_pos (-290)).trans_le hlower
  constructor
  · refine (Int.zpow_le_iff_le_log (by decide) hpos).1 (le_trans ?_ hlower)
    have hpowers : (10 : ℚ) ^ 290 ≤ 2 ^ 1022 :=
      calc (10 : ℚ) ^ 290 ≤ 10 ^ (3 * 97) := pow_le_pow_right₀ (by norm_num) (by norm_num)
        _ ≤ 2 ^ (10 * 97) := ten_pow_le 97
        _ ≤ 2 ^ 1022 := pow_le_pow_right₀ (by norm_num) (by norm_num)
    rw [zpow_neg, zpow_neg, zpow_ofNat, zpow_ofNat, Nat.cast_ofNat]
    exact inv_anti₀ (by positivity) hpowers
  · refine (Int.lt_zpow_iff_log_lt (by decide) hpos).1 (hupper.trans_lt ?_)
    have hpowers : (10 : ℚ) ^ (3 * 100) < 2 ^ 1023 :=
      (ten_pow_le 100).trans_lt (pow_lt_pow_right₀ (by norm_num) (by norm_num))
    rw [zpow_ofNat, Nat.cast_ofNat]
    exact hpowers

theorem value_of_toRat_eq_zero (hliteral : n.IsLiteral) (hzero : n.toRat = 0) : n.value = ⟨0⟩ := by
  have hd : (n.denominator : ℚ) ≠ 0 := by exact_mod_cast n.denominator_pos.ne'
  rw [hliteral.toRat_eq, div_eq_zero_iff, Nat.cast_eq_zero, or_iff_left hd] at hzero
  rw [hliteral.value_eq, hzero]
  rfl

section
variable (hliteral : n.IsLiteral) (hshort : n.IsShort)
include hliteral hshort

/-- The number of a short literal survives in the first fifteen digits of the nearest double. -/
theorem roundSignificant_value (hzero : n.toRat ≠ 0) : n.value.IsFinite ∧ n.value.toRat ≠ 0 ∧
    roundSignificant 15 n.value.toRat = n.toRat := by
  obtain ⟨hlower, hupper⟩ := hshort.range.resolve_left hzero
  have hpos : 0 < n.toRat := (ten_zpow_pos (-290)).trans_le hlower
  obtain ⟨hmin, hmax⟩ := log_bounds hlower hupper
  have hd := n.denominator_pos
  have hn : 0 < n.numerator := by
    refine Nat.pos_of_ne_zero ?_
    intro hnumerator
    rw [hliteral.toRat_eq, hnumerator, Nat.cast_zero, zero_div] at hpos
    exact lt_irrefl 0 hpos
  obtain ⟨k, hk⟩ := hliteral.toRat_eq_significant
  have hdigits : ∀ c ∈ n.significant, c.isDigit = true := by
    intro c hc
    obtain ⟨b, hb⟩ := Double.trimZeros_append ((n.whole ++ n.fraction).dropWhile (· = '0'))
    have hmem := (List.dropWhile_suffix _).subset (hb ▸ List.mem_append_left _ hc)
    exact (List.mem_append.1 hmem).elim (hliteral.whole c) (hliteral.fraction c)
  have hless : digitsValue n.significant < 10 ^ 15 :=
    (digitsValue_lt hdigits).trans_le (Nat.pow_le_pow_right (by decide) hshort.digits)
  have hsignificant : 0 < digitsValue n.significant := by
    refine Nat.pos_of_ne_zero ?_
    intro hnone
    rw [hk, hnone, Nat.cast_zero, zero_mul] at hpos
    exact lt_irrefl 0 hpos
  obtain ⟨digits, j, hfull, hfifteen, hshift⟩ := exists_fifteen hsignificant hless k
  rw [hliteral.toRat_eq] at hmin hmax hpos hk ⊢
  rw [hliteral.value_eq]
  have hround := Double.roundSignificant_ofRatio hn hd hmin hmax hfull hfifteen (hk.trans hshift)
  refine ⟨Double.isFinite_ofRatio hn hd hmin hmax, ?_, hround⟩
  intro hnone
  rw [hnone, roundSignificant_zero] at hround
  exact hpos.ne hround

/-- A short literal is written as the number that it is. -/
theorem exists_figure : ∃ f : Figure, n.value.text = String.ofList f.text ∧ f.IsTidy ∧ f.toRat = n.toRat := by
  by_cases hzero : n.toRat = 0
  · refine ⟨⟨⟨false, ['0'], []⟩, none⟩, ?_, ?_, ?_⟩
    · rw [value_of_toRat_eq_zero hliteral hzero]
      decide +kernel
    · exact { whole_ne := by simp, whole := by simp [Char.isDigit], head := by simp, fraction := by simp,
              last := by simp, exponent := by simp }
    · rw [hzero]
      decide +kernel
  · obtain ⟨hfinite, hnonzero, hround⟩ := roundSignificant_value hliteral hshort hzero
    exact ⟨_, Double.text_eq_figure hfinite hnonzero, Double.figure_isTidy hnonzero,
      (Double.figure_toRat hnonzero).trans hround⟩

/-- Two short literals are written alike if and only if they are the same number. -/
theorem text_value_eq_iff {n' : Numeral} (hliteral' : n'.IsLiteral) (hshort' : n'.IsShort) :
    n.value.text = n'.value.text ↔ n.toRat = n'.toRat := by
  constructor
  · intro htext
    obtain ⟨f, hf, htidy, hvalue⟩ := exists_figure hliteral hshort
    obtain ⟨g, hg, htidy', hvalue'⟩ := exists_figure hliteral' hshort'
    have hsame : f.text = g.text := String.ofList_injective (hf.symm.trans (htext.trans hg))
    rw [← hvalue, ← hvalue', htidy.text_inj htidy' hsame]
  · intro hvalue
    rw [hliteral.toRat_eq, hliteral'.toRat_eq] at hvalue
    rw [hliteral.value_eq, hliteral'.value_eq, Double.ofRatio_congr n.denominator_pos n'.denominator_pos hvalue]

end

end Numeral

end StackScript
