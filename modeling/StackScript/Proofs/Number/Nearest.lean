import Mathlib.Data.Nat.Bitwise
import StackScript.Proofs.Number.Format

/-! The double nearest to a ratio. Where doubles lie as dense as their significand allows, it is off by no more than a part in
`2 ^ 53`. -/
namespace StackScript

namespace Double
variable {num den : ℕ}

/-! ### Powers of two -/

theorem two_zpow_pos (k : ℤ) : (0 : ℚ) < 2 ^ k := zpow_pos (by norm_num) k

theorem twoPowLe_iff (k : ℤ) (num : ℕ) (hd : 0 < den) : twoPowLe k num den = true ↔ (2 : ℚ) ^ k ≤ num / den := by
  have hden : (0 : ℚ) < den := by exact_mod_cast hd
  cases k with
  | ofNat k =>
    rw [twoPowLe, decide_eq_true_eq, Int.ofNat_eq_natCast, zpow_natCast, le_div_iff₀ hden, Nat.pow_eq, Nat.mul_comm]
    exact_mod_cast Iff.rfl
  | negSucc k =>
    rw [twoPowLe, decide_eq_true_eq, zpow_negSucc, inv_le_iff_one_le_mul₀ (by positivity), div_mul_eq_mul_div,
      one_le_div hden, Nat.pow_eq]
    exact_mod_cast Iff.rfl

theorem floorLog2_eq (hn : 0 < num) (hd : 0 < den) : floorLog2 num den = Int.log 2 (num / den : ℚ) := by
  have hnum : (0 : ℚ) < num := by exact_mod_cast hn
  have hden : (0 : ℚ) < den := by exact_mod_cast hd
  have hnum2 : (2 : ℚ) ^ num.log2 ≤ num := by exact_mod_cast Nat.log2_self_le hn.ne'
  have hnum2' : (num : ℚ) < 2 ^ num.log2 * 2 := by exact_mod_cast Nat.lt_log2_self.trans_eq (pow_succ 2 num.log2)
  have hden2 : (2 : ℚ) ^ den.log2 ≤ den := by exact_mod_cast Nat.log2_self_le hd.ne'
  have hden2' : (den : ℚ) < 2 ^ den.log2 * 2 := by exact_mod_cast Nat.lt_log2_self.trans_eq (pow_succ 2 den.log2)
  have hpower : (2 : ℚ) ^ ((num.log2 : ℤ) - den.log2) = 2 ^ num.log2 / 2 ^ den.log2 := by
    rw [zpow_sub₀ (by norm_num), zpow_natCast, zpow_natCast]
  have hden_pos : (0 : ℚ) < 2 ^ den.log2 := by positivity
  simp only [floorLog2]
  symm
  split_ifs with hle
  · refine log_eq (show 1 < 2 by decide) ((twoPowLe_iff _ num hd).1 hle) ?_
    rw [Nat.cast_ofNat, zpow_add_one₀ (by norm_num), hpower, div_mul_eq_mul_div, div_lt_div_iff₀ hden hden_pos]
    calc (num : ℚ) * 2 ^ den.log2
        < 2 ^ num.log2 * 2 * 2 ^ den.log2 := mul_lt_mul_of_pos_right hnum2' hden_pos
      _ ≤ 2 ^ num.log2 * 2 * den := mul_le_mul_of_nonneg_left hden2 (by positivity)
  · rw [twoPowLe_iff _ num hd, not_le] at hle
    refine log_eq (show 1 < 2 by decide) ?_ ?_
    · rw [Nat.cast_ofNat, zpow_sub_one₀ (by norm_num), hpower, ← div_eq_mul_inv, div_div,
        div_le_div_iff₀ (by positivity) hden]
      exact mul_le_mul hnum2 hden2'.le hden.le hnum.le
    · rw [sub_add_cancel]
      exact hle

/-! ### Bits -/

/-- The double of some bits and a sign. -/
def ofBits (negative : Bool) (b : ℕ) : Double := ⟨if negative then UInt64.ofNat b ||| signBit else UInt64.ofNat b⟩

theorem toNat_ofBits {b : ℕ} (h : b < 2 ^ 63) (negative : Bool) :
    (ofBits negative b).bits.toNat = (if negative then 2 ^ 63 else 0) + b := by
  have hnat : (UInt64.ofNat b).toNat = b := UInt64.toNat_ofNat_of_lt' (h.trans (by decide))
  cases negative with
  | false => exact hnat.trans (Nat.zero_add b).symm
  | true =>
    have hor : b ||| 2 ^ 63 = 2 ^ 63 + b := by
      rw [Nat.or_comm]
      exact (Nat.two_pow_add_eq_or_of_lt h 1).symm
    exact (UInt64.toNat_or _ _).trans (by rw [hnat]; exact hor)

theorem fields_ofBits {b : ℕ} (h : b < 2 ^ 63) (negative : Bool) : (ofBits negative b).isNegative = negative ∧
    (ofBits negative b).exponentField = b / 2 ^ 52 ∧ (ofBits negative b).fractionField = b % 2 ^ 52 := by
  have hnat := toNat_ofBits h negative
  refine ⟨?_, ?_, ?_⟩
  · have hsign : ((ofBits negative b).bits &&& signBit).toNat = 2 ^ 63 * (negative.toNat) := by
      rw [UInt64.toNat_and, hnat, show signBit.toNat = 2 ^ 63 from rfl, Nat.and_two_pow]
      cases negative with
      | false =>
        rw [if_neg Bool.false_ne_true, Nat.zero_add, Nat.testBit_lt_two_pow h]
        rfl
      | true =>
        have hbit : (2 ^ 63 + b).testBit 63 = true := by
          rw [Nat.testBit_two_pow_add_eq, Nat.testBit_lt_two_pow h, Bool.not_false]
        rw [if_pos rfl, hbit, Nat.mul_comm]
    cases negative with
    | false =>
      rw [isNegative, bne_eq_false_iff_eq, ← UInt64.toNat_inj]
      exact hsign
    | true =>
      rw [isNegative, bne_iff_ne, ne_eq, ← UInt64.toNat_inj, hsign]
      decide
  · rw [exponentField, UInt64.toNat_and, UInt64.toNat_shiftRight, hnat]
    refine (Nat.and_two_pow_sub_one_eq_mod _ 11).trans ?_
    rw [show (52 : UInt64).toNat % 64 = 52 from rfl, Nat.shiftRight_eq_div_pow]
    split <;> omega
  · rw [fractionField, UInt64.toNat_and, hnat]
    refine (Nat.and_two_pow_sub_one_eq_mod _ 52).trans ?_
    split <;> omega

/-- What the bits of a double stand for, counted in steps of the smallest exponent that the field can hold. A significand that
is too great by one has carried into the exponent. -/
theorem parts_ofBits {field steps : ℕ} (hfield : field < 2046) (hlower : field = 0 ∨ 2 ^ 52 ≤ steps)
    (hupper : steps ≤ 2 ^ 53) (negative : Bool) :
    (steps < 2 ^ 53 ∧ (ofBits negative (field * 2 ^ 52 + steps)).significand = steps ∧
      (ofBits negative (field * 2 ^ 52 + steps)).exponent = field - 1074) ∨
    (steps = 2 ^ 53 ∧ (ofBits negative (field * 2 ^ 52 + steps)).significand = 2 ^ 52 ∧
      (ofBits negative (field * 2 ^ 52 + steps)).exponent = field - 1074 + 1) := by
  obtain ⟨-, hexponent, hfraction⟩ := fields_ofBits (b := field * 2 ^ 52 + steps) (by omega) negative
  rw [significand, exponent, hexponent, hfraction, Nat.pow_eq]
  obtain hsmall | hlarge := Nat.lt_or_ge steps (2 ^ 52)
  · obtain rfl : field = 0 := hlower.resolve_right (Nat.not_le_of_lt hsmall)
    have hquotient : (0 * 2 ^ 52 + steps) / 2 ^ 52 = 0 := by omega
    rw [if_pos hquotient, if_pos hquotient]
    exact .inl ⟨by omega, by omega, rfl⟩
  · obtain hlt | rfl := hupper.lt_or_eq
    · have hquotient : (field * 2 ^ 52 + steps) / 2 ^ 52 = field + 1 := by omega
      rw [hquotient, if_neg (Nat.succ_ne_zero field), if_neg (Nat.succ_ne_zero field)]
      exact .inl ⟨hlt, by omega, by omega⟩
    · have hquotient : (field * 2 ^ 52 + 2 ^ 53) / 2 ^ 52 = field + 2 := by omega
      rw [hquotient, if_neg (Nat.succ_ne_zero (field + 1)), if_neg (Nat.succ_ne_zero (field + 1))]
      exact .inr ⟨rfl, by omega, by omega⟩

theorem toRat_ofBits {field steps : ℕ} (hfield : field < 2046) (hlower : field = 0 ∨ 2 ^ 52 ≤ steps)
    (hupper : steps ≤ 2 ^ 53) (negative : Bool) : (ofBits negative (field * 2 ^ 52 + steps)).toRat =
      (if negative then -1 else 1) * (steps * 2 ^ ((field : ℤ) - 1074)) := by
  obtain ⟨hnegative, -, -⟩ := fields_ofBits (b := field * 2 ^ 52 + steps) (by omega) negative
  rw [toRat, hnegative]
  obtain ⟨-, hsignificand, hexponent⟩ | ⟨rfl, hsignificand, hexponent⟩ := parts_ofBits hfield hlower hupper negative
  · rw [hsignificand, hexponent]
  · rw [hsignificand, hexponent, zpow_add_one₀ (by norm_num)]
    push_cast
    ring

/-! ### Steps -/

/-- The exponent of the steps in which doubles lie around a number. -/
def spacing (v : ℚ) : ℤ := max (Int.log 2 v - 52) (-1074)

theorem zpow_le_of_spacing {v : ℚ} (h : 0 < v) (hs : -1074 < spacing v) : (2 : ℚ) ^ (spacing v + 52) ≤ v := by
  have hlog : spacing v + 52 = Int.log 2 v := by
    rw [spacing] at hs ⊢
    omega
  rw [hlog]
  exact Int.zpow_log_le_self (by decide) h

theorem lt_zpow_spacing (v : ℚ) : v < 2 ^ (spacing v + 53) := by
  have hlog : Int.log 2 v + 1 ≤ spacing v + 53 := by
    rw [spacing]
    omega
  exact (Int.lt_zpow_succ_log_self (by decide) v).trans_le (zpow_le_zpow_right₀ (by norm_num) hlog)

/-- How many steps make up a number. -/
theorem roundEven_steps {v : ℚ} (h : 0 < v) : (spacing v = -1074 ∨ 2 ^ 52 ≤ roundEven (v / 2 ^ spacing v)) ∧
    0 ≤ roundEven (v / 2 ^ spacing v) ∧ roundEven (v / 2 ^ spacing v) ≤ 2 ^ 53 := by
  have hunit := two_zpow_pos (spacing v)
  refine ⟨?_, ?_, ?_⟩
  · obtain heq | hlt := (le_max_right (Int.log 2 v - 52) (-1074)).eq_or_lt
    · exact .inl heq.symm
    · refine .inr (le_roundEven ?_)
      rw [le_div_iff₀ hunit, Int.cast_pow, Int.cast_ofNat, ← zpow_natCast, ← zpow_add₀ (by norm_num),
        Nat.cast_ofNat, add_comm]
      exact zpow_le_of_spacing h hlt
  · refine le_roundEven ?_
    rw [Int.cast_zero]
    exact (div_pos h hunit).le
  · refine roundEven_le ?_
    rw [div_le_iff₀ hunit, Int.cast_pow, Int.cast_ofNat, ← zpow_natCast, ← zpow_add₀ (by norm_num), Nat.cast_ofNat,
      add_comm]
    exact (lt_zpow_spacing v).le

/-- The bits of the nearest double, unless it is an infinity. -/
theorem exists_nearestBits (hn : 0 < num) (hd : 0 < den) :
    ∃ field steps : ℕ, (field = 0 ∨ 2 ^ 52 ≤ steps) ∧ steps ≤ 2 ^ 53 ∧
    spacing (num / den) = field - 1074 ∧ roundEven (num / den / 2 ^ spacing (num / den)) = steps ∧
    nearestBits num den = min (field * 2 ^ 52 + steps) infinityBits := by
  have hpos : (0 : ℚ) < num / den := div_pos (by exact_mod_cast hn) (by exact_mod_cast hd)
  obtain ⟨hmin, -, hmax⟩ := roundEven_steps hpos
  have hspacing : max (floorLog2 num den - 52) (-1074) = spacing (num / den) := by rw [floorLog2_eq hn hd, spacing]
  rw [← cast_stepsOf _ num hd] at hmin hmax
  have hsteps := cast_stepsOf (spacing (num / den)) num hd
  have hbits : nearestBits num den = min ((spacing (num / den) + 1074).toNat * 2 ^ 52 +
    stepsOf (spacing (num / den)) num den)
      infinityBits := by
    simp only [nearestBits, if_neg hn.ne', hspacing]
    rfl
  have hleast : -1074 ≤ spacing (num / den) := le_max_right ..
  generalize stepsOf (spacing (num / den)) num den = steps at hmin hmax hsteps hbits
  refine ⟨(spacing (num / den) + 1074).toNat, steps, ?_, by omega, by omega, hsteps.symm, hbits⟩
  exact hmin.imp (fun hleast => by omega) fun hmin => by omega

/-- The bits of the nearest double, where doubles are as dense as they can be. -/
theorem exists_ofRatio (hn : 0 < num) (hd : 0 < den) (hlower : -1022 ≤ Int.log 2 (num / den : ℚ))
    (hupper : Int.log 2 (num / den : ℚ) < 1023) :
    ∃ field steps : ℕ, field < 2045 ∧ (field = 0 ∨ 2 ^ 52 ≤ steps) ∧ steps ≤ 2 ^ 53 ∧
        Int.log 2 (num / den : ℚ) - 52 = field - 1074 ∧
        roundEven (num / den / 2 ^ (Int.log 2 (num / den : ℚ) - 52)) = steps ∧
        ofRatio false num den = ofBits false (field * 2 ^ 52 + steps) := by
  obtain ⟨field, steps, hmin, hmax, hfield, hsteps, hbits⟩ := exists_nearestBits hn hd
  have hspacing : spacing (num / den) = Int.log 2 (num / den : ℚ) - 52 := by
    rw [spacing]
    omega
  rw [hspacing] at hfield hsteps
  refine ⟨field, steps, by omega, hmin, hmax, hfield, hsteps, ?_⟩
  rw [Nat.min_eq_left (by rw [infinityBits]; omega)] at hbits
  rw [← hbits]
  rfl

theorem isFinite_ofRatio (hn : 0 < num) (hd : 0 < den) (hlower : -1022 ≤ Int.log 2 (num / den : ℚ))
    (hupper : Int.log 2 (num / den : ℚ) < 1023) : (ofRatio false num den).IsFinite := by
  obtain ⟨field, steps, hfield, -, hmax, -, -, heq⟩ := exists_ofRatio hn hd hlower hupper
  rw [heq, IsFinite, (fields_ofBits (by omega) false).2.1]
  omega

/-- The nearest double is a whole number of steps. -/
theorem toRat_ofRatio (hn : 0 < num) (hd : 0 < den) (hlower : -1022 ≤ Int.log 2 (num / den : ℚ))
    (hupper : Int.log 2 (num / den : ℚ) < 1023) : (ofRatio false num den).toRat =
      roundEven (num / den / 2 ^ (Int.log 2 (num / den : ℚ) - 52)) * 2 ^ (Int.log 2 (num / den : ℚ) - 52) := by
  obtain ⟨field, steps, hfield, hmin, hmax, hunit, hsteps, heq⟩ := exists_ofRatio hn hd hlower hupper
  rw [heq, toRat_ofBits (by omega) hmin hmax, if_neg Bool.false_ne_true, one_mul, hsteps, hunit, Int.cast_natCast]

/-- Such a double is off from the number that it has been made from by a small part of it. -/
theorem abs_toRat_ofRatio_sub_le (hn : 0 < num) (hd : 0 < den) (hlower : -1022 ≤ Int.log 2 (num / den : ℚ))
    (hupper : Int.log 2 (num / den : ℚ) < 1023) : |(ofRatio false num den).toRat - num / den| ≤ num / den / 2 ^ 53 := by
  have hpos : (0 : ℚ) < num / den := div_pos (by exact_mod_cast hn) (by exact_mod_cast hd)
  have hunit := two_zpow_pos (Int.log 2 (num / den : ℚ) - 52)
  rw [toRat_ofRatio hn hd hlower hupper]
  have hlog : (2 : ℚ) ^ Int.log 2 (num / den : ℚ) ≤ num / den := Int.zpow_log_le_self (by decide) hpos
  generalize (num / den : ℚ) = v at hunit hlog ⊢
  have hround := abs_sub_roundEven_le (v / 2 ^ (Int.log 2 v - 52))
  generalize roundEven (v / 2 ^ (Int.log 2 v - 52)) = n at hround ⊢
  have hoff : n * 2 ^ (Int.log 2 v - 52) - v = -((v / 2 ^ (Int.log 2 v - 52) - n) * 2 ^ (Int.log 2 v - 52)) := by
    field_simp
    ring
  calc |n * 2 ^ (Int.log 2 v - 52) - v|
      = |v / 2 ^ (Int.log 2 v - 52) - n| * 2 ^ (Int.log 2 v - 52) := by rw [hoff, abs_neg, abs_mul, abs_of_pos hunit]
    _ ≤ 1 / 2 * 2 ^ (Int.log 2 v - 52) := mul_le_mul_of_nonneg_right hround hunit.le
    _ = 2 ^ Int.log 2 v / 2 ^ 53 := by
      rw [zpow_sub₀ (by norm_num)]
      norm_cast
      ring
    _ ≤ v / 2 ^ 53 := div_le_div_of_nonneg_right hlog (by positivity)

end Double

end StackScript
