import Mathlib.Algebra.Order.Floor.Ring
import Mathlib.Data.Int.Log
import Mathlib.Data.Rat.Floor
import Mathlib.Tactic.FieldSimp
import Mathlib.Tactic.Linarith
import Mathlib.Tactic.Positivity
import Mathlib.Tactic.Ring
import StackScript.Number.Format

/-! Rounding of rational numbers: to whole numbers, to multiples of a power of ten, and to a number of significant digits.
What is computed for a quotient of natural numbers is the rounding of the number that it stands for. -/
namespace StackScript

/-- The whole number nearest to a number; of two that are equally near it is the even one. -/
def roundEven (q : ℚ) : ℤ :=
  if Int.fract q < 1 / 2 ∨ (Int.fract q = 1 / 2 ∧ Even ⌊q⌋) then ⌊q⌋ else ⌊q⌋ + 1

/-- The nearest multiple of a power of ten. -/
def roundTo (k : ℤ) (v : ℚ) : ℚ := roundEven (v / 10 ^ k) * 10 ^ k

/-- The exponent of the first significant digit. -/
def decimalExponent (v : ℚ) : ℤ := Int.log 10 |v|

/-- A number with so many significant digits. -/
def roundSignificant (digits : ℕ) (v : ℚ) : ℚ := roundTo (decimalExponent v - (digits - 1)) v

/-! ### Whole numbers -/

section
variable {q : ℚ} {m : ℤ}

theorem abs_sub_roundEven_le (q : ℚ) : |q - roundEven q| ≤ 1 / 2 := by
  have hfract := Int.floor_add_fract q
  have hnonneg := Int.fract_nonneg q
  have hlt := Int.fract_lt_one q
  rw [abs_le, roundEven]
  split_ifs with h
  · have hle : Int.fract q ≤ 1 / 2 := h.elim le_of_lt fun h => h.1.le
    constructor <;> linarith
  · have hle : 1 / 2 ≤ Int.fract q := not_lt.1 fun hlt => h (.inl hlt)
    push_cast
    constructor <;> linarith

theorem even_roundEven (h : |q - roundEven q| = 1 / 2) : Even (roundEven q) := by
  have hfract := Int.floor_add_fract q
  have hnonneg := Int.fract_nonneg q
  have hlt := Int.fract_lt_one q
  rw [roundEven] at h ⊢
  split_ifs at h ⊢ with hcase
  · rw [abs_of_nonneg (by linarith)] at h
    obtain hless | ⟨-, heven⟩ := hcase
    · linarith
    · exact heven
  · push_cast at h
    rw [abs_of_nonpos (by linarith)] at h
    have hhalf : Int.fract q = 1 / 2 := by linarith
    exact Int.even_add_one.2 fun heven => hcase (.inr ⟨hhalf, heven⟩)

/-- No other whole number is as near. -/
theorem roundEven_eq (h : |q - m| ≤ 1 / 2) (heven : |q - m| = 1 / 2 → Even m) : roundEven q = m := by
  have hround := abs_sub_roundEven_le q
  have hround' := even_roundEven (q := q)
  generalize roundEven q = n at hround hround'
  rw [abs_le] at h hround
  obtain hlt | heq | hgt := lt_trichotomy n m
  · have hnext : (n : ℚ) + 1 ≤ m := by exact_mod_cast hlt
    -- both are half a unit away, so both are even, and they are neighbours
    have hm : |q - m| = 1 / 2 := by rw [abs_of_nonpos (by linarith)]; linarith
    have hn : |q - n| = 1 / 2 := by rw [abs_of_nonneg (by linarith)]; linarith
    have hsucc : m = n + 1 := by
      have hle : (m : ℚ) ≤ n + 1 := by linarith
      have hle : m ≤ n + 1 := by exact_mod_cast hle
      omega
    have hodd := heven hm
    rw [hsucc, Int.even_add_one] at hodd
    exact absurd (hround' hn) hodd
  · exact heq
  · have hnext : (m : ℚ) + 1 ≤ n := by exact_mod_cast hgt
    have hm : |q - m| = 1 / 2 := by rw [abs_of_nonneg (by linarith)]; linarith
    have hn : |q - n| = 1 / 2 := by rw [abs_of_nonpos (by linarith)]; linarith
    have hsucc : n = m + 1 := by
      have hle : (n : ℚ) ≤ m + 1 := by linarith
      have hle : n ≤ m + 1 := by exact_mod_cast hle
      omega
    have hodd := hround' hn
    rw [hsucc, Int.even_add_one] at hodd
    exact absurd (heven hm) hodd

theorem roundEven_of_lt (h : |q - m| < 1 / 2) : roundEven q = m := roundEven_eq h.le fun heq => absurd heq h.ne

theorem roundEven_neg (q : ℚ) : roundEven (-q) = -roundEven q := by
  have hneg : |(-q) - ((-roundEven q : ℤ) : ℚ)| = |q - roundEven q| := by
    rw [← abs_neg]
    congr 1
    push_cast
    ring
  refine roundEven_eq (hneg.le.trans (abs_sub_roundEven_le q)) fun heq => ?_
  exact (even_roundEven (hneg.symm.trans heq)).neg

/-- Whole numbers that bound a number bound what it is rounded to. -/
theorem le_roundEven (h : (m : ℚ) ≤ q) : m ≤ roundEven q := by
  have hround := (abs_le.1 (abs_sub_roundEven_le q)).2
  have hlt : (m : ℚ) < roundEven q + 1 := by linarith
  have hlt : m < roundEven q + 1 := by exact_mod_cast hlt
  omega

theorem roundEven_le (h : q ≤ m) : roundEven q ≤ m := by
  have hround := (abs_le.1 (abs_sub_roundEven_le q)).1
  have hlt : (roundEven q : ℚ) < m + 1 := by linarith
  have hlt : roundEven q < m + 1 := by exact_mod_cast hlt
  omega

/-- The rounded quotient of natural numbers. -/
theorem cast_halfEven (num : ℕ) {den : ℕ} (h : 0 < den) : (halfEven num den : ℤ) = roundEven (num / den) := by
  have hden : (0 : ℚ) < den := by exact_mod_cast h
  have hfloor : ⌊(num / den : ℚ)⌋ = (num / den : ℕ) := by exact_mod_cast Rat.floor_natCast_div_natCast num den
  have hfract : Int.fract (num / den : ℚ) = (num % den : ℕ) / den := Int.fract_div_natCast_eq_div_natCast_mod
  have hless : (num % den : ℕ) / (den : ℚ) < 1 / 2 ↔ 2 * (num % den) < den := by
    rw [div_lt_div_iff₀ hden two_pos]
    constructor
    · intro hlt
      have hlt : num % den * 2 < 1 * den := by exact_mod_cast hlt
      omega
    · intro hlt
      have hlt : num % den * 2 < 1 * den := by omega
      exact_mod_cast hlt
  have htie : (num % den : ℕ) / (den : ℚ) = 1 / 2 ↔ 2 * (num % den) = den := by
    rw [div_eq_div_iff hden.ne' two_ne_zero]
    constructor
    · intro heq
      have heq : num % den * 2 = 1 * den := by exact_mod_cast heq
      omega
    · intro heq
      have heq : num % den * 2 = 1 * den := by omega
      exact_mod_cast heq
  have heven : Even ((num / den : ℕ) : ℤ) ↔ num / den % 2 = 0 := by rw [Int.even_coe_nat, Nat.even_iff]
  rw [roundEven, hfloor, hfract, halfEven]
  simp only [hless, htie, heven]
  split_ifs <;> rfl

end

/-! ### Multiples of powers of ten -/

section
variable {k : ℤ} {v : ℚ}

theorem ten_zpow_pos (k : ℤ) : (0 : ℚ) < 10 ^ k := zpow_pos (by norm_num) k

theorem roundTo_neg (k : ℤ) (v : ℚ) : roundTo k (-v) = -roundTo k v := by
  rw [roundTo, roundTo, neg_div, roundEven_neg]
  push_cast
  ring

theorem decimalExponent_neg (v : ℚ) : decimalExponent (-v) = decimalExponent v := by
  rw [decimalExponent, abs_neg, decimalExponent]

theorem roundSignificant_neg (digits : ℕ) (v : ℚ) : roundSignificant digits (-v) = -roundSignificant digits v := by
  rw [roundSignificant, decimalExponent_neg, roundTo_neg, roundSignificant]

theorem zpow_decimalExponent_le (h : 0 < v) : 10 ^ decimalExponent v ≤ v := by
  rw [decimalExponent, abs_of_pos h]
  exact Int.zpow_log_le_self (by decide) h

theorem lt_zpow_decimalExponent (h : 0 < v) : v < 10 ^ (decimalExponent v + 1) := by
  rw [decimalExponent, abs_of_pos h]
  exact Int.lt_zpow_succ_log_self (by decide) v

/-- The exponent of the lower one of two powers that a number is between. -/
theorem log_eq {base : ℕ} (hb : 1 < base) (hle : (base : ℚ) ^ k ≤ v) (hlt : v < (base : ℚ) ^ (k + 1)) :
    Int.log base v = k := by
  have hpos : 0 < v := (zpow_pos (by exact_mod_cast Nat.zero_lt_of_lt hb) k).trans_le hle
  have hlower : k ≤ Int.log base v := (Int.zpow_le_iff_le_log hb hpos).1 hle
  have hupper : Int.log base v < k + 1 := (Int.lt_zpow_iff_log_lt hb hpos).1 hlt
  omega

theorem decimalExponent_eq (hle : 10 ^ k ≤ v) (hlt : v < 10 ^ (k + 1)) : decimalExponent v = k := by
  have hpos : 0 < v := (ten_zpow_pos k).trans_le hle
  rw [decimalExponent, abs_of_pos hpos]
  exact log_eq (show 1 < 10 by decide) hle hlt

theorem decimalExponent_mul_zpow {d : ℕ} {n : ℚ} (hle : 10 ^ d ≤ n) (hlt : n < 10 ^ (d + 1)) (k : ℤ) :
    decimalExponent (n * 10 ^ k) = d + k := by
  have hpos := ten_zpow_pos k
  refine decimalExponent_eq ?_ ?_
  · rw [zpow_add₀ (by norm_num), zpow_natCast]
    exact mul_le_mul_of_nonneg_right hle hpos.le
  · rw [show (d : ℤ) + k + 1 = (d + 1 : ℕ) + k by push_cast; ring, zpow_add₀ (by norm_num), zpow_natCast]
    exact mul_lt_mul_of_pos_right hlt hpos

theorem roundSignificant_succ (d : ℕ) (v : ℚ) : roundSignificant (d + 1) v = roundTo (decimalExponent v - d) v := by
  rw [roundSignificant, Nat.cast_add, Nat.cast_one, add_sub_cancel_right]

theorem roundSignificant_zero (digits : ℕ) : roundSignificant digits 0 = 0 := by
  have hzero : roundEven 0 = 0 := roundEven_of_lt (by norm_num)
  rw [roundSignificant, roundTo, zero_div, hzero, Int.cast_zero, zero_mul]

theorem roundSignificant_mul_zpow {d : ℕ} {t : ℚ} (hle : 10 ^ d ≤ t) (hlt : t < 10 ^ (d + 1)) (k : ℤ) :
    roundSignificant (d + 1) (t * 10 ^ k) = roundEven t * 10 ^ k := by
  rw [roundSignificant_succ, decimalExponent_mul_zpow hle hlt, add_sub_cancel_left, roundTo,
    mul_div_cancel_right₀ _ (ten_zpow_pos k).ne']

/-- A number has its digits in front of the last one that it is rounded to, or reaches the next power of ten. -/
theorem roundEven_digits (d : ℕ) (h : 0 < v) :
    (10 : ℤ) ^ d ≤ roundEven (v / 10 ^ (decimalExponent v - d)) ∧
      roundEven (v / 10 ^ (decimalExponent v - d)) ≤ 10 ^ (d + 1) := by
  have hunit := ten_zpow_pos (decimalExponent v - d)
  constructor
  · refine le_roundEven ?_
    rw [le_div_iff₀ hunit]
    push_cast
    rw [← zpow_natCast, ← zpow_add₀ (by norm_num), add_sub_cancel]
    exact zpow_decimalExponent_le h
  · refine roundEven_le ?_
    rw [div_le_iff₀ hunit]
    push_cast
    rw [← zpow_natCast, ← zpow_add₀ (by norm_num),
      show ((d + 1 : ℕ) : ℤ) + (decimalExponent v - d) = decimalExponent v + 1 by push_cast; ring]
    exact (lt_zpow_decimalExponent h).le

theorem roundSignificant_pos (d : ℕ) (h : 0 < v) : 0 < roundSignificant (d + 1) v := by
  have hdigits : (0 : ℤ) < roundEven (v / 10 ^ (decimalExponent v - d)) :=
    (pow_pos (by norm_num) d).trans_le (roundEven_digits d h).1
  rw [roundSignificant_succ]
  exact mul_pos (by exact_mod_cast hdigits) (ten_zpow_pos _)

/-- Rounding once more, from the place on where the rounded number has its last digit, changes nothing. Where rounding has
carried into the next power of ten, that place is one further in front. -/
theorem roundTo_decimalExponent (d : ℕ) (h : 0 < v) :
    roundTo (decimalExponent (roundSignificant (d + 1) v) - d) v = roundSignificant (d + 1) v := by
  obtain ⟨hlower, hupper⟩ := roundEven_digits d h
  have hround := abs_sub_roundEven_le (v / 10 ^ (decimalExponent v - d))
  have hvalue : roundSignificant (d + 1) v = roundEven (v / 10 ^ (decimalExponent v - d)) * 10 ^
    (decimalExponent v - d) :=
    roundSignificant_succ d v
  generalize hn : roundEven (v / 10 ^ (decimalExponent v - d)) = n at hlower hupper hround hvalue
  have hlower : (10 : ℚ) ^ d ≤ n := by exact_mod_cast hlower
  obtain hlt | heq := hupper.lt_or_eq
  · have hlt : (n : ℚ) < 10 ^ (d + 1) := by exact_mod_cast hlt
    rw [hvalue, decimalExponent_mul_zpow hlower hlt, add_sub_cancel, roundTo, hn]
  · have hcast : (n : ℚ) = 10 ^ d * 10 := by rw [heq, Int.cast_pow, pow_succ]; rfl
    have hcarry : (n : ℚ) * 10 ^ (decimalExponent v - d) = 10 ^ d * 10 ^ (decimalExponent v - d + 1) := by
      rw [hcast, zpow_add_one₀ (by norm_num)]
      ring
    have hexponent : decimalExponent ((10 : ℚ) ^ d * 10 ^ (decimalExponent v - d + 1)) =
      d + (decimalExponent v - d + 1) :=
      decimalExponent_mul_zpow le_rfl (pow_lt_pow_right₀ (by norm_num) (Nat.lt_succ_self d)) _
    -- in the longer steps the number is even nearer to a whole number of them
    have hnear : |v / 10 ^ (decimalExponent v - d + 1) - ((10 ^ d : ℤ) : ℚ)| < 1 / 2 := by
      have htenth : v / 10 ^ (decimalExponent v - d + 1) - ((10 ^ d : ℤ) : ℚ) =
        (v / 10 ^ (decimalExponent v - d) - n) / 10 := by
        rw [hcast, zpow_add_one₀ (by norm_num)]
        push_cast
        field_simp
      rw [htenth, abs_div, abs_of_pos (by norm_num : (0 : ℚ) < 10)]
      linarith
    rw [hvalue, hcarry, hexponent, add_sub_cancel_left, roundTo, roundEven_of_lt hnear]
    push_cast
    rfl

/-- A number that has no more digits is what all numbers near it are rounded to. One that is a little below a power of ten is
rounded at a place further behind, and carries. -/
theorem roundSignificant_of_near {d n : ℕ} {w : ℚ} (hlower : 10 ^ d ≤ n) (hupper : n < 10 ^ (d + 1))
    (hnear : |w - n * 10 ^ k| < n * 10 ^ k / (2 * 10 ^ (d + 1))) : roundSignificant (d + 1) w = n * 10 ^ k := by
  have hunit := ten_zpow_pos k
  obtain ⟨t, ht⟩ : ∃ t, w = t * 10 ^ k := ⟨w / 10 ^ k, (div_mul_cancel₀ w hunit.ne').symm⟩
  have hlow : (10 : ℚ) ^ d ≤ n := by exact_mod_cast hlower
  have hhigh : (n : ℚ) + 1 ≤ 10 ^ (d + 1) := by exact_mod_cast hupper
  have htimes : (10 : ℚ) ^ (d + 1) = 10 ^ d * 10 := pow_succ 10 d
  have hone : (1 : ℚ) ≤ 10 ^ d := one_le_pow₀ (by norm_num)
  have hnear : |t - n| < n / (2 * 10 ^ (d + 1)) := by
    rw [ht, ← sub_mul, abs_mul, abs_of_pos hunit, mul_div_right_comm] at hnear
    exact lt_of_mul_lt_mul_right hnear hunit.le
  have hhalf : |t - n| < 1 / 2 := by
    refine hnear.trans_le ?_
    rw [div_le_iff₀ (by positivity)]
    linarith
  obtain hge | hlt := le_or_gt (10 ^ d) t
  · have hless : t < 10 ^ (d + 1) := by
      have := (abs_lt.1 hhalf).2
      linarith
    rw [ht, roundSignificant_mul_zpow hge hless, roundEven_of_lt (m := n) hhalf, Int.cast_natCast]
  · have hn : n = 10 ^ d := by
      have := (abs_lt.1 hhalf).1
      have hle : (n : ℚ) < 10 ^ d + 1 := by linarith
      have hle : n < 10 ^ d + 1 := by exact_mod_cast hle
      omega
    have hcast : (n : ℚ) = 10 ^ d := by exact_mod_cast hn
    have htenth : |t - n| < 1 / 20 := by
      refine hnear.trans_le ?_
      rw [div_le_iff₀ (by positivity), hcast, htimes]
      linarith
    rw [hcast, abs_lt] at htenth
    have hshift : t * 10 ^ k = t * 10 * 10 ^ (k - 1) := by
      rw [zpow_sub_one₀ (by norm_num)]
      ring
    have hcarry : |t * 10 - ((10 ^ (d + 1) : ℤ) : ℚ)| < 1 / 2 := by
      push_cast
      rw [abs_lt, htimes]
      constructor <;> linarith
    rw [ht, hshift, roundSignificant_mul_zpow (by linarith) (by linarith), roundEven_of_lt hcarry, hcast,
      zpow_sub_one₀ (by norm_num)]
    push_cast
    rw [htimes]
    ring

end

/-! ### Quotients of natural numbers -/

theorem digitCount_eq (n : ℕ) : digitCount n = Nat.log 10 n + 1 := by
  induction n using Nat.strong_induction_on with
  | _ n ih =>
    rw [digitCount]
    split_ifs with h
    · rw [Nat.log_of_lt h]
    · rw [ih (n / 10) (by omega), Nat.log_div_base, Nat.sub_add_cancel (Nat.log_pos (by decide) (not_lt.1 h))]

theorem lt_pow_digitCount (n : ℕ) : n < 10 ^ digitCount n := by
  rw [digitCount_eq]
  exact Nat.lt_pow_succ_log_self (by decide) n

theorem pow_digitCount_le {n : ℕ} (h : 0 < n) : 10 ^ (digitCount n - 1) ≤ n := by
  rw [digitCount_eq, Nat.add_sub_cancel]
  exact Nat.pow_log_le_self 10 h.ne'

section
variable {base den : ℕ}

/-- The steps of a power that a quotient is made of, to the nearest. -/
theorem cast_halfEven_mul_pow (hb : 0 < base) (k num : ℕ) (h : 0 < den) :
    (halfEven num (den * Nat.pow base k) : ℤ) = roundEven (num / den / (base : ℚ) ^ (Int.ofNat k)) := by
  have hpos : 0 < den * Nat.pow base k := Nat.mul_pos h (Nat.pow_pos hb)
  rw [cast_halfEven num hpos, Nat.pow_eq, Int.ofNat_eq_natCast, zpow_natCast, div_div]
  push_cast
  rfl

theorem cast_halfEven_pow_mul (base k num : ℕ) (h : 0 < den) :
    (halfEven (num * Nat.pow base (k + 1)) den : ℤ) = roundEven (num / den / (base : ℚ) ^ (Int.negSucc k)) := by
  rw [cast_halfEven _ h, Nat.pow_eq, zpow_negSucc, div_inv_eq_mul, div_mul_eq_mul_div]
  push_cast
  rfl

end

namespace Double
variable {num den : ℕ}

theorem cast_decimalSteps (k : ℤ) (num : ℕ) (h : 0 < den) :
    (decimalSteps k num den : ℤ) = roundEven (num / den / 10 ^ k) := by
  cases k with
  | ofNat k => exact cast_halfEven_mul_pow (show 0 < 10 by decide) k num h
  | negSucc k => exact cast_halfEven_pow_mul 10 k num h

theorem cast_stepsOf (k : ℤ) (num : ℕ) (h : 0 < den) : (stepsOf k num den : ℤ) = roundEven (num / den / 2 ^ k) := by
  cases k with
  | ofNat k => exact cast_halfEven_mul_pow (show 0 < 2 by decide) k num h
  | negSucc k => exact cast_halfEven_pow_mul 2 k num h

theorem floorLog10_eq (hn : 0 < num) (hd : 0 < den) : floorLog10 num den = decimalExponent (num / den) := by
  have hnum : (0 : ℚ) < num := by exact_mod_cast hn
  have hden : (0 : ℚ) < den := by exact_mod_cast hd
  rw [floorLog10]
  symm
  split_ifs with h
  · have hq : 0 < num / den := Nat.div_pos h hd
    have hlower := pow_digitCount_le hq
    have hupper := lt_pow_digitCount (num / den)
    obtain ⟨k, hk⟩ : ∃ k, digitCount (num / den) = k + 1 := ⟨_, digitCount_eq _⟩
    rw [hk, Nat.add_sub_cancel] at hlower
    rw [hk] at hupper ⊢
    have hlower : 10 ^ k * den ≤ num := (Nat.le_div_iff_mul_le hd).1 hlower
    have hupper : num < 10 ^ (k + 1) * den := (Nat.div_lt_iff_lt_mul hd).1 hupper
    have hexponent : ((k + 1 : ℕ) : ℤ) - 1 = k := by omega
    rw [hexponent]
    refine decimalExponent_eq ?_ ?_
    · rw [zpow_natCast, le_div_iff₀ hden]
      exact_mod_cast hlower
    · rw [show (k : ℤ) + 1 = ((k + 1 : ℕ) : ℤ) by omega, zpow_natCast, div_lt_iff₀ hden]
      exact_mod_cast hupper
  · -- the quotient is below one: what counts is how often the numerator goes into the denominator
    have hq : 0 < (den - 1) / num := Nat.div_pos (by omega) hn
    have hlower := pow_digitCount_le hq
    have hupper := lt_pow_digitCount ((den - 1) / num)
    obtain ⟨k, hk⟩ : ∃ k, digitCount ((den - 1) / num) = k + 1 := ⟨_, digitCount_eq _⟩
    rw [hk, Nat.add_sub_cancel] at hlower
    rw [hk] at hupper ⊢
    have hlower : 10 ^ k * num < den := by
      have hle := (Nat.le_div_iff_mul_le hn).1 hlower
      omega
    have hupper : den ≤ 10 ^ (k + 1) * num := by
      have hlt := (Nat.div_lt_iff_lt_mul hn).1 hupper
      omega
    refine decimalExponent_eq ?_ ?_
    · rw [zpow_neg, zpow_natCast, inv_le_iff_one_le_mul₀ (by positivity), div_mul_eq_mul_div, one_le_div hden, mul_comm]
      exact_mod_cast hupper
    · rw [show -((k + 1 : ℕ) : ℤ) + 1 = -(k : ℤ) by omega, zpow_neg, zpow_natCast, lt_inv_comm₀ (by positivity)
        (by positivity), inv_div, lt_div_iff₀ hnum]
      exact_mod_cast hlower

end Double

end StackScript
