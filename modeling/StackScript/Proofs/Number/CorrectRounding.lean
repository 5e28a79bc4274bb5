import StackScript.Proofs.Number.Nearest

/-! Correct rounding. The double that is made from a ratio is the one nearest to it among all doubles: there is no number so
small that it has too few steps, and beyond the greatest finite double it is an infinity. -/
namespace StackScript

section
variable {u : ℚ} {m : ℤ}

theorem one_le_abs_sub {n : ℤ} (h : m ≠ n) : (1 : ℚ) ≤ |(m : ℚ) - n| := by
  have hone : 1 ≤ |m - n| := Int.one_le_abs (sub_ne_zero.2 h)
  exact_mod_cast hone

/-- No whole number is nearer. -/
theorem abs_sub_roundEven_le_abs_sub (u : ℚ) (m : ℤ) : |u - roundEven u| ≤ |u - m| := by
  obtain rfl | hne := eq_or_ne (roundEven u) m
  · exact le_rfl
  · have hround := abs_sub_roundEven_le u
    have hapart := one_le_abs_sub hne
    have htriangle := abs_sub_le (roundEven u : ℚ) u m
    rw [abs_sub_comm (roundEven u : ℚ) u] at htriangle
    linarith

theorem even_roundEven_of_tie (h : |u - m| = |u - roundEven u|) (hne : m ≠ roundEven u) : Even (roundEven u) := by
  have hround := abs_sub_roundEven_le u
  have hapart := one_le_abs_sub hne.symm
  have htriangle := abs_sub_le (roundEven u : ℚ) u m
  rw [abs_sub_comm (roundEven u : ℚ) u] at htriangle
  exact even_roundEven (by linarith)

end

namespace Double

/-- Half a step beyond the greatest finite double. -/
def overflowBound : ℚ := 2 ^ 1024 - 2 ^ 970

/-- A double is what a number with a sign, which zero has too, is rounded to: the nearest double, of two that are equally near
the one with the even significand, and an infinity beyond all finite doubles. -/
structure IsRounded (negative : Bool) (v : ℚ) (x : Double) : Prop where
  sign : x.isNegative = negative
  infinite : overflowBound ≤ |v| → x.isInfinite = true
  finite : |v| < overflowBound → x.IsFinite
  nearest : x.IsFinite → ∀ y : Double, y.IsFinite → |v - x.toRat| ≤ |v - y.toRat|
  even : x.IsFinite → ∀ y : Double, y.IsFinite → y.toRat ≠ x.toRat → |v - y.toRat| = |v - x.toRat| → Even x.significand

/-! ### Nearest -/

section
variable {v w : ℚ}

/-- A number that is no whole number of the steps around another one, because it is made of shorter ones. -/
theorem lt_of_shorter {m k : ℤ} (hm : |m| < 2 ^ 53) (hk : k < spacing v) :
    |(m * 2 ^ k : ℚ)| < 2 ^ (spacing v + 52) := by
  have hm : |(m : ℚ)| < 2 ^ (53 : ℤ) := by exact_mod_cast hm
  rw [abs_mul, abs_of_pos (two_zpow_pos k)]
  calc |(m : ℚ)| * 2 ^ k
      < 2 ^ (53 : ℤ) * 2 ^ k := mul_lt_mul_of_pos_right hm (two_zpow_pos k)
    _ = 2 ^ (53 + k) := (zpow_add₀ (by norm_num) _ _).symm
    _ ≤ 2 ^ (spacing v + 52) := zpow_le_zpow_right₀ (by norm_num) (by omega)

theorem abs_sub_steps (v : ℚ) (n : ℚ) (q : ℤ) : |v - n * 2 ^ q| = |v / 2 ^ q - n| * 2 ^ q := by
  have hunit := two_zpow_pos q
  have hsplit : v - n * 2 ^ q = (v / 2 ^ q - n) * 2 ^ q := by field_simp
  rw [hsplit, abs_mul, abs_of_pos hunit]

/-- A double is a whole number of the steps around a number, or it is further away than some whole number of them. -/
theorem steps_or_farther (hv : 0 < v) {m k : ℤ} (hm : |m| < 2 ^ 53) (hk : -1074 ≤ k) :
    (∃ n : ℤ, (m * 2 ^ k : ℚ) = n * 2 ^ spacing v) ∨ ∃ n : ℤ, |v - n * 2 ^ spacing v| < |v - m * 2 ^ k| := by
  obtain hle | hlt := le_or_gt (spacing v) k
  · refine .inl ⟨m * 2 ^ (k - spacing v).toNat, ?_⟩
    have hexponent : k = ((k - spacing v).toNat : ℤ) + spacing v := by omega
    have hpower : (2 : ℚ) ^ k = 2 ^ (k - spacing v).toNat * 2 ^ spacing v := by
      rw [← zpow_natCast, ← zpow_add₀ (by norm_num), ← hexponent]
    rw [hpower, Int.cast_mul, Int.cast_pow, Int.cast_ofNat, mul_assoc]
  · refine .inr ⟨2 ^ 52, ?_⟩
    have hpower : (((2 ^ 52 : ℤ) : ℚ)) * 2 ^ spacing v = 2 ^ (spacing v + 52) := by
      rw [add_comm, zpow_add₀ (by norm_num)]
      norm_num
    have hshort := (abs_lt.1 (lt_of_shorter hm hlt)).2
    have hlower := zpow_le_of_spacing hv (by omega)
    rw [hpower, abs_of_nonneg (by linarith), abs_of_nonneg (by linarith)]
    linarith

/-- No double is nearer to a number than the whole number of steps that it is rounded to. -/
theorem steps_nearest (hv : 0 < v) {m k : ℤ} (hm : |m| < 2 ^ 53) (hk : -1074 ≤ k) :
    |v - roundEven (v / 2 ^ spacing v) * 2 ^ spacing v| ≤ |v - m * 2 ^ k| := by
  have hunit := two_zpow_pos (spacing v)
  have hround (n : ℤ) : |v - roundEven (v / 2 ^ spacing v) * 2 ^ spacing v| ≤ |v - n * 2 ^ spacing v| := by
    rw [abs_sub_steps, abs_sub_steps]
    exact mul_le_mul_of_nonneg_right (abs_sub_roundEven_le_abs_sub _ n) hunit.le
  obtain ⟨n, hn⟩ | ⟨n, hn⟩ := steps_or_farther hv hm hk
  · rw [hn]
    exact hround n
  · exact (hround n).trans hn.le

theorem steps_tie (hv : 0 < v) {m k : ℤ} (hm : |m| < 2 ^ 53) (hk : -1074 ≤ k)
    (hne : (m * 2 ^ k : ℚ) ≠ roundEven (v / 2 ^ spacing v) * 2 ^ spacing v)
    (htie : |v - m * 2 ^ k| = |v - roundEven (v / 2 ^ spacing v) * 2 ^ spacing v|) :
    Even (roundEven (v / 2 ^ spacing v)) := by
  have hunit := two_zpow_pos (spacing v)
  obtain ⟨n, hn⟩ | ⟨n, hn⟩ := steps_or_farther hv hm hk
  · rw [hn, abs_sub_steps, abs_sub_steps] at htie
    refine even_roundEven_of_tie (mul_right_cancel₀ hunit.ne' htie) fun heq => hne ?_
    rw [hn, heq]
  · rw [htie, abs_sub_steps, abs_sub_steps] at hn
    exact absurd (lt_of_mul_lt_mul_right hn hunit.le) (not_lt.2 (abs_sub_roundEven_le_abs_sub _ n))

end

/-! ### Doubles -/

/-- A double is a whole number below `2 ^ 53` times a power of two that is not too small. -/
theorem exists_toRat (x : Double) : ∃ m k : ℤ, |m| < 2 ^ 53 ∧ -1074 ≤ k ∧ x.toRat = m * 2 ^ k := by
  have hfraction : x.fractionField < 2 ^ 52 := by
    rw [fractionField, UInt64.toNat_and]
    exact (Nat.and_two_pow_sub_one_eq_mod _ 52).trans_lt (Nat.mod_lt _ (by decide))
  have hsignificand : x.significand < 2 ^ 53 := by
    rw [significand, Nat.pow_eq]
    split <;> omega
  have hexponent : -1074 ≤ x.exponent := by
    rw [exponent]
    split <;> omega
  have hsize : |(x.significand : ℤ)| < 2 ^ 53 := by
    rw [Nat.abs_cast]
    exact_mod_cast hsignificand
  rw [toRat]
  split
  · exact ⟨-x.significand, x.exponent, by rwa [abs_neg], hexponent, by push_cast; ring⟩
  · exact ⟨x.significand, x.exponent, hsize, hexponent, by push_cast; ring⟩

/-- The number in the middle between the greatest finite double and the next power of two. -/
theorem overflowBound_eq : overflowBound = (2 ^ 53 - 1 / 2) * 2 ^ (971 : ℤ) := by
  have hhigh : (2 : ℚ) ^ 1024 = 2 ^ 53 * 2 ^ 971 := by rw [← pow_add]
  have hlow : (2 : ℚ) ^ 971 = 2 ^ 970 * 2 := by rw [← pow_succ]
  have hcast : (2 : ℚ) ^ (971 : ℤ) = 2 ^ 971 := zpow_natCast 2 971
  rw [overflowBound, hcast, hhigh, hlow]
  generalize (2 : ℚ) ^ 970 = half
  ring

theorem zpow_le_overflowBound : (2 : ℚ) ^ (1023 : ℤ) ≤ overflowBound := by
  have hsplit : (2 : ℚ) ^ (1023 : ℤ) = 2 ^ 52 * 2 ^ (971 : ℤ) := zpow_add₀ (by norm_num) 52 971
  rw [hsplit, overflowBound_eq]
  exact mul_le_mul_of_nonneg_right (by norm_num) (two_zpow_pos 971).le

theorem overflowBound_le_zpow : overflowBound ≤ 2 ^ (1024 : ℤ) := by
  have hsplit : (2 : ℚ) ^ (1024 : ℤ) = 2 ^ 53 * 2 ^ (971 : ℤ) := zpow_add₀ (by norm_num) 53 971
  rw [hsplit, overflowBound_eq]
  exact mul_le_mul_of_nonneg_right (by norm_num) (two_zpow_pos 971).le

theorem overflowBound_pos : 0 < overflowBound := (two_zpow_pos 1023).trans_le zpow_le_overflowBound

section
variable {v : ℚ} {field steps : ℕ} (hupper : steps ≤ 2 ^ 53) (hspacing : spacing v = field - 1074)
  (hsteps : roundEven (v / 2 ^ spacing v) = steps)
include hupper hspacing hsteps

theorem lt_infinityBits (hv : 0 < v) (h : v < overflowBound) : field * 2 ^ 52 + steps < infinityBits := by
  have hround := abs_le.1 (abs_sub_roundEven_le (v / 2 ^ spacing v))
  rw [hsteps, Int.cast_natCast] at hround
  have hfield : field ≤ 2045 := by
    refine Nat.le_of_not_lt fun hgt => not_le.2 h ?_
    calc overflowBound
        ≤ 2 ^ (1024 : ℤ) := overflowBound_le_zpow
      _ ≤ 2 ^ (spacing v + 52) := zpow_le_zpow_right₀ (by norm_num) (by omega)
      _ ≤ v := zpow_le_of_spacing hv (by omega)
  rw [infinityBits]
  obtain rfl | hlt := hfield.eq_or_lt
  · have hlast : spacing v = 971 := by omega
    have hmiddle : v / 2 ^ spacing v < 2 ^ 53 - 1 / 2 := by
      rw [div_lt_iff₀ (two_zpow_pos _), hlast, ← overflowBound_eq]
      exact h
    have hless : (steps : ℚ) < (2 ^ 53 : ℕ) := by
      push_cast
      linarith [hround.1]
    have hless : steps < 2 ^ 53 := by exact_mod_cast hless
    omega
  · omega

/-- The greatest finite double has an odd significand, so that the number in the middle is rounded up. -/
theorem infinityBits_le (hlower : field = 0 ∨ 2 ^ 52 ≤ steps) (h : overflowBound ≤ v) :
    infinityBits ≤ field * 2 ^ 52 + steps := by
  have hround := abs_sub_roundEven_le (v / 2 ^ spacing v)
  have htie := even_roundEven (q := v / 2 ^ spacing v)
  rw [hsteps, Int.cast_natCast] at hround htie
  have hfield : 2045 ≤ field := by
    have hpower : (2 : ℚ) ^ (1023 : ℤ) < 2 ^ (spacing v + 53) :=
      (zpow_le_overflowBound.trans h).trans_lt (lt_zpow_spacing v)
    have hexponent := (zpow_lt_zpow_iff_right₀ (by norm_num : (1 : ℚ) < 2)).1 hpower
    omega
  rw [infinityBits]
  refine Nat.le_of_not_lt fun hless => ?_
  have hlast : spacing v = 971 := by omega
  have hmiddle : 2 ^ 53 - 1 / 2 ≤ v / 2 ^ spacing v := by
    rw [le_div_iff₀ (two_zpow_pos _), hlast, ← overflowBound_eq]
    exact h
  have hodd : steps = 2 ^ 53 - 1 := by
    have hle : ((2 ^ 53 : ℕ) : ℚ) ≤ (steps + 1 : ℕ) := by
      push_cast
      linarith [(abs_le.1 hround).2]
    have hle : 2 ^ 53 ≤ steps + 1 := by exact_mod_cast hle
    omega
  have hcast : (steps : ℚ) = 2 ^ 53 - 1 := by
    rw [hodd]
    norm_num
  have hhalf : |v / 2 ^ spacing v - steps| = 1 / 2 := by
    refine le_antisymm hround ?_
    rw [hcast]
    exact le_trans (by linarith) (le_abs_self _)
  have heven := htie hhalf
  rw [hodd] at heven
  exact absurd heven (by decide)

end

/-! ### Signs -/

theorem abs_signed (negative : Bool) (v : ℚ) : |(if negative then -1 else 1) * v| = |v| := by
  cases negative with
  | false => rw [if_neg Bool.false_ne_true, one_mul]
  | true => rw [if_pos rfl, neg_one_mul, abs_neg]

theorem abs_signed_sub (negative : Bool) (v w : ℚ) :
    |(if negative then -1 else 1) * v - w| = |v - (if negative then -1 else 1) * w| := by
  cases negative with
  | false => rw [if_neg Bool.false_ne_true, one_mul, one_mul]
  | true =>
    rw [if_pos rfl, ← abs_neg]
    congr 1
    ring

theorem signed_signed (negative : Bool) (v : ℚ) :
    (if negative then -1 else 1) * ((if negative then -1 else 1) * v) = v := by
  cases negative with
  | false => rw [if_neg Bool.false_ne_true, one_mul, one_mul]
  | true => rw [if_pos rfl, neg_one_mul, neg_one_mul, neg_neg]

theorem exists_signed_toRat (negative : Bool) (x : Double) :
    ∃ m k : ℤ, |m| < 2 ^ 53 ∧ -1074 ≤ k ∧ (if negative then -1 else 1) * x.toRat = m * 2 ^ k := by
  obtain ⟨m, k, hm, hk, hx⟩ := exists_toRat x
  cases negative with
  | false => exact ⟨m, k, hm, hk, by rw [if_neg Bool.false_ne_true, one_mul, hx]⟩
  | true => exact ⟨-m, k, by rwa [abs_neg], hk, by rw [if_pos rfl, hx, Int.cast_neg, neg_one_mul, neg_mul]⟩

/-! ### Ratios -/

theorem isRounded_zero (negative : Bool) : (ofBits negative 0).IsRounded negative 0 := by
  obtain ⟨hsign, hexponent, -⟩ := fields_ofBits (b := 0) (by decide) negative
  have htoRat : (ofBits negative 0).toRat = 0 := by
    have hvalue := @toRat_ofBits 0 0 (by decide) (.inl rfl) (by decide) negative
    rwa [Nat.cast_zero, zero_mul, zero_mul, mul_zero] at hvalue
  refine ⟨hsign, fun hover => ?_, fun _ => ?_, fun _ y _ => ?_, fun _ y _ hne htie => ?_⟩
  · rw [abs_zero] at hover
    exact absurd hover (not_le.2 overflowBound_pos)
  · rw [IsFinite, hexponent]
    decide
  · rw [htoRat, sub_self, abs_zero]
    exact abs_nonneg _
  · rw [htoRat] at hne htie
    rw [sub_self, abs_zero, abs_eq_zero, zero_sub, neg_eq_zero] at htie
    exact absurd htie hne

/-- A finite double that is the whole number of steps nearest to a number is what the number is rounded to. -/
theorem isRounded_steps {v : ℚ} (hv : 0 < v) {field steps : ℕ} (hlower : field = 0 ∨ 2 ^ 52 ≤ steps)
    (hupper : steps ≤ 2 ^ 53) (hspacing : spacing v = field - 1074) (hsteps : roundEven (v / 2 ^ spacing v) = steps)
    (h : v < overflowBound) (negative : Bool) :
    (ofBits negative (field * 2 ^ 52 + steps)).IsRounded negative ((if negative then -1 else 1) * v) := by
  have hless := lt_infinityBits hupper hspacing hsteps hv h
  rw [infinityBits] at hless
  have hfield : field < 2046 := by omega
  obtain ⟨hsign, hexponent, -⟩ := fields_ofBits (b := field * 2 ^ 52 + steps) (by omega) negative
  have hvalue : (ofBits negative (field * 2 ^ 52 + steps)).toRat =
      (if negative then -1 else 1) * (roundEven (v / 2 ^ spacing v) * 2 ^ spacing v) := by
    rw [toRat_ofBits hfield hlower hupper negative, hsteps, hspacing, Int.cast_natCast]
  refine ⟨hsign, fun hover => ?_, fun _ => ?_, fun _ y _ => ?_, fun _ y _ hne htie => ?_⟩
  · rw [abs_signed, abs_of_pos hv] at hover
    exact absurd h (not_lt.2 hover)
  · rw [IsFinite, hexponent]
    omega
  · obtain ⟨m, k, hm, hk, hy⟩ := exists_signed_toRat negative y
    rw [abs_signed_sub, abs_signed_sub, hvalue, signed_signed, hy]
    exact steps_nearest hv hm hk
  · obtain ⟨m, k, hm, hk, hy⟩ := exists_signed_toRat negative y
    rw [abs_signed_sub, abs_signed_sub, hvalue, signed_signed, hy] at htie
    have heven := steps_tie hv hm hk (fun heq => hne ?_) htie
    · rw [hsteps, Int.even_coe_nat] at heven
      obtain ⟨-, hsignificand, -⟩ | ⟨-, hsignificand, -⟩ := parts_ofBits hfield hlower hupper negative
      · rw [hsignificand]
        exact heven
      · rw [hsignificand]
        exact ⟨2 ^ 51, rfl⟩
    · rw [hvalue, ← heq, ← hy, signed_signed]

theorem isRounded_infinity {v : ℚ} (h : overflowBound ≤ |v|) (negative : Bool) :
    (ofBits negative infinityBits).IsRounded negative v := by
  obtain ⟨hsign, hexponent, hfraction⟩ := fields_ofBits (b := infinityBits) (by decide) negative
  have hinfinite : ¬(ofBits negative infinityBits).IsFinite := by
    rw [IsFinite, hexponent]
    decide
  refine ⟨hsign, fun _ => ?_, fun hless => absurd h (not_le.2 hless), fun hfinite => absurd hfinite hinfinite,
    fun hfinite => absurd hfinite hinfinite⟩
  rw [isInfinite, hexponent, hfraction]
  decide

/-- Ratios are rounded correctly. -/
theorem isRounded_ofRatio (negative : Bool) (num : ℕ) {den : ℕ} (hd : 0 < den) :
    (ofRatio negative num den).IsRounded negative ((if negative then -1 else 1) * (num / den)) := by
  obtain rfl | hn := Nat.eq_zero_or_pos num
  · rw [Nat.cast_zero, zero_div, mul_zero]
    exact isRounded_zero negative
  have hv : (0 : ℚ) < num / den := div_pos (by exact_mod_cast hn) (by exact_mod_cast hd)
  obtain ⟨field, steps, hlower, hupper, hspacing, hsteps, hbits⟩ := exists_nearestBits hn hd
  have hofBits : ofRatio negative num den = ofBits negative (nearestBits num den) := rfl
  rw [hofBits, hbits]
  obtain hless | hge := lt_or_ge (num / den : ℚ) overflowBound
  · rw [Nat.min_eq_left (lt_infinityBits hupper hspacing hsteps hv hless).le]
    exact isRounded_steps hv hlower hupper hspacing hsteps hless negative
  · rw [Nat.min_eq_right (infinityBits_le hupper hspacing hsteps hlower hge)]
    exact isRounded_infinity (by rwa [abs_signed, abs_of_pos hv]) negative

end Double
end StackScript
