import Mathlib.Algebra.Order.Field.Basic
import Mathlib.Data.Nat.Digits.Defs
import Mathlib.Tactic.FieldSimp
import Mathlib.Tactic.Linarith
import Mathlib.Tactic.Positivity
import Mathlib.Tactic.Ring
import StackScript.Number.Format
import StackScript.Number.Numeral

/-! Numbers as they are written, and which numbers they stand for: a numeral, and behind it the exponent of a power of ten
where one is written. -/
namespace StackScript

/-! ### Digits -/

section
variable {digits : List Char}

theorem digitValue_lt {c : Char} (h : c.isDigit = true) : digitValue c < 10 := by
  have hle : c.val ≤ 57 := by
    simp only [Char.isDigit, Bool.and_eq_true, decide_eq_true_eq] at h
    exact h.2
  have hle : c.toNat ≤ 57 := UInt32.le_iff_toNat_le.1 hle
  have hzero : '0'.toNat = 48 := rfl
  unfold digitValue
  omega

theorem foldl_digitValue (n : ℕ) (digits : List Char) :
    digits.foldl (fun n c => 10 * n + digitValue c) n = n * 10 ^ digits.length + digitsValue digits := by
  induction digits generalizing n with
  | nil => simp [digitsValue]
  | cons c rest ih =>
    rw [digitsValue, List.foldl_cons, List.foldl_cons, ih, ih (10 * 0 + digitValue c), List.length_cons, pow_succ]
    ring

theorem digitsValue_append (a b : List Char) :
    digitsValue (a ++ b) = digitsValue a * 10 ^ b.length + digitsValue b := by
  rw [digitsValue, List.foldl_append, foldl_digitValue]
  rfl

theorem digitsValue_cons (c : Char) (digits : List Char) :
    digitsValue (c :: digits) = digitValue c * 10 ^ digits.length + digitsValue digits := by
  have hone : digitsValue [c] = digitValue c := by simp [digitsValue]
  rw [← List.singleton_append, digitsValue_append, hone]

theorem digitsValue_zeros (n : ℕ) : digitsValue (List.replicate n '0') = 0 := by
  have hzero : digitValue '0' = 0 := rfl
  induction n with
  | zero => rfl
  | succ n ih => rw [List.replicate_succ, digitsValue_cons, ih, hzero, Nat.zero_mul]

theorem digitsValue_toDigits (n : ℕ) : digitsValue (Nat.toDigits 10 n) = n :=
  Nat.ofDigitChars_toDigits (by decide) (by decide)

theorem digitsValue_lt (h : ∀ c ∈ digits, c.isDigit = true) : digitsValue digits < 10 ^ digits.length := by
  induction digits with
  | nil => exact Nat.one_pos
  | cons c rest ih =>
    have hc := digitValue_lt (h c List.mem_cons_self)
    have hrest := ih fun d hd => h d (List.mem_cons_of_mem c hd)
    calc digitsValue (c :: rest)
        = digitValue c * 10 ^ rest.length + digitsValue rest := digitsValue_cons c rest
      _ < digitValue c * 10 ^ rest.length + 10 ^ rest.length := Nat.add_lt_add_left hrest _
      _ = (digitValue c + 1) * 10 ^ rest.length := by ring
      _ ≤ 10 * 10 ^ rest.length := Nat.mul_le_mul_right _ hc
      _ = 10 ^ (c :: rest).length := by rw [List.length_cons, pow_succ, Nat.mul_comm]

theorem isDigit_toDigits {n : ℕ} {c : Char} (h : c ∈ Nat.toDigits 10 n) : c.isDigit = true :=
  Nat.isDigit_of_mem_toDigits (by decide) (by decide) h

theorem length_toDigits {n k : ℕ} (hle : 10 ^ k ≤ n) (hlt : n < 10 ^ (k + 1)) : (Nat.toDigits 10 n).length = k + 1 := by
  have hupper : (Nat.toDigits 10 n).length ≤ k + 1 := (Nat.length_toDigits_le_iff (by decide) (Nat.succ_pos k)).2 hlt
  have hlower : ¬(Nat.toDigits 10 n).length ≤ k := by
    intro hshort
    obtain rfl | hk := Nat.eq_zero_or_pos k
    · exact absurd hshort (Nat.not_le_of_lt Nat.length_toDigits_pos)
    · exact absurd ((Nat.length_toDigits_le_iff (by decide) hk).1 hshort) (Nat.not_lt_of_le hle)
  omega

/-- The first digit of a number is not a zero that could be left out. -/
theorem head?_toDigits {n : ℕ} (h : 0 < n) : (Nat.toDigits 10 n).head? ≠ some '0' := by
  intro hhead
  obtain ⟨rest, hrest⟩ := List.head?_eq_some_iff.1 hhead
  have hdigits : ∀ c ∈ rest, c.isDigit = true := fun c hc => isDigit_toDigits (hrest ▸ List.mem_cons_of_mem _ hc)
  have hvalue := digitsValue_toDigits n
  rw [hrest, digitsValue_cons, show digitValue '0' = 0 from rfl, Nat.zero_mul, Nat.zero_add] at hvalue
  have hlt := digitsValue_lt hdigits
  rw [hvalue] at hlt
  obtain hzero | hpos := Nat.eq_zero_or_pos rest.length
  · rw [hzero] at hlt
    omega
  · have hshort := (Nat.length_toDigits_le_iff (by decide) hpos).2 hlt
    rw [hrest, List.length_cons] at hshort
    omega

end

/-! ### Written numbers -/

namespace Numeral

/-- How a numeral is printed: the point only where a digit follows. -/
def text (n : Numeral) : List Char :=
  (if n.negative then ['-'] else []) ++ n.whole ++ if n.fraction = [] then [] else '.' :: n.fraction

/-- The number that a numeral stands for. -/
def toRat (n : Numeral) : ℚ := (if n.negative then -1 else 1) * (n.numerator / n.denominator)

/-- Digits in front of the point, none of which could be left out, and digits behind it, the last one no zero. -/
structure IsTidy (n : Numeral) : Prop where
  whole_ne : n.whole ≠ []
  whole : ∀ c ∈ n.whole, c.isDigit = true
  head : n.whole = ['0'] ∨ n.whole.head? ≠ some '0'
  fraction : ∀ c ∈ n.fraction, c.isDigit = true
  last : n.fraction.getLast? ≠ some '0'

/-- A numeral as a literal of the language can be: digits in front of the point, and no sign. -/
structure IsLiteral (n : Numeral) : Prop where
  unsigned : n.negative = false
  whole_ne : n.whole ≠ []
  whole : ∀ c ∈ n.whole, c.isDigit = true
  fraction : ∀ c ∈ n.fraction, c.isDigit = true

end Numeral

/-- The exponent of a power of ten as it is written: a sign and digits. -/
structure Exponent where
  negative : Bool
  digits : List Char
  deriving DecidableEq, Repr

namespace Exponent

def text (e : Exponent) : List Char := 'e' :: (if e.negative then '-' else '+') :: e.digits

def toInt (e : Exponent) : ℤ := if e.negative then -digitsValue e.digits else digitsValue e.digits

/-- At least two digits, and no more with a zero in front. -/
structure IsTidy (e : Exponent) : Prop where
  length : 2 ≤ e.digits.length
  digits : ∀ c ∈ e.digits, c.isDigit = true
  head : e.digits.length = 2 ∨ e.digits.head? ≠ some '0'

end Exponent

/-- A number as it is written: a numeral, and the exponent of a power of ten that it is multiplied by, if there is one. -/
structure Figure where
  numeral : Numeral
  exponent : Option Exponent := none
  deriving DecidableEq, Repr

namespace Figure

def text (f : Figure) : List Char := f.numeral.text ++ f.exponent.elim [] Exponent.text

/-- The number that is written. -/
def toRat (f : Figure) : ℚ := f.numeral.toRat * 10 ^ f.exponent.elim 0 Exponent.toInt

/-- A numeral in front of an exponent has one digit before the point, which is no zero. -/
structure IsTidy (f : Figure) : Prop extends f.numeral.IsTidy where
  exponent : ∀ e ∈ f.exponent, e.IsTidy ∧ f.numeral.whole.length = 1 ∧ f.numeral.whole ≠ ['0']

end Figure

/-! ### Reading what is written -/

section
variable {a b : List Char}

theorem takeWhile_digits {s : List Char} (ha : ∀ c ∈ a, c.isDigit = true) (hs : ∀ c ∈ s.head?, c.isDigit = false) :
    (a ++ s).takeWhile Char.isDigit = a := by
  rw [List.takeWhile_append_of_pos ha]
  cases s with
  | nil => rw [List.takeWhile_nil, List.append_nil]
  | cons c s => rw [List.takeWhile_cons_of_neg (by rw [hs c rfl]; exact Bool.false_ne_true), List.append_nil]

theorem dropWhile_digits {s : List Char} (ha : ∀ c ∈ a, c.isDigit = true) (hs : ∀ c ∈ s.head?, c.isDigit = false) :
    (a ++ s).dropWhile Char.isDigit = s := by
  have hsplit := List.takeWhile_append_dropWhile (p := Char.isDigit) (l := a ++ s)
  rw [takeWhile_digits ha hs] at hsplit
  exact List.append_cancel_left hsplit

/-- Digits end where something else comes. -/
theorem digits_append_inj {s t : List Char} (ha : ∀ c ∈ a, c.isDigit = true) (hb : ∀ c ∈ b, c.isDigit = true)
    (hs : ∀ c ∈ s.head?, c.isDigit = false) (ht : ∀ c ∈ t.head?, c.isDigit = false) (h : a ++ s = b ++ t) :
    a = b ∧ s = t := by
  refine ⟨?_, ?_⟩
  · rw [← takeWhile_digits ha hs, h, takeWhile_digits hb ht]
  · rw [← dropWhile_digits ha hs, h, dropWhile_digits hb ht]

end

namespace Numeral

theorem text_eq (n : Numeral) : n.text =
    (if n.negative then ['-'] else []) ++ (n.whole ++ if n.fraction = [] then [] else '.' :: n.fraction) :=
  List.append_assoc ..

/-- No two tidy numerals are printed alike, whatever follows that is no digit and no point. -/
theorem IsTidy.text_append_inj {m n : Numeral} (hm : m.IsTidy) (hn : n.IsTidy) {s t : List Char}
    (hs : ∀ c ∈ s.head?, c.isDigit = false ∧ c ≠ '.') (ht : ∀ c ∈ t.head?, c.isDigit = false ∧ c ≠ '.')
    (h : m.text ++ s = n.text ++ t) : m = n ∧ s = t := by
  obtain ⟨negative, whole, fraction⟩ := m
  obtain ⟨negative', whole', fraction'⟩ := n
  have hsign {n : Numeral} (hn : n.IsTidy) (l : List Char) : (n.whole ++ l).head? ≠ some '-' := by
    obtain ⟨c, cs, hc⟩ := List.exists_cons_of_ne_nil hn.whole_ne
    rw [hc, List.cons_append, List.head?_cons, ne_eq, Option.some.injEq]
    rintro rfl
    exact absurd (hn.whole '-' (hc ▸ List.mem_cons_self)) (by decide)
  have hfollow {fraction s : List Char} (hs : ∀ c ∈ s.head?, c.isDigit = false ∧ c ≠ '.') :
      ∀ c ∈ ((if fraction = [] then [] else '.' :: fraction) ++ s).head?, c.isDigit = false := by
    intro c hc
    split_ifs at hc
    · exact (hs c hc).1
    · obtain rfl := Option.some.inj hc
      rfl
  rw [text_eq, text_eq, List.append_assoc, List.append_assoc, List.append_assoc, List.append_assoc] at h
  have hsame : negative = negative' ∧ whole ++ ((if fraction = [] then [] else '.' :: fraction) ++ s) =
      whole' ++ ((if fraction' = [] then [] else '.' :: fraction') ++ t) := by
    cases negative <;> cases negative'
    · exact ⟨rfl, h⟩
    · exact absurd (congrArg List.head? h) (hsign hm _)
    · exact absurd (congrArg List.head? h).symm (hsign hn _)
    · exact ⟨rfl, (List.cons.inj h).2⟩
  obtain ⟨rfl, hrest⟩ := hsame
  obtain ⟨hwhole, hafter⟩ := digits_append_inj hm.whole hn.whole (hfollow hs) (hfollow ht) hrest
  obtain rfl : whole = whole' := hwhole
  suffices hfraction : fraction = fraction' ∧ s = t by
    obtain ⟨rfl, rfl⟩ := hfraction
    exact ⟨rfl, rfl⟩
  split_ifs at hafter with hnil hnil' hnil'
  · exact ⟨hnil.trans hnil'.symm, hafter⟩
  · rw [List.nil_append] at hafter
    exact absurd rfl (hs '.' (hafter ▸ rfl)).2
  · rw [List.nil_append] at hafter
    exact absurd rfl (ht '.' (hafter ▸ rfl)).2
  · exact digits_append_inj hm.fraction hn.fraction (fun c hc => (hs c hc).1) (fun c hc => (ht c hc).1)
      (List.cons.inj hafter).2

end Numeral

/-- No two tidy numbers are written alike, so that what is written stands for one number. -/
theorem Figure.IsTidy.text_inj {f g : Figure} (hf : f.IsTidy) (hg : g.IsTidy) (h : f.text = g.text) : f = g := by
  have hmark {f : Figure} : ∀ c ∈ (f.exponent.elim [] Exponent.text).head?, c.isDigit = false ∧ c ≠ '.' := by
    intro c hc
    cases he : f.exponent with
    | none =>
      rw [he] at hc
      cases hc
    | some e =>
      rw [he] at hc
      obtain rfl := Option.some.inj hc
      exact ⟨rfl, by decide⟩
  obtain ⟨hnumeral, hexponent⟩ := hf.toIsTidy.text_append_inj hg.toIsTidy hmark hmark h
  obtain ⟨n, e⟩ := f
  obtain ⟨n', e'⟩ := g
  obtain rfl : n = n' := hnumeral
  suffices heq : e = e' by rw [heq]
  cases e <;> cases e'
  · rfl
  · cases hexponent
  · cases hexponent
  · rename_i e e'
    obtain ⟨negative, digits⟩ := e
    obtain ⟨negative', digits'⟩ := e'
    obtain ⟨hsign, rfl⟩ := List.cons.inj (List.cons.inj hexponent).2
    cases negative <;> cases negative'
    · rfl
    · exact absurd (show '+' = '-' from hsign) (by decide)
    · exact absurd (show '-' = '+' from hsign) (by decide)
    · rfl

end StackScript
