import Mathlib.Computability.RegularExpressions
import Mathlib.Tactic.IntervalCases
import StackScript.Proofs.Number.CorrectRounding
import StackScript.Proofs.Number.RoundTrip

/-! Numbers typed on a line. Looking for a number among all beginnings of a line, the longest ones first, finds what one pass
from left to right finds: an optional minus sign, digits, and digits after a point. Beginnings of a beginning that is a number
need not be numbers, but the pass takes nothing that a longer beginning could do without. -/
namespace StackScript
namespace Numeral
open RegularExpression (char)

/-! ### Which texts are numbers -/

/-- A decimal digit, D in the patterns below. -/
def digit : RegularExpression Char :=
  char '0' + char '1' + char '2' + char '3' + char '4' + char '5' + char '6' + char '7' + char '8' + char '9'

/-- The pattern `-?(D+(.D*)?|.D+)`. -/
def pattern : RegularExpression Char :=
  (1 + char '-') * (digit * digit.star * (1 + char '.' * digit.star) + char '.' * (digit * digit.star))

/-- A text is a numeral as it may be typed: digits on at least one side of the point, which can be left out behind digits. -/
structure IsTyped (n : Numeral) (text : List Char) : Prop where
  whole : ∀ c ∈ n.whole, c.isDigit = true
  fraction : ∀ c ∈ n.fraction, c.isDigit = true
  some_digit : n.whole ≠ [] ∨ n.fraction ≠ []
  text_eq : ∃ rest, text = (if n.negative then ['-'] else []) ++ n.whole ++ rest ∧
    (rest = '.' :: n.fraction ∨ rest = [] ∧ n.fraction = [])

section
variable {text : List Char} {c : Char}

theorem isDigit_iff : c.isDigit = true ↔ c ∈ ['0', '1', '2', '3', '4', '5', '6', '7', '8', '9'] := by
  constructor
  · intro h
    simp only [Char.isDigit, Bool.and_eq_true, decide_eq_true_eq] at h
    have hlower : 48 ≤ c.toNat := UInt32.le_iff_toNat_le.1 h.1
    have hupper : c.toNat ≤ 57 := UInt32.le_iff_toNat_le.1 h.2
    rw [← Char.ofNat_toNat c]
    generalize c.toNat = n at hlower hupper
    interval_cases n <;> decide
  · intro h
    simp only [List.mem_cons, List.not_mem_nil, or_false] at h
    obtain rfl | rfl | rfl | rfl | rfl | rfl | rfl | rfl | rfl | rfl := h <;> rfl

theorem mem_digit : text ∈ digit.matches' ↔ ∃ c, c.isDigit = true ∧ text = [c] := by
  have hchars : text ∈ digit.matches' ↔ ∃ c ∈ ['0', '1', '2', '3', '4', '5', '6', '7', '8', '9'], text = [c] := by
    simp only [digit, RegularExpression.matches'_add, RegularExpression.matches'_char, Language.mem_add, List.mem_cons,
      List.not_mem_nil, or_false, exists_eq_or_imp, exists_eq_left, or_assoc]
    exact Iff.rfl
  rw [hchars]
  exact exists_congr fun c => and_congr_left' isDigit_iff.symm

theorem mem_star_digit : text ∈ digit.star.matches' ↔ ∀ c ∈ text, c.isDigit = true := by
  rw [RegularExpression.matches'_star, Language.mem_kstar]
  constructor
  · rintro ⟨pieces, rfl, hpieces⟩ c hc
    obtain ⟨piece, hpiece, hmem⟩ := List.mem_flatten.1 hc
    obtain ⟨d, hd, rfl⟩ := mem_digit.1 (hpieces piece hpiece)
    rw [List.mem_singleton.1 hmem]
    exact hd
  · intro h
    refine ⟨text.map fun c => [c], (List.flatMap_singleton' text).symm, fun piece hpiece => ?_⟩
    obtain ⟨c, hc, rfl⟩ := List.mem_map.1 hpiece
    exact mem_digit.2 ⟨c, h c hc, rfl⟩

/-- One digit or more. -/
theorem mem_digits : text ∈ (digit * digit.star).matches' ↔ text ≠ [] ∧ ∀ c ∈ text, c.isDigit = true := by
  rw [RegularExpression.matches'_mul, Language.mem_mul]
  constructor
  · rintro ⟨first, hfirst, rest, hrest, rfl⟩
    obtain ⟨c, hc, rfl⟩ := mem_digit.1 hfirst
    exact ⟨List.cons_ne_nil _ _, List.forall_mem_cons.2 ⟨hc, mem_star_digit.1 hrest⟩⟩
  · rintro ⟨hne, hdigits⟩
    obtain ⟨c, rest, rfl⟩ := List.exists_cons_of_ne_nil hne
    obtain ⟨hc, hrest⟩ := List.forall_mem_cons.1 hdigits
    exact ⟨[c], mem_digit.2 ⟨c, hc, rfl⟩, rest, mem_star_digit.2 hrest, rfl⟩

theorem mem_minus : text ∈ (1 + char '-').matches' ↔ ∃ negative : Bool, text = if negative then ['-'] else [] := by
  rw [RegularExpression.matches'_add, Language.mem_add, RegularExpression.matches'_epsilon,
    RegularExpression.matches'_char, Language.mem_one, Bool.exists_bool]
  exact Iff.rfl

theorem mem_point {e : RegularExpression Char} :
    text ∈ (char '.' * e).matches' ↔ ∃ rest ∈ e.matches', text = '.' :: rest := by
  rw [RegularExpression.matches'_mul, Language.mem_mul]
  constructor
  · rintro ⟨point, hpoint, rest, hrest, rfl⟩
    obtain rfl : point = ['.'] := hpoint
    exact ⟨rest, hrest, rfl⟩
  · rintro ⟨rest, hrest, rfl⟩
    exact ⟨['.'], rfl, rest, hrest, rfl⟩

/-- The texts of the pattern are the numerals that can be typed. -/
theorem mem_pattern_iff : text ∈ pattern.matches' ↔ ∃ n : Numeral, n.IsTyped text := by
  rw [pattern, RegularExpression.matches'_mul, Language.mem_mul]
  constructor
  · rintro ⟨sign, hsign, body, hbody, rfl⟩
    obtain ⟨negative, rfl⟩ := mem_minus.1 hsign
    rw [RegularExpression.matches'_add, Language.mem_add, RegularExpression.matches'_mul, Language.mem_mul] at hbody
    obtain ⟨whole, hwhole, rest, hrest, rfl⟩ | hpoint := hbody
    · obtain ⟨hne, hdigits⟩ := mem_digits.1 hwhole
      rw [RegularExpression.matches'_add, Language.mem_add] at hrest
      obtain hnil | hpoint := hrest
      · obtain rfl : rest = [] := hnil
        exact ⟨⟨negative, whole, []⟩, hdigits, by simp, .inl hne, [], (List.append_assoc ..).symm, .inr ⟨rfl, rfl⟩⟩
      · obtain ⟨fraction, hfraction, rfl⟩ := mem_point.1 hpoint
        exact ⟨⟨negative, whole, fraction⟩, hdigits, mem_star_digit.1 hfraction, .inl hne, _,
          (List.append_assoc ..).symm, .inl rfl⟩
    · obtain ⟨fraction, hfraction, rfl⟩ := mem_point.1 hpoint
      obtain ⟨hne, hdigits⟩ := mem_digits.1 hfraction
      exact ⟨⟨negative, [], fraction⟩, by simp, hdigits, .inr hne, _, by rw [List.append_nil], .inl rfl⟩
  · rintro ⟨n, hwhole, hfraction, hsome, rest, rfl, hrest⟩
    refine ⟨_, mem_minus.2 ⟨n.negative, rfl⟩, n.whole ++ rest, ?_, (List.append_assoc ..).symm⟩
    rw [RegularExpression.matches'_add, Language.mem_add, RegularExpression.matches'_mul, Language.mem_mul]
    by_cases hne : n.whole = []
    · have hdigit : n.fraction ≠ [] := hsome.resolve_left (not_not.2 hne)
      obtain rfl | ⟨-, hnil⟩ := hrest
      · rw [hne]
        exact .inr (mem_point.2 ⟨n.fraction, mem_digits.2 ⟨hdigit, hfraction⟩, rfl⟩)
      · exact absurd hnil hdigit
    · refine .inl ⟨n.whole, mem_digits.2 ⟨hne, hwhole⟩, rest, ?_, rfl⟩
      rw [RegularExpression.matches'_add, Language.mem_add]
      obtain rfl | ⟨rfl, -⟩ := hrest
      · exact .inr (mem_point.2 ⟨n.fraction, mem_star_digit.2 hfraction, rfl⟩)
      · exact .inl rfl

end

/-! ### What is read of a whole text -/

section
variable {n : Numeral} {text : List Char}

theorem scaled_zero (n : Numeral) : n.scaled 0 = n.value := by
  change Double.ofRatio n.negative (n.numerator * Nat.pow 10 0) n.denominator = n.value
  rw [Nat.pow_eq, pow_zero, Nat.mul_one, value]

theorem toLower_ne {c : Char} (h : mayOccur c = true) : c.toLower ≠ 'n' := by
  simp only [mayOccur, Bool.or_eq_true, decide_eq_true_eq, isDigit_iff, List.mem_cons, List.not_mem_nil, or_false] at h
  obtain ((rfl | rfl | rfl | rfl | rfl | rfl | rfl | rfl | rfl | rfl) | rfl) | rfl := h <;> decide

theorem splitSign_subset (text : List Char) : (splitSign text).2 ⊆ text := by
  unfold splitSign
  split
  · exact List.subset_cons_self _ _
  · exact List.subset_cons_self _ _
  · exact List.Subset.refl _

/-- Each of the words that can be read has a letter that no line has. -/
theorem parse?_eq_decimal? (h : ∀ c ∈ text, mayOccur c = true) :
    Numeral.parse? text = decimal? (splitSign text).1 (splitSign text).2 := by
  have hword (word : String) (hn : 'n' ∈ word.toList) : String.ofList ((splitSign text).2.map Char.toLower) ≠ word := by
    rintro rfl
    rw [String.toList_ofList] at hn
    obtain ⟨c, hc, hlower⟩ := List.mem_map.1 hn
    exact toLower_ne (h c (splitSign_subset text hc)) hlower
  unfold Numeral.parse?
  dsimp only
  rw [if_neg (not_or.2 ⟨hword "inf" (by decide), hword "infinity" (by decide)⟩), if_neg (hword "nan" (by decide))]

theorem splitSign_signed (negative : Bool) {body : List Char} (h : ∀ c ∈ body.head?, c ≠ '-' ∧ c ≠ '+') :
    splitSign ((if negative then ['-'] else []) ++ body) = (negative, body) := by
  cases negative with
  | true => rfl
  | false =>
    rw [if_neg Bool.false_ne_true, List.nil_append]
    unfold splitSign
    split
    · exact absurd rfl (h '-' rfl).1
    · exact absurd rfl (h '+' rfl).2
    · rfl

theorem eq_splitSign (h : '+' ∉ text) : text = (if (splitSign text).1 then ['-'] else []) ++ (splitSign text).2 := by
  unfold splitSign
  split
  · rfl
  · exact absurd List.mem_cons_self h
  · rfl

namespace IsTyped

theorem mayOccur (h : n.IsTyped text) : ∀ c ∈ text, Numeral.mayOccur c = true := by
  obtain ⟨rest, rfl, hrest⟩ := h.text_eq
  have hdigits {digits : List Char} (hdigits : ∀ c ∈ digits, c.isDigit = true) : ∀ c ∈ digits,
    Numeral.mayOccur c = true := by
    intro c hc
    rw [Numeral.mayOccur, hdigits c hc]
    rfl
  refine List.forall_mem_append.2 ⟨List.forall_mem_append.2 ⟨?_, hdigits h.whole⟩, ?_⟩
  · cases n.negative with
    | false => exact fun c hc => absurd hc List.not_mem_nil
    | true => exact fun c hc => List.mem_singleton.1 hc ▸ rfl
  · obtain rfl | ⟨rfl, -⟩ := hrest
    · exact List.forall_mem_cons.2 ⟨rfl, hdigits h.fraction⟩
    · exact fun c hc => absurd hc List.not_mem_nil

/-- The text without its sign starts with a digit or the point. -/
theorem exists_cons (h : n.IsTyped text) {rest : List Char}
    (hrest : rest = '.' :: n.fraction ∨ rest = [] ∧ n.fraction = []) :
    ∃ c more, n.whole ++ rest = c :: more ∧ (c.isDigit = true ∨ c = '.') := by
  cases hwhole : n.whole with
  | nil =>
    obtain rfl | ⟨-, hnil⟩ := hrest
    · exact ⟨'.', n.fraction, rfl, .inr rfl⟩
    · exact absurd hnil (h.some_digit.resolve_left (not_not.2 hwhole))
  | cons first digits => exact ⟨first, digits ++ rest, rfl, .inl (h.whole first (hwhole ▸ List.mem_cons_self))⟩

theorem ne_nil (h : n.IsTyped text) : text ≠ [] := by
  obtain ⟨rest, rfl, hrest⟩ := h.text_eq
  obtain ⟨first, more, hbody, -⟩ := h.exists_cons hrest
  rw [List.append_assoc, hbody]
  exact List.append_ne_nil_of_right_ne_nil _ (List.cons_ne_nil _ _)

theorem splitSign_eq (h : n.IsTyped text) : ∃ rest, splitSign text = (n.negative, n.whole ++ rest) ∧
    (rest = '.' :: n.fraction ∨ rest = [] ∧ n.fraction = []) := by
  obtain ⟨rest, rfl, hrest⟩ := h.text_eq
  refine ⟨rest, ?_, hrest⟩
  obtain ⟨first, more, hbody, hfirst⟩ := h.exists_cons hrest
  rw [List.append_assoc, hbody, splitSign_signed]
  intro c hc
  obtain rfl : first = c := Option.some.inj hc
  constructor
  all_goals
    rintro rfl
    obtain hdigit | hpoint := hfirst
    · cases hdigit
    · cases hpoint

theorem decimal?_eq (h : n.IsTyped text) {rest : List Char}
    (hrest : rest = '.' :: n.fraction ∨ rest = [] ∧ n.fraction = []) :
    decimal? n.negative (n.whole ++ rest) = some n.value := by
  have hhead : ∀ c ∈ rest.head?, c.isDigit = false := by
    obtain rfl | ⟨rfl, -⟩ := hrest
    · intro c hc
      obtain rfl : '.' = c := Option.some.inj hc
      rfl
    · intro c hc
      cases hc
  have hsplit : splitFraction rest = (n.fraction, []) := by
    obtain rfl | ⟨rfl, hnil⟩ := hrest
    · have htake := takeWhile_digits (s := []) h.fraction (by simp)
      have hdrop := dropWhile_digits (s := []) h.fraction (by simp)
      rw [List.append_nil] at htake hdrop
      rw [splitFraction, htake, hdrop]
    · rw [hnil]
      rfl
  have hsome : ¬(n.whole = [] ∧ n.fraction = []) := not_and_or.2 h.some_digit
  simp only [decimal?, takeWhile_digits h.whole hhead, dropWhile_digits h.whole hhead, hsplit, if_neg hsome]
  exact congrArg some (scaled_zero n)

/-- A text that is a numeral is read as the value of the numeral. -/
theorem parse?_eq (h : n.IsTyped text) : Numeral.parse? text = some n.value := by
  obtain ⟨rest, hsplit, hrest⟩ := h.splitSign_eq
  rw [parse?_eq_decimal? h.mayOccur, hsplit]
  exact h.decimal?_eq hrest

end IsTyped

theorem eq_nil_of_exponent? {e : Int} (htext : ∀ c ∈ text, mayOccur c = true) (h : exponent? text = some e) :
    text = [] := by
  cases text with
  | nil => rfl
  | cons mark rest =>
    have hmark := htext mark List.mem_cons_self
    simp only [exponent?] at h
    split at h
    · rename_i hexponent
      obtain rfl | rfl := hexponent.1 <;> cases hmark
    · cases h

/-- A text without a sign that is a number is digits and a point. -/
theorem exists_of_decimal? {negative : Bool} {x : Double} (htext : ∀ c ∈ text, mayOccur c = true)
    (h : decimal? negative text = some x) :
    ∃ whole fraction rest, text = whole ++ rest ∧ (∀ c ∈ whole, c.isDigit = true) ∧
        (∀ c ∈ fraction, c.isDigit = true) ∧ (whole ≠ [] ∨ fraction ≠ []) ∧ (rest = '.' :: fraction ∨ rest = [] ∧
          fraction = []) := by
  have hsplit := List.takeWhile_append_dropWhile (p := Char.isDigit) (l := text)
  have hwhole : ∀ c ∈ text.takeWhile Char.isDigit, c.isDigit = true := fun c hc => List.mem_takeWhile_imp hc
  have hdrop : ∀ c ∈ text.dropWhile Char.isDigit, mayOccur c = true :=
    fun c hc => htext c ((List.dropWhile_sublist _).subset hc)
  simp only [decimal?] at h
  generalize text.takeWhile Char.isDigit = whole, text.dropWhile Char.isDigit = rest at h hsplit hwhole hdrop
  split at h
  · cases h
  · rename_i hsome
    obtain ⟨e, he, -⟩ := Option.map_eq_some_iff.1 h
    rw [not_and_or] at hsome
    refine ⟨whole, (splitFraction rest).1, rest, hsplit.symm, hwhole, ?_⟩
    obtain ⟨digits, rfl⟩ | hnone : (∃ digits, rest = '.' :: digits) ∨ splitFraction rest = ([], rest) := by
      unfold splitFraction
      split
      · exact .inl ⟨_, rfl⟩
      · exact .inr rfl
    · have hnil := eq_nil_of_exponent?
        (fun c hc => hdrop c (List.mem_cons_of_mem _ ((List.dropWhile_sublist _).subset hc))) he
      have hfraction := List.takeWhile_append_dropWhile (p := Char.isDigit) (l := digits)
      rw [hnil, List.append_nil] at hfraction
      exact ⟨fun c hc => List.mem_takeWhile_imp hc, hsome, .inl (congrArg _ hfraction.symm)⟩
    · rw [hnone] at hsome he ⊢
      exact ⟨fun c hc => absurd hc List.not_mem_nil, hsome, .inr ⟨eq_nil_of_exponent? hdrop he, rfl⟩⟩

/-- No other text of the characters that may occur is read as a number. -/
theorem exists_isTyped {x : Double} (htext : ∀ c ∈ text, mayOccur c = true) (h : Numeral.parse? text = some x) :
    ∃ n : Numeral, n.IsTyped text := by
  have hsign : '+' ∉ text := fun hmem => absurd (htext '+' hmem) (by decide)
  have hrest := fun c hc => htext c (splitSign_subset text hc)
  rw [parse?_eq_decimal? htext] at h
  rw [eq_splitSign hsign]
  obtain ⟨whole, fraction, rest, heq, hwhole, hfraction, hsome, hpoint⟩ := exists_of_decimal? hrest h
  refine ⟨⟨(splitSign text).1, whole, fraction⟩, hwhole, hfraction, hsome, rest, ?_, hpoint⟩
  rw [heq, List.append_assoc]

end

/-! ### One pass -/

/-- What one pass takes of a text without a sign: digits, and a point with the digits behind it. It stops at a second point and
at whatever is neither. -/
structure IsPass (text whole fraction rest tail : List Char) : Prop where
  text_eq : text = whole ++ (rest ++ tail)
  isDigit_whole : ∀ c ∈ whole, c.isDigit = true
  isDigit_fraction : ∀ c ∈ fraction, c.isDigit = true
  point : rest = '.' :: fraction ∨ rest = [] ∧ fraction = []
  stop : ∀ c ∈ tail.head?, c.isDigit = false ∧ (c = '.' → rest ≠ [])

section
variable {text whole fraction rest tail : List Char} {n : Numeral}

theorem head?_dropWhile (text : List Char) : ∀ c ∈ (text.dropWhile Char.isDigit).head?, c.isDigit = false := by
  intro c hc
  have hnot := List.head?_dropWhile_not Char.isDigit text
  rw [hc] at hnot
  exact hnot

theorem exists_isPass (text : List Char) : ∃ whole fraction rest tail, IsPass text whole fraction rest tail ∧
    ∀ negative, unsigned? negative text = if whole = [] ∧ fraction = [] then none else some
      ⟨negative, whole, fraction⟩ := by
  have hsplit := List.takeWhile_append_dropWhile (p := Char.isDigit) (l := text)
  have hwhole : ∀ c ∈ text.takeWhile Char.isDigit, c.isDigit = true := fun c hc => List.mem_takeWhile_imp hc
  have hhead := head?_dropWhile text
  unfold unsigned?
  generalize text.takeWhile Char.isDigit = whole, text.dropWhile Char.isDigit = rest at hsplit hwhole hhead
  dsimp only
  split
  · rename_i digits
    refine ⟨whole, digits.takeWhile Char.isDigit, '.' :: digits.takeWhile Char.isDigit,
      digits.dropWhile Char.isDigit, ?_, fun _ => rfl⟩
    refine ⟨?_, hwhole, fun c hc => List.mem_takeWhile_imp hc, .inl rfl, fun c hc => ?_⟩
    · rw [List.cons_append, List.takeWhile_append_dropWhile, hsplit]
    · exact ⟨head?_dropWhile digits c hc, fun _ => List.cons_ne_nil _ _⟩
  · rename_i hpoint
    refine ⟨whole, [], [], rest, ⟨hsplit.symm, hwhole, by simp, .inr ⟨rfl, rfl⟩, fun c hc => ⟨hhead c hc, ?_⟩⟩,
      fun _ => rfl⟩
    rintro rfl
    obtain ⟨digits, hdigits⟩ := List.head?_eq_some_iff.1 hc
    exact absurd hdigits (hpoint digits)

/-- Digits at the start of a text are among all the digits there. -/
theorem digits_le {a b s t : List Char} (ha : ∀ c ∈ a, c.isDigit = true) (hs : ∀ c ∈ s.head?, c.isDigit = false)
    (hb : ∀ c ∈ b, c.isDigit = true) (h : b ++ t = a ++ s) : b.length ≤ a.length := by
  rw [← takeWhile_digits ha hs, ← h, List.takeWhile_append_of_pos hb, List.length_append]
  exact Nat.le_add_right ..

theorem IsPass.head?_rest (h : IsPass text whole fraction rest tail) :
    ∀ c ∈ (rest ++ tail).head?, c.isDigit = false := by
  obtain rfl | ⟨rfl, -⟩ := h.point
  · intro c hc
    obtain rfl : '.' = c := Option.some.inj hc
    rfl
  · exact fun c hc => (h.stop c hc).1

/-- No number at the start of the text is longer, and where there is one the pass takes some digit. -/
theorem IsPass.longest (h : IsPass text whole fraction rest tail) {digits more : List Char}
    (hwhole : ∀ c ∈ n.whole, c.isDigit = true) (hfraction : ∀ c ∈ n.fraction, c.isDigit = true)
    (hpoint : more = '.' :: n.fraction ∨ more = [] ∧ n.fraction = []) (htext : n.whole ++ (more ++ digits) = text) :
    n.whole.length ≤ whole.length ∧ n.fraction.length ≤ fraction.length ∧
      (n.whole ++ more).length ≤ (whole ++ rest).length := by
  rw [h.text_eq] at htext
  have hle := digits_le h.isDigit_whole h.head?_rest hwhole htext
  obtain rfl | ⟨rfl, hnil⟩ := hpoint
  · obtain ⟨heq, hrest⟩ := digits_append_inj hwhole h.isDigit_whole (by simp) h.head?_rest htext
    obtain rfl | ⟨rfl, -⟩ := h.point
    · have hle' := digits_le h.isDigit_fraction (fun c hc => (h.stop c hc).1) hfraction (List.cons_injective hrest)
      refine ⟨hle, hle', ?_⟩
      simp only [List.length_append, List.length_cons]
      omega
    · rw [List.nil_append] at hrest
      have hstop := (h.stop '.' (by rw [← hrest]; rfl)).2 rfl
      exact absurd rfl hstop
  · rw [hnil, List.append_nil, List.length_append]
    exact ⟨hle, Nat.zero_le _, Nat.le_add_right_of_le hle⟩

end

/-- A number at the start of a text has the sign that the text starts with. -/
theorem IsTyped.sign_eq {n : Numeral} {p t body : List Char} {negative : Bool} (h : n.IsTyped p)
    (htext : p ++ t = (if negative then ['-'] else []) ++ body) (hsign : negative = false → body.head? ≠ some '-') :
    n.negative = negative ∧ ∃ more, p = (if negative then ['-'] else []) ++ (n.whole ++ more) ∧
      n.whole ++ (more ++ t) = body ∧ (more = '.' :: n.fraction ∨ more = [] ∧ n.fraction = []) := by
  obtain ⟨more, rfl, hmore⟩ := h.text_eq
  obtain ⟨first, rest, hbody, hfirst⟩ := h.exists_cons hmore
  have hminus : first ≠ '-' := by
    rintro rfl
    obtain hdigit | hpoint := hfirst
    · cases hdigit
    · cases hpoint
  have hsame : n.negative = negative := by
    rw [List.append_assoc _ n.whole, hbody] at htext
    cases hn : n.negative <;> cases negative
    · rfl
    · rw [hn] at htext
      exact absurd (List.cons.inj htext).1 hminus
    · rw [hn] at htext
      exact absurd (congrArg List.head? htext).symm (hsign rfl)
    · rfl
  refine ⟨hsame, more, ?_, ?_, hmore⟩
  · rw [hsame, List.append_assoc]
  · rw [hsame, List.append_assoc, List.append_assoc] at htext
    exact (List.append_assoc ..).symm.trans ((List.append_assoc ..).trans (List.append_cancel_left htext))

theorem exists_sign (line : List Char) : ∃ negative body, line = (if negative then ['-'] else []) ++ body ∧
    leading? line = unsigned? negative body ∧ (negative = false → body.head? ≠ some '-') := by
  unfold leading?
  split
  · exact ⟨true, _, rfl, rfl, fun h => by cases h⟩
  · rename_i hminus
    refine ⟨false, line, rfl, rfl, fun _ hhead => ?_⟩
    obtain ⟨rest, hrest⟩ := List.head?_eq_some_iff.1 hhead
    exact hminus rest hrest

/-- A number at the start of a text that no longer number starts. -/
structure IsLongest (p line : List Char) : Prop where
  isPrefix : p <+: line
  mem_pattern : p ∈ pattern.matches'
  longest : ∀ q, q <+: line → q ∈ pattern.matches' → q.length ≤ p.length

/-- One pass finds the longest number at the start of a text. It stops at a second point and at what can be in no number, or in
its first place only. -/
theorem leading?_spec (line : List Char) :
    (∃ n p tail, leading? line = some n ∧ line = p ++ tail ∧ n.IsTyped p ∧ IsLongest p line ∧
      ∀ c ∈ tail.head?, c.isDigit = false ∧ (c = '.' → '.' ∈ p)) ∨
    (leading? line = none ∧ ∀ p, p <+: line → p ∉ pattern.matches') := by
  obtain ⟨negative, body, hline, hleading, hsign⟩ := exists_sign line
  obtain ⟨whole, fraction, rest, tail, hpass, hunsigned⟩ := exists_isPass body
  have hlonger {q : List Char} (hq : q <+: line) (hmem : q ∈ pattern.matches') : (whole ≠ [] ∨ fraction ≠ []) ∧
      q.length ≤ ((if negative then ['-'] else []) ++ (whole ++ rest)).length := by
    obtain ⟨n, hn⟩ := mem_pattern_iff.1 hmem
    obtain ⟨t, ht⟩ := hq
    obtain ⟨-, more, hp, hbody, hmore⟩ := hn.sign_eq (ht.trans hline) hsign
    obtain ⟨hwhole, hfraction, hle⟩ := hpass.longest hn.whole hn.fraction hmore hbody
    constructor
    · refine hn.some_digit.imp (fun hne hnil => ?_) fun hne hnil => ?_
      · rw [hnil] at hwhole
        exact hne (List.length_eq_zero_iff.1 (Nat.le_zero.1 hwhole))
      · rw [hnil] at hfraction
        exact hne (List.length_eq_zero_iff.1 (Nat.le_zero.1 hfraction))
    · rw [hp]
      simp only [List.length_append] at hle ⊢
      omega
  rw [hleading, hunsigned]
  by_cases hnone : whole = [] ∧ fraction = []
  · refine .inr ⟨if_pos hnone, fun p hp hmem => ?_⟩
    exact absurd hnone (not_and_or.2 (hlonger hp hmem).1)
  · have htyped : IsTyped ⟨negative, whole, fraction⟩ ((if negative then ['-'] else []) ++ (whole ++ rest)) :=
      ⟨hpass.isDigit_whole, hpass.isDigit_fraction, not_and_or.1 hnone, rest, (List.append_assoc ..).symm, hpass.point⟩
    have htext : line = ((if negative then ['-'] else []) ++ (whole ++ rest)) ++ tail := by
      rw [hline, hpass.text_eq, List.append_assoc, List.append_assoc]
    refine .inl ⟨_, _, tail, if_neg hnone, htext, htyped, ⟨⟨tail, htext.symm⟩, mem_pattern_iff.2 ⟨_, htyped⟩,
      fun q hq hmem => (hlonger hq hmem).2⟩, fun c hc => ⟨(hpass.stop c hc).1, fun hpoint => ?_⟩⟩
    obtain rfl | ⟨hnil, -⟩ := hpass.point
    · simp
    · exact absurd hnil ((hpass.stop c hc).2 hpoint)

/-! ### The search -/

section
variable {text line : List Char} {x : Double}

theorem longest?_eq_some {k n : ℕ} (hk : 0 < k) (hn : k ≤ n) (hx : parse? (text.take k) = some x)
    (hlonger : ∀ j, k < j → j ≤ n → parse? (text.take j) = none) : longest? text n = some x := by
  induction n with
  | zero => omega
  | succ n ih =>
    rw [longest?]
    obtain heq | hlt := hn.eq_or_lt
    · rw [← heq, hx]
      rfl
    · rw [hlonger (n + 1) hlt le_rfl]
      exact ih (Nat.le_of_lt_succ hlt) fun j hkj hj => hlonger j hkj (Nat.le_succ_of_le hj)

theorem longest?_eq_none {n : ℕ} (h : ∀ j, parse? (text.take j) = none) : longest? text n = none := by
  induction n with
  | zero => rfl
  | succ n ih =>
    rw [longest?, h, ih]
    rfl

/-- Looking for the longest number among the beginnings of a line finds what one pass finds. -/
theorem longest?_eq_leading? (hline : ∀ c ∈ line, mayOccur c = true) :
    longest? line line.length = (leading? line).map value := by
  have hnone {q : List Char} (hq : q <+: line) (hmem : q ∉ pattern.matches') : parse? q = none := by
    refine Option.eq_none_iff_forall_ne_some.2 fun x hx => hmem ?_
    exact mem_pattern_iff.2 (exists_isTyped (fun c hc => hline c (hq.subset hc)) hx)
  obtain ⟨n, p, tail, hleading, htext, htyped, hlongest, -⟩ | ⟨hleading, hno⟩ := leading?_spec line
  · rw [hleading]
    have hlength : p.length ≤ line.length := hlongest.isPrefix.length_le
    refine longest?_eq_some ?_ hlength ?_ fun j hlt hj => hnone (List.take_prefix j line) fun hmem => ?_
    · exact List.length_pos_iff.2 htyped.ne_nil
    · rw [htext, List.take_left]
      exact htyped.parse?_eq
    · have hle := hlongest.longest _ (List.take_prefix j line) hmem
      rw [List.length_take] at hle
      omega
  · rw [hleading]
    exact longest?_eq_none fun j => hnone (List.take_prefix j line) (hno _ (List.take_prefix j line))

end

/-- The number typed on a line. If some character is no digit, point or minus sign it is zero. Otherwise it is the value of the
longest beginning of the line that is a number, correctly rounded, or zero if there is none; that is what one pass from left to
right finds, which stops at a second point and at a minus sign behind the start. -/
theorem ofLine_spec (line : List Char) :
    (ofLine line = if line.all mayOccur then ((leading? line).map value).getD .zero else .zero) ∧
    ((¬∀ c ∈ line, c.isDigit = true ∨ c = '.' ∨ c = '-') ∧ ofLine line = .zero ∨
      (∀ c ∈ line, c.isDigit = true ∨ c = '.' ∨ c = '-') ∧
        ((∃ (n : Numeral) (p tail : List Char), line = p ++ tail ∧ IsLongest p line ∧ n.IsTyped p ∧
            (ofLine line).IsRounded n.negative n.toRat ∧ ∀ c ∈ tail.head?, c = '.' ∧ '.' ∈ p ∨ c = '-') ∨
          (∀ p, p <+: line → p ∉ pattern.matches') ∧ ofLine line = .zero)) := by
  have hmayOccur : line.all mayOccur = true ↔ ∀ c ∈ line, c.isDigit = true ∨ c = '.' ∨ c = '-' := by
    simp [mayOccur, or_assoc]
  have hpass : ofLine line = if line.all mayOccur then ((leading? line).map value).getD .zero else .zero := by
    rw [ofLine]
    split
    · rename_i hline
      rw [longest?_eq_leading? (List.all_eq_true.1 hline)]
    · rfl
  refine ⟨hpass, ?_⟩
  by_cases hline : line.all mayOccur = true
  · rw [if_pos hline] at hpass
    rw [hmayOccur] at hline
    refine .inr ⟨hline, ?_⟩
    obtain ⟨n, p, tail, hleading, htext, htyped, hlongest, hstop⟩ | ⟨hleading, hno⟩ := leading?_spec line
    · refine .inl ⟨n, p, tail, htext, hlongest, htyped, ?_, fun c hc => ?_⟩
      · rw [hpass, hleading]
        exact Double.isRounded_ofRatio n.negative n.numerator n.denominator_pos
      · obtain ⟨hdigit, hpoint⟩ := hstop c hc
        have hmem : c ∈ line := htext ▸ List.mem_append_right p (List.mem_of_mem_head? hc)
        obtain hdigit' | rfl | rfl := hline c hmem
        · exact absurd (hdigit'.symm.trans hdigit) (by decide)
        · exact .inl ⟨rfl, hpoint rfl⟩
        · exact .inr rfl
    · refine .inr ⟨hno, ?_⟩
      rw [hpass, hleading]
      rfl
  · rw [if_neg hline] at hpass
    exact .inl ⟨mt hmayOccur.2 hline, hpass⟩

/-- The point behind the first one and what follows it do not count. -/
example : ofLine "-1.5.2".toList = (Double.mk 0x3ff8000000000000).neg := by decide +kernel

end Numeral
end StackScript
