import StackScript.Proofs.Number.Figure
import StackScript.Proofs.Scanning.Rejoined

/-! Number literals: digits, and a point only with digits on both sides of it. They are read back as the numerals that they
are. -/
namespace StackScript

namespace Numeral
variable {n : Numeral}

/-- The literal that is written like a numeral. -/
def literal (n : Numeral) : String := String.ofList n.text

theorem IsLiteral.text_eq (h : n.IsLiteral) :
    n.text = n.whole ++ if n.fraction = [] then [] else '.' :: n.fraction := by
  rw [text, h.unsigned]
  rfl

theorem IsLiteral.text_cons (h : n.IsLiteral) : ∃ c rest, n.text = c :: rest ∧ c.isDigit = true := by
  obtain ⟨c, whole, hwhole⟩ := List.exists_cons_of_ne_nil h.whole_ne
  exact ⟨c, _, by rw [h.text_eq, hwhole, List.cons_append], h.whole c (hwhole ▸ List.mem_cons_self)⟩

theorem IsLiteral.numberLength (h : n.IsLiteral) : Scan.numberLength n.text = n.text.length := by
  rw [h.text_eq]
  split_ifs with hnil
  · rw [List.append_nil, Scan.numberLength_of_digits h.whole]
  · rw [Scan.numberLength_of_point h.whole h.fraction hnil, List.length_append, List.length_cons]
    omega

/-- A literal is read as the numeral that it is. -/
theorem IsLiteral.leading? (h : n.IsLiteral) : Numeral.leading? n.text = some n := by
  obtain ⟨c, rest, htext, hc⟩ := h.text_cons
  have hsign : c ≠ '-' := by
    rintro rfl
    cases hc
  have hunsigned : Numeral.leading? n.text = unsigned? false n.text := by
    rw [htext, Numeral.leading?]
    exact fun rest h => hsign (List.cons.inj h).1
  obtain ⟨negative, whole, fraction⟩ := n
  obtain rfl : negative = false := h.unsigned
  have hpoint : ∀ c ∈ (if fraction = [] then [] else '.' :: fraction).head?, c.isDigit = false := by
    intro c hc
    split_ifs at hc
    · cases hc
    · obtain rfl := Option.some.inj hc
      rfl
  rw [hunsigned, h.text_eq]
  simp only [unsigned?, takeWhile_digits h.whole hpoint, dropWhile_digits h.whole hpoint]
  rw [if_neg fun hnone => h.whole_ne hnone.1]
  split_ifs with hnil
  · rw [hnil]
  · simp only [List.takeWhile_eq_self_iff.2 h.fraction]

end Numeral

namespace Scan

theorem wordKind_ne_number (run : List Char) : wordKind run ≠ .ok .number := by
  have hkeywords : ∀ p ∈ keywords, p.2 ≠ .number := by decide
  intro h
  obtain hmem | hident := mem_keywords_of_wordKind h
  · exact hkeywords _ hmem rfl
  · cases hident

theorem classify_number {c : Char} {rest : List Char} {n : ℕ} (h : classify c rest = (.ok .number, n)) :
    c.isDigit = true ∧ n = numberLength (c :: rest) := by
  by_cases hword : isIdentContinue c
  · rw [classify_word hword] at h
    split at h
    · exact ⟨‹_›, (Prod.mk.inj h).2.symm⟩
    · exact absurd (Prod.mk.inj h).1 (wordKind_ne_number _)
  obtain ⟨hstart, hdigit⟩ := not_isIdentContinue.1 hword
  clear hword
  revert h
  fun_cases classify c rest <;> intro h
  case case27 count closed _ _ =>
    obtain ⟨hk, -⟩ := Prod.mk.inj h
    split at hk <;> cases hk
  case case28 => cases charLiteral_kind (congrArg Prod.fst h)
  case case29 => exact absurd ‹_› hdigit
  case case30 => exact absurd ‹_› hstart
  all_goals cases h

/-- All of a text is a number if it is that of a numeral. -/
theorem exists_literal {text : List Char} (h : numberLength text = text.length)
    (hhead : ∃ c ∈ text.head?, c.isDigit = true) :
    ∃ n : Numeral, n.IsLiteral ∧ n.text = text := by
  obtain ⟨c, hc, hdigit⟩ := hhead
  have hwhole : ∀ d ∈ text.takeWhile Char.isDigit, d.isDigit = true :=
    fun d hd => List.all_eq_true.1 List.all_takeWhile d hd
  have hne : text.takeWhile Char.isDigit ≠ [] := by
    obtain ⟨rest, rfl⟩ := List.head?_eq_some_iff.1 hc
    rw [List.takeWhile_cons_of_pos hdigit]
    exact List.cons_ne_nil _ _
  have hsplit : text.takeWhile Char.isDigit ++ text.dropWhile Char.isDigit = text := List.takeWhile_append_dropWhile
  have hall := congrArg List.length hsplit
  rw [List.length_append] at hall
  by_cases hpoint : ∃ rest, text.dropWhile Char.isDigit = '.' :: rest ∧ rest.takeWhile Char.isDigit ≠ []
  · obtain ⟨rest, hrest, hfraction⟩ := hpoint
    have hlength : (text.takeWhile Char.isDigit).length + 1 + (rest.takeWhile Char.isDigit).length = text.length := by
      rw [← h, numberLength, hrest]
      simp only [if_neg (mt List.length_eq_zero_iff.1 hfraction)]
    rw [hrest, List.length_cons] at hall
    have hself : rest.takeWhile Char.isDigit = rest :=
      (List.takeWhile_prefix Char.isDigit).eq_of_length_le (by omega)
    have hliteral : Numeral.IsLiteral ⟨false, text.takeWhile Char.isDigit, rest⟩ :=
      ⟨rfl, hne, hwhole, List.takeWhile_eq_self_iff.1 hself⟩
    refine ⟨_, hliteral, ?_⟩
    rw [hliteral.text_eq, if_neg (hself ▸ hfraction), ← hrest, hsplit]
  · have hlength : (text.takeWhile Char.isDigit).length = text.length := by
      rw [← h, numberLength]
      split
      · rename_i rest hrest
        have hnone : rest.takeWhile Char.isDigit = [] := by
          by_contra hfraction
          exact hpoint ⟨rest, hrest, hfraction⟩
        simp only [hnone, List.length_nil, if_true]
      · rfl
    have hnil : text.dropWhile Char.isDigit = [] := List.eq_nil_of_length_eq_zero (by omega)
    have hliteral : Numeral.IsLiteral ⟨false, text.takeWhile Char.isDigit, []⟩ := ⟨rfl, hne, hwhole, by simp⟩
    refine ⟨_, hliteral, ?_⟩
    rw [hliteral.text_eq, if_pos rfl, ← hnil, hsplit]

end Scan

/-- What the scanner takes for a number literal. -/
theorem isWritten_number_iff {text : String} :
    (⟨.number, text⟩ : Word).IsWritten ↔ ∃ n : Numeral, n.IsLiteral ∧ text = n.literal := by
  constructor
  · intro h
    obtain ⟨c, rest, htext, hclassify⟩ := h.classify
    obtain ⟨hc, hlength⟩ := Scan.classify_number hclassify
    have hwhole : Scan.numberLength (c :: rest) = (c :: rest).length := hlength.symm
    obtain ⟨n, hn, hntext⟩ := Scan.exists_literal hwhole ⟨c, rfl, hc⟩
    refine ⟨n, hn, ?_⟩
    rw [Numeral.literal, hntext, ← htext, String.ofList_toList]
    rfl
  · rintro ⟨n, hn, rfl⟩
    obtain ⟨c, rest, htext, hc⟩ := hn.text_cons
    have hclassify : Scan.classify c rest = (.ok .number, rest.length + 1) := by
      rw [Scan.classify_word (by simp [Scan.isIdentContinue, hc]), if_pos hc, ← htext, hn.numberLength, htext,
        List.length_cons]
    refine ⟨?_, fun hv => by cases hv⟩
    have hspelling : (⟨.number, n.literal⟩ : Word).spelling.toList = c :: rest := by
      rw [← htext]
      exact String.toList_ofList
    rw [Word.isToken, hspelling]
    simp [hclassify]

end StackScript
