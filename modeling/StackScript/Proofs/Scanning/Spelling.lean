import StackScript.Proofs.Syntax.Tree
import StackScript.Token.Stream

/-! What the scanner promises about the tokens it makes: the end token is not among them, and names and
literals have the texts that they are read from later. -/
namespace StackScript

/-- The texts that words of a kind are made from. -/
def TokenKind.Spells (k : TokenKind) (text : List Char) : Prop :=
  match k with
  | .eof => False
  | .ident => text ≠ []
  | .number => (Numeral.leading? text).isSome
  | .string | .char => 2 ≤ text.length
  | _ => True

def Word.Spelled (w : Word) : Prop := w.kind.Spells w.text.toList

namespace Scan

theorem extent_closed (count : Nat) (text : List Char) (h : (Quoted.extent count text).2 = true) :
    count < (Quoted.extent count text).1 ∧
      (Quoted.extent count text).1 ≤ count + text.length := by
  fun_induction Quoted.extent count text with
  | case1 => cases h
  | case2 => exact ⟨Nat.lt_succ_self _, by simp⟩
  | case3 => cases h
  | case4 count c rest ih =>
    have := ih h
    simp only [List.length_cons]
    omega
  | case5 count c rest _ _ _ ih =>
    have := ih h
    simp only [List.length_cons]
    omega

theorem spells_charLiteral {text : List Char} {k : TokenKind} {c : Char}
    (h : (charLiteral text).1 = .ok k) : k.Spells ((c :: text).take (charLiteral text).2) := by
  cases text with
  | nil => cases h
  | cons d rest =>
    unfold charLiteral at h ⊢
    by_cases hq : d = charQuote
    · simp [hq] at h
    · by_cases hl : ((d :: rest).takeWhile (· ≠ charQuote)).length = (d :: rest).length
      · simp only [hq, hl, if_true, if_false, reduceCtorEq] at h
      · by_cases hb : (d :: rest).takeWhile (· ≠ charQuote) = [d] ∧ d.toNat < 128
        · simp only [if_neg hq, if_neg hl, if_pos hb] at h ⊢
          obtain rfl := Except.ok.inj h
          simp [TokenKind.Spells]
        · simp only [hq, hl, hb, if_false, reduceCtorEq] at h

theorem spells_number (c : Char) (rest : List Char) (h : c.isDigit) :
    TokenKind.number.Spells ((c :: rest).take (numberLength (c :: rest))) := by
  obtain ⟨n, hn⟩ := Nat.exists_eq_succ_of_ne_zero (Nat.ne_of_gt (numberLength_pos c rest h))
  have hc : c ≠ '-' := by
    rintro rfl
    cases h
  rw [hn, List.take_succ_cons, TokenKind.Spells, Numeral.leading?]
  · simp [Numeral.unsigned?, h]
  · exact fun rest h => hc (List.cons.inj h).1

/-- A word is a keyword of the table or an identifier. -/
theorem mem_keywords_of_wordKind {run : List Char} {k : TokenKind} (h : wordKind run = .ok k) :
    (String.ofList run, k) ∈ keywords ∨ k = .ident := by
  unfold wordKind at h
  split at h
  · obtain rfl := Except.ok.inj h
    obtain ⟨l₁, l₂, heq, -⟩ := List.lookup_eq_some_iff.1 ‹keywords.lookup _ = _›
    rw [heq]
    exact .inl (List.mem_append_right l₁ List.mem_cons_self)
  · split at h
    · cases h
    · exact .inr (Except.ok.inj h).symm

/-- What is no keyword is told by its first character. -/
theorem wordKind_other {run : List Char} (h : ∀ p ∈ keywords, run ≠ p.1.toList) :
    wordKind run = if run.head? = some '?' then .error .invalidIdentifier else .ok .ident := by
  have hnone : keywords.lookup (String.ofList run) = none := by
    rw [List.lookup_eq_none_iff]
    intro p hp
    rw [bne_iff_ne]
    intro hrun
    exact h p hp (by rw [← hrun, String.toList_ofList])
  rw [wordKind, hnone]

theorem spells_wordKind {run : List Char} {k : TokenKind} (hr : run ≠ [])
    (h : wordKind run = .ok k) : k.Spells run := by
  have hkeywords : ∀ p ∈ keywords, p.2.Spells run := by
    simp [keywords, TokenKind.Spells]
  obtain hmem | rfl := mem_keywords_of_wordKind h
  · exact hkeywords _ hmem
  · exact hr

theorem take_length_takeWhile (p : Char → Bool) (text : List Char) :
    text.take (text.takeWhile p).length = text.takeWhile p := by
  induction text with
  | nil => rfl
  | cons c text ih => by_cases h : p c <;> simp [h, ih]

/-- What a token is classified by spells a word of its kind. -/
theorem spells_classify {c : Char} {rest : List Char} {k : TokenKind}
    (h : (classify c rest).1 = .ok k) : k.Spells ((c :: rest).take (classify c rest).2) := by
  revert h
  unfold classify
  split <;> intro h <;> try (obtain rfl := Except.ok.inj h; trivial)
  by_cases hs : c = '"'
  · simp only [if_pos hs] at h ⊢
    cases hc : (Quoted.extent 1 rest).2 with
    | false => simp [hc] at h
    | true =>
      obtain ⟨h1, h2⟩ := extent_closed 1 rest hc
      obtain rfl : TokenKind.string = k := by simpa [hc] using h
      simp only [TokenKind.Spells, List.length_take, List.length_cons]
      omega
  · by_cases hq : c = charQuote
    · simp only [if_neg hs, if_pos hq] at h ⊢
      exact spells_charLiteral h
    · by_cases hd : c.isDigit = true
      · simp only [if_neg hs, if_neg hq, if_pos hd] at h ⊢
        obtain rfl := Except.ok.inj h
        exact spells_number c rest hd
      · by_cases hi : isIdentStart c = true
        · simp only [if_neg hs, if_neg hq, if_neg hd, if_pos hi] at h ⊢
          rw [take_length_takeWhile]
          refine spells_wordKind ?_ h
          simp [isIdentContinue, hi]
        · simp only [if_neg hs, if_neg hq, if_neg hd, if_neg hi, reduceCtorEq] at h

end Scan

/-- A token is what its text was classified as. -/
def Token.IsClassified (t : Token) : Prop :=
  ∃ c rest, (Scan.classify c rest).1 = .ok t.kind ∧
    t.lexeme.toList = (c :: rest).take (Scan.classify c rest).2

theorem isClassified_take {c : Cursor} {first : Char} {rest : List Char} {t : Token}
    (hc : c.rest = first :: rest) (h : (c.take first rest).1 = .token t) : t.IsClassified := by
  unfold Cursor.take at h
  cases hk : (Scan.classify first rest).1 with
  | error error => simp [hk] at h
  | ok kind =>
    obtain rfl : Token.mk kind _ _ = t := by simpa [hk] using h
    exact ⟨first, rest, hk, by simp [hc]⟩

theorem isClassified_readFrom (done : List Lexeme) (c : Cursor)
    (hd : ∀ t, .token t ∈ done → t.IsClassified) (t : Token)
    (ht : .token t ∈ (TokenStream.readFrom done c).lexemes) : t.IsClassified := by
  fun_induction TokenStream.readFrom done c with
  | case1 done c start h => exact hd t (by simpa using ht)
  | case2 done c start first rest h ih =>
    refine ih (fun t ht => ?_) ht
    rcases List.mem_cons.1 ht with ht | ht
    · exact isClassified_take h ht.symm
    · exact hd t ht

/-- Every token of a source is what its text was classified as. -/
theorem isClassified_ofSource (source : String) (t : Token)
    (ht : .token t ∈ (TokenStream.ofSource source).lexemes) : t.IsClassified :=
  isClassified_readFrom [] _ (by simp) t ht

/-- Every token of a source spells a word of its kind. -/
theorem spells_ofSource (source : String) (t : Token)
    (ht : .token t ∈ (TokenStream.ofSource source).lexemes) : t.kind.Spells t.lexeme.toList := by
  obtain ⟨c, rest, hk, htext⟩ := isClassified_ofSource source t ht
  rw [htext]
  exact Scan.spells_classify hk

end StackScript
