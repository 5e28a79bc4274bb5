import Mathlib.Data.List.TakeWhile
import StackScript.Proofs.Scanning.Spaced

/-! The tokens of a source written anew with one blank between each two: they are read back one by one, whatever
stood between them before. -/
namespace StackScript

namespace Scan

/-! ### A token on its own

What follows a token in a source may have been looked at, but it did not decide what the token is. -/

theorem numberLength_of_point {whole fraction : List Char} (hw : ∀ c ∈ whole, c.isDigit)
    (hf : ∀ c ∈ fraction, c.isDigit) (hne : fraction ≠ []) :
    numberLength (whole ++ '.' :: fraction) = whole.length + 1 + fraction.length := by
  have hdrop : (whole ++ '.' :: fraction).dropWhile Char.isDigit = '.' :: fraction := by
    rw [List.dropWhile_append_of_pos hw]
    rfl
  have htake : (whole ++ '.' :: fraction).takeWhile Char.isDigit = whole := by
    rw [List.takeWhile_append_of_pos hw]
    simp [Char.isDigit]
  have hfraction : fraction.takeWhile Char.isDigit = fraction := List.takeWhile_eq_self_iff.2 hf
  simp only [numberLength, hdrop, htake, hfraction, if_neg (mt List.length_eq_zero_iff.1 hne)]

theorem numberLength_of_digits {text : List Char} (h : ∀ c ∈ text, c.isDigit) : numberLength text = text.length := by
  simp only [numberLength, List.takeWhile_eq_self_iff.2 h, List.dropWhile_eq_nil_iff.2 h]

theorem numberLength_take (text : List Char) : numberLength (text.take (numberLength text)) = numberLength text := by
  obtain ⟨whole, hwhole⟩ : ∃ whole, text.takeWhile Char.isDigit = whole := ⟨_, rfl⟩
  have hdigits : ∀ c ∈ whole, c.isDigit := fun c hc => List.all_eq_true.1 List.all_takeWhile c (hwhole ▸ hc)
  have hsplit : text = whole ++ text.dropWhile Char.isDigit := by rw [← hwhole, List.takeWhile_append_dropWhile]
  by_cases hpoint : ∃ rest, text.dropWhile Char.isDigit = '.' :: rest ∧ rest.takeWhile Char.isDigit ≠ []
  · obtain ⟨rest, hrest, hne⟩ := hpoint
    have hlength : numberLength text = whole.length + 1 + (rest.takeWhile Char.isDigit).length := by
      simp only [numberLength, hwhole, hrest, if_neg (mt List.length_eq_zero_iff.1 hne)]
    have htake : text.take (numberLength text) = whole ++ '.' :: rest.takeWhile Char.isDigit := by
      rw [hlength, hsplit, hrest, Nat.add_assoc, List.take_length_add_append, Nat.add_comm 1, List.take_succ_cons,
        take_length_takeWhile]
    rw [htake, hlength, numberLength_of_point hdigits (fun c hc => List.all_eq_true.1 List.all_takeWhile c hc) hne]
  · have hlength : numberLength text = whole.length := by
      unfold numberLength
      simp only [hwhole]
      split
      · rename_i rest hrest
        rw [if_pos]
        exact List.length_eq_zero_iff.2 (Classical.byContradiction fun hne => hpoint ⟨rest, hrest, hne⟩)
      · rfl
    have htake : text.take (numberLength text) = whole := by rw [hlength, ← hwhole, take_length_takeWhile]
    rw [htake, hlength, numberLength_of_digits hdigits]

/-- A closed literal is closed by its own last character. -/
theorem extent_take (count : Nat) (text : List Char) (h : (Quoted.extent count text).2 = true) :
    ∃ n, (Quoted.extent count text).1 = count + n ∧ Quoted.extent count (text.take n) = Quoted.extent count text := by
  fun_induction Quoted.extent count text with
  | case1 => cases h
  | case2 count rest => exact ⟨1, rfl, rfl⟩
  | case3 => cases h
  | case4 count c rest ih =>
    obtain ⟨n, hn, hext⟩ := ih h
    exact ⟨n + 2, by omega, hext⟩
  | case5 count c rest hq hnil hcons ih =>
    obtain ⟨n, hn, hext⟩ := ih h
    have hb : c ≠ '\\' := by
      cases rest with
      | nil => exact fun h => hnil h rfl
      | cons d rest => exact fun h => hcons d rest h rfl
    exact ⟨n + 1, by omega, by rw [List.take_succ_cons, extent_other hq hb, hext]⟩

theorem charLiteral_take {text : List Char} {n : Nat} (h : charLiteral text = (.ok .char, n + 1)) :
    charLiteral (text.take n) = (.ok .char, n + 1) := by
  cases text with
  | nil => cases h
  | cons c rest =>
    by_cases hcq : c = charQuote
    · simp [charLiteral, hcq] at h
    · obtain ⟨body, hbody⟩ : ∃ body, (c :: rest).takeWhile (· ≠ charQuote) = body := ⟨_, rfl⟩
      rw [charLiteral_cons hcq hbody] at h
      by_cases hopen : body.length = (c :: rest).length
      · rw [if_pos hopen] at h
        cases h
      · rw [if_neg hopen] at h
        by_cases hsingle : body = [c] ∧ c.toNat < 128
        · rw [if_pos hsingle] at h
          obtain rfl : n = 2 := Nat.succ.inj (Prod.mk.inj h).2.symm
          obtain ⟨tail, hsplit⟩ := exists_closing (c :: rest) (q := charQuote) (by rwa [hbody])
          rw [hbody, hsingle.1] at hsplit
          obtain rfl : rest = charQuote :: tail := (List.cons.inj hsplit).2
          have hclosed : (c :: [charQuote]).takeWhile (· ≠ charQuote) = [c] := by simp [hcq]
          rw [show (c :: charQuote :: tail).take 2 = c :: [charQuote] from rfl, charLiteral_cons hcq hclosed,
            if_neg (by simp), if_pos ⟨rfl, hsingle.2⟩]
        · rw [if_neg hsingle] at h
          cases h

/-- A token is classified by its own characters. -/
theorem classify_take {c : Char} {rest : List Char} {k : TokenKind} {n : Nat} (h : classify c rest = (.ok k, n + 1)) :
    classify c (rest.take n) = (.ok k, n + 1) := by
  by_cases hword : isIdentContinue c
  · rw [classify_word hword] at h
    rw [classify_word hword, ← List.take_succ_cons]
    split at h
    · obtain ⟨hk, hn⟩ := Prod.mk.inj h
      rw [if_pos ‹_›, ← hn, numberLength_take, hk]
    · obtain ⟨hk, hn⟩ := Prod.mk.inj h
      have hself : ((c :: rest).takeWhile isIdentContinue).takeWhile isIdentContinue =
          (c :: rest).takeWhile isIdentContinue := List.takeWhile_eq_self_iff.2 fun d hd =>
        List.all_eq_true.1 List.all_takeWhile d hd
      rw [if_neg ‹_›, ← hn, take_length_takeWhile, hself, hk]
  by_cases hstring : c = '"'
  · subst hstring
    rw [classify_quote] at h ⊢
    obtain ⟨hk, hn⟩ := Prod.mk.inj h
    have hclosed : (Quoted.extent 1 rest).2 = true := by
      split at hk
      · assumption
      · cases hk
    obtain ⟨m, hm, hext⟩ := extent_take 1 rest hclosed
    obtain rfl : m = n := by omega
    rw [hext, hk, hn]
  by_cases hchar : c = charQuote
  · subst hchar
    have h' : charLiteral rest = (.ok k, n + 1) := h
    obtain rfl := charLiteral_kind (congrArg Prod.fst h')
    exact charLiteral_take h'
  obtain ⟨hstart, hdigit⟩ := not_isIdentContinue.1 hword
  clear hword
  revert h
  fun_cases classify c rest <;> intro h
  case case27 => exact absurd rfl hstring
  case case28 => exact absurd rfl hchar
  case case29 => exact absurd ‹_› hdigit
  case case30 => exact absurd ‹_› hstart
  case case31 => cases h
  all_goals
    cases h
    rfl

theorem symbol_wordKind {run : List Char} {k : TokenKind} (h : wordKind run = .ok k) (hv : k.varies = false) :
    String.ofList run = k.symbol := by
  have hkeywords : ∀ p ∈ keywords, p.1 = p.2.symbol := by decide
  obtain hmem | rfl := mem_keywords_of_wordKind h
  · exact hkeywords _ hmem
  · cases hv

/-- Tokens of a kind whose texts do not differ are written as the kind is. -/
theorem symbol_classify {c : Char} {rest : List Char} {k : TokenKind} {n : Nat} (h : classify c rest = (.ok k, n))
    (hv : k.varies = false) : String.ofList ((c :: rest).take n) = k.symbol := by
  by_cases hword : isIdentContinue c
  · rw [classify_word hword] at h
    split at h
    · obtain rfl := Except.ok.inj (Prod.mk.inj h).1
      cases hv
    · obtain ⟨hk, rfl⟩ := Prod.mk.inj h
      rw [take_length_takeWhile]
      exact symbol_wordKind hk hv
  obtain ⟨hstart, hdigit⟩ := not_isIdentContinue.1 hword
  clear hword
  revert h
  fun_cases classify c rest <;> intro h
  case case27 count closed _ _ =>
    obtain ⟨hk, -⟩ := Prod.mk.inj h
    split at hk <;> cases hk
    cases hv
  case case28 =>
    obtain rfl := charLiteral_kind (congrArg Prod.fst h)
    cases hv
  case case29 => exact absurd ‹_› hdigit
  case case30 => exact absurd ‹_› hstart
  case case31 => cases h
  all_goals
    cases h
    rfl

end Scan

/-! ### Sources written anew -/

/-- The token that a lexeme is; a faulty piece is none. -/
def Lexeme.token? : Lexeme → Option Token
  | .token t => some t
  | .fault _ _ => none

namespace TokenStream

def tokens (t : TokenStream) : List Token := t.lexemes.filterMap Lexeme.token?

theorem words_eq (t : TokenStream) : t.words = t.tokens.map Token.word := by
  rw [words, tokens, List.map_filterMap]
  congr 1
  funext l
  cases l <;> rfl

/-- The tokens, with one blank between each two. -/
def rejoined (t : TokenStream) : String := " ".intercalate (t.tokens.map Token.lexeme)

end TokenStream

variable {source : String} {t : Token}

theorem mem_tokens (h : t ∈ (TokenStream.ofSource source).tokens) :
    .token t ∈ (TokenStream.ofSource source).lexemes := by
  obtain ⟨l, hl, ht⟩ := List.mem_filterMap.1 h
  cases l with
  | token u =>
    obtain rfl := Option.some.inj ht
    exact hl
  | fault e line => cases ht

/-- A token of a source, on its own, is classified as it was in the source. -/
theorem Token.IsClassified.alone (h : t.IsClassified) : ∃ c rest, t.lexeme.toList = c :: rest ∧
    Scan.classify c rest = (.ok t.kind, rest.length + 1) := by
  obtain ⟨c, rest, hk, htext⟩ := h
  obtain ⟨n, hn⟩ := Nat.exists_eq_succ_of_ne_zero (Nat.ne_of_gt (Scan.classify_pos c rest))
  have hclassify : Scan.classify c rest = (.ok t.kind, n + 1) := Prod.ext hk hn
  have hle := (Scan.classify_break Scan.isBreak_nil hclassify).1
  rw [hn, List.take_succ_cons] at htext
  refine ⟨c, rest.take n, htext, ?_⟩
  rw [Scan.classify_take hclassify, List.length_take, Nat.min_eq_left (Nat.le_of_succ_le_succ hle)]

theorem Token.IsClassified.spelling_word (h : t.IsClassified) : t.word.spelling = t.lexeme := by
  obtain ⟨c, rest, htext, hclassify⟩ := h.alone
  unfold Word.spelling
  cases hv : t.kind.varies with
  | true => simp [Token.word, hv]
  | false =>
    have hsymbol := Scan.symbol_classify hclassify hv
    rw [← List.length_cons, List.take_length, ← htext, String.ofList_toList] at hsymbol
    rw [Token.word_kind, hv, if_neg Bool.false_ne_true, hsymbol]

theorem Token.IsClassified.isWritten (h : t.IsClassified) : t.word.IsWritten := by
  obtain ⟨c, rest, htext, hclassify⟩ := h.alone
  refine ⟨?_, fun hv => ?_⟩
  · rw [Word.isToken, h.spelling_word, htext]
    simp [hclassify]
  · have hv' : t.kind.varies = false := hv
    simp [Token.word, hv']

theorem spacedText_eq (ws : List Word) : spacedText ws = [' '].intercalate (ws.map fun w => w.spelling.toList) := by
  fun_induction spacedText ws with
  | case1 => rfl
  | case2 w => simp
  | case3 w ws hne ih =>
    obtain ⟨w', ws, rfl⟩ := List.exists_cons_of_ne_nil hne
    rw [ih, List.map_cons, List.map_cons, List.map_cons, List.intercalate_cons_cons]
    simp

theorem rejoined_ofSource (source : String) :
    (TokenStream.ofSource source).rejoined = spaced (TokenStream.ofSource source).words := by
  refine String.toList_injective ?_
  rw [spaced, String.toList_ofList, spacedText_eq, TokenStream.rejoined, String.toList_intercalate,
    TokenStream.words_eq, List.map_map, List.map_map]
  refine congrArg _ (List.map_congr_left fun t ht => ?_)
  exact congrArg String.toList (isClassified_ofSource source t (mem_tokens ht)).spelling_word.symm

/-- The tokens of a source, written anew with one blank between each two, are read back. -/
theorem ofSource_rejoined (source : String) :
    (TokenStream.ofSource (TokenStream.ofSource source).rejoined).IsFaultless ∧
      (TokenStream.ofSource (TokenStream.ofSource source).rejoined).tokens.map (fun t => (t.kind, t.lexeme)) =
        (TokenStream.ofSource source).tokens.map fun t => (t.kind, t.lexeme) := by
  have hwritten : ∀ w ∈ (TokenStream.ofSource source).words, w.IsWritten := by
    intro w hw
    rw [TokenStream.words_eq] at hw
    obtain ⟨t, ht, rfl⟩ := List.mem_map.1 hw
    exact (isClassified_ofSource source t (mem_tokens ht)).isWritten
  -- a token of a source is told by its word
  have hword (source : String) : (TokenStream.ofSource source).tokens.map (fun t => (t.kind, t.lexeme)) =
      (TokenStream.ofSource source).words.map fun w => (w.kind, w.spelling) := by
    rw [TokenStream.words_eq, List.map_map]
    refine List.map_congr_left fun t ht => Prod.ext rfl ?_
    exact (isClassified_ofSource source t (mem_tokens ht)).spelling_word.symm
  obtain ⟨hfaultless, hwords⟩ := words_ofSource_spaced hwritten
  rw [hword source, hword, rejoined_ofSource, hwords]
  exact ⟨hfaultless, rfl⟩

end StackScript
