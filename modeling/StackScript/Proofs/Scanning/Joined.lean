import StackScript.Proofs.Scanning.Coverage
import StackScript.Proofs.Scanning.Spaced

/-! Sources one behind the other. The words of two sources with a line break between them are the words of the first one
and then those of the second one, unless the first one ends inside a comment. -/
namespace StackScript

namespace Scan

/-- Whether a text that is blank up to its end ends inside a comment. -/
def leftOpen (inComment : Bool) : List Char → Bool
  | [] => inComment
  | c :: rest =>
    if inComment then
      match c, rest with
      | ':', '}' :: rest => leftOpen false rest
      | _, rest => leftOpen true rest
    else
      match c, rest with
      | '{', ':' :: rest => leftOpen true rest
      | c, rest => if isBlank c then leftOpen false rest else false

section
variable {text tail : List Char} {b : Bool}

theorem mem_of_leftOpen (h : leftOpen b text = true) : b = true ∨ '{' ∈ text := by
  fun_induction leftOpen b text with
  | case1 => exact .inl h
  | case4 => simp
  | case5 _ _ _ _ _ _ ih =>
    exact (ih h).elim (absurd · Bool.false_ne_true) fun hmem =>
      .inr (List.mem_cons_of_mem _ hmem)
  | case6 => cases h
  | _ => exact .inl rfl

/-- What is skipped ends in a text, or goes on behind it as at the start of another one. -/
theorem blankLength_append (hb : IsBreak tail) (hclosed : leftOpen b text = false) (count : Nat) :
    (blankLength b count text < count + text.length ∧ blankLength b count (text ++ tail) = blankLength b count text) ∨
      (blankLength b count text = count + text.length ∧
        blankLength b count (text ++ tail) = blankLength false (count + text.length) tail) := by
  fun_induction leftOpen b text generalizing count with
  | case1 b =>
    obtain rfl : b = false := hclosed
    exact .inr ⟨rfl, rfl⟩
  | case2 rest ih =>
    have h := ih hclosed (count + 2)
    simp only [List.cons_append, blankLength_closing, List.length_cons]
    rwa [show count + (rest.length + 1 + 1) = count + 2 + rest.length by omega]
  | case3 c rest hne ih =>
    have h := ih hclosed (count + 1)
    have hne' : c = ':' → ∀ rest', rest ++ tail ≠ '}' :: rest' := fun hc =>
      append_ne_cons hb (by decide) fun rest' => hne rest' hc
    rw [List.cons_append, blankLength_inside (fun hc rest' => hne rest' hc), blankLength_inside hne', List.length_cons]
    rwa [show count + (rest.length + 1) = count + 1 + rest.length by omega]
  | case4 b hb' rest ih =>
    obtain rfl : b = false := by simpa using hb'
    have h := ih hclosed (count + 2)
    simp only [List.cons_append, blankLength_opening, List.length_cons]
    rwa [show count + (rest.length + 1 + 1) = count + 2 + rest.length by omega]
  | case5 b hb' c rest hne hc ih =>
    obtain rfl : b = false := by simpa using hb'
    have h := ih hclosed (count + 1)
    have hne' : c = '{' → ∀ rest', rest ++ tail ≠ ':' :: rest' := fun hc =>
      append_ne_cons hb (by decide) fun rest' => hne rest' hc
    rw [List.cons_append, blankLength_outside (fun hc rest' => hne rest' hc), blankLength_outside hne', if_pos hc,
      if_pos hc, List.length_cons]
    rwa [show count + (rest.length + 1) = count + 1 + rest.length by omega]
  | case6 b hb' c rest hne hc =>
    obtain rfl : b = false := by simpa using hb'
    have hne' : c = '{' → ∀ rest', rest ++ tail ≠ ':' :: rest' := fun hc =>
      append_ne_cons hb (by decide) fun rest' => hne rest' hc
    rw [List.cons_append, blankLength_outside (fun hc rest' => hne rest' hc), blankLength_outside hne', if_neg hc,
      if_neg hc]
    exact .inl ⟨by simp, rfl⟩

end

end Scan

/-! ### Words -/

/-- The word of a token; a faulty piece has none. -/
def Lexeme.words : Lexeme → List Word
  | .token t => [t.word]
  | .fault _ _ => []

section
variable {c d e : Cursor} {first : Char} {rest tail : List Char}

theorem scan_shorter (h : c.skipBlank.rest = first :: rest) : c.scan.2.rest.length < c.rest.length := by
  have htake := c.skipBlank.take_rest_length_lt first rest (h ▸ List.cons_ne_nil _ _)
  rw [← Cursor.scan_cons h] at htake
  exact Nat.lt_of_lt_of_le htake (c.drop_rest_length_le (Scan.blankLength false 0 c.rest))

theorem readFrom_done (done : List Lexeme) (c : Cursor) : TokenStream.readFrom done c =
    ⟨done.reverse ++ (TokenStream.readFrom [] c).lexemes, (TokenStream.readFrom [] c).lastLine⟩ := by
  obtain ⟨n, hn⟩ : ∃ n, c.rest.length < n := ⟨_, Nat.lt_succ_self _⟩
  induction n generalizing done c with
  | zero => cases hn
  | succ n ih =>
    rw [TokenStream.readFrom, TokenStream.readFrom]
    split
    · rw [List.reverse_nil, List.append_nil]
    · rename_i first rest hcase
      have hshort := Nat.lt_of_lt_of_le (scan_shorter hcase) (Nat.le_of_lt_succ hn)
      rw [Cursor.scan_cons hcase] at hshort
      rw [ih _ _ hshort, ih [_] _ hshort, List.reverse_cons, List.append_assoc]
      rfl

/-- What holds where nothing is left to read, and at each place if it holds behind the piece that is read there, holds at
every place. -/
theorem Cursor.scan_induction {P : Cursor → Prop} (hend : ∀ c : Cursor, c.skipBlank.rest = [] → P c)
    (hscan : ∀ (c : Cursor) (first : Char) (rest : List Char), c.skipBlank.rest = first :: rest → P c.scan.2 → P c)
    (c : Cursor) : P c := by
  obtain ⟨n, hn⟩ : ∃ n, c.rest.length < n := ⟨_, Nat.lt_succ_self _⟩
  induction n generalizing c with
  | zero => cases hn
  | succ n ih =>
    cases hcase : c.skipBlank.rest with
    | nil => exact hend c hcase
    | cons first rest =>
      apply hscan c first rest hcase
      apply ih
      exact Nat.lt_of_lt_of_le (scan_shorter hcase) (Nat.le_of_lt_succ hn)

theorem readFrom_nil (h : c.skipBlank.rest = []) : TokenStream.readFrom [] c = ⟨[], c.skipBlank.line⟩ := by
  rw [TokenStream.readFrom]
  split
  · rfl
  · simp_all

theorem readFrom_cons (h : c.skipBlank.rest = first :: rest) : TokenStream.readFrom [] c =
    ⟨c.scan.1 :: (TokenStream.readFrom [] c.scan.2).lexemes, (TokenStream.readFrom [] c.scan.2).lastLine⟩ := by
  rw [TokenStream.readFrom]
  split
  · simp_all
  · rename_i first' rest' h'
    rw [readFrom_done, ← Cursor.scan_cons h']
    rfl

theorem words_readFrom_nil (h : c.skipBlank.rest = []) : (TokenStream.readFrom [] c).words = [] := by
  rw [readFrom_nil h]
  rfl

theorem lexemes_readFrom_cons (h : c.skipBlank.rest = first :: rest) :
    (TokenStream.readFrom [] c).lexemes = c.scan.1 :: (TokenStream.readFrom [] c.scan.2).lexemes := by
  rw [readFrom_cons h]

theorem words_readFrom_cons (h : c.skipBlank.rest = first :: rest) :
    (TokenStream.readFrom [] c).words = c.scan.1.words ++ (TokenStream.readFrom [] c.scan.2).words := by
  rw [TokenStream.words, lexemes_readFrom_cons h, List.filterMap_cons]
  cases c.scan.1 with
  | token t => rfl
  | fault error line => rfl

/-- Behind the same characters there are the same words, on whatever lines they stand. -/
theorem words_readFrom_congr (h : c.skipBlank.rest = d.skipBlank.rest) :
    (TokenStream.readFrom [] c).words = (TokenStream.readFrom [] d).words := by
  induction c using Cursor.scan_induction generalizing d with
  | hend c hcase => rw [words_readFrom_nil hcase, words_readFrom_nil (h.symm.trans hcase)]
  | hscan c first rest hcase ih =>
    have hcase' := h.symm.trans hcase
    have hrest : c.scan.2.rest = d.scan.2.rest := by
      rw [Cursor.scan_cons hcase, Cursor.scan_cons hcase', Cursor.take_eq, Cursor.take_eq]
      exact congrArg (List.drop _) h
    have hskip : c.scan.2.skipBlank.rest = d.scan.2.skipBlank.rest := by
      rw [Cursor.skipBlank, Cursor.skipBlank, Cursor.drop, Cursor.drop, hrest]
    rw [words_readFrom_cons hcase, words_readFrom_cons hcase', ih hskip]
    congr 1
    rw [Cursor.scan_cons hcase, Cursor.scan_cons hcase', Cursor.take_eq, Cursor.take_eq, h]
    cases (Scan.classify first rest).1 <;> rfl

/-! ### A text behind another one -/

theorem skipBlank_append (hb : Scan.IsBreak tail) (hd : d.rest = c.rest ++ tail)
    (hclosed : Scan.leftOpen false c.rest = false) (he : e.rest = tail) :
    (∃ first rest, c.skipBlank.rest = first :: rest ∧ d.skipBlank.rest = first :: (rest ++ tail)) ∨
      (c.skipBlank.rest = [] ∧ d.skipBlank.rest = e.skipBlank.rest) := by
  have hskip (c : Cursor) : c.skipBlank.rest = c.rest.drop (Scan.blankLength false 0 c.rest) := rfl
  have hlength := Scan.blankLength_append hb hclosed 0
  rw [← hd, Nat.zero_add] at hlength
  rw [hskip c, hskip d]
  obtain ⟨hlt, hsame⟩ | ⟨hall, hrest⟩ := hlength
  · obtain ⟨first, rest, hcase⟩ := List.exists_cons_of_ne_nil (mt List.drop_eq_nil_iff.1 (Nat.not_le_of_lt hlt))
    refine .inl ⟨first, rest, hcase, ?_⟩
    rw [hsame, hd, List.drop_append_of_le_length (Nat.le_of_lt hlt), hcase, List.cons_append]
  · refine .inr ⟨List.drop_eq_nil_iff.2 (Nat.le_of_eq hall.symm), ?_⟩
    have hadd := ByteScanner.blankLength_add false 0 c.rest.length tail
    rw [Nat.zero_add] at hadd
    rw [hskip e, he, hrest, hadd, hd, Nat.add_comm, ← List.drop_drop, List.drop_left]

/-- A token before a blank is what it is without the text from there on. -/
theorem scan_append {t : Token} (hb : Scan.IsBreak tail) (hc : c.skipBlank.rest = first :: rest)
    (hd : d.skipBlank.rest = first :: (rest ++ tail)) (h : c.scan.1 = .token t) :
    d.scan.1.words = c.scan.1.words ∧ d.scan.2.rest = c.scan.2.rest ++ tail := by
  rw [Cursor.scan_cons hc, Cursor.take_eq] at h ⊢
  rw [Cursor.scan_cons hd, Cursor.take_eq]
  obtain ⟨outcome, n, hclass⟩ : ∃ outcome n, Scan.classify first rest = (outcome, n) := ⟨_, _, rfl⟩
  rw [hclass] at h ⊢
  cases outcome with
  | error error => cases h
  | ok k =>
    obtain ⟨hle, hclass'⟩ := Scan.classify_break hb hclass
    rw [hclass']
    have hle' : n ≤ (first :: rest).length := hle
    refine ⟨?_, ?_⟩
    · simp only [Lexeme.words, Token.word, hc, hd, ← List.cons_append, List.take_append_of_le_length hle']
    · simp only [Cursor.drop, hc, hd, ← List.cons_append, List.drop_append_of_le_length hle']

/-- Whether a source ends inside a comment: from some token on it is blank, but for comments, the last of which is open. -/
def Cursor.EndsInComment (c : Cursor) : Prop := ∃ n, Scan.leftOpen false (c.after n).rest = true

theorem rest_after_suffix (c : Cursor) (n : Nat) : (c.after n).rest <:+ c.rest := by
  induction n with
  | zero => exact List.suffix_refl _
  | succ n ih =>
    refine List.IsSuffix.trans ?_ ih
    rw [Cursor.after]
    have hskip : (c.after n).skipBlank.rest <:+ (c.after n).rest := List.drop_suffix _ _
    cases hcase : (c.after n).skipBlank.rest with
    | nil => rwa [Cursor.scan_nil hcase]
    | cons first rest =>
      rw [Cursor.scan_cons hcase, Cursor.take_eq]
      exact (List.drop_suffix _ _).trans hskip

/-- A source without an opening mark has no comment. -/
theorem not_endsInComment (h : '{' ∉ c.rest) : ¬c.EndsInComment := by
  rintro ⟨n, hopen⟩
  obtain hopen | hmem := Scan.mem_of_leftOpen hopen
  · exact Bool.false_ne_true hopen
  · exact h ((rest_after_suffix c n).mem hmem)

theorem words_readFrom_append (hb : Scan.IsBreak tail) (hd : d.rest = c.rest ++ tail) (he : e.rest = tail)
    (hfault : (TokenStream.readFrom [] c).IsFaultless) (hclosed : ¬c.EndsInComment) :
    (TokenStream.readFrom [] d).words = (TokenStream.readFrom [] c).words ++ (TokenStream.readFrom [] e).words := by
  induction c using Cursor.scan_induction generalizing d with
  | hend c hnil =>
    have hhere : Scan.leftOpen false c.rest = false := Bool.eq_false_iff.2 fun hopen => hclosed ⟨0, hopen⟩
    obtain ⟨first, rest, hcase, -⟩ | ⟨-, hsame⟩ := skipBlank_append hb hd hhere he
    · cases hnil.symm.trans hcase
    · rw [words_readFrom_nil hnil, words_readFrom_congr hsame, List.nil_append]
  | hscan c first rest hcase ih =>
    have hhere : Scan.leftOpen false c.rest = false := Bool.eq_false_iff.2 fun hopen => hclosed ⟨0, hopen⟩
    obtain ⟨first', rest', hcons, hcase'⟩ | ⟨hnil, -⟩ := skipBlank_append hb hd hhere he
    · obtain ⟨rfl, rfl⟩ := List.cons.inj (hcase.symm.trans hcons)
      rw [TokenStream.IsFaultless, lexemes_readFrom_cons hcase] at hfault
      obtain ⟨t, ht⟩ : ∃ t, c.scan.1 = .token t := by
        cases hl : c.scan.1 with
        | token t => exact ⟨t, rfl⟩
        | fault error line => exact absurd (hl ▸ List.mem_cons_self) (hfault error line)
      obtain ⟨hword, hrest⟩ := scan_append hb hcase hcase' ht
      have hclosed' : ¬c.scan.2.EndsInComment := fun ⟨k, hk⟩ => hclosed ⟨k + 1, Cursor.after_succ_left c k ▸ hk⟩
      rw [words_readFrom_cons hcase, words_readFrom_cons hcase', hword,
        ih hrest (fun error line hl => hfault error line (List.mem_cons_of_mem _ hl)) hclosed', List.append_assoc]
    · cases hnil.symm.trans hcase

end

/-- The words of two sources, the first of which does not end inside a comment. -/
theorem words_ofSource_join {a b : String} (hfault : (TokenStream.ofSource a).IsFaultless)
    (hclosed : ¬(Cursor.ofSource a).EndsInComment) :
    (TokenStream.ofSource (a ++ "\n" ++ b)).words = (TokenStream.ofSource a).words ++
      (TokenStream.ofSource b).words := by
  have hjoin : (Cursor.ofSource (a ++ "\n" ++ b)).rest = (Cursor.ofSource a).rest ++ '\n' :: b.toList := by
    simp [Cursor.ofSource]
  have hblank : (Cursor.skipBlank ⟨'\n' :: b.toList, 1⟩).rest = (Cursor.ofSource b).skipBlank.rest := by
    have hone : Scan.blankLength false 0 ('\n' :: b.toList) = Scan.blankLength false 0 b.toList + 1 :=
      ByteScanner.blankLength_add false 0 1 b.toList
    rw [Cursor.skipBlank, hone]
    rfl
  rw [TokenStream.ofSource, words_readFrom_append (Scan.isBreak_cons rfl _) hjoin (e := ⟨_, 1⟩) rfl hfault hclosed,
    words_readFrom_congr hblank]
  rfl

end StackScript
