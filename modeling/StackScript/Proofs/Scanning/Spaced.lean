import Mathlib.Data.List.TakeWhile
import StackScript.Proofs.Parsing.Source
import StackScript.Proofs.Scanning.Bytes

/-! Words as they are written: with blanks between them they are the tokens of a source. -/
namespace StackScript

/-- How a word is written whose kind is written in one way. -/
def TokenKind.symbol : TokenKind → String
  | plus => "+"
  | minus => "-"
  | star => "*"
  | slash => "/"
  | bang => "!"
  | leftParen => "("
  | rightParen => ")"
  | comma => ","
  | leftBracket => "["
  | rightBracket => "]"
  | newLine => "~n"
  | tab => "~t"
  | assign => ":="
  | equal => "="
  | bangEqual => "!="
  | greater => ">"
  | greaterEqual => ">="
  | less => "<"
  | lessEqual => "<="
  | blockStart => "[:"
  | blockEnd => ":]"
  | readEnd => "<<"
  | outEnd => ">>"
  | readString => "-s"
  | readNumber => "-d"
  | readChar => "-c"
  | and => "awnd"
  | or => "ow"
  | var => "uwu"
  | fun_ => "fwun"
  | print => "ouo"
  | read => "iwi"
  | if_ => "?w?"
  | else_ => "ewe"
  | loop => "untiw"
  | true_ => "twue"
  | false_ => "fawse"
  | out => "out"
  | ident | string | number | char | eof => ""

namespace Word

def spelling (w : Word) : String := if w.kind.varies then w.text else w.kind.symbol

/-- Whether the spelling of a word is one token of its kind. -/
def isToken (w : Word) : Bool :=
  match w.spelling.toList with
  | [] => false
  | c :: rest =>
    match Scan.classify c rest with
    | (.ok k, n) => k = w.kind ∧ n = rest.length + 1
    | (.error _, _) => false

/-- A word is one token, as it is written, and has no other text than that. -/
def IsWritten (w : Word) : Prop := w.isToken = true ∧ (w.kind.varies = false → w.text = "")

instance (w : Word) : Decidable w.IsWritten := inferInstanceAs (Decidable (_ ∧ _))

/-- What one token is written as starts with what it is classified by. -/
theorem IsWritten.classify {w : Word} (h : w.IsWritten) : ∃ c rest, w.spelling.toList = c :: rest ∧
    Scan.classify c rest = (.ok w.kind, rest.length + 1) := by
  have htoken := h.1
  unfold isToken at htoken
  cases hs : w.spelling.toList with
  | nil => simp [hs] at htoken
  | cons c rest =>
    obtain ⟨outcome, n, hc⟩ : ∃ outcome n, Scan.classify c rest = (outcome, n) := ⟨_, _, rfl⟩
    simp only [hs, hc] at htoken
    cases outcome with
    | error e => cases htoken
    | ok k =>
      obtain ⟨rfl, rfl⟩ := of_decide_eq_true htoken
      exact ⟨c, rest, rfl, hc⟩

/-- The mark of every kind but the end is one token. -/
theorem isWritten_mark {k : TokenKind} (hv : k.varies = false) (he : k ≠ .eof) : k.mark.IsWritten := by
  refine ⟨?_, fun _ => rfl⟩
  cases k <;> first
    | exact absurd rfl he
    | cases hv; done
    | rfl

end Word

/-- Words as they are written, with a blank between each two. -/
def spacedText : List Word → List Char
  | [] => []
  | [w] => w.spelling.toList
  | w :: ws => w.spelling.toList ++ ' ' :: spacedText ws

def spaced (ws : List Word) : String := String.ofList (spacedText ws)

namespace Scan

/-- What stands behind a word: nothing, or a blank. -/
def IsBreak (tail : List Char) : Prop := ∀ c ∈ tail.head?, isBlank c = true

section
variable {text tail : List Char} {c : Char}

theorem isBreak_nil : IsBreak [] := nofun

theorem isBreak_cons (h : isBlank c = true) (rest : List Char) : IsBreak (c :: rest) := by
  rintro _ ⟨⟩
  exact h

theorem isDigit_blank (h : isBlank c = true) : c.isDigit = false := by
  have hword := isIdentContinue_blank h
  rw [isIdentContinue, Bool.or_eq_false_iff] at hword
  exact hword.2

theorem takeWhile_break (h : IsBreak tail) {p : Char → Bool} (hp : ∀ c, isBlank c = true → p c = false) :
    (text ++ tail).takeWhile p = text.takeWhile p := by
  induction text with
  | nil =>
    cases tail with
    | nil => rfl
    | cons c rest => simp [hp c (h c rfl)]
  | cons c text ih => rw [List.cons_append, List.takeWhile_cons, List.takeWhile_cons, ih]

theorem dropWhile_break (h : IsBreak tail) {p : Char → Bool} (hp : ∀ c, isBlank c = true → p c = false) :
    (text ++ tail).dropWhile p = text.dropWhile p ++ tail := by
  induction text with
  | nil =>
    cases tail with
    | nil => rfl
    | cons c rest => simp [hp c (h c rfl)]
  | cons c text ih =>
    rw [List.cons_append, List.dropWhile_cons, List.dropWhile_cons, ih]
    split <;> rfl

/-- What does not start with a mark does not start with it before a blank. -/
theorem append_ne_cons (h : IsBreak tail) (hc : isBlank c = false) (hne : ∀ rest, text ≠ c :: rest) (rest : List Char) :
    text ++ tail ≠ c :: rest := by
  cases text with
  | nil =>
    rintro rfl
    exact Bool.noConfusion (hc.symm.trans (h c rfl))
  | cons d text =>
    rintro heq
    obtain ⟨rfl, -⟩ := List.cons.inj heq
    exact hne text rfl

theorem numberLength_break (h : IsBreak tail) : numberLength (text ++ tail) = numberLength text := by
  have hdrop : (text ++ tail).dropWhile Char.isDigit = text.dropWhile Char.isDigit ++ tail :=
    dropWhile_break h @isDigit_blank
  unfold numberLength
  rw [takeWhile_break h @isDigit_blank, hdrop]
  by_cases hpoint : ∃ rest, text.dropWhile Char.isDigit = '.' :: rest
  · obtain ⟨rest, hrest⟩ := hpoint
    simp only [hrest, List.cons_append, takeWhile_break h @isDigit_blank]
  · have hne : ∀ rest, text.dropWhile Char.isDigit ≠ '.' :: rest := fun rest heq => hpoint ⟨rest, heq⟩
    split
    · exact absurd ‹_› (append_ne_cons h (by decide) hne _)
    · rfl

/-- A closed literal is closed by what it takes, whatever stands behind. -/
theorem extent_append {count : Nat} (h : (Quoted.extent count text).2 = true) :
    Quoted.extent count (text ++ tail) = Quoted.extent count text := by
  fun_induction Quoted.extent count text with
  | case1 => cases h
  | case2 count rest => rfl
  | case3 => cases h
  | case4 count c rest ih => exact ih h
  | case5 count c rest hq hnil hcons ih =>
    have hb : c ≠ '\\' := by
      cases rest with
      | nil => exact fun h => hnil h rfl
      | cons d rest => exact fun h => hcons d rest h rfl
    rw [List.cons_append, extent_other hq hb, ih h]

/-- A character literal is what stands up to its closing mark, whatever stands behind. -/
theorem charLiteral_append (h : (charLiteral text).1 = .ok .char) :
    charLiteral (text ++ tail) = charLiteral text := by
  cases text with
  | nil => cases h
  | cons c rest =>
    by_cases hcq : c = charQuote
    · simp [charLiteral, hcq] at h
    · have hopen : ((c :: rest).takeWhile (· ≠ charQuote)).length ≠ (c :: rest).length := by
        intro ho
        rw [charLiteral_cons hcq rfl, if_pos ho] at h
        cases h
      obtain ⟨after, hsplit⟩ := exists_closing (c :: rest) hopen
      have hrun : (c :: (rest ++ tail)).takeWhile (· ≠ charQuote) = (c :: rest).takeWhile (· ≠ charQuote) := by
        have hall : ∀ d ∈ (c :: rest).takeWhile (· ≠ charQuote), decide (d ≠ charQuote) = true :=
          fun d hd => List.all_eq_true.1 List.all_takeWhile d hd
        rw [← List.cons_append, hsplit, List.append_assoc, List.takeWhile_append_of_pos hall]
        rw [List.takeWhile_append_of_pos hall]
        simp
      have hlong : ((c :: rest).takeWhile (· ≠ charQuote)).length ≠ (c :: (rest ++ tail)).length := by
        have hle : ((c :: rest).takeWhile (· ≠ charQuote)).length ≤ (c :: rest).length :=
          (List.takeWhile_prefix _).length_le
        simp only [List.length_cons, List.length_append] at hle hopen ⊢
        omega
      rw [List.cons_append, charLiteral_cons hcq hrun, charLiteral_cons hcq rfl, if_neg hlong, if_neg hopen]

end

theorem numberLength_le (text : List Char) : numberLength text ≤ text.length := by
  have hsplit := congrArg List.length (List.takeWhile_append_dropWhile (p := Char.isDigit) (l := text))
  rw [List.length_append] at hsplit
  unfold numberLength
  dsimp only
  split
  · rename_i rest hdrop
    rw [hdrop, List.length_cons] at hsplit
    have hle := (List.takeWhile_prefix Char.isDigit (l := rest)).length_le
    split <;> omega
  · omega

theorem charLiteral_le {text : List Char} {k : TokenKind} (h : (charLiteral text).1 = .ok k) :
    (charLiteral text).2 ≤ text.length + 1 := by
  cases text with
  | nil => cases h
  | cons c rest =>
    by_cases hcq : c = charQuote
    · simp [charLiteral, hcq] at h
    · have hle := (List.takeWhile_prefix (· ≠ charQuote) (l := c :: rest)).length_le
      obtain ⟨body, hbody⟩ : ∃ body, (c :: rest).takeWhile (· ≠ charQuote) = body := ⟨_, rfl⟩
      rw [hbody] at hle
      rw [charLiteral_cons hcq hbody] at h ⊢
      by_cases hopen : body.length = (c :: rest).length
      · rw [if_pos hopen] at h
        cases h
      · rw [if_neg hopen] at h ⊢
        by_cases hsingle : body = [c] ∧ c.toNat < 128
        · rw [if_pos hsingle]
          rw [hsingle.1] at hle hopen
          simp only [List.length_cons, List.length_nil] at hle hopen ⊢
          omega
        · rw [if_neg hsingle] at h
          cases h

/-- A token is a part of the text that it starts, and nothing of what stands behind a blank belongs to it. -/
theorem classify_break {c : Char} {rest tail : List Char} {k : TokenKind} {n : Nat} (hb : IsBreak tail)
    (h : classify c rest = (.ok k, n)) : n ≤ rest.length + 1 ∧ classify c (rest ++ tail) = (.ok k, n) := by
  by_cases hword : isIdentContinue c
  · have hrun := (List.takeWhile_prefix isIdentContinue (l := c :: rest)).length_le
    have hnumber := numberLength_le (c :: rest)
    rw [classify_word hword] at h
    rw [classify_word hword, ← List.cons_append, numberLength_break hb, takeWhile_break hb @isIdentContinue_blank]
    refine ⟨?_, h⟩
    split at h <;> obtain ⟨-, rfl⟩ := Prod.mk.inj h <;> assumption
  by_cases hstring : c = '"'
  · subst hstring
    rw [classify_quote] at h ⊢
    have hclosed : (Quoted.extent 1 rest).2 = true := by
      cases hc : (Quoted.extent 1 rest).2 with
      | true => rfl
      | false => simp [hc] at h
    rw [extent_append hclosed]
    refine ⟨?_, h⟩
    obtain ⟨-, rfl⟩ := Prod.mk.inj h
    exact Nat.le_trans (extent_closed 1 rest hclosed).2 (Nat.le_of_eq (Nat.add_comm _ _))
  by_cases hchar : c = charQuote
  · subst hchar
    have h' : charLiteral rest = (.ok k, n) := h
    have hkind : (charLiteral rest).1 = .ok .char := by
      rw [h', charLiteral_kind (congrArg Prod.fst h')]
    have hle := charLiteral_le hkind
    rw [h'] at hle
    exact ⟨hle, (charLiteral_append hkind).trans h'⟩
  obtain ⟨hstart, hdigit⟩ := not_isIdentContinue.1 hword
  clear hword
  revert h
  fun_cases classify c rest <;> intro h
  case case27 => exact absurd rfl hstring
  case case28 => exact absurd rfl hchar
  case case29 => exact absurd ‹_› hdigit
  case case30 => exact absurd ‹_› hstart
  case case31 => cases h
  all_goals
    rw [← h]
    obtain ⟨-, rfl⟩ := Prod.mk.inj h
    refine ⟨by simp, ?_⟩
    first
    | rfl
    | (rw [classify] <;> first | rfl | exact append_ne_cons hb (by decide) ‹_›)

/-- An identifier is made of the characters of identifiers. -/
theorem isIdentContinue_of_ident {c : Char} {rest : List Char} (h : classify c rest = (.ok .ident, rest.length + 1)) :
    ∀ d ∈ c :: rest, isIdentContinue d = true := by
  by_cases hword : isIdentContinue c
  · rw [classify_word hword] at h
    split at h
    · cases (Prod.mk.inj h).1
    · have hrun : (c :: rest).takeWhile isIdentContinue = c :: rest :=
        (List.takeWhile_prefix _).eq_of_length (Prod.mk.inj h).2
      exact List.takeWhile_eq_self_iff.1 hrun
  obtain ⟨hstart, hdigit⟩ := not_isIdentContinue.1 hword
  clear hword
  revert h
  fun_cases classify c rest <;> intro h
  case case27 =>
    obtain ⟨hk, -⟩ := Prod.mk.inj h
    split at hk <;> cases hk
  case case28 => cases charLiteral_kind (congrArg Prod.fst h)
  case case29 => exact absurd ‹_› hdigit
  case case30 => exact absurd ‹_› hstart
  all_goals cases h

/-- A token does not start like a blank or a comment. -/
theorem blankLength_token {c : Char} {rest : List Char} {k : TokenKind} (h : (classify c rest).1 = .ok k)
    (count : Nat) (tail : List Char) : blankLength false count (c :: tail) = count := by
  have hbrace : c ≠ '{' := by
    rintro rfl
    cases h
  have hblank : isBlank c = false := by
    rw [Bool.eq_false_iff]
    intro hb
    simp only [isBlank, Bool.or_eq_true, decide_eq_true_eq] at hb
    obtain ((rfl | rfl) | rfl) | rfl := hb <;> cases h
  rw [blankLength_outside (fun hc => absurd hc hbrace), hblank]
  rfl

theorem blankLength_gap {gap : List Char} (h : ∀ c ∈ gap, isBlank c = true) (count : Nat) (text : List Char) :
    blankLength false count (gap ++ text) = blankLength false (count + gap.length) text := by
  induction gap generalizing count with
  | nil => rfl
  | cons c gap ih =>
    have hc := h c List.mem_cons_self
    have hbrace : c ≠ '{' := by
      rintro rfl
      cases hc
    rw [List.cons_append, blankLength_outside (fun h => absurd h hbrace), hc, if_pos rfl,
      ih (fun d hd => h d (List.mem_cons_of_mem _ hd)), List.length_cons, Nat.add_assoc, Nat.add_comm 1]

end Scan

/-! ### Sources -/

/-- Words as they are written, each with the gap behind it. -/
structure Layout where
  /-- What stands before the first word. -/
  lead : List Char
  pieces : List (Word × List Char)
  deriving DecidableEq, Repr

namespace Layout

def words (t : Layout) : List Word := t.pieces.map Prod.fst

/-- The characters of words and of the gaps behind them. -/
def text (pieces : List (Word × List Char)) : List Char := pieces.flatMap fun p => p.1.spelling.toList ++ p.2

def source (t : Layout) : String := String.ofList (t.lead ++ text t.pieces)

/-- Words have blanks between each two, and nothing else stands between them. -/
structure Apart (pieces : List (Word × List Char)) : Prop where
  written : ∀ p ∈ pieces, p.1.IsWritten
  blank : ∀ p ∈ pieces, ∀ c ∈ p.2, Scan.isBlank c = true
  gaps : ∀ p ∈ pieces.dropLast, p.2 ≠ []

/-- The tokens of a source that are separated by blanks. -/
structure IsSpaced (t : Layout) : Prop where
  lead : ∀ c ∈ t.lead, Scan.isBlank c = true
  apart : Apart t.pieces

instance (t : Layout) : Decidable t.IsSpaced :=
  decidable_of_iff (t.lead.all Scan.isBlank = true ∧
      (t.pieces.all fun p => decide p.1.IsWritten && p.2.all Scan.isBlank) = true ∧
      (t.pieces.dropLast.all fun p => !p.2.isEmpty) = true) <| by
    simp only [List.all_eq_true, Bool.and_eq_true, decide_eq_true_eq, Bool.not_eq_true', List.isEmpty_eq_false_iff]
    constructor
    · rintro ⟨hlead, hpieces, hgaps⟩
      exact ⟨hlead, fun p hp => (hpieces p hp).1, fun p hp => (hpieces p hp).2, hgaps⟩
    · rintro ⟨hlead, hwritten, hblank, hgaps⟩
      exact ⟨hlead, fun p hp => ⟨hwritten p hp, hblank p hp⟩, hgaps⟩

/-- Other words in the same gaps. -/
def rewrite (t : Layout) (ws : List Word) : Layout := ⟨t.lead, ws.zip (t.pieces.map Prod.snd)⟩

/-- The tokens that words are, from a line on. -/
def tokens (line : Nat) : List (Word × List Char) → List Token
  | [] => []
  | p :: rest =>
    let last := line + p.1.spelling.toList.count '\n'
    ⟨p.1.kind, p.1.spelling, last⟩ :: tokens (last + p.2.count '\n') rest

variable {p : Word × List Char} {rest : List (Word × List Char)}

theorem Apart.tail (h : Apart (p :: rest)) : Apart rest := by
  refine ⟨fun q hq => h.written q (.tail _ hq), fun q hq => h.blank q (.tail _ hq), fun q hq => h.gaps q ?_⟩
  cases rest with
  | nil => cases hq
  | cons q' rest => exact .tail _ hq

/-- What stands behind a word goes on with no token. -/
theorem Apart.isBreak (h : Apart (p :: rest)) : Scan.IsBreak (p.2 ++ text rest) := by
  cases hgap : p.2 with
  | cons c gap => exact Scan.isBreak_cons (h.blank p List.mem_cons_self c (hgap ▸ List.mem_cons_self)) _
  | nil =>
    cases rest with
    | nil => exact Scan.isBreak_nil
    | cons q rest => exact absurd hgap (h.gaps p List.mem_cons_self)

/-- At the start of a word there is no blank. -/
theorem Apart.blankLength (h : Apart rest) (count : Nat) : Scan.blankLength false count (text rest) = count := by
  cases rest with
  | nil => rfl
  | cons p rest =>
    obtain ⟨first, tail, hs, hwritten⟩ := (h.written p List.mem_cons_self).classify
    rw [text, List.flatMap_cons, hs]
    exact Scan.blankLength_token (congrArg Prod.fst hwritten) count _

theorem Apart.skipBlank (h : Apart rest) {gap : List Char} (hgap : ∀ c ∈ gap, Scan.isBlank c = true) (line : Nat) :
    (⟨gap ++ text rest, line⟩ : Cursor).skipBlank = ⟨text rest, line + gap.count '\n'⟩ := by
  have hlength : Scan.blankLength false 0 (gap ++ text rest) = gap.length := by
    rw [Scan.blankLength_gap hgap, h.blankLength, Nat.zero_add]
  rw [Cursor.skipBlank, hlength, Cursor.drop, List.drop_left, List.take_left]

end Layout

/-- A word at the start of a text is taken as one token. -/
theorem take_written {first : Char} {rest tail : List Char} {k : TokenKind} (hb : Scan.IsBreak tail) (line : Nat)
    (h : Scan.classify first rest = (.ok k, rest.length + 1)) :
    (⟨first :: (rest ++ tail), line⟩ : Cursor).take first (rest ++ tail) =
      (.token ⟨k, String.ofList (first :: rest), line + (first :: rest).count '\n'⟩,
        ⟨tail, line + (first :: rest).count '\n'⟩) := by
  simp [Cursor.take, (Scan.classify_break hb h).2, Cursor.drop]

namespace Layout

/-- Words that are written with blanks between them are read one by one. -/
theorem readFrom_text {pieces : List (Word × List Char)} (h : Apart pieces) (done : List Lexeme) {gap : List Char}
    (hgap : ∀ c ∈ gap, Scan.isBlank c = true) (line : Nat) :
    TokenStream.readFrom done ⟨gap ++ text pieces, line⟩ =
      ⟨done.reverse ++ (tokens (line + gap.count '\n') pieces).map .token, line + (gap ++ text pieces).count '\n'⟩ := by
  induction pieces generalizing done gap line with
  | nil =>
    have hskip := h.skipBlank hgap line
    rw [TokenStream.readFrom]
    split
    · rw [hskip, tokens, List.map_nil, List.append_nil, text, List.flatMap_nil, List.append_nil]
    · rename_i hrest
      rw [hskip] at hrest
      cases hrest
  | cons p pieces ih =>
    have hskip := h.skipBlank hgap line
    obtain ⟨first, rest, hs, hwritten⟩ := (h.written p List.mem_cons_self).classify
    have htext : text (p :: pieces) = first :: (rest ++ (p.2 ++ text pieces)) := by
      rw [text, List.flatMap_cons, hs, List.append_assoc]
      rfl
    have htake := take_written h.isBreak (line + gap.count '\n') hwritten
    rw [TokenStream.readFrom]
    split
    · rename_i hrest
      rw [hskip, htext] at hrest
      cases hrest
    · rename_i first' rest' hrest
      rw [hskip, htext] at hrest
      obtain ⟨rfl, rfl⟩ := List.cons.inj hrest
      rw [hskip, htext, htake, ih h.tail _ (h.blank p List.mem_cons_self)]
      have hlast : line + (gap ++ text (p :: pieces)).count '\n' =
          line + gap.count '\n' + (first :: rest).count '\n' + (p.2 ++ text pieces).count '\n' := by
        rw [htext, ← List.cons_append]
        simp only [List.count_append, Nat.add_assoc]
      have hspelling : String.ofList (first :: rest) = p.1.spelling := by rw [← hs, String.ofList_toList]
      rw [tokens, hs, ← htext, hlast, hspelling, List.reverse_cons, List.append_assoc]
      rfl

/-- The tokens of a source in which words are written with blanks between them. -/
theorem IsSpaced.ofSource {t : Layout} (h : t.IsSpaced) : TokenStream.ofSource t.source =
    ⟨(tokens (1 + t.lead.count '\n') t.pieces).map .token, 1 + (t.lead ++ text t.pieces).count '\n'⟩ := by
  have hread := readFrom_text h.apart [] h.lead 1
  rw [List.reverse_nil, List.nil_append] at hread
  rw [← hread, TokenStream.ofSource, Cursor.ofSource, source, String.toList_ofList]

theorem word_token {w : Word} (h : w.IsWritten) (line : Nat) : (⟨w.kind, w.spelling, line⟩ : Token).word = w := by
  obtain ⟨kind, text⟩ := w
  by_cases hk : kind.varies
  · simp [Token.word, hk, Word.spelling]
  · obtain rfl : text = "" := h.2 (by simpa using hk)
    simp [Token.word, hk]

theorem map_word_tokens {pieces : List (Word × List Char)} (h : Apart pieces) (line : Nat) :
    (tokens line pieces).map Token.word = pieces.map Prod.fst := by
  induction pieces generalizing line with
  | nil => rfl
  | cons p pieces ih =>
    rw [tokens, List.map_cons, List.map_cons, word_token (h.written p List.mem_cons_self), ih h.tail]

theorem IsSpaced.faultless {t : Layout} (h : t.IsSpaced) : (TokenStream.ofSource t.source).IsFaultless := by
  intro e line hl
  simp [h.ofSource] at hl

theorem IsSpaced.words_ofSource {t : Layout} (h : t.IsSpaced) : (TokenStream.ofSource t.source).words = t.words := by
  rw [h.ofSource, TokenStream.words_tokens, map_word_tokens h.apart, words]

end Layout

/-! ### One blank between words -/

theorem Layout.Apart.cons {p : Word × List Char} {rest : List (Word × List Char)} (h : Apart rest) (hw : p.1.IsWritten)
    (hb : ∀ c ∈ p.2, Scan.isBlank c = true) (hgap : rest ≠ [] → p.2 ≠ []) : Apart (p :: rest) := by
  refine ⟨List.forall_mem_cons.2 ⟨hw, h.written⟩, List.forall_mem_cons.2 ⟨hb, h.blank⟩, ?_⟩
  cases rest with
  | nil => exact fun q hq => absurd hq List.not_mem_nil
  | cons q rest => exact List.forall_mem_cons.2 ⟨hgap (List.cons_ne_nil _ _), h.gaps⟩

/-- Words with one blank behind each but the last one. -/
def singly : List Word → List (Word × List Char)
  | [] => []
  | [w] => [(w, [])]
  | w :: ws => (w, [' ']) :: singly ws

theorem text_singly (ws : List Word) : Layout.text (singly ws) = spacedText ws := by
  fun_induction spacedText ws with
  | case1 => rfl
  | case2 w => simp [singly, Layout.text]
  | case3 w ws hne ih =>
    obtain ⟨w', ws, rfl⟩ := List.exists_cons_of_ne_nil hne
    rw [singly, Layout.text, List.flatMap_cons, ← ih, List.append_assoc]
    · rfl
    · exact hne

theorem words_singly (ws : List Word) : (singly ws).map Prod.fst = ws := by
  fun_induction singly ws with
  | case1 => rfl
  | case2 w => rfl
  | case3 w ws hne ih => rw [List.map_cons, ih]

theorem apart_singly {ws : List Word} (hw : ∀ w ∈ ws, w.IsWritten) : Layout.Apart (singly ws) := by
  fun_induction singly ws with
  | case1 => exact ⟨by simp, by simp, by simp⟩
  | case2 w => exact ⟨by simpa using hw, by simp, by simp⟩
  | case3 w ws hne ih =>
    exact (ih fun w h => hw w (.tail _ h)).cons (hw w List.mem_cons_self) (by simp [Scan.isBlank]) fun _ =>
      List.cons_ne_nil _ _

/-- A source in which the words are written with blanks between them has exactly these words. -/
theorem words_ofSource_spaced {ws : List Word} (hw : ∀ w ∈ ws, w.IsWritten) :
    (TokenStream.ofSource (spaced ws)).IsFaultless ∧ (TokenStream.ofSource (spaced ws)).words = ws := by
  have h : Layout.IsSpaced ⟨[], singly ws⟩ := ⟨by simp, apart_singly hw⟩
  have hsource : spaced ws = Layout.source ⟨[], singly ws⟩ := by
    rw [spaced, Layout.source, text_singly, List.nil_append]
  rw [hsource, h.words_ofSource, Layout.words, words_singly]
  exact ⟨h.faultless, rfl⟩

end StackScript
