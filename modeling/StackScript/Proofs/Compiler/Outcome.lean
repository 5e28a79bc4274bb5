import StackScript.Proofs.Code.Program
import StackScript.Proofs.Compiler.Bound
import StackScript.Proofs.Compiler.Total
import StackScript.Proofs.Scanning.Bytes

/-! Compiling comes to an end on every text, with a script or with mistakes, and whatever it takes for
granted on the way holds: a text is cut between characters, a jump is closed inside the code, what is left is
a scope that was entered, and what is listed can be shown. Each round of a loop reads a token. -/
namespace StackScript
namespace Compiler
variable {n : Nat} {s : State}

/-! ### Loops -/

/-- The loops over a source read a token in each round, and it is the tokens that end them. -/
structure LoopsEnd (s : State) : Prop where
  declaration : s.current.kind ≠ .eof → ∀ n,
    Proper ((declaration n (declarations n)).run s).2 ∧
      ((declaration n (declarations n)).run s).2.unread < s.unread
  skipped : s.current.kind ≠ .eof → Proper s.advance ∧ s.advance.unread < s.unread
  block : ∀ n, s.unread ≤ n →
    ((declarations n).run s).2.current.kind = .blockEnd ∨ ((declarations n).run s).2.current.kind = .eof
  recovery : ∀ n, s.unread ≤ n → ((skipToStatement n).run s).2.current.kind = .eof ∨
    startsStatement ((skipToStatement n).run s).2.current.kind
  script : ∀ n, s.unread ≤ n →
    ((script n).run s).2.current.kind = .eof ∧ ((script n).run s).2.upcoming = []

theorem kind_declarations (h : Proper s) (hn : s.unread ≤ n) :
    ((declarations n).run s).2.current.kind = .blockEnd ∨ ((declarations n).run s).2.current.kind = .eof := by
  induction n generalizing s with
  | zero => exact .inr (eof_of_unread hn)
  | succ n ih =>
    rw [declarations, run_bind, run_currentKind]
    by_cases hk : s.current.kind = .blockEnd ∨ s.current.kind = .eof
    · rwa [if_pos hk]
    · rw [if_neg hk, run_bind]
      have hlt := unread_declaration (n := n) (keeps_declarations n) h fun h => hk (.inr h)
      exact ih (keeps_declaration (r := Shrinks) (keeps_declarations n) n s h).1
        (Nat.le_of_lt_succ (Nat.lt_of_lt_of_le hlt hn))

theorem kind_skipToStatement (h : Proper s) (hn : s.unread ≤ n) :
    ((skipToStatement n).run s).2.current.kind = .eof ∨
      startsStatement ((skipToStatement n).run s).2.current.kind := by
  induction n generalizing s with
  | zero => exact .inl (eof_of_unread hn)
  | succ n ih =>
    rw [skipToStatement, run_bind, run_currentKind]
    by_cases hk : s.current.kind = .eof ∨ startsStatement s.current.kind = true
    · rwa [if_pos hk]
    · rw [if_neg hk, run_bind, run_advance]
      have hlt := unread_advance h fun h => hk (.inl h)
      exact ih (shrinks_advance s h).1 (Nat.le_of_lt_succ (Nat.lt_of_lt_of_le hlt hn))

theorem kind_advance_of_upcoming (h : s.upcoming = []) : s.advance.current.kind = .eof := by
  rw [State.advance, h]
  rfl

theorem kind_script (h : Proper s) (hn : s.unread ≤ n) : ((script n).run s).2.current.kind = .eof := by
  induction n generalizing s with
  | zero => exact kind_advance_of_upcoming (h.current (eof_of_unread hn))
  | succ n ih =>
    rw [script, run_bind]
    by_cases hk : s.current.kind = .eof
    · rw [run_accept_of_eq hk]
      exact kind_advance_of_upcoming (h.current hk)
    · rw [run_accept_of_ne hk, if_neg Bool.false_ne_true, run_bind]
      have hlt := unread_declaration (n := n) (keeps_declarations n) h hk
      exact ih (keeps_declaration (r := Shrinks) (keeps_declarations n) n s h).1
        (Nat.le_of_lt_succ (Nat.lt_of_lt_of_le hlt hn))

theorem Proper.loopsEnd (h : Proper s) : LoopsEnd s where
  declaration hk n :=
    ⟨(keeps_declaration (r := Shrinks) (keeps_declarations n) n s h).1,
      unread_declaration (keeps_declarations n) h hk⟩
  skipped hk := ⟨(shrinks_advance s h).1, unread_advance h hk⟩
  block _ hn := kind_declarations h hn
  recovery _ hn := kind_skipToStatement h hn
  script _ hn := ⟨kind_script h hn, upcoming_script h hn⟩

/-! ### The operations of marks -/

/-- The marks that can stand before, between or for values have operations; no others do. -/
theorem operation_cases (k : TokenKind) :
    (∀ op, operand? k = some (.unary op) → k = .minus ∨ k = .bang) ∧
    (∀ op, operand? k = some (.literal op) → k = .true_ ∨ k = .false_) ∧
    ∀ op level, operator? k = some (.binary op level) →
      k ∈ [.plus, .minus, .star, .slash, .equal, .bangEqual, .greater, .greaterEqual, .less, .lessEqual] := by
  cases k <;> simp [operand?, operator?]

/-! ### Whole sources -/

theorem delimited_of_isClassified {t : Token} (h : t.IsClassified) : t.Delimited := by
  obtain ⟨c, rest, hk, htext⟩ := h
  obtain ⟨hstring, hchar⟩ := Scan.take_classify hk
  rintro (h | h)
  · obtain ⟨raw, hraw⟩ := hstring h
    rw [htext, hraw]
    simp
  · obtain ⟨d, -, hd⟩ := hchar h
    rw [htext, hd]
    simp

theorem intact_start (source : String) (store : Store) (printCode : Bool) :
    Intact (.start (.ofSource source) store printCode) where
  defect := rfl
  tokens := by
    refine ⟨?_, ?_, fun t ht => delimited_of_isClassified (isClassified_ofSource source t ht)⟩ <;>
      simp [State.start, noToken, Token.sourceEnd, Token.Delimited]
  draft := coherent_empty rfl rfl (by simp [State.start])

/-- From its first token to the end of the source, the script is compiled without anything wrong being taken
for granted, and at its end no scope and no function is open. -/
theorem intact_script (source : String) (store : Store) (printCode : Bool) (n : Nat) :
    Intact ((script n).run (State.start (.ofSource source) store printCode).advance).2 ∧
      Continues (.start (.ofSource source) store printCode)
        ((script n).run (State.start (.ofSource source) store printCode).advance).2 := by
  obtain ⟨hi, hc⟩ := steady_advance _ (intact_start source store printCode)
  obtain ⟨ht, hct⟩ := closed_script (fun _ => Keeps Steady) n _ hi
  exact ⟨ht, hc.trans hct⟩

theorem intact_wholeScript (source : String) (store : Store) (printCode : Bool) (n : Nat) :
    Intact ((wholeScript n).run (.start (.ofSource source) store printCode)).2 ∧
      Continues (.start (.ofSource source) store printCode)
        ((wholeScript n).run (.start (.ofSource source) store printCode)).2 := by
  obtain ⟨hi, hc⟩ := intact_script source store printCode n
  obtain ⟨ht, hct⟩ := (gives_finishFunction (p := fun _ => True) _ trivial).1 hi
  exact ⟨ht, hc.trans hct⟩

end Compiler

/-- Compiling takes nothing wrong for granted, whether the source is accepted or not. -/
theorem defect_compile (source : String) (store : Store) (printCode : Bool) :
    (compile source store printCode).defect = none :=
  (Compiler.intact_wholeScript source store printCode _).1.defect

/-- Functions that are compiled are in lines, whether the source is accepted or not. -/
theorem isLined_compile (source : String) {store : Store} (h : store.IsLined) (printCode : Bool) :
    (compile source store printCode).store.IsLined :=
  (Compiler.intact_wholeScript source store printCode _).2.lined h

theorem result_compile (source : String) (store : Store) (printCode : Bool) :
    (∃ r, (compile source store printCode).result = .ok r) ∨
      ∃ e es, (compile source store printCode).result = .error (e :: es) := by
  generalize hrun : (Compiler.wholeScript (TokenStream.ofSource source).lexemes.length).run
    (.start (TokenStream.ofSource source) store printCode) = p
  obtain ⟨script, s⟩ := p
  simp only [compile, hrun]
  cases he : s.errors.toList with
  | nil => exact .inl ⟨script, if_pos (by simpa using he)⟩
  | cons e es =>
    refine .inr ⟨e, es, if_neg fun h => ?_⟩
    simp [Array.isEmpty_iff.1 h] at he

open Compiler in
/-- Every source is compiled to a script or to mistakes, at least one, in any store. The first part says that the
bound on the recursion is not what ends it, the second that nothing that is taken for granted fails, the third
that the scopes and functions that were entered are left again; then come the loops, the marks that have
operations, and where a text and its literals are cut. -/
theorem compile_total (source : String) (store : Store) (printCode : Bool) :
    ((∃ r, (compile source store printCode).result = .ok r) ∨
      ∃ e es, (compile source store printCode).result = .error (e :: es)) ∧
    (let start := State.start (.ofSource source) store printCode
     let size := (TokenStream.ofSource source).lexemes.length
     (∀ n ≥ size, (wholeScript n).run start = (wholeScript size).run start) ∧
     (compile source store printCode).defect = none ∧
     (∀ n, ((script n).run start.advance).2.draft.name = none ∧ ((script n).run start.advance).2.draft.depth = 0) ∧
     Proper start.advance ∧ start.advance.unread ≤ size) ∧
    (∀ s, Proper s → LoopsEnd s) ∧
    (∀ k op, operand? k = some (.unary op) → k = .minus ∨ k = .bang) ∧
    (∀ k op, operand? k = some (.literal op) → k = .true_ ∨ k = .false_) ∧
    (∀ k op level, operator? k = some (.binary op level) →
      k ∈ [.plus, .minus, .star, .slash, .equal, .bangEqual, .greater, .greaterEqual, .less, .lessEqual]) ∧
    (∀ text count, Scan.blankLength false count (Scan.spread text) =
      count + Scan.bytesOf text (Scan.blankLength false 0 text)) ∧
    (∀ c rest, c.toNat < 128 → Scan.classify c (Scan.spread rest) =
      ((Scan.classify c rest).1, Scan.bytesOf (c :: rest) (Scan.classify c rest).2)) ∧
    (∀ c rest, 128 ≤ c.toNat → Scan.classify c rest = (.error (.unexpectedCharacter c), 1)) ∧
    ∀ t, .token t ∈ (TokenStream.ofSource source).lexemes →
      (t.kind = .string → ∃ raw, t.lexeme.toList = '"' :: raw ++ ['"']) ∧
      (t.kind = .char → ∃ c, c.toNat < 128 ∧ t.lexeme.toList = [Scan.charQuote, c, Scan.charQuote]) := by
  have hstart := proper_advance_start (kind_ne_eof source) store printCode
  refine ⟨result_compile source store printCode, ⟨fun n hn => ?_, defect_compile source store printCode, fun n => ?_,
    hstart⟩, fun s hs => hs.loopsEnd, fun k => (operation_cases k).1, fun k => (operation_cases k).2.1,
    fun k => (operation_cases k).2.2, fun text count => ?_, fun c rest hc => Scan.classify_spread hc rest,
    fun c rest hc => Scan.classify_wide hc rest, fun t ht => ?_⟩
  · exact run_wholeScript_eq (kind_ne_eof source) store printCode hn
  · obtain ⟨-, hc⟩ := intact_script source store printCode n
    exact ⟨hc.name, hc.depth⟩
  · obtain ⟨n, hn, hbytes⟩ := Scan.blankLength_spread false 0 text
    rw [hbytes, hn, Nat.zero_add]
  · obtain ⟨c, rest, hk, htext⟩ := isClassified_ofSource source t ht
    obtain ⟨hstring, hchar⟩ := Scan.take_classify hk
    rw [htext]
    exact ⟨hstring, hchar⟩

end StackScript
