import StackScript.Proofs.Code.Program
import StackScript.Proofs.Compiler.Alike
import StackScript.Proofs.Compiler.Recovery
import StackScript.Proofs.Scanning.Lines

/-! The lines of mistakes. A mistake is found at the token read last, at the one that comes next or, where a piece of the
source is faulty, beyond both, and still the mistakes of a source are found in the order of their lines. While mistakes are
not reported nothing has to be shown; where they are reported again, a token is read before the next one is found. -/
namespace StackScript
namespace Compiler
variable {α : Type} {last n m : Nat} {s : State}

/-- The lines of the mistakes found so far come in order, from the first line up to a line. -/
def State.FoundUpTo (s : State) (n : Nat) : Prop := (1 :: s.errors.toList.map (·.line) ++ [n]).Pairwise (· ≤ ·)

theorem State.FoundUpTo.mono (h : s.FoundUpTo n) (hnm : n ≤ m) : s.FoundUpTo m := by
  obtain ⟨herrors, -, hupto⟩ := List.pairwise_append.1 h
  refine List.pairwise_append.2 ⟨herrors, List.pairwise_singleton _ _, fun a ha b hb => ?_⟩
  obtain rfl := List.mem_singleton.1 hb
  exact Nat.le_trans (hupto a ha n (List.mem_singleton.2 rfl)) hnm

/-- One more mistake, on the line up to which they have been found. -/
theorem State.FoundUpTo.push (h : s.FoundUpTo n) (place : Place) (m : Mistake) :
    State.FoundUpTo { s with recovering := true, errors := s.errors.push ⟨n, place, m⟩ } n := by
  rw [State.FoundUpTo, Array.toList_push, List.map_append, ← List.cons_append]
  obtain ⟨-, -, hupto⟩ := List.pairwise_append.1 h
  refine List.pairwise_append.2 ⟨h, List.pairwise_singleton _ _, fun a ha b hb => ?_⟩
  obtain rfl := List.mem_singleton.1 hb
  obtain ha | ha := List.mem_append.1 ha
  · exact hupto a ha b (List.mem_singleton.2 rfl)
  · exact Nat.le_of_eq (List.mem_singleton.1 ha)

/-- The tokens from the one read last on stand on lines in order, up to the last line of the source, and so do the mistakes,
none of which is beyond the token that comes next. -/
structure Ordered (last : Nat) (s : State) : Prop where
  lastLine : s.lastLine = last
  previous : s.previous.line ≤ s.current.line
  ahead : (s.current.line :: (s.upcoming.map Lexeme.line ++ [last])).Pairwise (· ≤ ·)
  found : s.FoundUpTo s.current.line

/-- A mistake that is reported now is in order too, at either token. -/
structure Settled (last : Nat) (s : State) : Prop extends Ordered last s where
  behind : s.recovering = false → s.FoundUpTo s.previous.line

/-- After a mistake that is in order nothing is reported. -/
theorem Ordered.report (h : Ordered last s) (hn : s.recovering = false → s.FoundUpTo n) (hle : n ≤ s.current.line)
    (place : Place) (m : Mistake) : Settled last (s.report n place m) := by
  unfold State.report
  split
  · rename_i hrecovering
    exact ⟨h, fun hreporting => absurd (hreporting.symm.trans hrecovering) Bool.false_ne_true⟩
  · rename_i hreporting
    have hpush := (hn (Bool.eq_false_iff.2 hreporting)).push place m
    refine ⟨⟨h.lastLine, h.previous, h.ahead, hpush.mono hle⟩, fun hrecovering => ?_⟩
    cases hrecovering

theorem ordered_fetch (ls : List Lexeme) (hlast : s.lastLine = last) (hn : s.FoundUpTo n)
    (hprevious : s.previous.line ≤ n) (hahead : (n :: (ls.map Lexeme.line ++ [last])).Pairwise (· ≤ ·)) :
    Ordered last (State.fetch ls s) := by
  induction ls generalizing s n with
  | nil =>
    have hle : n ≤ s.lastLine := hlast ▸ List.rel_of_pairwise_cons hahead List.mem_cons_self
    exact ⟨hlast, Nat.le_trans hprevious hle, List.pairwise_pair.2 (Nat.le_of_eq hlast), hn.mono hle⟩
  | cons l ls ih =>
    have hle : n ≤ l.line := List.rel_of_pairwise_cons hahead List.mem_cons_self
    cases l with
    | token t => exact ⟨hlast, Nat.le_trans hprevious hle, hahead.tail, hn.mono hle⟩
    | fault e line =>
      rw [State.fetch, State.report]
      split
      · exact ih hlast (hn.mono hle) (Nat.le_trans hprevious hle) hahead.tail
      · exact ih hlast ((hn.mono hle).push _ _) (Nat.le_trans hprevious hle) hahead.tail

/-- What has been found is not changed by reading a token, unless it is followed by nothing more to report. -/
theorem behind_fetch (ls : List Lexeme) (h : s.recovering = false → s.FoundUpTo s.previous.line)
    (hreporting : (State.fetch ls s).recovering = false) :
    (State.fetch ls s).FoundUpTo (State.fetch ls s).previous.line := by
  cases ls with
  | nil => exact h hreporting
  | cons l ls =>
    cases l with
    | token t => exact h hreporting
    | fault e line =>
      obtain ⟨passed, hls, hrecovering⟩ := passed_fetch ls (s.report line .unknown (.scan e))
      rw [State.fetch, hrecovering.2 (.inl (recovering_report ..))] at hreporting
      cases hreporting

/-- Reading a token gets to where mistakes can be reported, also where they have just begun to be reported again. -/
theorem Ordered.advance (h : Ordered last s) : Settled last s.advance :=
  ⟨ordered_fetch s.upcoming h.lastLine h.found (Nat.le_refl _) h.ahead, behind_fetch s.upcoming fun _ => h.found⟩

theorem Ordered.mistakeAhead (h : Ordered last s) (m : Mistake) : Settled last ((mistakeAhead m).run s).2 :=
  h.report (fun _ => h.found) (Nat.le_refl _) _ m

theorem Ordered.expect (h : Ordered last s) (k : TokenKind) (what : Expectation) :
    Settled last ((expect k what).run s).2 := by
  rw [Compiler.expect, run_bind]
  by_cases hk : s.current.kind = k
  · rw [run_accept_of_eq hk]
    exact h.advance
  · rw [run_accept_of_ne hk]
    exact h.mistakeAhead _

theorem Settled.mistake (h : Settled last s) (m : Mistake) : Settled last ((mistake m).run s).2 :=
  h.report h.behind h.previous _ m

/-- Only what is read and reported counts. -/
theorem Settled.rest (h : Settled last s) (draft : Draft) (store : Store) (listing : String) (defect : Option Defect) :
    Settled last { s with draft, store, listing, defect } := ⟨⟨h.lastLine, h.previous, h.ahead, h.found⟩, h.behind⟩

/-- If mistakes are in order before, and one can be reported, that is so afterwards. -/
def Orderly (last : Nat) (a : Action α) : Prop := ∀ s, Settled last s → Settled last (a.run s).2

instance : ClosedCompiler fun _ => Orderly last where
  pure _ _ h := h
  bind ha hf s h := hf _ _ (ha s h)
  mistake m _ h := h.mistake m
  mistakeAhead m _ h := h.mistakeAhead m
  currentKind _ h := h
  advance _ h := h.advance
  previousToken _ h := h
  look _ hf s h := hf s s h
  draft f s h := h.rest (f s.draft) s.store s.listing s.defect
  ensure b defect s h := by
    unfold ensure
    split
    · exact h
    · exact h.rest s.draft s.store s.listing _
  intern text s h := h.rest s.draft _ s.listing s.defect
  listFunction s h := by
    obtain ⟨l, x, hrun⟩ := run_listFunction s
    rw [hrun]
    exact h.rest s.draft s.store l x
  addFunction s h := h.rest s.draft _ s.listing s.defect

/-! ### Going on after a mistake -/

theorem ordered_skipToStatement (n : Nat) (h : Ordered last s) : Ordered last ((skipToStatement n).run s).2 := by
  induction n generalizing s with
  | zero => exact h
  | succ n ih =>
    rw [skipToStatement, run_bind, run_currentKind]
    split
    · exact h
    · exact ih h.advance.toOrdered

theorem ordered_recover (n : Nat) (h : Ordered last s) : Ordered last ((recover n).run s).2 := by
  rw [recover, run_bind, run_get]
  dsimp only
  split
  · exact ordered_skipToStatement n ⟨h.lastLine, h.previous, h.ahead, h.found⟩
  · exact h

/-- If mistakes are in order before, they are so afterwards, though one that is found at the token read last need not be. -/
def InOrder (last : Nat) (a : Action Unit) : Prop := ∀ s, Ordered last s → Ordered last (a.run s).2

section
variable {body : Action Unit} (h : InOrder last body) (n : Nat)
include h

/-- The end mark of a block is read, or missed at the token that comes next. -/
theorem orderly_body : Orderly last (body >>= fun _ => expect .blockEnd .blockEnd) :=
  fun s hs => (h s hs.toOrdered).expect _ _

theorem orderly_signed {k : TokenKind} {a : Action Unit} (ha : signed? n body k = some a) : Orderly last a := by
  have hexpression := closed_expression (fun _ => Orderly last) n
  have hblock := closed_blockInScope (fun _ => Orderly last) (orderly_body h)
  apply closed_signed_of_blocks (fun _ => Orderly last) hblock _ _ _ ha
  · exact closed_ifStatement (fun _ => Orderly last) hexpression hblock
  · exact closed_loopStatement (fun _ => Orderly last) hexpression hblock
  · apply closed_functionDeclaration (fun _ => Orderly last)
    exact closed_functionBody (fun _ => Orderly last) (closed_parameterList (fun _ => Orderly last) n) (orderly_body h)

/-- Whatever is left behind before a declaration, its first token is read before anything is reported in it. -/
theorem inOrder_declaration : InOrder last (declaration n body) := by
  intro s hs
  rw [declaration, run_bind, run_currentKind]
  dsimp only
  split
  · rename_i a ha
    exact ordered_recover n (orderly_signed h n ha _ hs.advance).toOrdered
  · have hrest := closed_expressionRest (fun _ => Orderly last) (closed_expressionAt (fun _ => Orderly last) n)
      (closed_operators (fun _ => Orderly last) n .assignment) .assignment
    have hpop := closed_emit (fun _ => Orderly last) .pop
    exact ordered_recover n (hpop _ (hrest _ hs.advance)).toOrdered

end

theorem inOrder_declarations (n : Nat) : InOrder last (declarations n) := by
  induction n with
  | zero => exact fun s hs => hs
  | succ n ih =>
    intro s hs
    rw [declarations, run_bind, run_currentKind]
    split
    · exact hs
    · exact ih _ (inOrder_declaration ih n s hs)

theorem settled_script (n : Nat) (h : Ordered last s) : Settled last ((script n).run s).2 := by
  induction n generalizing s with
  | zero => exact h.advance
  | succ n ih =>
    rw [script, run_bind]
    by_cases hk : s.current.kind = .eof
    · rw [run_accept_of_eq hk]
      exact h.advance
    · rw [run_accept_of_ne hk]
      exact ih (inOrder_declaration (inOrder_declarations n) n s h)

theorem settled_wholeScript (n : Nat) (h : Ordered last s.advance) : Settled last ((wholeScript n).run s).2 :=
  closed_finishFunction (fun _ => Orderly last) _ (settled_script n h)

theorem ordered_start (source : String) (store : Store) (printCode : Bool) :
    Ordered (1 + lineBreaks source) (State.start (.ofSource source) store printCode).advance := by
  have hlines := TokenStream.ascending_ofSource source
  rw [TokenStream.lines, TokenStream.lastLine_ofSource] at hlines
  apply ordered_fetch _ (TokenStream.lastLine_ofSource source) _ (Nat.zero_le 1) hlines
  exact List.pairwise_pair.2 (Nat.le_refl 1)

/-- All that has been found is on lines of the source, in order. -/
theorem Ordered.errors (h : Ordered last s) :
    (s.errors.toList.map (·.line)).Pairwise (· ≤ ·) ∧ ∀ e ∈ s.errors.toList, 1 ≤ e.line ∧ e.line ≤ last := by
  obtain ⟨hlines, -, hupto⟩ := List.pairwise_append.1 h.found
  refine ⟨hlines.tail, fun e he => ?_⟩
  have hmem : e.line ∈ s.errors.toList.map (·.line) := List.mem_map_of_mem he
  have hcurrent := hupto _ (List.mem_cons_of_mem 1 hmem) _ (List.mem_singleton.2 rfl)
  have hlast := List.rel_of_pairwise_cons h.ahead (List.mem_append_right _ (List.mem_singleton.2 rfl))
  exact ⟨List.rel_of_pairwise_cons hlines hmem, Nat.le_trans hcurrent hlast⟩

end Compiler

open Compiler in
/-- The mistakes of a source are reported in the order of their lines, all of which are lines of the source. -/
theorem errors_in_order (source : String) (store : Store) (printCode : Bool) {errors : List CompileError}
    (h : (compile source store printCode).result = .error errors) :
    (errors.map (·.line)).Pairwise (· ≤ ·) ∧ ∀ e ∈ errors, 1 ≤ e.line ∧ e.line ≤ 1 + lineBreaks source := by
  obtain ⟨-, rfl⟩ := result_eq_error.1 h
  have hstart := ordered_start source store printCode
  exact (settled_wholeScript (TokenStream.ofSource source).lexemes.length hstart).toOrdered.errors

/-- A name that is missing, found at the next token, a variable that is declared twice, found at the token before, and a
character that is none, found ahead of both. -/
theorem errors_in_order_three : ∃ errors : List CompileError,
    (compile "[: uwu\n1\nuwu a uwu a ouo\n# 2 >> :]" {} false).result = .error errors ∧
      (errors.map (·.line)).Pairwise (· ≤ ·) ∧ ∀ e ∈ errors, 1 ≤ e.line ∧ e.line ≤ 4 := by
  have hresult : (compile "[: uwu\n1\nuwu a uwu a ouo\n# 2 >> :]" {} false).result =
      .error [⟨2, .lexeme "1", .expected .variableName⟩, ⟨3, .lexeme "a", .variableRedeclaration⟩,
        ⟨4, .unknown, .scan (.unexpectedCharacter '#')⟩] := by decide +kernel
  have hbreaks : 1 + lineBreaks "[: uwu\n1\nuwu a uwu a ouo\n# 2 >> :]" = 4 := by decide +kernel
  exact ⟨_, hresult, hbreaks ▸ errors_in_order _ {} false hresult⟩

end StackScript
