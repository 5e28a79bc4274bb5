import Mathlib.Control.Monad.Basic
import StackScript.Proofs.Compiler.Keeps

/-! What going on after a mistake leaves behind. Reading on to the next statement reads faulty pieces too,
and each of them is a mistake of its own: then the next statement starts without being reported on. -/
namespace StackScript.Compiler

/-- From one state to the other lexemes have been read, and mistakes are not reported afterwards exactly if
they were not before, or if there is a faulty piece among those lexemes. -/
def Passes (s t : State) : Prop :=
  ∃ passed, s.upcoming = passed ++ t.upcoming ∧
    (t.recovering = true ↔ s.recovering = true ∨ ∃ error line, .fault error line ∈ passed)

theorem Passes.refl (s : State) : Passes s s := ⟨[], rfl, by simp⟩

theorem Passes.trans {s t u : State} (h : Passes s t) (k : Passes t u) : Passes s u := by
  obtain ⟨before, hs, ht⟩ := h
  obtain ⟨after, ht', hu⟩ := k
  refine ⟨before ++ after, by rw [hs, ht', List.append_assoc], ?_⟩
  rw [hu, ht, or_assoc]
  simp only [List.mem_append, exists_or]

theorem recovering_report (s : State) (line : Nat) (place : Place) (m : Mistake) :
    (s.report line place m).recovering = true := by
  unfold State.report
  split
  · assumption
  · rfl

/-- The lexemes that are read to get a token: the token, and the faulty pieces before it. -/
theorem passed_fetch (ls : List Lexeme) (s : State) :
    ∃ passed, ls = passed ++ (State.fetch ls s).upcoming ∧
      ((State.fetch ls s).recovering = true ↔
        s.recovering = true ∨ ∃ error line, .fault error line ∈ passed) := by
  induction ls generalizing s with
  | nil => exact ⟨[], rfl, by simp [State.fetch]⟩
  | cons l ls ih =>
    cases l with
    | token t => exact ⟨[.token t], rfl, by simp [State.fetch]⟩
    | fault e line =>
      obtain ⟨passed, hls, hr⟩ := ih (s.report line .unknown (.scan e))
      refine ⟨.fault e line :: passed, congrArg _ hls, iff_of_true (hr.2 (.inl ?_)) (.inr ⟨e, line, ?_⟩)⟩
      · exact recovering_report ..
      · exact List.mem_cons_self

theorem passes_advance (s : State) : Passes s s.advance :=
  passed_fetch s.upcoming { s with previous := s.current, upcoming := [] }

theorem passes_skipToStatement (n : Nat) (s : State) : Passes s ((skipToStatement n).run s).2 := by
  induction n generalizing s with
  | zero => exact .refl s
  | succ n ih =>
    rw [skipToStatement, run_bind, run_currentKind]
    split
    · exact .refl s
    · exact (passes_advance s).trans (ih s.advance)

/-- A declaration or a statement, up to where a mistake in it is recovered from. -/
def unrecovered (n : Nat) (body : Action Unit) : Action Unit := do
  match signed? n body (← currentKind) with
  | some statement =>
    advance
    statement
  | none =>
    expression (n + 1)
    emit .pop

theorem run_declaration (n : Nat) (body : Action Unit) (s : State) :
    (declaration n body).run s = (recover n).run ((unrecovered n body).run s).2 := by
  rw [declaration, unrecovered, run_bind, run_bind, run_currentKind]
  cases signed? n body s.current.kind with
  | none => rfl
  | some statement => rfl

/-- Behind a declaration mistakes are not reported exactly if there has been one in it and a faulty piece
among the lexemes that were then skipped. -/
theorem recovering_declaration_iff (n : Nat) (body : Action Unit) (s : State) :
    ∃ skipped, ((unrecovered n body).run s).2.upcoming =
        skipped ++ ((declaration n body).run s).2.upcoming ∧
      (((declaration n body).run s).2.recovering = true ↔
        ((unrecovered n body).run s).2.recovering = true ∧
          ∃ error line, .fault error line ∈ skipped) := by
  rw [run_declaration]
  generalize ((unrecovered n body).run s).2 = t
  rw [recover, run_bind, run_get]
  cases hr : t.recovering with
  | false =>
    refine ⟨[], rfl, iff_of_false ?_ ?_⟩
    · change ¬t.recovering = true
      simp [hr]
    · simp
  | true =>
    obtain ⟨skipped, hs, hiff⟩ := passes_skipToStatement n { t with recovering := false }
    exact ⟨skipped, hs, by simpa [run_bind, run_modify] using hiff⟩

/-- The first statement of this source is wrong, and so is a piece behind it that is skipped; the mistake in
the second statement is not reported. -/
theorem second_statement_unreported :
    ((declaration 6 (declarations 6)).run
        (State.start (.ofSource ") x @\nuwu )") {} false).advance).2.recovering = true ∧
      (compile ") x @\nuwu )" {} false).result = .error
        [⟨1, .lexeme ")", .expectedExpression⟩,
          ⟨1, .unknown, .scan (.unexpectedCharacter '@')⟩] := by
  decide +kernel

end StackScript.Compiler
