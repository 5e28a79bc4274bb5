import StackScript.Proofs.Compiler.Outcome
import StackScript.Proofs.Compiler.Recovery
import StackScript.Proofs.Scanning.Rejoined

/-! Where a compilation goes on after a mistake. It reads on to the first token that a statement can start with or a
block ends with, and the blocks that it reads past do not count: the end of a block that starts among what is skipped
is taken for the end of the block that the mistake is in. -/
namespace StackScript

/-- Whether a token can start a block. -/
def TokenKind.opensBlock : TokenKind → Bool
  | .leftBracket | .blockStart => true
  | _ => false

/-- How many blocks have been started and not ended in some tokens, where an end with no start to it counts for nothing. -/
def openBlocks (ts : List Token) : Nat :=
  ts.foldl (fun n t => if t.kind.opensBlock then n + 1 else if t.kind = .blockEnd then n - 1 else n) 0

namespace Compiler
variable {n : Nat} {s : State}

/-- The tokens that are not read yet, without the end of the source. -/
def State.ahead (s : State) : List Token :=
  (s.current :: s.upcoming.filterMap Lexeme.token?).filter (·.kind ≠ .eof)

theorem ahead_fetch (ls : List Lexeme) (s : State) :
    (State.fetch ls s).ahead = (ls.filterMap Lexeme.token?).filter (·.kind ≠ .eof) := by
  induction ls generalizing s with
  | nil => rfl
  | cons l ls ih =>
    cases l with
    | token t => rfl
    | fault e line => exact ih _

theorem ahead_of_advance (h : s.current.kind ≠ .eof) : s.ahead = s.current :: s.advance.ahead := by
  rw [State.advance, ahead_fetch, State.ahead, List.filter_cons_of_pos (by simpa using h)]

/-- What is skipped neither starts a statement nor ends a block. -/
theorem ahead_skipToStatement (n : Nat) (s : State) :
    ∃ skipped, s.ahead = skipped ++ ((skipToStatement n).run s).2.ahead ∧
    ∀ t ∈ skipped, startsStatement t.kind = false := by
  induction n generalizing s with
  | zero => exact ⟨[], rfl, List.forall_mem_nil _⟩
  | succ n ih =>
    rw [skipToStatement, run_bind, run_currentKind]
    by_cases hk : s.current.kind = .eof ∨ startsStatement s.current.kind = true
    · rw [if_pos hk]
      exact ⟨[], rfl, List.forall_mem_nil _⟩
    · rw [if_neg hk, run_bind, run_advance]
      obtain ⟨heof, hstart⟩ := not_or.1 hk
      obtain ⟨skipped, hahead, hskipped⟩ := ih s.advance
      refine ⟨s.current :: skipped, ?_, List.forall_mem_cons.2 ⟨Bool.eq_false_of_not_eq_true hstart, hskipped⟩⟩
      rw [ahead_of_advance heof, hahead]
      rfl

theorem openBlocks_of_no_end {ts : List Token} (h : ∀ t ∈ ts, t.kind ≠ .blockEnd) :
    openBlocks ts = ts.countP (·.kind.opensBlock) := by
  have hfold (n : Nat) :
    ts.foldl (fun n t => if t.kind.opensBlock then n + 1 else if t.kind = .blockEnd then n - 1 else n) n =
      n + ts.countP (·.kind.opensBlock) := by
    induction ts generalizing n with
    | nil => rfl
    | cons t ts ih =>
      obtain ⟨ht, hts⟩ := List.forall_mem_cons.1 h
      rw [List.foldl_cons, ih hts, List.countP_cons, if_neg ht]
      by_cases hopens : t.kind.opensBlock = true
      · rw [if_pos hopens, if_pos hopens, Nat.add_assoc, Nat.add_comm 1]
      · rw [if_neg hopens, if_neg hopens, Nat.add_zero]
  rw [openBlocks, hfold, Nat.zero_add]

/-- After a mistake the compilation goes on at the first token that starts a statement or ends a block, or at the end of
the source. If that is the end of a block, the block that is being compiled ends there; and it is the end of a block
that starts among the skipped tokens exactly if any block starts among them. -/
theorem recover_goes_on (h : Proper s) (hn : s.unread ≤ n) (hr : s.recovering = true) :
    ∃ skipped, s.ahead = skipped ++ ((recover n).run s).2.ahead ∧ (∀ t ∈ skipped, startsStatement t.kind = false) ∧
      (((recover n).run s).2.current.kind = .eof ∨ startsStatement ((recover n).run s).2.current.kind = true) ∧
      (((recover n).run s).2.current.kind = .blockEnd →
        (∀ m, (declarations m).run ((recover n).run s).2 = ((), ((recover n).run s).2)) ∧
        (0 < openBlocks skipped ↔ ∃ t ∈ skipped, t.kind.opensBlock = true)) := by
  have hrun : (recover n).run s = (skipToStatement n).run { s with recovering := false } := by
    rw [recover, run_bind, run_get, if_pos hr, run_bind, run_modify]
  rw [hrun]
  obtain ⟨skipped, hahead, hskipped⟩ := ahead_skipToStatement n { s with recovering := false }
  refine ⟨skipped, hahead, hskipped, kind_skipToStatement ⟨h.1, h.2⟩ hn, fun hend => ⟨fun m => ?_, ?_⟩⟩
  · cases m with
    | zero => rfl
    | succ m => rw [declarations, run_bind, run_currentKind, if_pos (.inl hend), run_pure]
  · rw [openBlocks_of_no_end fun t ht hk => ?_, List.countP_pos_iff]
    have hstart := hskipped t ht
    rw [hk] at hstart
    cases hstart

/-- A block with a mistake in it, and then another block in it, in the state after the mistake. -/
def afterMistake : State :=
  ((unrecovered 4 (declarations 4)).run
    (enterScope.run (State.start (.ofSource "[: ) [: :] :]") {} false).advance.advance).2).2

theorem proper_afterMistake : Proper afterMistake where
  upcoming t ht := by
    have hupcoming : afterMistake.upcoming = [.token ⟨.blockEnd, ":]", 1⟩, .token ⟨.blockEnd, ":]",
      1⟩] := by decide +kernel
    rw [hupcoming] at ht
    obtain rfl : t = ⟨.blockEnd, ":]", 1⟩ := by simpa using ht
    decide
  current h := absurd h (by decide +kernel)

theorem recover_goes_on_in_block : Proper afterMistake ∧ afterMistake.unread ≤ 4 ∧ afterMistake.recovering = true ∧
    ∃ skipped, afterMistake.ahead = skipped ++ ((recover 4).run afterMistake).2.ahead ∧
      ∀ t ∈ skipped, startsStatement t.kind = false := by
  have hunread : afterMistake.unread ≤ 4 := by decide +kernel
  have hrecovering : afterMistake.recovering = true := by decide +kernel
  obtain ⟨skipped, hahead, hskipped, -⟩ := recover_goes_on proper_afterMistake hunread hrecovering
  exact ⟨proper_afterMistake, hunread, hrecovering, skipped, hahead, hskipped⟩

/-- The inner block is read past up to its end, which then ends the outer block; so the end of the outer block is a
mistake of its own. -/
theorem inner_end_ends_outer :
    (∃ skipped, afterMistake.ahead = skipped ++ ((recover 4).run afterMistake).2.ahead ∧
      ((recover 4).run afterMistake).2.current.kind = .blockEnd ∧ 0 < openBlocks skipped) ∧
      (compile "[: ) [: :] :]" {} false).result = .error
        [⟨1, .lexeme ")", .expectedExpression⟩, ⟨1, .lexeme ":]", .expectedExpression⟩] :=
  ⟨⟨[⟨.blockStart, "[:", 1⟩], by decide +kernel, by decide +kernel, by decide⟩, by decide +kernel⟩

end Compiler
end StackScript
