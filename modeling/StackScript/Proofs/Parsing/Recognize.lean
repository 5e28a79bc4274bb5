import StackScript.Proofs.Parsing.Expression

/-! An expression that is compiled without a mistake follows a well-formed tree, which the words that it
takes are those of. -/
namespace StackScript
open Compiler

namespace Compiler
variable {n : Nat} {s : State} {w : Word} {ws : List Word}

theorem operand?_inv {o : Operand} (hs : Stream s (w :: ws)) (h : operand? w.kind = some o) :
    (w = TokenKind.leftParen.mark ∧ o = .group) ∨
      (∃ op : Unary, w = op.kind.mark ∧ o = .unary op.opcode) ∨
      (w.kind = .ident ∧ o = .variable) ∨ ∃ l : Literal, w = l.word ∧ o = literalOperand l := by
  obtain ⟨k, text⟩ := w
  have hm : ∀ {k'}, k = k' → k'.varies = false → (⟨k, text⟩ : Word) = k'.mark := hs.eq_mark
  cases k <;> simp only [operand?, Option.some.injEq, reduceCtorEq] at h <;> subst h
  case leftParen => exact .inl ⟨hm rfl rfl, rfl⟩
  case minus => exact .inr (.inl ⟨.negate, hm rfl rfl, rfl⟩)
  case bang => exact .inr (.inl ⟨.not, hm rfl rfl, rfl⟩)
  case ident => exact .inr (.inr (.inl ⟨rfl, rfl⟩))
  case string => exact .inr (.inr (.inr ⟨.string text, rfl, rfl⟩))
  case number => exact .inr (.inr (.inr ⟨.number text, rfl, rfl⟩))
  case char => exact .inr (.inr (.inr ⟨.char text, rfl, rfl⟩))
  case newLine => exact .inr (.inr (.inr ⟨.newLine, hm rfl rfl, rfl⟩))
  case tab => exact .inr (.inr (.inr ⟨.tab, hm rfl rfl, rfl⟩))
  case true_ => exact .inr (.inr (.inr ⟨.true_, hm rfl rfl, rfl⟩))
  case false_ => exact .inr (.inr (.inr ⟨.false_, hm rfl rfl, rfl⟩))

theorem operator?_inv {o : Operator} (hs : Stream s (w :: ws)) (h : operator? w.kind = some o) :
    (∃ op : Binary, w = op.kind.mark ∧ o = .binary op.opcode op.level) ∨
      (w = TokenKind.and.mark ∧ o = .and) ∨ (w = TokenKind.or.mark ∧ o = .or) ∨
      (w = TokenKind.leftParen.mark ∧ o = .call) := by
  obtain ⟨k, text⟩ := w
  have hm : ∀ {k'}, k = k' → k'.varies = false → (⟨k, text⟩ : Word) = k'.mark := hs.eq_mark
  cases k <;> simp only [operator?, Option.some.injEq, reduceCtorEq] at h <;> subst h
  case leftParen => exact .inr (.inr (.inr ⟨hm rfl rfl, rfl⟩))
  case and => exact .inr (.inl ⟨hm rfl rfl, rfl⟩)
  case or => exact .inr (.inr (.inl ⟨hm rfl rfl, rfl⟩))
  case plus => exact .inl ⟨.add, hm rfl rfl, rfl⟩
  case minus => exact .inl ⟨.subtract, hm rfl rfl, rfl⟩
  case star => exact .inl ⟨.multiply, hm rfl rfl, rfl⟩
  case slash => exact .inl ⟨.divide, hm rfl rfl, rfl⟩
  case equal => exact .inl ⟨.equal, hm rfl rfl, rfl⟩
  case bangEqual => exact .inl ⟨.notEqual, hm rfl rfl, rfl⟩
  case greater => exact .inl ⟨.greater, hm rfl rfl, rfl⟩
  case greaterEqual => exact .inl ⟨.greaterEqual, hm rfl rfl, rfl⟩
  case less => exact .inl ⟨.less, hm rfl rfl, rfl⟩
  case lessEqual => exact .inl ⟨.lessEqual, hm rfl rfl, rfl⟩

/-- A token that has to be of a kind is of that kind, if that is no mistake. -/
theorem expect_inv {k : TokenKind} {what : Expectation} (hr : Ready s) (hs : Stream s ws)
    (hk : k ≠ .eof) (hf : ¬Failed ((expect k what).run s).2) :
    ∃ w us, ws = w :: us ∧ w.kind = k ∧ (expect k what).run s = ((), s.advance) := by
  by_cases h : s.current.kind = k
  · rw [hs.kind] at h
    cases ws with
    | nil => exact absurd h hk.symm
    | cons w us => exact ⟨w, us, rfl, h, run_expect_of_eq (hs.kind.trans h)⟩
  · rw [expect, run_bind, run_accept_of_ne h] at hf
    exact absurd (failed_mistakeAhead (.inl hr) _) hf

theorem expect_mark_inv {k : TokenKind} {what : Expectation} (hr : Ready s) (hs : Stream s ws)
    (hk : k.varies = false ∧ k ≠ .eof) (hf : ¬Failed ((expect k what).run s).2) :
    ∃ us, ws = k.mark :: us ∧ (expect k what).run s = ((), s.advance) := by
  obtain ⟨w, us, rfl, hw, hrun⟩ := expect_inv hr hs hk.2 hf
  exact ⟨us, by rw [hs.eq_mark hw hk.1], hrun⟩

/-- What follows a tree does not belong to it: an operator there binds less tightly than what the tree
ends in. -/
structure Taken (e : Expr) (us ws : List Word) : Prop where
  words : ws = e.words ++ us
  wellFormed : e.WellFormed
  closes : Closes e.rightLevel us

theorem Taken.length_le {e : Expr} {us : List Word} (h : Taken e us ws) : us.length ≤ ws.length := by
  rw [h.words, List.length_append]
  exact Nat.le_add_left _ _

/-- Every expression that is compiled without a mistake follows a tree. No expression is asked for at a
level above that of the operators in front. -/
def Recognizes (n : Nat) : Prop :=
  ∀ (level : Level) (s : State) (ws : List Word), level ≤ .unary → Ready s → Stream s ws →
    ws.length ≤ n →
    ¬Failed ((expressionAt n level).run s).2 →
    ∃ e us, Taken e us ws ∧ level ≤ e.level ∧ Closes level us ∧
      (level ≤ .assignment → headKind us ≠ .assign) ∧
      (expressionAt n level).run s = ((), (e.write.run s).2)

theorem ready_advance (hr : Ready s) (hs : Stream s (w :: ws)) : Ready s.advance := by
  obtain ⟨ts, hw, -, hc⟩ := hs
  cases ts with
  | nil => simp at hw
  | cons t ts =>
    rw [State.advance, hc.2]
    cases ts with
    | nil => exact ⟨hr.1, hr.2⟩
    | cons u us => exact ⟨hr.1, hr.2⟩

theorem closes_primary (us : List Word) : Closes .primary us := by
  intro o ho h
  have : o.level.rank < Level.primary.rank := by
    revert ho
    cases headKind us <;> simp only [operator?, Option.some.injEq, reduceCtorEq, false_implies] <;>
      rintro rfl <;> decide
  exact absurd h (Nat.not_le.2 this)

/-- The tree of an operand. -/
theorem operand_inv (ih : Recognizes n) {level : Level} {o : Operand} (hl : level ≤ .unary)
    (hr : Ready s) (hs : Stream s (w :: ws)) (hn : ws.length ≤ n) (ho : operand? w.kind = some o)
    (hf : ¬Failed ((operand (expressionAt n) (level ≤ .assignment : Bool) o).run s.advance).2) :
    ∃ e us, Taken e us (w :: ws) ∧ level ≤ e.level ∧
      (operand (expressionAt n) (level ≤ .assignment : Bool) o).run s.advance =
        ((), (e.write.run s).2) := by
  have ha := ready_advance hr hs
  have hp : level ≤ .primary := Level.le_trans hl (by decide)
  rcases operand?_inv hs ho with ⟨rfl, rfl⟩ | ⟨op, rfl, rfl⟩ | ⟨hk, rfl⟩ | ⟨l, rfl, rfl⟩
  · -- an expression in parentheses
    rw [operand, run_bind] at hf ⊢
    obtain ⟨e, us, ht, -, -, -, hrun⟩ := ih .assignment _ _ (by decide) ha hs.advance hn
      ((keeps_expect _ _).not_failed hf)
    rw [hrun] at hf ⊢
    have hread := reads_write_expr e _ _ (ht.words ▸ hs.advance)
    have hready := (keeps_write_expr e).ready ha ((keeps_expect _ _).not_failed hf)
    obtain ⟨us', rfl, hrun'⟩ := expect_mark_inv hready hread (by decide) hf
    refine ⟨.group e, us', ⟨?_, ht.wellFormed, closes_primary _⟩, hp, ?_⟩
    · simp only [Expr.words, List.append_assoc, List.cons_append, List.nil_append, ht.words]
    · rw [hrun']
      rfl
  · -- an operator in front
    rw [operand, run_bind] at hf ⊢
    obtain ⟨e, us, ht, hle, hc, -, hrun⟩ := ih .unary _ _ (by decide) ha hs.advance hn
      ((keeps_emit _).not_failed hf)
    rw [hrun] at hf ⊢
    refine ⟨.unary op e, us, ⟨?_, ⟨hle, ht.wellFormed⟩, hc⟩, hl, rfl⟩
    simp only [Expr.words, List.cons_append, ht.words]
  · -- a name, which may be assigned to
    obtain ⟨k, x⟩ := w
    obtain rfl : k = .ident := hk
    have hw : s.advance.previous.word = ⟨.ident, x⟩ := by rw [previous_advance]; exact hs.word
    by_cases hc : level ≤ .assignment ∧ headKind ws = .assign
    · obtain ⟨hle, hk⟩ := hc
      rw [decide_eq_true (show level ≤ Level.assignment from hle),
        run_operand_assign _ hw (hs.advance.kind.trans hk)] at hf ⊢
      cases ws with
      | nil => exact absurd hk (by decide)
      | cons w ws =>
        obtain rfl : w = TokenKind.assign.mark := hs.advance.eq_mark hk rfl
        have hv := hs.advance.of_same (keeps_accessTo x _)
        rw [run_bind, run_bind, run_advance, run_bind] at hf ⊢
        have hready := (keeps_accessTo x).ready ha (keeps_advance.not_failed
          ((keeps_expressionAt n _).not_failed ((keeps_emitWith _ _).not_failed hf)))
        obtain ⟨e, us, ht, -, hc, -, hrun⟩ := ih .assignment _ _ (by decide)
          (ready_advance hready hv) hv.advance (Nat.le_of_succ_le hn)
          ((keeps_emitWith _ _).not_failed hf)
        rw [hrun] at hf ⊢
        refine ⟨.assign x e, us, ⟨?_, ht.wellFormed, hc⟩, hle, rfl⟩
        simp only [Expr.words, List.cons_append, ht.words]
    · rw [run_operand_name _ _ hw fun hle hk => hc ⟨of_decide_eq_true hle, hs.advance.kind ▸ hk⟩]
      exact ⟨.name x, ws, ⟨rfl, trivial, closes_primary _⟩, hp, rfl⟩
  · -- a literal
    rw [run_operand_literal _ _ l (by rw [previous_advance]; exact hs.word)]
    exact ⟨.literal l, ws, ⟨rfl, trivial, closes_primary _⟩, hp, rfl⟩

/-! ### Operators -/

/-- An operator that a tree leaves to what is around it finds the tree at the level that its left operand
needs. -/
theorem le_level_of_binary {e : Expr} {op : Binary} (h : ¬e.rightLevel ≤ op.level) :
    op.level ≤ e.level := by
  have hb := op.rank_bounds
  cases e with
  | binary op' left right =>
    have hn := op'.rank_next
    simp only [Expr.level, Expr.rightLevel, Level.le_def] at h ⊢
    omega
  | assign | and | or => exact absurd (Nat.le_trans (Nat.le_of_ble_eq_true rfl) hb.1) h
  | _ => exact Nat.le_trans hb.2 (Nat.le_of_ble_eq_true rfl)

theorem next_le_level {e : Expr} {l : Level} (hl : l = .and ∨ l = .or) (h : ¬e.rightLevel ≤ l) :
    l.next ≤ e.level := by
  rcases hl with rfl | rfl
  · cases e with
    | binary op left right => exact op.rank_bounds.1
    | assign | and | or => exact absurd (Nat.le_of_ble_eq_true rfl) h
    | _ => exact Nat.le_of_ble_eq_true rfl
  · cases e with
    | binary op left right => exact Nat.le_of_succ_le op.rank_bounds.1
    | and => exact Nat.le_of_ble_eq_true rfl
    | assign | or => exact absurd (Nat.le_of_ble_eq_true rfl) h
    | _ => exact Nat.le_of_ble_eq_true rfl

theorem call_le_level {e : Expr} (h : ¬e.rightLevel ≤ Level.call) : Level.call ≤ e.level := by
  cases e with
  | binary op left right =>
    have hb := op.rank_bounds
    have hn := op.rank_next
    refine absurd ?_ h
    simp only [Expr.rightLevel, Level.le_def, hn]
    exact Nat.le_trans (Nat.succ_le_succ hb.2) (by decide)
  | literal | name | group | call => exact Nat.le_of_ble_eq_true rfl
  | _ => exact absurd (Nat.le_of_ble_eq_true rfl) h

/-- Arguments that are compiled without a mistake follow trees. -/
def RecognizesArguments (n : Nat) : Prop :=
  ∀ (count : Nat) (s : State) (ws : List Word), Ready s → Stream s ws → ws.length ≤ n →
    ¬Failed ((arguments n count).run s).2 →
    ∃ es us, es ≠ [] ∧ Expr.AllWellFormed es ∧ ws = Expr.argumentWords es ++ us ∧
      (arguments n count).run s = (Expr.writeArguments count es).run s

theorem argumentList_inv (ih : RecognizesArguments n) (hr : Ready s) (hs : Stream s ws)
    (hn : ws.length ≤ n) (hf : ¬Failed ((argumentList (arguments n 0)).run s).2) :
    ∃ es us, Expr.AllWellFormed es ∧ ws = Expr.argumentWords es ++ us ∧
      (argumentList (arguments n 0)).run s = (Expr.writeArguments 0 es).run s := by
  rw [argumentList, run_bind, run_check] at hf ⊢
  by_cases hk : s.current.kind = .rightParen
  · exact ⟨[], ws, trivial, rfl, by rw [if_pos (decide_eq_true hk)]; rfl⟩
  · rw [if_neg (by simpa using hk)] at hf ⊢
    obtain ⟨es, us, -, h⟩ := ih 0 _ _ hr hs hn hf
    exact ⟨es, us, h⟩

/-- The right side of a short circuit follows a tree. -/
theorem shortCircuit_inv (ih : Recognizes n) (op : Opcode) {level : Level} (hl : level ≤ .unary) (hr : Ready s)
    (hs : Stream s ws) (hn : ws.length ≤ n)
    (hf : ¬Failed ((openJump op >>= fun skip => emit .pop >>= fun _ => expressionAt n level >>= fun _ =>
      closeJump skip).run s).2) :
    ∃ e us, Taken e us ws ∧ level ≤ e.level ∧ Closes level us ∧
      (openJump op >>= fun skip => emit .pop >>= fun _ => expressionAt n level >>= fun _ => closeJump skip).run s =
        (openJump op >>= fun skip => emit .pop >>= fun _ => e.write >>= fun _ => closeJump skip).run s := by
  have hs' := (hs.of_same (keeps_openJump op _)).of_same (keeps_emit .pop _)
  rw [run_bind, run_bind, run_bind] at hf ⊢
  have hf' := (keeps_closeJump _).not_failed hf
  have hr' : Ready ((emit .pop).run ((openJump op).run s).2).2 :=
    ((keeps_openJump op).seq (keeps_emit .pop)).ready hr ((keeps_expressionAt n _).not_failed hf')
  obtain ⟨e, us, ht, hle, hc, -, hrun⟩ := ih level _ _ hl hr' hs' hn hf'
  rw [hrun]
  exact ⟨e, us, ht, hle, hc, rfl⟩

/-- The tree of an operator behind a tree. -/
theorem operator_inv (ih : Recognizes n) (iha : RecognizesArguments n) {left : Expr} {o : Operator}
    (hwf : left.WellFormed) (hr : Ready (left.write.run s).2)
    (hs : Stream (left.write.run s).2 (w :: ws)) (hn : ws.length ≤ n)
    (ho : operator? w.kind = some o) (hc : ¬left.rightLevel ≤ o.level)
    (hf : ¬Failed ((operator (expressionAt n) (arguments n 0) o).run
      (State.advance (left.write.run s).2)).2) :
    ∃ e us, Taken e us (left.words ++ w :: ws) ∧ e.level = o.level ∧ us.length ≤ ws.length ∧
      (operator (expressionAt n) (arguments n 0) o).run (State.advance (left.write.run s).2) =
        ((), (e.write.run s).2) := by
  have ha := ready_advance hr hs
  rcases operator?_inv hs ho with ⟨op, rfl, rfl⟩ | ⟨rfl, rfl⟩ | ⟨rfl, rfl⟩ | ⟨rfl, rfl⟩
  · -- an operator between two operands
    have hu : op.level.next ≤ Level.unary :=
      Nat.le_trans (Nat.le_of_eq op.rank_next) (Nat.succ_le_succ op.rank_bounds.2)
    rw [operator, run_bind] at hf ⊢
    obtain ⟨e, us, ht, hl, hcl, -, hrun⟩ := ih _ _ _ hu ha hs.advance hn
      ((keeps_emit _).not_failed hf)
    rw [hrun]
    refine ⟨.binary op left e, us, ⟨?_, ⟨⟨le_level_of_binary hc, hl⟩, hwf, ht.wellFormed⟩, hcl⟩, rfl,
      ht.length_le, ?_⟩
    · simp only [Expr.words, List.append_assoc, List.cons_append, ht.words]
    · simp only [Expr.write, run_bind, run_advance]
      exact run_unit _ _
  · -- a short circuit, which decides on a falsy value
    obtain ⟨e, us, ht, hl, hcl, hrun⟩ := shortCircuit_inv ih .jumpIfFalse (by decide) ha hs.advance hn hf
    refine ⟨.and left e, us, ⟨?_, ⟨⟨next_le_level (.inl rfl) hc, hl⟩, hwf, ht.wellFormed⟩, hcl⟩, rfl, ht.length_le, ?_⟩
    · simp only [Expr.words, List.append_assoc, List.cons_append, ht.words]
    · rw [operator, hrun, Expr.write]
      simp only [run_bind, run_advance]
      exact run_unit _ _
  · -- one which decides on a truthy value
    obtain ⟨e, us, ht, hl, hcl, hrun⟩ := shortCircuit_inv ih .jumpIfTrue (by decide) ha hs.advance hn hf
    refine ⟨.or left e, us, ⟨?_, ⟨⟨next_le_level (.inr rfl) hc, hl⟩, hwf, ht.wellFormed⟩, hcl⟩, rfl, ht.length_le, ?_⟩
    · simp only [Expr.words, List.append_assoc, List.cons_append, ht.words]
    · rw [operator, hrun, Expr.write]
      simp only [run_bind, run_advance]
      exact run_unit _ _
  · -- the arguments of a call
    rw [operator, run_bind] at hf ⊢
    have hf' := (keeps_expect _ _).not_failed ((keeps_emitWith _ _).not_failed hf)
    obtain ⟨es, us, hes, hw, hrun⟩ := argumentList_inv iha ha hs.advance hn hf'
    rw [hrun, run_bind] at hf ⊢
    have hread := reads_writeArguments 0 es _ _ (hw ▸ hs.advance)
    have hready := (keeps_writeArguments 0 es).ready ha
      ((keeps_expect _ _).not_failed ((keeps_emitWith _ _).not_failed hf))
    obtain ⟨us', rfl, hrun'⟩ := expect_mark_inv hready hread (by decide)
      ((keeps_emitWith _ _).not_failed hf)
    rw [hrun']
    refine ⟨.call left es, us', ⟨?_, ⟨call_le_level hc, hwf, hes⟩, closes_primary _⟩, rfl, ?_, ?_⟩
    · simp only [Expr.words, List.append_assoc, List.cons_append, List.nil_append, hw]
    · simp only [hw, List.length_append, List.length_cons]
      omega
    · simp only [Expr.write, run_bind, run_advance]
      exact run_unit _ _

/-- The operators behind a tree that are compiled without a mistake make a greater tree of it. -/
def RecognizesOperators (n : Nat) : Prop :=
  ∀ (level : Level) (left : Expr) (s : State) (ws : List Word), level ≤ left.level →
    left.WellFormed → Closes left.rightLevel ws → Ready s → Stream s (left.words ++ ws) →
    ws.length ≤ n → ¬Failed ((operators n level).run (left.write.run s).2).2 →
    ∃ e us, Taken e us (left.words ++ ws) ∧ level ≤ e.level ∧ Closes level us ∧
      (operators n level).run (left.write.run s).2 = ((), (e.write.run s).2)

theorem recognizesOperators_zero : RecognizesOperators 0 := by
  intro level left s ws hl hw hc _ _ hn _
  obtain rfl := List.eq_nil_of_length_eq_zero (Nat.le_zero.1 hn)
  exact ⟨left, [], ⟨rfl, hw, hc⟩, hl, closes_of_none rfl, rfl⟩

theorem recognizesOperators_succ (ih : Recognizes n) (iha : RecognizesArguments n)
    (iho : RecognizesOperators n) : RecognizesOperators (n + 1) := by
  intro level left s ws hl hw hc hr hs hn hf
  have hread := reads_write_expr left _ _ hs
  by_cases hclosed : Closes level ws
  · exact ⟨left, ws, ⟨rfl, hw, hc⟩, hl, hclosed, run_operators_of_closes hread hclosed⟩
  · -- an operator that binds at the level comes first
    cases ws with
    | nil => exact absurd (closes_of_none rfl) hclosed
    | cons w ws =>
      cases ho : operator? (headKind (w :: ws)) with
      | none => exact absurd (closes_of_none ho) hclosed
      | some o =>
        have hle : level ≤ o.level := Decidable.not_not.1 fun h => hclosed (closes_of_some ho h)
        have hready := (keeps_write_expr left).ready hr ((keeps_operators _ level).not_failed hf)
        rw [run_operators_of_operator (o := o) (by rw [hread.kind]; exact ho) hle] at hf ⊢
        obtain ⟨e, us, ht, he, hlen, hrun⟩ := operator_inv ih iha hw hready hread
          (Nat.le_of_succ_le_succ hn) ho (hc o ho) ((keeps_operators n level).not_failed hf)
        rw [hrun] at hf ⊢
        rw [ht.words] at hs ⊢
        exact iho level e s us (he ▸ hle) ht.wellFormed ht.closes hr hs
          (Nat.le_trans hlen (Nat.le_of_succ_le_succ hn)) hf

theorem failed_missingOperand (hr : Ready s) : Failed (missingOperand.run s).2 :=
  failed_mistake (hr.evolves (evolves_advance s)) _

theorem words_length_pos (e : Expr) : 0 < e.words.length := by
  refine List.length_pos_iff.2 fun h => ?_
  exact headKind_words_ne (k := .eof) rfl e [] (by rw [h]; rfl)

theorem keeps_finish (n : Nat) (level : Level) : Keeps Evolves (finish n level) :=
  (keeps_operators n level).seq <| (keeps_acceptAssign _).bind fun _ =>
    .ite _ (keeps_mistake _) (.pure _)

/-- An assignment mark that is left over is a mistake where it could have stood. -/
theorem acceptAssign_inv {level : Level} (hr : Ready s)
    (hf : ¬Failed ((acceptAssign (level ≤ .assignment : Bool) >>= fun b =>
      if b = true then mistake .invalidAssignTarget else pure ()).run s).2) :
    (level ≤ .assignment → s.current.kind ≠ .assign) ∧
      (acceptAssign (level ≤ .assignment : Bool) >>= fun b =>
        if b = true then mistake .invalidAssignTarget else pure ()).run s = ((), s) := by
  by_cases h : level ≤ .assignment ∧ s.current.kind = .assign
  · rw [run_bind, acceptAssign, if_pos (decide_eq_true h.1), run_accept_of_eq h.2] at hf
    exact absurd (failed_mistake (hr.evolves (evolves_advance s)) _) hf
  · have hk : decide (level ≤ .assignment) = true → s.current.kind ≠ .assign :=
      fun hl hk => h ⟨of_decide_eq_true hl, hk⟩
    refine ⟨fun hl => hk (decide_eq_true hl), ?_⟩
    rw [run_bind, run_acceptAssign hk]
    rfl

theorem recognizes_succ (ih : Recognizes n) (iho : RecognizesOperators n) : Recognizes (n + 1) := by
  intro level s ws hl hr hs hn hf
  cases ho : operand? s.current.kind with
  | none =>
    rw [expressionAt, expressionWith, run_bind, run_advance, expressionRest, run_bind, run_previousToken,
      previous_advance] at hf
    simp only [ho] at hf
    exact absurd (failed_mistake (hr.evolves (evolves_advance s)) _) hf
  | some o =>
    cases ws with
    | nil => rw [hs.kind] at ho; cases ho
    | cons w ws =>
      have hw : operand? w.kind = some o := by rwa [hs.kind] at ho
      rw [run_expressionAt_operand ho] at hf ⊢
      obtain ⟨left, us, ht, hle, hrun⟩ := operand_inv ih hl hr hs (Nat.le_of_succ_le_succ hn) hw
        ((keeps_finish n level).not_failed hf)
      have hlen : us.length ≤ n := by
        have hpos := words_length_pos left
        have hlen := congrArg List.length ht.words
        simp only [List.length_cons, List.length_append] at hlen hn
        omega
      rw [hrun, finish, run_bind] at hf ⊢
      have hf' := Keeps.not_failed ((keeps_acceptAssign _).bind fun _ =>
        .ite _ (keeps_mistake _) (.pure _)) hf
      rw [ht.words] at hs ⊢
      obtain ⟨e, us', ht', hle', hc, hrun'⟩ := iho level left s us hle ht.wellFormed ht.closes hr hs
        hlen hf'
      rw [hrun'] at hf hf' ⊢
      obtain ⟨hassign, hlast⟩ := acceptAssign_inv ((keeps_write_expr e).ready hr hf') hf
      rw [ht'.words] at hs
      rw [(reads_write_expr e _ _ hs).kind] at hassign
      exact ⟨e, us', ht', hle', hc, hassign, hlast⟩

theorem recognizesArguments_zero : RecognizesArguments 0 := by
  intro count s ws hr _ _ hf
  exact absurd (failed_missingOperand hr) ((keeps_countArgument count).not_failed hf)

theorem recognizesArguments_succ (ih : Recognizes (n + 1)) (iha : RecognizesArguments n) :
    RecognizesArguments (n + 1) := by
  intro count s ws hr hs hn hf
  rw [arguments, run_bind] at hf ⊢
  have ha : ∀ count, Keeps Evolves (accept .comma >>= fun b =>
      if b = true then arguments n count else pure count) := fun count =>
    (keeps_accept _).bind fun _ => .ite _ (keeps_arguments n _) (.pure _)
  have hf' := Keeps.not_failed ((keeps_countArgument count).bind ha) hf
  obtain ⟨e, us, ht, -, hc, -, hrun⟩ := ih .assignment s ws (by decide) hr hs hn hf'
  have hrun : (expressionWith (expressionAt n) (operators n .assignment) .assignment).run s =
      ((), (e.write.run s).2) := hrun
  rw [hrun, run_bind] at hf ⊢
  have hft := (ha _).not_failed hf
  have hready := (keeps_countArgument count).ready ((keeps_write_expr e).ready hr
    ((keeps_countArgument count).not_failed hft)) hft
  have hread := (reads_write_expr e _ _ (ht.words ▸ hs)).of_same (keeps_countArgument count _)
  by_cases hk : headKind us = .comma
  · cases us with
    | nil => exact absurd hk (by decide)
    | cons w us =>
      obtain rfl := hread.eq_mark hk rfl
      rw [run_bind, run_accept_of_eq hread.mark] at hf ⊢
      have hlen : us.length ≤ n := by
        have hpos := words_length_pos e
        have hlen := congrArg List.length ht.words
        simp only [List.length_cons, List.length_append] at hlen
        omega
      obtain ⟨es, us', hes, hw, hws, hrun'⟩ := iha _ _ us (ready_advance hready hread) hread.advance
        hlen hf
      obtain ⟨e', es, rfl⟩ := List.exists_cons_of_ne_nil hes
      refine ⟨e :: e' :: es, us', List.cons_ne_nil _ _, ⟨ht.wellFormed, hw⟩, ?_, hrun'⟩
      simp only [ht.words, hws, Expr.argumentWords, commaBefore, List.isEmpty_cons,
        Bool.false_eq_true, if_false, List.append_assoc, List.cons_append, List.nil_append]
  · rw [run_bind, run_accept_of_ne (hread.kind ▸ hk)]
    refine ⟨[e], us, List.cons_ne_nil _ _, ⟨ht.wellFormed, trivial⟩, ?_, rfl⟩
    simp only [ht.words, Expr.argumentWords, commaBefore, List.isEmpty_nil, if_true, List.append_nil]

/-- Expressions, operators and arguments follow trees, however many tokens are read. -/
theorem recognizes_all (n : Nat) : Recognizes n ∧ RecognizesOperators n ∧ RecognizesArguments n := by
  induction n with
  | zero =>
    exact ⟨fun _ _ _ _ hr _ _ hf => absurd (failed_missingOperand hr) hf, recognizesOperators_zero,
      recognizesArguments_zero⟩
  | succ n ih =>
    obtain ⟨he, ho, ha⟩ := ih
    have he' := recognizes_succ he ho
    exact ⟨he', recognizesOperators_succ he ha ho, recognizesArguments_succ he' ha⟩

/-- An expression that is compiled without a mistake is the compilation of a well-formed tree, behind
which nothing can belong to an expression. -/
theorem expression_inv (hr : Ready s) (hs : Stream s ws) (hn : ws.length ≤ n)
    (hf : ¬Failed ((expression n).run s).2) :
    ∃ (e : Expr) (us : List Word), ws = e.words ++ us ∧ e.WellFormed ∧ Stops .assignment us ∧
      (expression n).run s = ((), (e.write.run s).2) := by
  obtain ⟨e, us, ht, -, hc, ha, hrun⟩ := (recognizes_all n).1 .assignment s ws (by decide) hr hs hn hf
  exact ⟨e, us, ht.words, ht.wellFormed, ⟨hc, ha (by decide)⟩, hrun⟩

/-- An expression follows the tree whose words come first, if nothing behind them can belong to an
expression. -/
theorem run_expression {e : Expr} {us : List Word} (hw : e.WellFormed) (hs : Stream s (e.words ++ us))
    (hn : (e.words ++ us).length ≤ n) (hstop : Stops .assignment us) :
    (expression n).run s = ((), (e.write.run s).2) :=
  (followed e hw).all e.assignment_le_level hs hn hstop

end Compiler
end StackScript
