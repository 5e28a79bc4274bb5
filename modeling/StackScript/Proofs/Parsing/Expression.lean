import StackScript.Proofs.Parsing.Stream

/-! Expressions: from the words of a well-formed tree, and from no others, the compilation of an
expression without a mistake follows that tree. -/
namespace StackScript
open Compiler

namespace Compiler

theorem Level.le_trans {a b c : Level} (h : a ≤ b) (k : b ≤ c) : a ≤ c := Nat.le_trans h k

theorem Level.le_def {a b : Level} : a ≤ b ↔ a.rank ≤ b.rank := Iff.rfl

end Compiler

@[simp] theorem Binary.operator_kind (op : Binary) :
    operator? op.kind = some (.binary op.opcode op.level) := by cases op <;> rfl

theorem Binary.rank_next (op : Binary) : op.level.next.rank = op.level.rank + 1 := by
  cases op <;> rfl

/-- Binary operators lie between the short circuits and the unary operators. -/
theorem Binary.rank_bounds (op : Binary) :
    Level.equality.rank ≤ op.level.rank ∧ op.level.rank ≤ Level.factor.rank := by
  cases op <;> decide

@[simp] theorem Unary.operand_kind (op : Unary) : operand? op.kind = some (.unary op.opcode) := by
  cases op <;> rfl

theorem Token.of_word_eq {t : Token} {k : TokenKind} {x : String} (hk : k.varies = true)
    (h : t.word = ⟨k, x⟩) : t.kind = k ∧ t.lexeme = x := by
  obtain ⟨rfl, hx⟩ := Word.mk.inj h
  simpa [hk] using hx

namespace Expr

/-- The level at which the last operand of a tree is read. -/
def rightLevel : Expr → Level
  | literal _ | name _ | group _ | call _ _ => .primary
  | assign _ _ => .assignment
  | unary _ _ => .unary
  | binary op _ _ => op.level.next
  | and _ _ => .and
  | or _ _ => .or

theorem level_le_rightLevel (e : Expr) : e.level ≤ e.rightLevel := by
  cases e with
  | binary op left right => exact Nat.le_of_succ_le (Nat.le_of_eq op.rank_next.symm)
  | call callee arguments => exact Nat.le_succ _
  | _ => exact Nat.le_refl _

theorem assignment_le_level (e : Expr) : Level.assignment ≤ e.level := by
  cases e with
  | binary op left right => exact Nat.le_trans (by decide) op.rank_bounds.1
  | _ => exact Nat.le_of_ble_eq_true rfl

theorem not_rightLevel_le_binary {e : Expr} {op : Binary} (h : op.level ≤ e.level) :
    ¬e.rightLevel ≤ op.level := by
  have hb := op.rank_bounds
  cases e with
  | binary op' left right =>
    have hn := op'.rank_next
    simp only [level, rightLevel, Level.le_def] at h ⊢
    omega
  | assign | and | or =>
    exact absurd (Nat.le_trans hb.1 h) (Nat.not_le_of_gt (Nat.le_of_ble_eq_true rfl))
  | _ => exact Nat.not_le.2 (Nat.lt_of_le_of_lt hb.2 (Nat.le_of_ble_eq_true rfl))

theorem not_rightLevel_le_of_lt {e : Expr} {l : Level} (h : l.rank < e.level.rank) :
    ¬e.rightLevel ≤ l := Nat.not_le.2 (Nat.lt_of_lt_of_le h e.level_le_rightLevel)

theorem not_rightLevel_le_call {e : Expr} (h : Level.call ≤ e.level) :
    ¬e.rightLevel ≤ Level.call := by
  cases e with
  | binary op left right => exact absurd (Nat.le_trans h op.rank_bounds.2) (by decide)
  | literal | name | group | call => exact Nat.not_succ_le_self _
  | _ => exact absurd h (Nat.not_le_of_gt (Nat.le_of_ble_eq_true rfl))

end Expr

namespace Compiler

/-- No operator that binds at a level comes first. -/
def Closes (level : Level) (ws : List Word) : Prop :=
  ∀ o, operator? (headKind ws) = some o → ¬level ≤ o.level

theorem Closes.mono {l l' : Level} {ws : List Word} (h : Closes l ws) (hl : l ≤ l') : Closes l' ws :=
  fun o ho hle => h o ho (Level.le_trans hl hle)

theorem closes_of_none {level : Level} {ws : List Word} (h : operator? (headKind ws) = none) :
    Closes level ws := fun o ho => by simp [h] at ho

theorem closes_of_some {level : Level} {ws : List Word} {o : Operator}
    (h : operator? (headKind ws) = some o) (hl : ¬level ≤ o.level) : Closes level ws := by
  intro o' ho
  rwa [← Option.some.inj (h.symm.trans ho)]

/-- Neither an operator that binds at a level nor an assignment mark comes first. -/
structure Stops (level : Level) (ws : List Word) : Prop where
  closes : Closes level ws
  assign : headKind ws ≠ .assign

/-- What an expression at a level does after its first operand. -/
def finish (n : Nat) (level : Level) : Action Unit := do
  operators n level
  if ← acceptAssign (level ≤ .assignment) then mistake .invalidAssignTarget

theorem run_operators_of_closes {n : Nat} {level : Level} {s : State} {ws : List Word}
    (hs : Stream s ws) (h : Closes level ws) : (operators n level).run s = ((), s) := by
  cases n with
  | zero => rfl
  | succ n =>
    rw [operators, run_bind, run_currentKind, hs.kind]
    split
    · rw [if_neg (h _ ‹_›), run_pure]
    · rfl

theorem run_acceptAssign {allowed : Bool} {s : State}
    (h : allowed = true → s.current.kind ≠ .assign) : (acceptAssign allowed).run s = (false, s) := by
  cases allowed
  · rfl
  · exact run_accept_of_ne (h rfl)

theorem run_finish_of_stops {n : Nat} {level : Level} {s : State} {ws : List Word}
    (hs : Stream s ws) (h : Stops level ws) : (finish n level).run s = ((), s) := by
  rw [finish, run_bind, run_operators_of_closes hs h.closes, run_bind,
    run_acceptAssign fun _ => hs.kind ▸ h.assign]
  rfl

theorem run_operators_of_operator {n : Nat} {level : Level} {s : State} {o : Operator}
    (ho : operator? s.current.kind = some o) (hl : level ≤ o.level) :
    (operators (n + 1) level).run s =
      (operators n level).run ((operator (expressionAt n) (arguments n 0) o).run s.advance).2 := by
  rw [operators, run_bind, run_currentKind]
  simp only [ho, if_pos hl]
  rfl

theorem run_finish_operator {n : Nat} {level : Level} {s : State} {o : Operator}
    (ho : operator? s.current.kind = some o) (hl : level ≤ o.level) :
    (finish (n + 1) level).run s =
      (finish n level).run ((operator (expressionAt n) (arguments n 0) o).run s.advance).2 := by
  rw [finish, run_bind, run_operators_of_operator ho hl]
  rfl

theorem run_expressionAt_operand {n : Nat} {level : Level} {s : State} {o : Operand}
    (ho : operand? s.current.kind = some o) :
    (expressionAt (n + 1) level).run s = (finish n level).run
      ((operand (expressionAt n) (level ≤ .assignment : Bool) o).run s.advance).2 := by
  rw [expressionAt, expressionWith, run_bind, run_advance, expressionRest, run_bind, run_previousToken,
    previous_advance]
  simp only [ho]
  rfl

theorem run_expect_of_eq {k : TokenKind} {what : Expectation} {s : State} (h : s.current.kind = k) :
    (expect k what).run s = ((), s.advance) := by
  rw [expect, run_bind, run_accept_of_eq h]
  rfl

/-- The operand that a literal is. -/
def literalOperand : Literal → Operand
  | .number _ => .number
  | .string _ => .string
  | .char _ => .char
  | .newLine => .escape 10
  | .tab => .escape 9
  | .true_ => .literal .true
  | .false_ => .literal .false

theorem operand?_literal (l : Literal) : operand? l.word.kind = some (literalOperand l) := by
  cases l <;> rfl

theorem run_operand_literal (parse : Level → Action Unit) (canAssign : Bool) (l : Literal) {s : State}
    (h : s.previous.word = l.word) :
    (operand parse canAssign (literalOperand l)).run s = l.write.run s := by
  cases l with
  | number text =>
    rw [literalOperand, operand, run_bind, run_previousToken, (Token.of_word_eq rfl h).2]
    rfl
  | string text =>
    rw [literalOperand, operand, run_bind, run_previousToken, (Token.of_word_eq rfl h).2]
    rfl
  | char text =>
    rw [literalOperand, operand, run_bind, run_previousToken, (Token.of_word_eq rfl h).2]
    rfl
  | _ => rfl

theorem run_operand_name (parse : Level → Action Unit) (canAssign : Bool) {x : String} {s : State}
    (h : s.previous.word = ⟨.ident, x⟩) (hk : canAssign = true → s.current.kind ≠ .assign) :
    (operand parse canAssign .variable).run s =
      (accessTo x >>= fun access => emitWith access.get access.operand).run s := by
  have hc : canAssign = true → ((accessTo x).run s).2.current.kind ≠ .assign := by
    rwa [(keeps_accessTo (r := SameTokens) x s).current]
  rw [operand, run_bind, run_previousToken, (Token.of_word_eq rfl h).2, run_bind, run_bind,
    run_acceptAssign hc]
  rfl

theorem run_operand_assign (parse : Level → Action Unit) {x : String} {s : State}
    (h : s.previous.word = ⟨.ident, x⟩) (hk : s.current.kind = .assign) :
    (operand parse true .variable).run s =
      (do
        let access ← accessTo x
        advance
        parse .assignment
        emitWith access.set access.operand : Action Unit).run s := by
  have hc : ((accessTo x).run s).2.current.kind = .assign := by
    rwa [(keeps_accessTo (r := SameTokens) x s).current]
  rw [operand, run_bind, run_previousToken, (Token.of_word_eq rfl h).2, run_bind, run_bind,
    acceptAssign, if_pos rfl, run_accept_of_eq hc]
  rfl

/-! ### From a tree to the compilation -/

/-- Where the words of a tree come first, an expression follows the tree and then goes on with the
operators behind it. -/
def Followed (e : Expr) : Prop :=
  ∀ (level : Level) (n : Nat) (s : State) (ws : List Word), level ≤ e.level →
    Stream s (e.words ++ ws) → (e.words ++ ws).length ≤ n → Stops e.rightLevel ws →
    ∃ m, ws.length ≤ m ∧ (expressionAt n level).run s = (finish m level).run (e.write.run s).2

/-- If nothing behind a tree can belong to an expression, the tree is all of it. -/
theorem Followed.all {e : Expr} (h : Followed e) {level : Level} {n : Nat} {s : State}
    {ws : List Word} (hl : level ≤ e.level) (hs : Stream s (e.words ++ ws))
    (hn : (e.words ++ ws).length ≤ n) (hstop : Stops level ws) :
    (expressionAt n level).run s = ((), (e.write.run s).2) := by
  have hr := Level.le_trans hl e.level_le_rightLevel
  obtain ⟨m, -, hm⟩ := h level n s ws hl hs hn ⟨hstop.closes.mono hr, hstop.assign⟩
  rw [hm, run_finish_of_stops (reads_write_expr e _ _ hs) hstop]

theorem stops_mark {level : Level} {ws : List Word} {k : TokenKind} (h : operator? k = none)
    (hk : k ≠ .assign) : Stops level (k.mark :: ws) := ⟨closes_of_none h, hk⟩

theorem pos_of_words {n : Nat} {w : Word} {us : List Word} (h : (w :: us).length ≤ n) :
    ∃ m, n = m + 1 ∧ us.length ≤ m := by
  cases n with
  | zero => simp at h
  | succ m => exact ⟨m, rfl, Nat.le_of_succ_le_succ h⟩

/-- A tree is followed if the operand that its first word starts is the whole of it. -/
theorem followed_operand {e : Expr} {w : Word} (us : List Word) {o : Operand} (he : e.words = w :: us)
    (ho : operand? w.kind = some o)
    (h : ∀ (level : Level) (n : Nat) (s : State) (ws : List Word), level ≤ e.level →
      Stream s (w :: (us ++ ws)) → (us ++ ws).length ≤ n → Stops e.rightLevel ws →
      (operand (expressionAt n) (level ≤ .assignment : Bool) o).run s.advance =
        ((), (e.write.run s).2)) : Followed e := by
  intro level n s ws hl hs hn hstop
  rw [he, List.cons_append] at hs hn
  obtain ⟨m, rfl, hm⟩ := pos_of_words hn
  refine ⟨m, ?_, ?_⟩
  · simp only [List.length_append] at hm
    omega
  · rw [run_expressionAt_operand (o := o) (by rw [hs.kind]; exact ho), h level m s ws hl hs hm hstop]

/-- A tree is followed if it is an operator behind a tree that is followed. -/
theorem followed_operator {e left : Expr} {k : TokenKind} (us : List Word) {o : Operator}
    (he : e.words = left.words ++ k.mark :: us) (hleft : Followed left)
    (ho : operator? k = some o) (hk : k ≠ .assign) (hl : e.level ≤ left.level)
    (hlevel : e.level ≤ o.level) (hright : ¬left.rightLevel ≤ o.level)
    (h : ∀ (n : Nat) (s t : State) (ws : List Word), Stream s (us ++ ws) →
      (us ++ ws).length ≤ n → Stops e.rightLevel ws → s = State.advance (left.write.run t).2 →
      (operator (expressionAt n) (arguments n 0) o).run s = ((), (e.write.run t).2)) :
    Followed e := by
  intro level n s ws hlv hs hn hstop
  rw [he, List.append_assoc, List.cons_append] at hs hn
  obtain ⟨m, hm, hrun⟩ := hleft level n s _ (Level.le_trans hlv hl) hs hn
    ⟨closes_of_some ho hright, hk⟩
  obtain ⟨m, rfl, hm'⟩ := pos_of_words hm
  have hs' := reads_write_expr left _ _ hs
  refine ⟨m, ?_, ?_⟩
  · simp only [List.length_append] at hm'
    omega
  · rw [hrun, run_finish_operator (o := o) (by rw [hs'.kind]; exact ho) (Level.le_trans hlv hlevel),
      h m _ s ws hs'.advance hm' hstop rfl]

theorem operand?_headKind (e : Expr) (ws : List Word) :
    ∃ o, operand? (headKind (e.words ++ ws)) = some o := by
  induction e using Expr.operand_induction generalizing ws with
  | literal l => exact ⟨_, operand?_literal l⟩
  | name x => exact ⟨.variable, rfl⟩
  | group e => exact ⟨.group, rfl⟩
  | assign x value => exact ⟨.variable, rfl⟩
  | unary op e => exact ⟨_, op.operand_kind⟩
  | binary op left right ih =>
    simpa only [Expr.words, List.append_assoc] using ih _
  | and left right ih => simpa only [Expr.words, List.append_assoc] using ih _
  | or left right ih => simpa only [Expr.words, List.append_assoc] using ih _
  | call callee arguments ih => simpa only [Expr.words, List.append_assoc] using ih _

theorem headKind_words_ne {k : TokenKind} (hk : operand? k = none) (e : Expr) (ws : List Word) :
    headKind (e.words ++ ws) ≠ k := by
  obtain ⟨o, ho⟩ := operand?_headKind e ws
  rintro h
  rw [h, hk] at ho
  cases ho

mutual

theorem followed (e : Expr) (hw : e.WellFormed) : Followed e := by
  cases e with
  | literal l =>
    refine followed_operand [] rfl (operand?_literal l) fun level n s ws _ hs _ _ => ?_
    rw [run_operand_literal _ _ l (by rw [previous_advance]; exact hs.word)]
    rfl
  | name x =>
    refine followed_operand [] rfl rfl fun level n s ws _ hs _ hstop => ?_
    rw [run_operand_name _ _ (by rw [previous_advance]; exact hs.word)
      fun _ => by rw [hs.advance.kind]; exact hstop.assign]
    rfl
  | group e =>
    refine followed_operand (e.words ++ [TokenKind.rightParen.mark]) rfl rfl
      fun level n s ws _ hs hn _ => ?_
    rw [List.append_assoc] at hs hn
    have hg := (followed e hw).all e.assignment_le_level hs.advance hn
      (stops_mark (k := .rightParen) rfl (by decide))
    have hr := reads_write_expr e _ _ hs.advance
    rw [operand, run_bind, hg, run_expect_of_eq hr.mark]
    rfl
  | assign x value =>
    refine followed_operand (TokenKind.assign.mark :: value.words) rfl rfl
      fun level n s ws hl hs hn hstop => ?_
    rw [decide_eq_true (show level ≤ Level.assignment from hl),
      run_operand_assign _ (by rw [previous_advance]; exact hs.word) (by rw [hs.advance.kind]; rfl)]
    have hv : Stream (State.advance ((accessTo x).run s.advance).2) (value.words ++ ws) :=
      (hs.advance.of_same (keeps_accessTo x _)).advance
    have hrun : (expressionAt n .assignment).run _ = _ :=
      (followed value hw).all value.assignment_le_level hv (Nat.le_of_succ_le hn) hstop
    rw [run_bind, run_bind, run_advance, run_bind, hrun]
    rfl
  | unary op e =>
    refine followed_operand e.words rfl op.operand_kind fun level n s ws _ hs hn hstop => ?_
    rw [operand, run_bind, (followed e hw.2).all hw.1 hs.advance hn hstop]
    rfl
  | binary op left right =>
    refine followed_operator right.words rfl (followed left hw.2.1) op.operator_kind
      (by cases op <;> decide) hw.1.1 (Nat.le_refl _) (Expr.not_rightLevel_le_binary hw.1.1)
      fun n s t ws hs hn hstop ht => ?_
    rw [operator, run_bind, (followed right hw.2.2).all hw.1.2 hs hn hstop, ht]
    rfl
  | and left right =>
    refine followed_operator right.words (k := .and) (o := .and) rfl (followed left hw.2.1)
      rfl (by decide) (Nat.le_of_succ_le hw.1.1) (Nat.le_refl _)
      (Expr.not_rightLevel_le_of_lt hw.1.1) fun n s t ws hs hn hstop ht => ?_
    have hr := (hs.of_same (keeps_openJump .jumpIfFalse _)).of_same (keeps_emit .pop _)
    rw [operator, run_bind, run_bind, run_bind,
      (followed right hw.2.2).all hw.1.2 hr hn hstop, ht]
    rfl
  | or left right =>
    refine followed_operator right.words (k := .or) (o := .or) rfl (followed left hw.2.1)
      rfl (by decide) (Nat.le_of_succ_le hw.1.1) (Nat.le_refl _)
      (Expr.not_rightLevel_le_of_lt hw.1.1) fun n s t ws hs hn hstop ht => ?_
    have hr := (hs.of_same (keeps_openJump .jumpIfTrue _)).of_same (keeps_emit .pop _)
    rw [operator, run_bind, run_bind, run_bind,
      (followed right hw.2.2).all hw.1.2 hr hn hstop, ht]
    rfl
  | call callee es =>
    refine followed_operator (Expr.argumentWords es ++ [TokenKind.rightParen.mark])
      (k := .leftParen) (o := .call) (by simp only [Expr.words, List.append_assoc, List.cons_append])
      (followed callee hw.2.1) rfl (by decide) hw.1 (Nat.le_refl _)
      (Expr.not_rightLevel_le_call hw.1) fun n s t ws hs hn hstop ht => ?_
    rw [List.append_assoc] at hs hn
    have hr := reads_writeArguments 0 es _ _ hs
    have hargs : (argumentList (arguments n 0)).run s = (Expr.writeArguments 0 es).run s := by
      cases es with
      | nil =>
        rw [argumentList, run_bind, run_check, if_pos (decide_eq_true hs.mark)]
        rfl
      | cons e es =>
        have hk : s.current.kind ≠ .rightParen := by
          rw [hs.kind, Expr.argumentWords, List.append_assoc, List.append_assoc]
          exact headKind_words_ne rfl e _
        rw [argumentList, run_bind, run_check, if_neg (by simpa using hk),
          followed_arguments (e :: es) hw.2.2 (List.cons_ne_nil _ _) 0 n s _ hs hn]
    rw [operator, run_bind, hargs, run_bind, run_expect_of_eq hr.mark, ht]
    rfl

theorem followed_arguments (es : List Expr) (hw : Expr.AllWellFormed es) (hes : es ≠ [])
    (count n : Nat) (s : State) (ws : List Word)
    (hs : Stream s (Expr.argumentWords es ++ TokenKind.rightParen.mark :: ws))
    (hn : (Expr.argumentWords es ++ TokenKind.rightParen.mark :: ws).length ≤ n) :
    (arguments n count).run s = (Expr.writeArguments count es).run s := by
  cases es with
  | nil => exact absurd rfl hes
  | cons e es =>
    cases n with
    | zero => simp at hn
    | succ n =>
      simp only [Expr.argumentWords, List.append_assoc] at hs hn
      have hstop : Stops .assignment
          (commaBefore es ++ (Expr.argumentWords es ++ TokenKind.rightParen.mark :: ws)) := by
        cases es with
        | nil => exact stops_mark rfl (by decide)
        | cons => exact stops_mark rfl (by decide)
      have he : (expressionWith (expressionAt n) (operators n .assignment) .assignment).run s =
          ((), (e.write.run s).2) := (followed e hw.1).all e.assignment_le_level hs hn hstop
      have hr := (reads_write_expr e _ _ hs).of_same (keeps_countArgument count _)
      rw [arguments, run_bind, he, run_bind, run_bind, Expr.writeArguments, run_bind, run_bind]
      cases es with
      | nil =>
        rw [run_accept_of_ne (hr.mark.symm ▸ (by decide : TokenKind.rightParen ≠ .comma))]
        rfl
      | cons e' es =>
        rw [run_accept_of_eq hr.mark]
        refine followed_arguments (e' :: es) hw.2 (List.cons_ne_nil _ _) _ n _ ws hr.advance ?_
        simp only [commaBefore, List.length_append, List.length_cons, List.isEmpty_cons,
          Bool.false_eq_true, if_false] at hn ⊢
        have := e.words.length
        omega

end

end Compiler
end StackScript
