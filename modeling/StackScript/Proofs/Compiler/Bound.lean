import StackScript.Proofs.Parsing.Source

/-! The numbers that the grammar goes down on only bound it: as soon as they are as great as the number of
tokens that are unread, greater ones make no difference. -/
namespace StackScript.Compiler
variable {α β : Type} {k n m : Nat} {s : State}

/-- Reading leaves one token fewer, if there is one. -/
theorem unread_advance_le (h : Proper s) : s.advance.unread ≤ s.unread - 1 := by
  by_cases hk : s.current.kind = .eof
  · have hu := (proper_fetch s.upcoming { s with previous := s.current, upcoming := [] } h.upcoming).2
    have hend : s.upcoming.length = 0 := by rw [h.current hk]; rfl
    exact Nat.le_trans (Nat.le_trans hu (Nat.le_of_eq hend)) (Nat.zero_le _)
  · exact Nat.le_sub_one_of_lt (unread_advance h hk)

/-- Actions do the same where no more than a number of tokens is unread. -/
def Agree (k : Nat) (a b : Action α) : Prop := ∀ s, Proper s → s.unread ≤ k → a.run s = b.run s

namespace Agree
variable {a b c : Action α}

theorem refl : Agree k a a := fun _ _ _ => rfl

theorem symm (h : Agree k a b) : Agree k b a := fun s hp hu => (h s hp hu).symm

theorem trans (h : Agree k a b) (g : Agree k b c) : Agree k a c :=
  fun s hp hu => (h s hp hu).trans (g s hp hu)

theorem bind {f g : α → Action β} (hs : Keeps Shrinks a) (h : Agree k a b) (hf : ∀ x, Agree k (f x) (g x)) :
    Agree k (a >>= f) (b >>= g) := by
  intro s hp hu
  obtain ⟨ht, hle⟩ := hs s hp
  rw [run_bind, run_bind, ← h s hp hu]
  exact hf _ _ ht (Nat.le_trans hle hu)

/-- After the same action. -/
theorem after {f g : α → Action β} (hs : Keeps Shrinks a) (hf : ∀ x, Agree k (f x) (g x)) :
    Agree k (a >>= f) (a >>= g) := bind hs refl hf

theorem ite {a' b' : Action α} (c : Prop) [Decidable c] (h : Agree k a b) (h' : Agree k a' b') :
    Agree k (if c then a else a') (if c then b else b') := by
  split
  · exact h
  · exact h'

/-- After a token has been read there is one fewer. -/
theorem advance {f g : Unit → Action β} (h : ∀ x, Agree k (f x) (g x)) :
    Agree (k + 1) (advance >>= f) (Compiler.advance >>= g) := by
  intro s hp hu
  rw [run_bind, run_bind, run_advance]
  refine h _ _ (shrinks_advance s hp).1 (Nat.le_trans (unread_advance_le hp) ?_)
  omega

/-- After a token of a kind has been read there is one fewer. -/
theorem accept {kind : TokenKind} (h : Agree k a b) (c : Action α) :
    Agree (k + 1) (accept kind >>= fun x => if x then a else c)
      (accept kind >>= fun x => if x then b else c) := by
  intro s hp hu
  rw [run_bind, run_bind]
  by_cases hk : s.current.kind = kind
  · rw [run_accept_of_eq hk]
    refine h _ (shrinks_advance s hp).1 (Nat.le_trans (unread_advance_le hp) ?_)
    omega
  · rw [run_accept_of_ne hk]
    rfl

end Agree

theorem eof_of_unread (h : s.unread ≤ 0) : s.current.kind = .eof := by
  cases hk : decide (s.current.kind = .eof) with
  | true => exact of_decide_eq_true hk
  | false => simp [State.unread, of_decide_eq_false hk] at h

/-- At the end of the source there is no token of another kind. -/
theorem agree_accept_end {kind : TokenKind} (hk : kind ≠ .eof) (f : Bool → Action α) :
    Agree 0 (accept kind >>= f) (f false) := by
  intro s _ hu
  rw [run_bind, run_accept_of_ne fun h => hk (h.symm.trans (eof_of_unread hu))]

/-! ### Expressions -/

section Parse
variable {parse parse' : Level → Action Unit} (h : ∀ l, Agree k (parse l) (parse' l))
  (hs : ∀ l, Keeps Shrinks (parse l))
include h hs

theorem agree_operand (canAssign : Bool) (o : Operand) :
    Agree k (operand parse canAssign o) (operand parse' canAssign o) := by
  cases o with
  | group => exact .bind (hs _) (h _) fun _ => .refl
  | unary op => exact .bind (hs _) (h _) fun _ => .refl
  | «variable» =>
    refine .after keeps_previousToken fun t => .after (keeps_accessTo _) fun a =>
      .after (keeps_acceptAssign _) fun b => .ite _ ?_ (.refl)
    exact .bind (hs _) (h _) fun _ => .refl
  | _ => exact .refl

theorem agree_operator {arguments arguments' : Action Nat} (ha : Agree k arguments arguments')
    (hsa : Keeps Shrinks arguments) (o : Operator) :
    Agree k (operator parse arguments o) (operator parse' arguments' o) := by
  cases o with
  | binary op level => exact .bind (hs _) (h _) fun _ => .refl
  | and =>
    exact .after (keeps_openJump _) fun _ => .after (keeps_emit _) fun _ => .bind (hs _) (h _) fun _ => .refl
  | or =>
    exact .after (keeps_openJump _) fun _ => .after (keeps_emit _) fun _ => .bind (hs _) (h _) fun _ => .refl
  | call =>
    refine .bind (closed_argumentList (fun _ => Keeps Shrinks) hsa) ?_ fun _ => .refl
    exact .after (keeps_check _) fun _ => .ite _ (.refl) ha

theorem agree_expressionRest {operators operators' : Action Unit} (ho : Agree k operators operators')
    (hso : Keeps Shrinks operators) (level : Level) :
    Agree k (expressionRest parse operators level) (expressionRest parse' operators' level) := by
  refine .after keeps_previousToken fun t => ?_
  split
  · exact .bind (keeps_operand hs _ _) (agree_operand h hs _ _) fun _ => .bind hso ho fun _ => .refl
  · exact .refl

/-- An expression takes a token before anything else. -/
theorem agree_expressionWith {operators operators' : Action Unit} (ho : Agree k operators operators')
    (hso : Keeps Shrinks operators) (level : Level) :
    Agree (k + 1) (expressionWith parse operators level) (expressionWith parse' operators' level) :=
  .advance fun _ => agree_expressionRest h hs ho hso level

end Parse

/-- At the end of the source an operand is missing. -/
theorem agree_missingOperand {parse : Level → Action Unit} {operators : Action Unit} (level : Level) :
    Agree 0 (expressionWith parse operators level) missingOperand := by
  intro s _ hu
  rw [expressionWith, run_bind, run_advance, expressionRest, run_bind, run_previousToken]
  simp only [previous_advance, eof_of_unread hu, operand?]
  rfl

theorem agree_operators_end (n : Nat) (level : Level) : Agree 0 (operators n level) (pure ()) := by
  intro s _ hu
  cases n with
  | zero => rfl
  | succ n =>
    rw [operators, run_bind, run_currentKind]
    simp only [eof_of_unread hu, operator?]

theorem agree_expressionAt_end (n : Nat) (level : Level) : Agree 0 (expressionAt n level) missingOperand := by
  cases n with
  | zero => exact .refl
  | succ n => exact agree_missingOperand level

theorem agree_arguments_end (n count : Nat) :
    Agree 0 (arguments n count) (missingOperand >>= fun _ => countArgument count) := by
  cases n with
  | zero => exact .refl
  | succ n =>
    refine .bind (closed_expressionWith (fun _ => Keeps Shrinks) (keeps_expressionAt n) (keeps_operators n _) _)
      (agree_missingOperand _) fun _ => ?_
    exact .trans (.after (keeps_countArgument _) fun _ => agree_accept_end (by decide) _) .refl

theorem exists_succ_of_le {k n : Nat} (h : k + 1 ≤ n) : ∃ n', n = n' + 1 ∧ k ≤ n' :=
  ⟨n - 1, by omega, by omega⟩

mutual

theorem agree_expressionAt (k : Nat) {n m : Nat} (hn : k ≤ n) (hm : k ≤ m) (level : Level) :
    Agree k (expressionAt n level) (expressionAt m level) := by
  cases k with
  | zero => exact (agree_expressionAt_end n level).trans (agree_expressionAt_end m level).symm
  | succ k =>
    obtain ⟨n, rfl, hn'⟩ := exists_succ_of_le hn
    obtain ⟨m, rfl, hm'⟩ := exists_succ_of_le hm
    exact agree_expressionWith (agree_expressionAt k hn' hm') (keeps_expressionAt n)
      (agree_operators k hn' hm' level) (keeps_operators n level) level

theorem agree_operators (k : Nat) {n m : Nat} (hn : k ≤ n) (hm : k ≤ m) (level : Level) :
    Agree k (operators n level) (operators m level) := by
  cases k with
  | zero => exact (agree_operators_end n level).trans (agree_operators_end m level).symm
  | succ k =>
    obtain ⟨n, rfl, hn'⟩ := exists_succ_of_le hn
    obtain ⟨m, rfl, hm'⟩ := exists_succ_of_le hm
    refine .after keeps_currentKind fun kind => ?_
    split
    · refine .ite _ (.advance fun _ => ?_) .refl
      exact .bind (keeps_operator (keeps_expressionAt n) (keeps_arguments n 0) _)
        (agree_operator (agree_expressionAt k hn' hm') (keeps_expressionAt n) (agree_arguments k hn' hm' 0)
          (keeps_arguments n 0) _) fun _ => agree_operators k hn' hm' level
    · exact .refl

theorem agree_arguments (k : Nat) {n m : Nat} (hn : k ≤ n) (hm : k ≤ m) (count : Nat) :
    Agree k (arguments n count) (arguments m count) := by
  cases k with
  | zero => exact (agree_arguments_end n count).trans (agree_arguments_end m count).symm
  | succ k =>
    obtain ⟨n, rfl, hn'⟩ := exists_succ_of_le hn
    obtain ⟨m, rfl, hm'⟩ := exists_succ_of_le hm
    refine .bind (closed_expressionWith (fun _ => Keeps Shrinks) (keeps_expressionAt n) (keeps_operators n _) _)
      (agree_expressionWith (agree_expressionAt k hn' hm') (keeps_expressionAt n)
        (agree_operators k hn' hm' _) (keeps_operators n _) _) fun _ => ?_
    exact .after (keeps_countArgument _) fun count => .accept (agree_arguments k hn' hm' count) _

end

theorem agree_expression (hn : k ≤ n) (hm : k ≤ m) : Agree k (expression n) (expression m) :=
  agree_expressionAt k hn hm _

/-! ### Statements -/

theorem agree_printedItems (hn : k ≤ n) (hm : k ≤ m) : Agree k (printedItems n) (printedItems m) := by
  induction k generalizing n m with
  | zero =>
    have h : ∀ n, Agree 0 (printedItems n) (expression 0 >>= fun _ => emit .print) := by
      rintro (_ | n)
      · exact .refl
      · exact .bind (keeps_expressionAt _ _) (agree_expression (Nat.zero_le _) (Nat.zero_le _)) fun _ =>
          .after (keeps_emit _) fun _ => agree_accept_end (by decide) _
    exact (h n).trans (h m).symm
  | succ k ih =>
    obtain ⟨n, rfl, hn'⟩ := exists_succ_of_le hn
    obtain ⟨m, rfl, hm'⟩ := exists_succ_of_le hm
    exact .bind (keeps_expressionAt _ _) (agree_expression (Nat.succ_le_succ hn') (Nat.succ_le_succ hm')) fun _ =>
      .after (keeps_emit _) fun _ => .accept (ih hn' hm') _

theorem agree_parameters (hn : k ≤ n) (hm : k ≤ m) (count : Nat) :
    Agree k (parameters n count) (parameters m count) := by
  induction k generalizing n m count with
  | zero =>
    have h : ∀ n, Agree 0 (parameters n count) (parameter count >>= fun _ => pure (count + 1)) := by
      rintro (_ | n)
      · exact .after (keeps_parameter _) fun _ => agree_accept_end (by decide) _
      · exact .after (keeps_parameter _) fun _ => agree_accept_end (by decide) _
    exact (h n).trans (h m).symm
  | succ k ih =>
    obtain ⟨n, rfl, hn'⟩ := exists_succ_of_le hn
    obtain ⟨m, rfl, hm'⟩ := exists_succ_of_le hm
    exact .after (keeps_parameter _) fun _ => .accept (ih hn' hm' _) _

theorem agree_parameterList (hn : k ≤ n) (hm : k ≤ m) : Agree k (parameterList n) (parameterList m) :=
  .after (keeps_check _) fun _ => .ite _ .refl (agree_parameters hn hm 0)

theorem agree_skipToStatement (hn : k ≤ n) (hm : k ≤ m) : Agree k (skipToStatement n) (skipToStatement m) := by
  induction k generalizing n m with
  | zero =>
    have h : ∀ n, Agree 0 (skipToStatement n) (pure ()) := by
      rintro (_ | n) s _ hu
      · rfl
      · rw [skipToStatement, run_bind, run_currentKind, if_pos (.inl (eof_of_unread hu))]
    exact (h n).trans (h m).symm
  | succ k ih =>
    obtain ⟨n, rfl, hn'⟩ := exists_succ_of_le hn
    obtain ⟨m, rfl, hm'⟩ := exists_succ_of_le hm
    exact .after keeps_currentKind fun _ => .ite _ .refl (.advance fun _ => ih hn' hm')

theorem agree_recover (hn : k ≤ n) (hm : k ≤ m) : Agree k (recover n) (recover m) :=
  .after .get fun _ => .ite _ (.after (.modify Lasting.resume) fun _ => agree_skipToStatement hn hm) .refl

section Body
variable {body body' : Action Unit} (hb : Agree k body body') (hs : Keeps Shrinks body)
include hb hs

theorem agree_blockInScope : Agree k (blockInScope body) (blockInScope body') :=
  .after keeps_enterScope fun _ => .bind hs hb fun _ => .refl

theorem agree_ifStatement (hn : k ≤ n) (hm : k ≤ m) : Agree k (ifStatement n body) (ifStatement m body') := by
  have hblock := agree_blockInScope hb hs
  refine .bind (keeps_expressionAt _ _) (agree_expression hn hm) fun _ => .after (keeps_openJump _) fun _ =>
    .after (keeps_emit _) fun _ => .after (keeps_expect _ _) fun _ =>
      .bind (keeps_blockInScope hs) hblock fun _ => .after (keeps_openJump _) fun _ =>
        .after (keeps_closeJump _) fun _ => .after (keeps_emit _) fun _ =>
          .bind (keeps_elsePart hs) ?_ fun _ => .refl
  exact .after (keeps_accept _) fun _ => .ite _ (.after (keeps_expect _ _) fun _ => hblock) .refl

theorem agree_loopStatement (hn : k ≤ n) (hm : k ≤ m) :
    Agree k (loopStatement n body) (loopStatement m body') :=
  .after keeps_codeSize fun _ => .bind (keeps_expressionAt _ _) (agree_expression hn hm) fun _ =>
    .after (keeps_openJump _) fun _ => .after (keeps_emit _) fun _ => .after (keeps_expect _ _) fun _ =>
      .bind (keeps_blockInScope hs) (agree_blockInScope hb hs) fun _ => .refl

theorem agree_functionDeclaration (hn : k ≤ n) (hm : k ≤ m) :
    Agree k (functionDeclaration n body) (functionDeclaration m body') := by
  have hp : Keeps Shrinks (parameterList n) := keeps_parameterList n
  have hhead : Agree k (functionHead n) (functionHead m) :=
    .after keeps_previousToken fun _ => .after (keeps_intern _) fun _ => .after (keeps_beginFunction _) fun _ =>
      .after keeps_enterScope fun _ => .after (keeps_expect _ _) fun _ =>
        .bind hp (agree_parameterList hn hm) fun _ => .refl
  exact .after (keeps_readNewName _) fun _ => .after keeps_bringInScope fun _ =>
    .bind (keeps_functionBody hp hs) (.bind (keeps_functionHead hp) hhead fun _ =>
      .bind hs hb fun _ => .refl) fun _ => .refl

theorem agree_signed (hn : k ≤ n) (hm : k ≤ m) {kind : TokenKind} {a a' : Action Unit}
    (ha : signed? n body kind = some a) (ha' : signed? m body' kind = some a') : Agree k a a' := by
  cases kind <;> simp only [signed?, Option.some.injEq, reduceCtorEq] at ha ha' <;> subst ha ha'
  case fun_ => exact agree_functionDeclaration hb hs hn hm
  case var =>
    exact .after (keeps_readNewName _) fun _ => .bind (keeps_initializer n)
      (.after (keeps_accept _) fun _ => .ite _ (agree_expression hn hm) .refl) fun _ => .refl
  case print => exact .bind (keeps_printedItems n) (agree_printedItems hn hm) fun _ => .refl
  case read => exact .refl
  case if_ => exact agree_ifStatement hb hs hn hm
  case loop => exact agree_loopStatement hb hs hn hm
  case out =>
    exact .after keeps_checkInFunction fun _ => .after (keeps_accept _) fun _ => .ite _ .refl
      (.bind (keeps_expressionAt _ _) (agree_expression hn hm) fun _ => .refl)
  all_goals exact agree_blockInScope hb hs

/-- A declaration takes a token before anything else. -/
theorem agree_declaration (hn : k ≤ n) (hm : k ≤ m) :
    Agree (k + 1) (declaration n body) (declaration m body') := by
  refine .after keeps_currentKind fun kind => ?_
  cases hk : signed? n body kind with
  | some a =>
    obtain ⟨a', ha'⟩ : ∃ a', signed? m body' kind = some a' := by
      cases kind <;> first | exact ⟨_, rfl⟩ | cases hk
    simp only [ha']
    exact .advance fun _ => .bind (keeps_signed hs n hk) (agree_signed hb hs hn hm hk ha') fun _ =>
      agree_recover hn hm
  | none =>
    have ha' : signed? m body' kind = none := by cases kind <;> first | rfl | cases hk
    simp only [ha']
    change Agree (k + 1)
      (advance >>= fun _ => expressionRest (expressionAt n) (operators n .assignment) .assignment >>= fun _ =>
        emit .pop >>= fun _ => recover n)
      (advance >>= fun _ => expressionRest (expressionAt m) (operators m .assignment) .assignment >>= fun _ =>
        emit .pop >>= fun _ => recover m)
    exact .advance fun _ => .bind (keeps_expressionRest (keeps_expressionAt n) (keeps_operators n _) _)
      (agree_expressionRest (agree_expressionAt k hn hm) (keeps_expressionAt n) (agree_operators k hn hm _)
        (keeps_operators n _) _) fun _ => .after (keeps_emit _) fun _ => agree_recover hn hm

end Body

theorem agree_declarations (hn : k ≤ n) (hm : k ≤ m) : Agree k (declarations n) (declarations m) := by
  induction k generalizing n m with
  | zero =>
    have h : ∀ n, Agree 0 (declarations n) (pure ()) := by
      rintro (_ | n) s _ hu
      · rfl
      · rw [declarations, run_bind, run_currentKind, if_pos (.inr (eof_of_unread hu))]
    exact (h n).trans (h m).symm
  | succ k ih =>
    obtain ⟨n, rfl, hn'⟩ := exists_succ_of_le hn
    obtain ⟨m, rfl, hm'⟩ := exists_succ_of_le hm
    intro s hp hu
    rw [declarations, declarations, run_bind, run_bind, run_currentKind]
    by_cases hk : s.current.kind = .blockEnd ∨ s.current.kind = .eof
    · rw [if_pos hk, if_pos hk]
    · have hs : Keeps Shrinks (declarations n) := keeps_declarations n
      have hlt := unread_declaration (n := n) hs hp fun h => hk (.inr h)
      have hproper := (keeps_declaration hs n s hp).1
      have heq := agree_declaration (ih hn' hm') hs hn' hm' s hp hu
      rw [if_neg hk, if_neg hk, run_bind, run_bind, ← heq]
      exact ih hn' hm' _ hproper (Nat.le_of_lt_succ (Nat.lt_of_lt_of_le hlt hu))

theorem agree_script (hn : k ≤ n) (hm : k ≤ m) : Agree k (script n) (script m) := by
  induction k generalizing n m with
  | zero =>
    have h : ∀ n, Agree 0 (script n) advance := by
      rintro (_ | n) s _ hu
      · rfl
      · rw [script, run_bind, run_accept_of_eq (eof_of_unread hu)]
        rfl
    exact (h n).trans (h m).symm
  | succ k ih =>
    obtain ⟨n, rfl, hn'⟩ := exists_succ_of_le hn
    obtain ⟨m, rfl, hm'⟩ := exists_succ_of_le hm
    intro s hp hu
    rw [script, script, run_bind, run_bind]
    by_cases hk : s.current.kind = .eof
    · rw [run_accept_of_eq hk, if_pos rfl, if_pos rfl]
    · have hs : Keeps Shrinks (declarations n) := keeps_declarations n
      have hlt := unread_declaration (n := n) hs hp hk
      have hproper := (keeps_declaration hs n s hp).1
      have heq := agree_declaration (agree_declarations hn' hm') hs hn' hm' s hp hu
      rw [run_accept_of_ne hk, if_neg Bool.false_ne_true, if_neg Bool.false_ne_true, run_bind, run_bind, ← heq]
      exact ih hn' hm' _ hproper (Nat.le_of_lt_succ (Nat.lt_of_lt_of_le hlt hu))

/-- Before the first token of a source that is none at the end of it. -/
theorem proper_advance_start {source : TokenStream} (he : ∀ t, .token t ∈ source.lexemes → t.kind ≠ .eof)
    (store : Store) (printCode : Bool) : Proper (State.start source store printCode).advance ∧
      (State.start source store printCode).advance.unread ≤ source.lexemes.length :=
  proper_fetch source.lexemes _ he

/-- A source is compiled the same way whatever the bound is, if it is no less than its number of tokens. -/
theorem run_wholeScript_eq {source : TokenStream} (he : ∀ t, .token t ∈ source.lexemes → t.kind ≠ .eof)
    (store : Store) (printCode : Bool) (hn : source.lexemes.length ≤ n) :
    (wholeScript n).run (.start source store printCode) =
      (wholeScript source.lexemes.length).run (.start source store printCode) := by
  obtain ⟨hp, hu⟩ := proper_advance_start he store printCode
  have heq := agree_script hn (Nat.le_refl _) _ hp hu
  simp only [wholeScript, run_bind, run_advance, heq]

end StackScript.Compiler
