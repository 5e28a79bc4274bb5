import StackScript.Proofs.Compiler.Mistake
import StackScript.Proofs.Parsing.Recognize

/-! Declarations and statements: where the words of a tree come first, and nothing behind an expression
can belong to it, the compilation of a declaration follows the tree, up to the first mistake. -/
namespace StackScript.Compiler
variable {n : Nat} {s : State} {x : String} {us ws : List Word} {body b : Action Unit}

/-- Nothing behind an expression can belong to it. -/
def Stopped (_ : Expr) (ws : List Word) : Prop := Stops .assignment ws

/-- Mistakes are still reported, unless there has been one. -/
def Alive (s : State) : Prop := ¬Failed s → Ready s

theorem Ready.alive (h : Ready s) : Alive s := fun _ => h

theorem Alive.run {α : Type} {a : Action α} (h : Alive s) (ha : Keeps Evolves a) :
    Alive (a.run s).2 := fun hf => ha.ready (h (ha.not_failed hf)) hf

theorem Alive.advance (h : Alive s) : Alive s.advance := h.run keeps_advance

theorem run_recover (h : Ready s) : (recover n).run s = ((), s) := by
  rw [recover, run_bind, run_get, if_neg (by simp [h.recovering])]
  rfl

/-- Where there is no mistake, nothing has to be recovered from. -/
theorem UpToMistake.recover {p q : Unit × State} (h : UpToMistake p q) (ha : Alive q.2) :
    UpToMistake ((recover n).run p.2) q where
  first := by
    by_cases hf : Failed q.2
    · exact (Enduring.keeps.first (h.failed_iff.2 hf)).trans h.first
    · rw [h.same hf, run_recover (ha hf)]
  same hf := by rw [h.same hf, run_recover (ha hf)]

/-! ### Names -/

theorem run_readNewName {what : Expectation} (hs : Stream s (⟨.ident, x⟩ :: ws)) :
    (readNewName what).run s = (Decl.writeNewName x).run s := by
  have hk : s.current.kind = .ident := hs.kind
  have hx : s.advance.previous.lexeme = x := by
    rw [previous_advance]
    exact (Token.of_word_eq rfl hs.word).2
  have hp : ((declareLocal x).run s.advance).2.previous.lexeme = x := by
    rwa [(keeps_declareLocal (r := SameTokens) x s.advance).previous]
  rw [readNewName, Decl.writeNewName, run_bind, run_expect_of_eq hk, run_bind, run_previousToken, hx,
    run_bind, run_bind, run_get, run_bind, run_advance, run_bind, run_bind, run_get]
  split
  · rfl
  · rw [run_bind, run_previousToken, hp]

theorem previous_writeNewName (x : String) (s : State) :
    ((Decl.writeNewName x).run s).2.previous = s.current := by
  have h : Keeps SameTokens (declareLocal x >>= fun _ => get >>= fun t =>
      if 0 < t.draft.depth then pure 0 else nameConstant x) :=
    (keeps_declareLocal x).seq <| Keeps.get.bind fun _ => .ite _ (.pure _) (keeps_nameConstant x)
  exact (h s.advance).previous.trans (previous_advance s)

theorem run_parameter (count : Nat) (hs : Stream s (⟨.ident, x⟩ :: ws)) :
    (parameter count).run s = (Decl.writeParameter count x).run s := by
  have hc := hs.of_same (keeps_checkParameterCount count s)
  rw [parameter, Decl.writeParameter, run_bind, run_bind, run_readNewName hc, run_bind, run_bind]

theorem run_writeParameters_cons (count : Nat) (x : String) (xs : List String) (s : State) :
    (Decl.writeParameters count (x :: xs)).run s = (Decl.writeParameters (count + 1) xs).run
      ((readComma xs).run ((Decl.writeParameter count x).run s).2).2 := rfl

theorem run_parameters (count : Nat) (xs : List String) (hx : xs ≠ [])
    (hs : Stream s (nameWords xs ++ TokenKind.rightParen.mark :: ws)) (hn : xs.length ≤ n + 1) :
    (parameters n count).run s = (Decl.writeParameters count xs).run s := by
  induction n generalizing count xs s with
  | zero =>
    obtain ⟨x, rfl⟩ : ∃ x, xs = [x] := by
      refine List.length_eq_one_iff.1 (Nat.le_antisymm hn (List.length_pos_iff.2 hx))
    have hr := reads_writeParameter count x s _ hs
    rw [parameters, run_bind, run_parameter count hs, run_bind,
      run_accept_of_ne (hr.mark.symm ▸ (by decide : TokenKind.rightParen ≠ .comma)),
      run_writeParameters_cons]
    rfl
  | succ n ih =>
    obtain ⟨x, xs, rfl⟩ := List.exists_cons_of_ne_nil hx
    simp only [nameWords, List.cons_append, List.append_assoc] at hs
    have hr := reads_writeParameter count x s _ hs
    rw [parameters, run_bind, run_parameter count hs, run_bind, run_writeParameters_cons]
    cases xs with
    | nil =>
      rw [run_accept_of_ne (hr.mark.symm ▸ (by decide : TokenKind.rightParen ≠ .comma))]
      rfl
    | cons y ys =>
      rw [run_accept_of_eq hr.mark]
      exact ih (count + 1) (y :: ys) (List.cons_ne_nil _ _) hr.advance (Nat.le_of_succ_le_succ hn)

/-! ### Blocks and functions -/

theorem upToMistake_blockInScope [Enduring body] [Enduring b]
    (h : UpToMistake (body.run (enterScope.run s).2) (b.run (enterScope.run s).2))
    (hb : Reads us b) (hs : Stream s (us ++ TokenKind.blockEnd.mark :: ws)) :
    UpToMistake ((blockInScope body).run s) ((Decl.writeBlock b).run s) := by
  have hr := hb _ _ (hs.of_same (keeps_enterScope s))
  exact .step rfl (h.bind fun _ => .step (run_expect_of_eq hr.mark) (.of_eq rfl))

theorem run_parameterList (xs : List String)
    (hs : Stream s (nameWords xs ++ TokenKind.rightParen.mark :: ws)) (hn : xs.length ≤ n + 1) :
    (parameterList n).run s = (Decl.writeParameters 0 xs).run s := by
  rw [parameterList, run_bind, run_check]
  cases xs with
  | nil =>
    rw [if_pos (decide_eq_true hs.mark)]
    rfl
  | cons y ys =>
    rw [if_neg, run_parameters 0 (y :: ys) (List.cons_ne_nil _ _) hs hn]
    simp [hs.kind, nameWords]

theorem run_functionHead (x : String) (xs : List String) (hx : s.previous.lexeme = x)
    (hn : xs.length ≤ n + 1)
    (hs : Stream s (TokenKind.leftParen.mark :: nameWords xs ++ TokenKind.rightParen.mark ::
      TokenKind.blockStart.mark :: ws)) :
    (functionHead n).run s = (Decl.writeHead x xs).run s := by
  have h0 := ((hs.of_same (keeps_intern x s)).of_same
    (keeps_beginFunction ((intern x).run s).1 _)).of_same (keeps_enterScope _)
  rw [functionHead, Decl.writeHead, run_bind, run_previousToken, hx]
  simp only [run_bind, run_advance, run_expect_of_eq h0.mark]
  generalize (enterScope.run ((beginFunction ((intern x).run s).1).run ((intern x).run s).2).2).2 = t
    at h0 ⊢
  have h1 := h0.advance
  have h2 := (reads_writeParameters 0 xs _ _ h1).of_same
    (keeps_setArity ((Decl.writeParameters 0 xs).run t.advance).1 _)
  rw [run_parameterList xs h1 hn, run_expect_of_eq h2.mark, run_expect_of_eq h2.advance.mark]

theorem upToMistake_functionBody [Enduring body] [Enduring b] (x : String) (xs : List String)
    (hx : s.previous.lexeme = x) (hn : xs.length ≤ n + 1)
    (h : UpToMistake (body.run ((Decl.writeHead x xs).run s).2) (b.run ((Decl.writeHead x xs).run s).2))
    (hb : Reads us b)
    (hs : Stream s (TokenKind.leftParen.mark :: nameWords xs ++ TokenKind.rightParen.mark ::
      (TokenKind.blockStart.mark :: (us ++ TokenKind.blockEnd.mark :: ws)))) :
    UpToMistake ((functionBody n body).run s) ((Decl.writeFunction x xs b).run s) := by
  have hr := hb _ _ (reads_writeHead x xs s _ (by simpa using hs))
  exact .step (run_functionHead x xs hx hn hs)
    (h.bind fun _ => .step (run_expect_of_eq hr.mark) (.of_eq rfl))

/-! ### Statements -/

theorem run_printedItems (e : Expr) (es : List Expr) (hw : e.WellFormed) (hes : Expr.AllWellFormed es)
    (he : Stopped e (itemWords es ++ TokenKind.outEnd.mark :: ws))
    (hse : Expr.EachItem Stopped es (TokenKind.outEnd.mark :: ws))
    (hs : Stream s (e.words ++ (itemWords es ++ TokenKind.outEnd.mark :: ws)))
    (hn : (e.words ++ (itemWords es ++ TokenKind.outEnd.mark :: ws)).length ≤ n) :
    (printedItems n).run s =
      ((), ((Expr.writeItems es).run ((emit .print).run (e.write.run s).2).2).2) := by
  induction n generalizing e es s with
  | zero =>
    have := words_length_pos e
    simp only [List.length_append] at hn
    omega
  | succ n ih =>
    have hr := (reads_write_expr e _ _ hs).of_same (keeps_emit .print _)
    rw [printedItems, run_bind, run_expression hw hs hn he, run_bind, run_bind]
    cases es with
    | nil =>
      rw [run_accept_of_ne (hr.mark.symm ▸ (by decide : TokenKind.outEnd ≠ .comma))]
      rfl
    | cons e' es =>
      have hpos := words_length_pos e
      rw [run_accept_of_eq hr.mark]
      simp only [itemWords, List.cons_append, List.append_assoc] at hr
      refine ih e' es hes.1 hes.2 hse.1 hse.2 hr.advance ?_
      simp only [itemWords, List.cons_append, List.length_append, List.length_cons] at hn ⊢
      omega

theorem run_readStatement (form : InputForm) (x : String)
    (hs : Stream s (form.kind.mark :: ⟨.ident, x⟩ :: TokenKind.readEnd.mark :: ws)) :
    readStatement.run s = (do
      advance
      emit form.opcode
      advance
      let access ← accessTo x
      emitWith access.set access.operand
      emit .pop
      advance : Action Unit).run s := by
  have hk : inputOp? s.current.kind = some form.opcode := by
    rw [hs.mark]
    cases form <;> rfl
  have h1 := hs.advance.of_same (keeps_emit form.opcode _)
  have hx : ((emit form.opcode).run s.advance).2.advance.previous.lexeme = x := by
    rw [previous_advance]
    exact (Token.of_word_eq rfl h1.word).2
  have hk1 : ((emit form.opcode).run s.advance).2.current.kind = .ident := h1.kind
  have h2 := h1.advance.of_same (keeps_accessTo x _)
  have h3 := fun access : Access =>
    (h2.of_same (keeps_emitWith access.set access.operand _)).of_same (keeps_emit .pop _)
  rw [readStatement, run_bind, readForm, run_bind, run_currentKind]
  simp only [hk]
  rw [run_bind, run_advance, readTarget, run_bind, run_bind, run_expect_of_eq hk1, run_bind,
    run_previousToken, hx, run_bind, run_bind, run_bind, run_expect_of_eq (h3 _).mark]
  rfl

/-- What can stand behind a declaration: another one, or the end of a block or of the source. -/
def Behind (ws : List Word) : Prop :=
  operand? (headKind ws) ≠ none ∨ startsStatement (headKind ws) = true ∨
    headKind ws = .leftBracket ∨ headKind ws = .blockStart ∨ headKind ws = .eof

theorem Behind.ne {k : TokenKind} (h : Behind ws) (ho : operand? k = none)
    (hk : startsStatement k = false ∧ k ≠ .leftBracket ∧ k ≠ .blockStart ∧ k ≠ .eof) :
    headKind ws ≠ k := by
  rintro rfl
  simp [Behind, ho, hk] at h

theorem behind_words (d : Decl) (ws : List Word) : Behind (d.words ++ ws) := by
  cases d with
  | expression e =>
    obtain ⟨o, ho⟩ := operand?_headKind e ws
    exact .inl fun h => by simp [Decl.words, ho] at h
  | read form name => exact .inr (.inl rfl)
  | block mark body => cases mark <;> simp [Behind, Decl.words, BlockMark.enclosed, BlockMark.kind]
  | out value => cases value <;> exact .inr (.inl rfl)
  | var name initial => cases initial <;> exact .inr (.inl rfl)
  | _ => exact .inr (.inl rfl)

/-- The end of a block or of the source. -/
def AtEnd (ws : List Word) : Prop := headKind ws = .blockEnd ∨ headKind ws = .eof

theorem words_pos (d : Decl) : 0 < d.words.length := by
  cases d with
  | expression e => exact words_length_pos e
  | out value => cases value <;> exact Nat.succ_pos _
  | var name initial => cases initial <;> exact Nat.succ_pos _
  | _ => exact Nat.succ_pos _

theorem not_atEnd_words (d : Decl) (ws : List Word) : ¬AtEnd (d.words ++ ws) := by
  cases d with
  | expression e =>
    rintro (h | h)
    · exact headKind_words_ne rfl e ws h
    · exact headKind_words_ne rfl e ws h
  | block mark body =>
    cases mark <;> simp [AtEnd, Decl.words, BlockMark.enclosed, BlockMark.kind]
  | out value => cases value <;> simp [AtEnd, Decl.words]
  | var name initial => cases initial <;> simp [AtEnd, Decl.words]
  | _ => simp [AtEnd, Decl.words]

theorem behind_listWords (ds : List Decl) (h : AtEnd ws) : Behind (Decl.listWords ds ++ ws) := by
  cases ds with
  | nil =>
    rcases h with h | h
    · exact .inr (.inl (by simp [Decl.listWords, h, startsStatement]))
    · exact .inr (.inr (.inr (.inr h)))
  | cons d ds =>
    rw [Decl.listWords, List.append_assoc]
    exact behind_words d _

theorem run_declaration_signed {a : Action Unit} (h : signed? n body s.current.kind = some a) :
    (declaration n body).run s = (recover n).run (a.run s.advance).2 := by
  rw [declaration, run_bind, run_currentKind]
  simp only [h]
  rw [run_bind, run_bind, run_advance]

theorem run_declaration_unsigned (h : signed? n body s.current.kind = none) :
    (declaration n body).run s =
      (recover n).run ((emit .pop).run ((expression (n + 1)).run s).2).2 := by
  rw [declaration, run_bind, run_currentKind]
  simp only [h]
  rw [run_bind, run_bind]

theorem signed?_of_operand {k : TokenKind} {o : Operand} (h : operand? k = some o) :
    signed? n body k = none := by
  cases k <;> first | rfl | cases h

/-- In a block, declarations follow their trees. -/
def FollowsBody (n : Nat) (ds : List Decl) : Prop :=
  ∀ (s : State) (ws : List Word), AtEnd ws → Decl.ListEach Stopped ds ws → Alive s →
    Stream s (Decl.listWords ds ++ ws) → (Decl.listWords ds ++ ws).length ≤ n →
    UpToMistake ((declarations n).run s) ((Decl.writeList ds).run s)

variable {condition : Expr} {ds alternative : List Decl}

theorem atEnd_blockEnd (ws : List Word) : AtEnd (TokenKind.blockEnd.mark :: ws) := .inl rfl

theorem follows_block (ih : FollowsBody n ds) (hd : Decl.ListEach Stopped ds (TokenKind.blockEnd.mark :: ws))
    (ha : Alive s) (hs : Stream s (Decl.listWords ds ++ TokenKind.blockEnd.mark :: ws))
    (hn : (Decl.listWords ds ++ TokenKind.blockEnd.mark :: ws).length ≤ n) :
    UpToMistake ((blockInScope (declarations n)).run s) ((Decl.writeBlock (Decl.writeList ds)).run s) :=
  upToMistake_blockInScope (ih _ _ (atEnd_blockEnd ws) hd (ha.run keeps_enterScope)
    (hs.of_same (keeps_enterScope s)) hn) (reads_writeList ds) hs

theorem run_elsePart_of_ne (h : s.current.kind ≠ .else_) : (elsePart body).run s = ((), s) := by
  rw [elsePart, run_bind, run_accept_of_ne h]
  rfl

theorem run_elsePart (hs : Stream s (TokenKind.else_.mark :: TokenKind.blockStart.mark :: ws)) :
    (elsePart body).run s = (blockInScope body).run s.advance.advance := by
  rw [elsePart, run_bind, run_accept_of_eq hs.mark, if_pos rfl, run_bind,
    run_expect_of_eq hs.advance.mark]

theorem follows_if (ih : FollowsBody n ds) (hw : condition.WellFormed) (hws : headKind ws ≠ .else_)
    (he : (Decl.if_ condition ds).Each Stopped ws) (ha : Alive s)
    (hs : Stream s ((Decl.if_ condition ds).words ++ ws))
    (hn : ((Decl.if_ condition ds).words ++ ws).length ≤ n + 1) :
    UpToMistake ((ifStatement n (declarations n)).run s.advance) ((Decl.if_ condition ds).write.run s) := by
  obtain ⟨hc, hd⟩ := he
  simp only [Decl.words, BlockMark.enclosed, BlockMark.kind, List.append_assoc, List.cons_append,
    List.nil_append, List.length_cons, Nat.add_le_add_iff_right] at hs hn hc
  have h1 := ((reads_write_expr condition _ _ hs.advance).of_same
    (keeps_openJump .jumpIfFalse _)).of_same (keeps_emit .pop _)
  have ha1 := (((ha.advance.run (keeps_write_expr condition)).run
    (keeps_openJump .jumpIfFalse)).run (keeps_emit .pop)).advance
  have hlen : (Decl.listWords ds ++ TokenKind.blockEnd.mark :: ws).length ≤ n := by
    simp only [List.length_append, List.length_cons] at hn ⊢
    omega
  rw [Decl.write, run_advance_bind, ifStatement]
  refine .step (run_expression hw hs.advance hn hc) (.step rfl (.step rfl (.step (run_expect_of_eq h1.mark)
    ((follows_block ih hd ha1 h1.advance hlen).bind fun _ => .step rfl (.step rfl (.step rfl ?_))))))
  have h2 := fun jump => (((reads_writeBlock (reads_writeList ds) _ ws
    (by simpa using h1.advance)).of_same (keeps_openJump .jump _)).of_same
      (keeps_closeJump jump _)).of_same (keeps_emit .pop _)
  rw [run_bind, run_elsePart_of_ne ((h2 _).kind ▸ hws)]
  exact .of_eq rfl

set_option synthInstance.maxSize 512 in
theorem follows_ifElse (ih : FollowsBody n ds) (iha : FollowsBody n alternative)
    (hw : condition.WellFormed) (he : (Decl.ifElse condition ds alternative).Each Stopped ws)
    (ha : Alive s) (hs : Stream s ((Decl.ifElse condition ds alternative).words ++ ws))
    (hn : ((Decl.ifElse condition ds alternative).words ++ ws).length ≤ n + 1) :
    UpToMistake ((ifStatement n (declarations n)).run s.advance)
      ((Decl.ifElse condition ds alternative).write.run s) := by
  obtain ⟨hc, hd, hda⟩ := he
  simp only [Decl.words, BlockMark.enclosed, BlockMark.kind, List.append_assoc, List.cons_append,
    List.nil_append, List.length_cons, Nat.add_le_add_iff_right] at hs hn hc hd
  have h1 := ((reads_write_expr condition _ _ hs.advance).of_same
    (keeps_openJump .jumpIfFalse _)).of_same (keeps_emit .pop _)
  have ha1 := (((ha.advance.run (keeps_write_expr condition)).run
    (keeps_openJump .jumpIfFalse)).run (keeps_emit .pop)).advance
  have ha2 := fun jump => ((((ha1.run (keeps_writeBlock (keeps_writeList ds))).run
    (keeps_openJump .jump)).run (keeps_closeJump jump)).run (keeps_emit .pop)).advance.advance
  have hlen := hn
  simp only [List.length_append, List.length_cons] at hlen
  rw [Decl.write, run_advance_bind, ifStatement]
  refine .step (run_expression hw hs.advance hn hc) (.step rfl (.step rfl (.step (run_expect_of_eq h1.mark)
    ((follows_block ih hd ha1 h1.advance
      (by simp only [List.length_append, List.length_cons]; omega)).bind
        fun _ => .step rfl (.step rfl (.step rfl ?_))))))
  have h2 := fun jump => (((reads_writeBlock (reads_writeList ds) _
    (TokenKind.else_.mark :: TokenKind.blockStart.mark ::
      (Decl.listWords alternative ++ TokenKind.blockEnd.mark :: ws)) (by simpa using h1.advance)).of_same
    (keeps_openJump .jump _)).of_same (keeps_closeJump jump _)).of_same (keeps_emit .pop _)
  have helse := fun jump => UpToMistake.trans (.of_eq (run_elsePart (h2 jump)))
    (follows_block iha hda (ha2 jump) (h2 jump).advance.advance
      (by simp only [List.length_append, List.length_cons]; omega))
  rw [run_advance_bind, run_advance_bind]
  exact (helse _).seq

theorem follows_until (ih : FollowsBody n ds) (hw : condition.WellFormed)
    (he : (Decl.until_ condition ds).Each Stopped ws) (ha : Alive s)
    (hs : Stream s ((Decl.until_ condition ds).words ++ ws))
    (hn : ((Decl.until_ condition ds).words ++ ws).length ≤ n + 1) :
    UpToMistake ((loopStatement n (declarations n)).run s.advance)
      ((Decl.until_ condition ds).write.run s) := by
  obtain ⟨hc, hd⟩ := he
  simp only [Decl.words, BlockMark.enclosed, BlockMark.kind, List.append_assoc, List.cons_append,
    List.nil_append, List.length_cons, Nat.add_le_add_iff_right] at hs hn hc
  have h1 := ((reads_write_expr condition _ _ hs.advance).of_same
    (keeps_openJump .jumpIfTrue _)).of_same (keeps_emit .pop _)
  have ha1 := (((ha.advance.run (keeps_write_expr condition)).run
    (keeps_openJump .jumpIfTrue)).run (keeps_emit .pop)).advance
  have hlen : (Decl.listWords ds ++ TokenKind.blockEnd.mark :: ws).length ≤ n := by
    simp only [List.length_append, List.length_cons] at hn ⊢
    omega
  rw [Decl.write, run_advance_bind, loopStatement]
  exact .step rfl (.step (run_expression hw hs.advance hn hc) (.step rfl (.step rfl
    (.step (run_expect_of_eq h1.mark) (follows_block ih hd ha1 h1.advance hlen).seq))))

theorem run_print {first : Expr} {es : List Expr} (hw : (Decl.print first es).WellFormed)
    (he : (Decl.print first es).Each Stopped ws) (hs : Stream s ((Decl.print first es).words ++ ws))
    (hn : ((Decl.print first es).words ++ ws).length ≤ n + 1) :
    (printStatement n).run s.advance = ((), ((Decl.print first es).write.run s).2) := by
  simp only [Decl.words, List.append_assoc, List.cons_append, List.nil_append, List.length_cons,
    Nat.add_le_add_iff_right] at hs hn
  have h1 := (reads_write_expr first _ _ hs.advance).of_same (keeps_emit .print _)
  have h2 := reads_writeItems es _ _ h1
  rw [printStatement, run_bind, run_printedItems first es hw.1 hw.2 he.1 he.2 hs.advance hn,
    run_expect_of_eq h2.mark]
  simp only [Decl.write, run_bind, run_advance]

theorem run_out (value : Option Expr) (hw : (Decl.out value).WellFormed)
    (he : (Decl.out value).Each Stopped ws) (hs : Stream s ((Decl.out value).words ++ ws))
    (hn : ((Decl.out value).words ++ ws).length ≤ n + 1) :
    (outStatement n).run s.advance = ((), ((Decl.out value).write.run s).2) := by
  cases value with
  | none =>
    have h1 := hs.advance.of_same (keeps_checkInFunction _)
    rw [outStatement, run_bind, outValue, run_bind, run_accept_of_eq h1.mark]
    simp only [Decl.write, run_bind, run_advance, if_true]
    exact run_unit _ _
  | some e =>
    simp only [Decl.words, List.append_assoc, List.cons_append, List.nil_append, List.length_cons,
      Nat.add_le_add_iff_right] at hs hn
    have h1 := hs.advance.of_same (keeps_checkInFunction _)
    have h2 := reads_write_expr e _ _ h1
    have hk : (checkInFunction.run s.advance).2.current.kind ≠ .outEnd :=
      h1.kind ▸ headKind_words_ne rfl e _
    rw [outStatement, run_bind, outValue, run_bind, run_accept_of_ne hk]
    simp only [Decl.write, run_bind, run_advance, Bool.false_eq_true, if_false,
      run_expression hw h1 hn he, run_expect_of_eq h2.mark]
    exact run_unit _ _

theorem run_var (name : String) (initial : Option Expr) (hw : (Decl.var name initial).WellFormed)
    (hws : headKind ws ≠ .assign)
    (he : (Decl.var name initial).Each Stopped ws) (hs : Stream s ((Decl.var name initial).words ++ ws))
    (hn : ((Decl.var name initial).words ++ ws).length ≤ n + 1) :
    (variableDeclaration n).run s.advance = ((), ((Decl.var name initial).write.run s).2) := by
  cases initial with
  | none =>
    have h1 := reads_writeNewName name _ _ hs.advance
    rw [variableDeclaration, run_bind, run_readNewName hs.advance, run_bind, initializer, run_bind,
      run_accept_of_ne (h1.kind ▸ hws)]
    simp only [Decl.write, run_bind, run_advance, Bool.false_eq_true, if_false]
    exact run_unit _ _
  | some e =>
    have h1 := reads_writeNewName name _ _ hs.advance
    have hlen : (e.words ++ ws).length ≤ n := by
      simp only [Decl.words, List.cons_append, List.length_cons] at hn
      omega
    rw [variableDeclaration, run_bind, run_readNewName hs.advance, run_bind, initializer, run_bind,
      run_accept_of_eq h1.mark]
    simp only [Decl.write, run_bind, run_advance, if_true, run_expression hw h1.advance hlen he]
    exact run_unit _ _

theorem length_le_nameWords (xs : List String) : xs.length ≤ (nameWords xs).length := by
  induction xs with
  | nil => exact Nat.le_refl 0
  | cons x xs ih =>
    simp only [nameWords, List.cons_append, List.length_cons, List.length_append]
    omega

theorem follows_fun (name : String) (parameters : List String) (ih : FollowsBody n ds)
    (he : (Decl.fun_ name parameters ds).Each Stopped ws) (ha : Alive s)
    (hs : Stream s ((Decl.fun_ name parameters ds).words ++ ws))
    (hn : ((Decl.fun_ name parameters ds).words ++ ws).length ≤ n + 1) :
    UpToMistake ((functionDeclaration n (declarations n)).run s.advance)
      ((Decl.fun_ name parameters ds).write.run s) := by
  simp only [Decl.words, BlockMark.enclosed, BlockMark.kind, List.append_assoc, List.cons_append,
    List.nil_append, List.length_cons, Nat.add_le_add_iff_right] at hs hn
  have h1 := (reads_writeNewName name _ _ hs.advance).of_same (keeps_bringInScope _)
  have h2 := reads_writeHead name parameters _ _ (by simpa using h1)
  have hx : (bringInScope.run ((Decl.writeNewName name).run s.advance).2).2.previous.lexeme = name := by
    rw [(keeps_bringInScope (r := SameTokens) _).previous, previous_writeNewName]
    exact (Token.of_word_eq rfl hs.advance.word).2
  have ha1 := ((ha.advance.run (keeps_writeNewName name)).run keeps_bringInScope).run
    (keeps_writeHead name parameters)
  have hlen := length_le_nameWords parameters
  simp only [List.length_append, List.length_cons] at hn
  have hb := ih _ _ (atEnd_blockEnd ws) he ha1 h2
    (by simp only [List.length_append, List.length_cons]; omega)
  rw [Decl.write, run_advance_bind, functionDeclaration]
  exact .step (run_readNewName hs.advance) (.step rfl
    (upToMistake_functionBody name parameters hx (by omega) hb (reads_writeList ds) h1).seq)

/-! ### Declarations -/

mutual

theorem follows_declaration (d : Decl) (hw : d.WellFormed) (n : Nat) (s : State) (ws : List Word)
    (he : d.Each Stopped ws) (hb : Behind ws) (ha : Alive s) (hs : Stream s (d.words ++ ws))
    (hn : (d.words ++ ws).length ≤ n + 1) :
    UpToMistake ((declaration n (declarations n)).run s) (d.write.run s) := by
  have hd : Alive (d.write.run s).2 := ha.run (keeps_write d)
  cases d with
  | expression e =>
    obtain ⟨o, ho⟩ := operand?_headKind e ws
    have hk : signed? n (declarations n) s.current.kind = none := by
      rw [hs.kind]
      exact signed?_of_operand ho
    rw [run_declaration_unsigned hk, run_expression hw hs hn he, ← Decl.run_write_expression]
    exact UpToMistake.recover (.of_eq rfl) hd
  | print first rest =>
    rw [run_declaration_signed (a := printStatement n) (by rw [hs.mark]; rfl)]
    exact UpToMistake.recover (.of_eq (run_print hw he hs hn)) hd
  | read form name =>
    rw [run_declaration_signed (a := readStatement) (by rw [hs.mark]; rfl)]
    exact UpToMistake.recover (.of_eq (run_readStatement form name hs.advance)) hd
  | if_ condition body =>
    rw [run_declaration_signed (a := ifStatement n (declarations n)) (by rw [hs.mark]; rfl)]
    exact (follows_if (follows_list body hw.2 n) hw.1 (hb.ne rfl (by decide)) he ha hs hn).recover hd
  | ifElse condition body alternative =>
    rw [run_declaration_signed (a := ifStatement n (declarations n)) (by rw [hs.mark]; rfl)]
    exact (follows_ifElse (follows_list body hw.2.1 n) (follows_list alternative hw.2.2 n) hw.1 he ha
      hs hn).recover hd
  | until_ condition body =>
    rw [run_declaration_signed (a := loopStatement n (declarations n)) (by rw [hs.mark]; rfl)]
    exact (follows_until (follows_list body hw.2 n) hw.1 he ha hs hn).recover hd
  | out value =>
    have hk : s.current.kind = .out := by cases value <;> exact hs.kind
    rw [run_declaration_signed (a := outStatement n) (by rw [hk]; rfl)]
    exact UpToMistake.recover (.of_eq (run_out value hw he hs hn)) hd
  | block mark body =>
    simp only [Decl.words, BlockMark.enclosed, List.append_assoc, List.cons_append, List.nil_append,
      List.length_cons, Nat.add_le_add_iff_right] at hs hn
    have hk : signed? n (declarations n) s.current.kind = some (blockInScope (declarations n)) := by
      rw [hs.mark]
      cases mark <;> rfl
    rw [run_declaration_signed hk]
    exact (follows_block (follows_list body hw n) he ha.advance hs.advance hn).recover hd
  | var name initial =>
    have hk : s.current.kind = .var := by cases initial <;> exact hs.kind
    rw [run_declaration_signed (a := variableDeclaration n) (by rw [hk]; rfl)]
    exact UpToMistake.recover (.of_eq (run_var name initial hw (hb.ne rfl (by decide)) he hs hn)) hd
  | fun_ name parameters body =>
    rw [run_declaration_signed (a := functionDeclaration n (declarations n)) (by rw [hs.mark]; rfl)]
    exact (follows_fun name parameters (follows_list body hw n) he ha hs hn).recover hd

theorem follows_list (ds : List Decl) (hw : Decl.ListWellFormed ds) (n : Nat) : FollowsBody n ds := by
  intro s ws hend he ha hs hn
  cases ds with
  | nil =>
    cases n with
    | zero => exact .of_eq rfl
    | succ n =>
      have hk : s.current.kind = .blockEnd ∨ s.current.kind = .eof := by rw [hs.kind]; exact hend
      rw [declarations, run_bind, run_currentKind, if_pos hk]
      exact .of_eq rfl
  | cons d ds =>
    simp only [Decl.listWords, List.append_assoc] at hs hn
    have hpos := words_pos d
    cases n with
    | zero =>
      simp only [List.length_append] at hn
      omega
    | succ n =>
      have hk : ¬(s.current.kind = .blockEnd ∨ s.current.kind = .eof) := by
        rw [hs.kind]
        exact not_atEnd_words d _
      have hlen : (Decl.listWords ds ++ ws).length ≤ n := by
        simp only [List.length_append] at hn ⊢
        omega
      rw [Decl.writeList, declarations, run_bind, run_currentKind, if_neg hk]
      exact (follows_declaration d hw.1 n s _ he.1 (behind_listWords ds hend) ha hs hn).bind fun _ =>
        follows_list ds hw.2 n _ ws hend he.2 (ha.run (keeps_write d)) (reads_write d _ _ hs) hlen

end

end StackScript.Compiler
