import StackScript.Proofs.Parsing.Statement

/-! A declaration that is compiled without a mistake follows a tree of the grammar, and so does a whole
source. -/
namespace StackScript.Compiler
variable {n : Nat} {s : State} {us ws : List Word}

/-! ### Names and parameters -/

theorem readNewName_inv {what : Expectation} (hr : Ready s) (hs : Stream s ws)
    (hf : ¬Failed ((readNewName what).run s).2) : ∃ x us, ws = ⟨.ident, x⟩ :: us := by
  rw [readNewName, run_bind] at hf
  have hk : Keeps Evolves (previousToken >>= fun t => declareLocal t.lexeme >>= fun _ =>
      get >>= fun u => if 0 < u.draft.depth then pure 0 else
        previousToken >>= fun t => nameConstant t.lexeme) :=
    keeps_previousToken.bind fun _ => (keeps_declareLocal _).seq <| Keeps.get.bind fun _ =>
      .ite _ (.pure _) <| keeps_previousToken.bind fun _ => keeps_nameConstant _
  obtain ⟨⟨k, x⟩, us, rfl, rfl, -⟩ := expect_inv hr hs (by decide) (hk.not_failed hf)
  exact ⟨x, us, rfl⟩

theorem parameter_inv {count : Nat} (hr : Ready s) (hs : Stream s ws)
    (hf : ¬Failed ((parameter count).run s).2) :
    ∃ x us, ws = ⟨.ident, x⟩ :: us ∧
      (parameter count).run s = (Decl.writeParameter count x).run s := by
  have hc := hs.of_same (keeps_checkParameterCount count s)
  have hf' := hf
  rw [parameter, run_bind, run_bind] at hf'
  have hf1 := (keeps_settleVariable _).not_failed hf'
  obtain ⟨x, us, rfl⟩ := readNewName_inv
    ((keeps_checkParameterCount count).ready hr ((keeps_readNewName _).not_failed hf1)) hc hf1
  exact ⟨x, us, rfl, run_parameter count hs⟩

theorem parameters_inv {count : Nat} (hr : Ready s) (hs : Stream s ws) (hn : ws.length ≤ n)
    (hf : ¬Failed ((parameters n count).run s).2) :
    ∃ xs us, xs ≠ [] ∧ ws = nameWords xs ++ us ∧
      (parameters n count).run s = (Decl.writeParameters count xs).run s := by
  induction n generalizing count s ws with
  | zero =>
    have hk : Keeps Evolves (accept .comma >>= fun _ => (pure (count + 1) : Action Nat)) :=
      (keeps_accept _).seq (.pure _)
    rw [parameters, run_bind] at hf
    obtain ⟨x, us, rfl, -⟩ := parameter_inv hr hs (hk.not_failed hf)
    simp at hn
  | succ n ih =>
    have hk : Keeps Evolves (accept .comma >>= fun b =>
        if b = true then parameters n (count + 1) else pure (count + 1)) :=
      (keeps_accept _).bind fun _ => .ite _ (keeps_parameters n _) (.pure _)
    rw [parameters, run_bind] at hf ⊢
    have hf1 := hk.not_failed hf
    obtain ⟨x, us, rfl, hrun⟩ := parameter_inv hr hs hf1
    have hready := (keeps_parameter count).ready hr hf1
    have hread := reads_writeParameter count x _ _ hs
    rw [hrun] at hf hready ⊢
    by_cases hc : headKind us = .comma
    · cases us with
      | nil => exact absurd hc (by decide)
      | cons w us =>
        obtain rfl := hread.eq_mark hc rfl
        rw [run_bind, run_accept_of_eq hread.mark] at hf ⊢
        obtain ⟨xs, us', hxs, rfl, hrun'⟩ := ih (ready_advance hready hread) hread.advance
          (Nat.le_of_succ_le (Nat.le_of_succ_le_succ hn)) hf
        obtain ⟨y, ys, rfl⟩ := List.exists_cons_of_ne_nil hxs
        refine ⟨x :: y :: ys, us', List.cons_ne_nil _ _, ?_, ?_⟩
        · simp [nameWords, commaBefore]
        · rw [if_pos rfl, hrun', run_writeParameters_cons count]
          rfl
    · rw [run_bind, run_accept_of_ne (hread.kind ▸ hc)]
      refine ⟨[x], us, List.cons_ne_nil _ _, ?_, ?_⟩
      · simp [nameWords, commaBefore]
      · rw [run_writeParameters_cons]
        rfl

theorem parameterList_inv (hr : Ready s) (hs : Stream s ws) (hn : ws.length ≤ n)
    (hf : ¬Failed ((parameterList n).run s).2) :
    ∃ xs us, ws = nameWords xs ++ us ∧
      (parameterList n).run s = (Decl.writeParameters 0 xs).run s := by
  rw [parameterList, run_bind, run_check] at hf ⊢
  by_cases hk : s.current.kind = .rightParen
  · exact ⟨[], ws, rfl, by rw [if_pos (decide_eq_true hk)]; rfl⟩
  · rw [if_neg (by simpa using hk)] at hf ⊢
    obtain ⟨xs, us, -, h⟩ := parameters_inv hr hs hn hf
    exact ⟨xs, us, h⟩

theorem functionHead_inv {x : String} (hx : s.previous.lexeme = x) (hr : Ready s) (hs : Stream s ws)
    (hn : ws.length ≤ n) (hf : ¬Failed ((functionHead n).run s).2) :
    ∃ xs us, ws = TokenKind.leftParen.mark :: nameWords xs ++ TokenKind.rightParen.mark ::
      TokenKind.blockStart.mark :: us := by
  have h0 := ((hs.of_same (keeps_intern x s)).of_same
    (keeps_beginFunction ((intern x).run s).1 _)).of_same (keeps_enterScope _)
  have hr0 := ((hr.alive.run (keeps_intern x)).run
    (keeps_beginFunction ((intern x).run s).1)).run keeps_enterScope
  rw [functionHead, run_bind, run_previousToken, hx] at hf
  simp only [run_bind, run_pure] at hf
  generalize (enterScope.run ((beginFunction ((intern x).run s).1).run ((intern x).run s).2).2).2 = t
    at h0 hr0 hf
  have hf1 := (keeps_expect _ _).not_failed hf
  have hf2 := (keeps_setArity _).not_failed ((keeps_expect _ _).not_failed hf1)
  have hf3 := (keeps_parameterList n).not_failed hf2
  have hr0 := hr0 ((keeps_expect _ _).not_failed hf3)
  obtain ⟨us, rfl, he⟩ := expect_mark_inv hr0 h0 (by decide) hf3
  rw [he] at hf hf1 hf2
  have hr1 := ready_advance hr0 h0
  obtain ⟨xs, us, rfl, hp⟩ := parameterList_inv hr1 h0.advance (Nat.le_of_succ_le hn) hf2
  rw [hp] at hf hf1 hf2
  have h1 := (reads_writeParameters 0 xs _ _ h0.advance).of_same
    (keeps_setArity ((Decl.writeParameters 0 xs).run t.advance).1 _)
  have hr2 := (((keeps_writeParameters 0 xs).ready hr1 hf2).alive.run
    (keeps_setArity ((Decl.writeParameters 0 xs).run t.advance).1))
    ((keeps_expect _ _).not_failed hf1)
  obtain ⟨us, rfl, he'⟩ := expect_mark_inv hr2 h1 (by decide) hf1
  rw [he'] at hf
  obtain ⟨us, rfl, -⟩ := expect_mark_inv (ready_advance hr2 h1) h1.advance (by decide) hf
  exact ⟨xs, us, rfl⟩

/-! ### Statements -/

/-- What a run of a declaration from words comes to: it takes the words of a well-formed tree, behind
whose expressions nothing can belong to them, and does what the tree says. -/
def Recognized (s : State) (ws : List Word) (r : Unit × State) : Prop :=
  ∃ (d : Decl) (us : List Word), ws = d.words ++ us ∧ d.WellFormed ∧ d.Each Stopped us ∧
    r = ((), (d.write.run s).2)

/-- Declarations up to the end of a block that are compiled without a mistake follow trees. -/
def RecognizesBody (n : Nat) : Prop :=
  ∀ (s : State) (ws : List Word), Ready s → Stream s ws → ws.length ≤ n →
    ¬Failed ((declarations n).run s).2 →
    ∃ (ds : List Decl) (us : List Word), ws = Decl.listWords ds ++ us ∧ AtEnd us ∧
      Decl.ListWellFormed ds ∧ Decl.ListEach Stopped ds us ∧
      (declarations n).run s = ((), ((Decl.writeList ds).run s).2)

theorem blockInScope_inv (ih : RecognizesBody n) (hr : Ready s) (hs : Stream s ws)
    (hn : ws.length ≤ n) (hf : ¬Failed ((blockInScope (declarations n)).run s).2) :
    ∃ (ds : List Decl) (us : List Word), ws = Decl.listWords ds ++ TokenKind.blockEnd.mark :: us ∧
      Decl.ListWellFormed ds ∧ Decl.ListEach Stopped ds (TokenKind.blockEnd.mark :: us) ∧
      (blockInScope (declarations n)).run s = ((), ((Decl.writeBlock (Decl.writeList ds)).run s).2) := by
  have hf0 := hf
  rw [blockInScope, run_bind, run_bind, run_bind] at hf0
  have hf1 := keeps_leaveScope.not_failed hf0
  have hf2 := (keeps_expect _ _).not_failed hf1
  have hr0 := hr.alive.run keeps_enterScope ((keeps_declarations n).not_failed hf2)
  obtain ⟨ds, us, rfl, -, hw, he, hrun⟩ := ih _ _ hr0 (hs.of_same (keeps_enterScope s)) hn hf2
  rw [hrun] at hf1 hf2
  obtain ⟨us, rfl, -⟩ := expect_mark_inv ((keeps_writeList ds).ready hr0 hf2)
    (reads_writeList ds _ _ (hs.of_same (keeps_enterScope s))) (by decide) hf1
  exact ⟨ds, us, rfl, hw, he, (upToMistake_blockInScope (.of_eq hrun) (reads_writeList ds) hs).eq hf⟩

theorem elsePart_inv (ih : RecognizesBody n) (hr : Ready s) (hs : Stream s ws) (hn : ws.length ≤ n)
    (hf : ¬Failed ((elsePart (declarations n)).run s).2) :
    (elsePart (declarations n)).run s = ((), s) ∨
      ∃ (ds : List Decl) (us : List Word), ws = TokenKind.else_.mark :: BlockMark.colon.enclosed
          (Decl.listWords ds) ++ us ∧
        Decl.ListWellFormed ds ∧ Decl.ListEach Stopped ds (TokenKind.blockEnd.mark :: us) ∧
        (elsePart (declarations n)).run s =
          ((), ((Decl.writeBlock (Decl.writeList ds)).run s.advance.advance).2) := by
  by_cases hk : headKind ws = .else_
  · cases ws with
    | nil => exact absurd hk (by decide)
    | cons w ws =>
      obtain rfl := hs.eq_mark hk rfl
      rw [elsePart, run_bind, run_accept_of_eq hs.mark, if_pos rfl, run_bind] at hf
      have hr1 := ready_advance hr hs
      obtain ⟨us, rfl, he⟩ := expect_mark_inv hr1 hs.advance (by decide)
        ((keeps_blockInScope (keeps_declarations n)).not_failed hf)
      rw [he] at hf
      obtain ⟨ds, us, rfl, hw, heach, hrun⟩ := blockInScope_inv ih (ready_advance hr1 hs.advance)
        hs.advance.advance (Nat.le_of_succ_le (Nat.le_of_succ_le hn)) hf
      refine .inr ⟨ds, us, by simp [BlockMark.enclosed, BlockMark.kind], hw, heach, ?_⟩
      rw [run_elsePart hs, hrun]
  · exact .inl (run_elsePart_of_ne (hs.kind ▸ hk))

theorem ifStatement_inv (ih : RecognizesBody n) (hr : Ready s)
    (hs : Stream s (TokenKind.if_.mark :: ws)) (hn : ws.length ≤ n)
    (hf : ¬Failed ((ifStatement n (declarations n)).run s.advance).2) :
    Recognized s (TokenKind.if_.mark :: ws) ((ifStatement n (declarations n)).run s.advance) := by
  have hr0 := ready_advance hr hs
  rw [ifStatement] at hf ⊢
  simp only [run_bind] at hf ⊢
  have hf1 := (keeps_closeJump _).not_failed hf
  have hf2 := (keeps_closeJump _).not_failed ((keeps_emit _).not_failed
    ((keeps_elsePart (keeps_declarations n)).not_failed hf1))
  have hf3 := (keeps_openJump _).not_failed hf2
  have hf4 := (keeps_blockInScope (keeps_declarations n)).not_failed hf3
  have hf5 := (keeps_openJump _).not_failed ((keeps_emit _).not_failed
    ((keeps_expect _ _).not_failed hf4))
  obtain ⟨e, us, rfl, hw, hstop, he⟩ := expression_inv hr0 hs.advance hn hf5
  rw [he] at hf hf1 hf2 hf3 hf4 hf5 ⊢
  have h1 := ((reads_write_expr e _ _ hs.advance).of_same
    (keeps_openJump .jumpIfFalse _)).of_same (keeps_emit .pop _)
  have hr1 := ((((keeps_write_expr e).ready hr0 hf5).alive.run (keeps_openJump .jumpIfFalse)).run
    (keeps_emit .pop)) ((keeps_expect _ _).not_failed hf4)
  obtain ⟨us, rfl, hx⟩ := expect_mark_inv hr1 h1 (by decide) hf4
  rw [hx] at hf hf1 hf2 hf3 ⊢
  have hlen : us.length ≤ n := by
    simp only [List.length_append, List.length_cons] at hn
    omega
  obtain ⟨ds, us, rfl, hwd, hed, hb⟩ := blockInScope_inv ih (ready_advance hr1 h1) h1.advance hlen hf3
  rw [hb] at hf hf1 hf2 ⊢
  have h2 := fun jump => (((reads_writeBlock (reads_writeList ds) _ us
    (by simpa using h1.advance)).of_same (keeps_openJump .jump _)).of_same
      (keeps_closeJump jump _)).of_same (keeps_emit .pop _)
  have hr2 := fun jump => ((((ready_advance hr1 h1).alive.run
    (keeps_writeBlock (keeps_writeList ds))).run (keeps_openJump .jump)).run
      (keeps_closeJump jump)).run (keeps_emit .pop)
  have hlen' : us.length ≤ n := by
    simp only [List.length_append, List.length_cons] at hlen
    omega
  rcases elsePart_inv ih (hr2 _ ((keeps_elsePart (keeps_declarations n)).not_failed hf1)) (h2 _) hlen'
    hf1 with hx | ⟨alternative, us', rfl, hwa, hea, hx⟩
  · rw [hx]
    refine ⟨.if_ e ds, us, ?_, ⟨hw, hwd⟩, ⟨?_, hed⟩, ?_⟩
    · simp [Decl.words, BlockMark.enclosed, BlockMark.kind]
    · simpa [Stopped, BlockMark.enclosed, BlockMark.kind] using hstop
    · simp only [Decl.write, run_bind, run_advance]
      exact run_unit _ _
  · rw [hx]
    refine ⟨.ifElse e ds alternative, us', ?_, ⟨hw, hwd, hwa⟩, ⟨?_, ?_, hea⟩, ?_⟩
    · simp [Decl.words, BlockMark.enclosed, BlockMark.kind]
    · simpa [Stopped, BlockMark.enclosed, BlockMark.kind] using hstop
    · simpa using hed
    · simp only [Decl.write, run_bind, run_advance]
      exact run_unit _ _

theorem loopStatement_inv (ih : RecognizesBody n) (hr : Ready s)
    (hs : Stream s (TokenKind.loop.mark :: ws)) (hn : ws.length ≤ n)
    (hf : ¬Failed ((loopStatement n (declarations n)).run s.advance).2) :
    Recognized s (TokenKind.loop.mark :: ws) ((loopStatement n (declarations n)).run s.advance) := by
  have hr0 := ready_advance hr hs
  rw [loopStatement] at hf ⊢
  simp only [run_bind, run_codeSize] at hf ⊢
  have hf1 := (keeps_emitBackJump _).not_failed ((keeps_closeJump _).not_failed
    ((keeps_emit _).not_failed hf))
  have hf2 := (keeps_blockInScope (keeps_declarations n)).not_failed hf1
  have hf3 := (keeps_openJump _).not_failed ((keeps_emit _).not_failed
    ((keeps_expect _ _).not_failed hf2))
  obtain ⟨e, us, rfl, hw, hstop, he⟩ := expression_inv hr0 hs.advance hn hf3
  rw [he] at hf hf1 hf2 hf3 ⊢
  have h1 := ((reads_write_expr e _ _ hs.advance).of_same
    (keeps_openJump .jumpIfTrue _)).of_same (keeps_emit .pop _)
  have hr1 := ((((keeps_write_expr e).ready hr0 hf3).alive.run (keeps_openJump .jumpIfTrue)).run
    (keeps_emit .pop)) ((keeps_expect _ _).not_failed hf2)
  obtain ⟨us, rfl, hx⟩ := expect_mark_inv hr1 h1 (by decide) hf2
  rw [hx] at hf hf1 ⊢
  have hlen : us.length ≤ n := by
    simp only [List.length_append, List.length_cons] at hn
    omega
  obtain ⟨ds, us, rfl, hwd, hed, hb⟩ := blockInScope_inv ih (ready_advance hr1 h1) h1.advance hlen hf1
  rw [hb]
  refine ⟨.until_ e ds, us, ?_, ⟨hw, hwd⟩, ⟨?_, hed⟩, ?_⟩
  · simp [Decl.words, BlockMark.enclosed, BlockMark.kind]
  · simpa [Stopped, BlockMark.enclosed, BlockMark.kind] using hstop
  · simp only [Decl.write, run_bind, run_advance, run_codeSize]
    exact run_unit _ _

theorem printedItems_inv (hr : Ready s) (hs : Stream s ws) (hn : ws.length ≤ n)
    (hf : ¬Failed ((printedItems n).run s).2) :
    ∃ (e : Expr) (es : List Expr) (us : List Word), ws = e.words ++ (itemWords es ++ us) ∧
      e.WellFormed ∧ Expr.AllWellFormed es ∧ Stopped e (itemWords es ++ us) ∧
      Expr.EachItem Stopped es us ∧
      (printedItems n).run s =
        ((), ((Expr.writeItems es).run ((emit .print).run (e.write.run s).2).2).2) := by
  induction n generalizing s ws with
  | zero =>
    rw [printedItems, run_bind] at hf
    obtain ⟨e, us, rfl, -⟩ := expression_inv hr hs hn ((keeps_emit _).not_failed hf)
    have := words_length_pos e
    simp only [List.length_append] at hn
    omega
  | succ n ih =>
    rw [printedItems] at hf ⊢
    simp only [run_bind] at hf ⊢
    have hk : ∀ b : Bool, Keeps Evolves (if b = true then printedItems n else pure ()) :=
      fun b => .ite _ (keeps_printedItems n) (.pure _)
    have hf1 := (keeps_accept _).not_failed ((hk _).not_failed hf)
    have hf2 := (keeps_emit _).not_failed hf1
    obtain ⟨e, us, rfl, hw, hstop, he⟩ := expression_inv hr hs hn hf2
    rw [he] at hf hf1 hf2 ⊢
    have h1 := (reads_write_expr e _ _ hs).of_same (keeps_emit .print _)
    have hr1 := ((keeps_write_expr e).ready hr hf2).alive.run (keeps_emit .print) hf1
    by_cases hc : headKind us = .comma
    · cases us with
      | nil => exact absurd hc (by decide)
      | cons w us =>
        obtain rfl := h1.eq_mark hc rfl
        rw [run_accept_of_eq h1.mark] at hf ⊢
        have hlen : us.length ≤ n := by
          have := words_length_pos e
          simp only [List.length_append, List.length_cons] at hn
          omega
        obtain ⟨e', es, us', rfl, hw', hws, hs', hes, hrun⟩ := ih (ready_advance hr1 h1) h1.advance
          hlen hf
        refine ⟨e, e' :: es, us', ?_, hw, ⟨hw', hws⟩, ?_, ⟨hs', hes⟩, ?_⟩
        · simp [itemWords]
        · simpa [Stopped, itemWords] using hstop
        · rw [if_pos rfl, hrun]
          rfl
    · rw [run_accept_of_ne (h1.kind ▸ hc)]
      exact ⟨e, [], us, rfl, hw, trivial, hstop, trivial, rfl⟩

theorem printStatement_inv (hr : Ready s) (hs : Stream s (TokenKind.print.mark :: ws))
    (hn : ws.length ≤ n) (hf : ¬Failed ((printStatement n).run s.advance).2) :
    Recognized s (TokenKind.print.mark :: ws) ((printStatement n).run s.advance) := by
  have hr0 := ready_advance hr hs
  rw [printStatement, run_bind] at hf ⊢
  have hf1 := (keeps_expect _ _).not_failed hf
  obtain ⟨e, es, us, rfl, hw, hws, hstop, hes, hrun⟩ := printedItems_inv hr0 hs.advance hn hf1
  rw [hrun] at hf hf1 ⊢
  have h1 := reads_writeItems es _ _ ((reads_write_expr e _ _ hs.advance).of_same (keeps_emit .print _))
  have hr1 := ((hr0.alive.run (keeps_write_expr e)).run (keeps_emit .print)).run
    (keeps_writeItems es) hf1
  obtain ⟨us, rfl, hx⟩ := expect_mark_inv hr1 h1 (by decide) hf
  rw [hx]
  refine ⟨.print e es, us, ?_, ⟨hw, hws⟩, ⟨hstop, hes⟩, ?_⟩
  · simp [Decl.words]
  · simp only [Decl.write, run_bind, run_advance]

theorem inputOp?_inv {w : Word} {op : Opcode} (hs : Stream s (w :: ws)) (h : inputOp? w.kind = some op) :
    ∃ form : InputForm, w = form.kind.mark ∧ op = form.opcode := by
  obtain ⟨k, text⟩ := w
  have hm : ∀ {k'}, k = k' → k'.varies = false → (⟨k, text⟩ : Word) = k'.mark := hs.eq_mark
  cases k <;> simp only [inputOp?, Option.some.injEq, reduceCtorEq] at h <;> subst h
  case readString => exact ⟨.string, hm rfl rfl, rfl⟩
  case readNumber => exact ⟨.number, hm rfl rfl, rfl⟩
  case readChar => exact ⟨.char, hm rfl rfl, rfl⟩

theorem readForm_inv (hr : Ready s) (hs : Stream s ws) (hf : ¬Failed (readForm.run s).2) :
    ∃ (form : InputForm) (us : List Word), ws = form.kind.mark :: us ∧
      readForm.run s = (emit form.opcode).run s.advance := by
  rw [readForm, run_bind, run_currentKind] at hf ⊢
  cases ho : inputOp? s.current.kind with
  | none =>
    simp only [ho] at hf
    exact absurd (failed_mistakeAhead (.inl hr) _) (keeps_advance.not_failed hf)
  | some op =>
    cases ws with
    | nil => rw [hs.kind] at ho; cases ho
    | cons w ws =>
      obtain ⟨form, rfl, rfl⟩ := inputOp?_inv hs (hs.kind ▸ ho)
      refine ⟨form, ws, rfl, ?_⟩
      simp only [run_bind, run_advance]

theorem readTarget_inv (hr : Ready s) (hs : Stream s ws) (hf : ¬Failed (readTarget.run s).2) :
    ∃ x us, ws = ⟨.ident, x⟩ :: TokenKind.readEnd.mark :: us := by
  rw [readTarget] at hf
  simp only [run_bind, run_previousToken] at hf
  have hf1 := (keeps_accessTo _).not_failed ((keeps_emitWith _ _).not_failed
    ((keeps_emit _).not_failed ((keeps_expect _ _).not_failed hf)))
  obtain ⟨⟨k, x⟩, us, rfl, rfl, hx⟩ := expect_inv hr hs (by decide) hf1
  rw [hx] at hf
  have h1 := fun (y : String) (access : Access) => ((hs.advance.of_same (keeps_accessTo y _)).of_same
    (keeps_emitWith access.set access.operand _)).of_same (keeps_emit .pop _)
  have hr1 := fun (y : String) (access : Access) => (((ready_advance hr hs).alive.run
    (keeps_accessTo y)).run (keeps_emitWith access.set access.operand)).run (keeps_emit .pop)
  obtain ⟨us, rfl, -⟩ := expect_mark_inv (hr1 _ _ ((keeps_expect _ _).not_failed hf)) (h1 _ _)
    (by decide) hf
  exact ⟨x, us, rfl⟩

theorem readStatement_inv (hr : Ready s) (hs : Stream s (TokenKind.read.mark :: ws))
    (hf : ¬Failed (readStatement.run s.advance).2) :
    Recognized s (TokenKind.read.mark :: ws) (readStatement.run s.advance) := by
  have hr0 := ready_advance hr hs
  have hf' := hf
  rw [readStatement, run_bind] at hf'
  have hf1 := keeps_readTarget.not_failed hf'
  obtain ⟨form, us, rfl, hx⟩ := readForm_inv hr0 hs.advance hf1
  rw [hx] at hf' hf1
  obtain ⟨x, us, rfl⟩ := readTarget_inv ((ready_advance hr0 hs.advance).alive.run (keeps_emit _) hf1)
    (hs.advance.advance.of_same (keeps_emit _ _)) hf'
  refine ⟨.read form x, us, rfl, trivial, trivial, ?_⟩
  rw [run_readStatement form x hs.advance]
  simp only [Decl.write, run_bind, run_advance]

theorem outStatement_inv (hr : Ready s) (hs : Stream s (TokenKind.out.mark :: ws)) (hn : ws.length ≤ n)
    (hf : ¬Failed ((outStatement n).run s.advance).2) :
    Recognized s (TokenKind.out.mark :: ws) ((outStatement n).run s.advance) := by
  rw [outStatement, run_bind] at hf ⊢
  have hf1 := (keeps_outValue n).not_failed hf
  have hr1 := (ready_advance hr hs).alive.run keeps_checkInFunction hf1
  have h1 := hs.advance.of_same (keeps_checkInFunction _)
  rw [outValue, run_bind] at hf ⊢
  by_cases hc : headKind ws = .outEnd
  · cases ws with
    | nil => exact absurd hc (by decide)
    | cons w ws =>
      obtain rfl := h1.eq_mark hc rfl
      rw [run_accept_of_eq h1.mark]
      refine ⟨.out none, ws, rfl, trivial, trivial, ?_⟩
      simp only [Decl.write, run_bind, run_advance, if_true]
      exact run_unit _ _
  · rw [run_accept_of_ne (h1.kind ▸ hc), if_neg Bool.false_ne_true] at hf ⊢
    rw [run_bind, run_bind] at hf ⊢
    have hf2 := (keeps_emit _).not_failed hf
    have hf3 := (keeps_expect _ _).not_failed hf2
    obtain ⟨e, us, rfl, hw, hstop, he⟩ := expression_inv hr1 h1 hn hf3
    rw [he] at hf hf2 hf3 ⊢
    obtain ⟨us, rfl, hx⟩ := expect_mark_inv ((keeps_write_expr e).ready hr1 hf3)
      (reads_write_expr e _ _ h1) (by decide) hf2
    rw [hx]
    refine ⟨.out (some e), us, ?_, hw, hstop, ?_⟩
    · simp [Decl.words]
    · simp only [Decl.write, run_bind, run_advance]
      exact run_unit _ _

theorem variableDeclaration_inv (hr : Ready s) (hs : Stream s (TokenKind.var.mark :: ws))
    (hn : ws.length ≤ n) (hf : ¬Failed ((variableDeclaration n).run s.advance).2) :
    Recognized s (TokenKind.var.mark :: ws) ((variableDeclaration n).run s.advance) := by
  have hr0 := ready_advance hr hs
  rw [variableDeclaration, run_bind, run_bind] at hf ⊢
  have hf1 := (keeps_settleVariable _).not_failed hf
  have hf2 := (keeps_initializer n).not_failed hf1
  obtain ⟨x, us, rfl⟩ := readNewName_inv hr0 hs.advance hf2
  have hr1 := (keeps_readNewName _).ready hr0 hf2
  rw [run_readNewName hs.advance] at hf hf1 hr1 ⊢
  have h1 := reads_writeNewName x _ _ hs.advance
  rw [initializer, run_bind] at hf hf1 ⊢
  by_cases hc : headKind us = .assign
  · cases us with
    | nil => exact absurd hc (by decide)
    | cons w us =>
      obtain rfl := h1.eq_mark hc rfl
      rw [run_accept_of_eq h1.mark, if_pos rfl] at hf hf1 ⊢
      have hlen : us.length ≤ n := Nat.le_of_succ_le (Nat.le_of_succ_le hn)
      obtain ⟨e, us, rfl, hw, hstop, he⟩ := expression_inv (ready_advance hr1 h1) h1.advance hlen hf1
      rw [he]
      refine ⟨.var x (some e), us, rfl, hw, hstop, ?_⟩
      simp only [Decl.write, run_bind, run_advance]
      exact run_unit _ _
  · rw [run_accept_of_ne (h1.kind ▸ hc), if_neg Bool.false_ne_true]
    refine ⟨.var x none, us, rfl, trivial, trivial, ?_⟩
    simp only [Decl.write, run_bind, run_advance]
    exact run_unit _ _

theorem functionDeclaration_inv (ih : RecognizesBody n) (hr : Ready s)
    (hs : Stream s (TokenKind.fun_.mark :: ws)) (hn : ws.length ≤ n)
    (hf : ¬Failed ((functionDeclaration n (declarations n)).run s.advance).2) :
    Recognized s (TokenKind.fun_.mark :: ws)
      ((functionDeclaration n (declarations n)).run s.advance) := by
  have hr0 := ready_advance hr hs
  rw [functionDeclaration] at hf ⊢
  simp only [run_bind] at hf ⊢
  have hf1 := (keeps_settleVariable _).not_failed hf
  have hf2 := keeps_bringInScope.not_failed
    ((keeps_functionBody (keeps_parameterList n) (keeps_declarations n)).not_failed hf1)
  obtain ⟨x, us, rfl⟩ := readNewName_inv hr0 hs.advance hf2
  have hr1 := ((keeps_readNewName _).ready hr0 hf2).alive.run keeps_bringInScope
    ((keeps_functionBody (keeps_parameterList n) (keeps_declarations n)).not_failed hf1)
  rw [run_readNewName hs.advance] at hf hf1 hr1 ⊢
  have h1 := (reads_writeNewName x _ _ hs.advance).of_same (keeps_bringInScope _)
  have hx : (bringInScope.run ((Decl.writeNewName x).run s.advance).2).2.previous.lexeme = x := by
    rw [(keeps_bringInScope (r := SameTokens) _).previous, previous_writeNewName]
    exact (Token.of_word_eq rfl hs.advance.word).2
  have hf' := hf1
  rw [functionBody, run_bind, run_bind, run_bind] at hf'
  have hf3 := Keeps.not_failed (keeps_finishFunction.bind fun _ =>
    (keeps_modify_draft _).seq (keeps_emitConstant _)) hf'
  have hf4 := (keeps_expect _ _).not_failed hf3
  have hf5 := (keeps_declarations n).not_failed hf4
  obtain ⟨xs, us, rfl⟩ := functionHead_inv hx hr1 h1 (Nat.le_of_succ_le hn) hf5
  have hlen := length_le_nameWords xs
  simp only [List.length_append, List.length_cons] at hn
  have hhead := run_functionHead (n := n) x xs hx (by omega) h1
  have h2 := reads_writeHead x xs _ us (by simpa using h1)
  rw [hhead] at hf3 hf4 hf5
  have hr2 := (keeps_writeHead x xs).ready hr1 hf5
  obtain ⟨ds, us, rfl, -, hw, he, hrun⟩ := ih _ _ hr2 h2 (by omega) hf4
  rw [hrun] at hf3 hf4
  obtain ⟨us, rfl, -⟩ := expect_mark_inv ((keeps_writeList ds).ready hr2 hf4)
    (reads_writeList ds _ _ h2) (by decide) hf3
  refine ⟨.fun_ x xs ds, us, ?_, hw, he, ?_⟩
  · simp [Decl.words, BlockMark.enclosed, BlockMark.kind]
  · rw [(upToMistake_functionBody x xs hx (by omega) (.of_eq hrun) (reads_writeList ds) h1).eq hf1]
    simp only [Decl.write, run_bind, run_advance]
    exact run_unit _ _

theorem block_inv (mark : BlockMark) (ih : RecognizesBody n) (hr : Ready s)
    (hs : Stream s (mark.kind.mark :: ws)) (hn : ws.length ≤ n)
    (hf : ¬Failed ((blockInScope (declarations n)).run s.advance).2) :
    Recognized s (mark.kind.mark :: ws) ((blockInScope (declarations n)).run s.advance) := by
  obtain ⟨ds, us, rfl, hw, he, hrun⟩ := blockInScope_inv ih (ready_advance hr hs) hs.advance hn hf
  rw [hrun]
  refine ⟨.block mark ds, us, ?_, hw, he, ?_⟩
  · simp [Decl.words, BlockMark.enclosed]
  · simp only [Decl.write, run_bind, run_advance]

/-! ### Declarations -/

theorem signed_inv (ih : RecognizesBody n) {w : Word} {a : Action Unit} (hr : Ready s)
    (hs : Stream s (w :: ws)) (hn : ws.length ≤ n) (ha : signed? n (declarations n) w.kind = some a)
    (hf : ¬Failed (a.run s.advance).2) : Recognized s (w :: ws) (a.run s.advance) := by
  obtain ⟨k, text⟩ := w
  have hm : ∀ {k'}, k = k' → k'.varies = false → (⟨k, text⟩ : Word) = k'.mark := hs.eq_mark
  cases k <;> simp only [signed?, Option.some.injEq, reduceCtorEq] at ha <;> subst ha
  case fun_ => rw [hm rfl rfl] at hs ⊢; exact functionDeclaration_inv ih hr hs hn hf
  case var => rw [hm rfl rfl] at hs ⊢; exact variableDeclaration_inv hr hs hn hf
  case print => rw [hm rfl rfl] at hs ⊢; exact printStatement_inv hr hs hn hf
  case read => rw [hm rfl rfl] at hs ⊢; exact readStatement_inv hr hs hf
  case if_ => rw [hm rfl rfl] at hs ⊢; exact ifStatement_inv ih hr hs hn hf
  case loop => rw [hm rfl rfl] at hs ⊢; exact loopStatement_inv ih hr hs hn hf
  case out => rw [hm rfl rfl] at hs ⊢; exact outStatement_inv hr hs hn hf
  case leftBracket => rw [hm rfl rfl] at hs ⊢; exact block_inv .bracket ih hr hs hn hf
  case blockStart => rw [hm rfl rfl] at hs ⊢; exact block_inv .colon ih hr hs hn hf

theorem declaration_inv (ih : RecognizesBody n) (hr : Ready s) (hs : Stream s ws)
    (hn : ws.length ≤ n + 1) (hf : ¬Failed ((declaration n (declarations n)).run s).2) :
    Recognized s ws ((declaration n (declarations n)).run s) := by
  cases ha : signed? n (declarations n) s.current.kind with
  | none =>
    rw [run_declaration_unsigned ha] at hf ⊢
    have hf1 := (keeps_recover n).not_failed hf
    have hf2 := (keeps_emit _).not_failed hf1
    obtain ⟨e, us, rfl, hw, hstop, he⟩ := expression_inv hr hs hn hf2
    rw [he] at hf1 hf2 ⊢
    rw [run_recover ((keeps_write_expr e).ready hr hf2 |>.alive.run (keeps_emit _) hf1)]
    refine ⟨.expression e, us, rfl, hw, hstop, ?_⟩
    rw [Decl.run_write_expression]
  | some a =>
    rw [run_declaration_signed ha] at hf ⊢
    have hf1 := (keeps_recover n).not_failed hf
    cases ws with
    | nil => rw [hs.kind] at ha; cases ha
    | cons w ws =>
      have hready := (hr.alive.advance.run (keeps_signed (keeps_declarations n) n ha)) hf1
      rw [hs.kind] at ha
      rw [run_recover hready]
      exact signed_inv ih hr hs (Nat.le_of_succ_le_succ hn) ha hf1

theorem recognizesBody (n : Nat) : RecognizesBody n := by
  induction n with
  | zero =>
    intro s ws _ hs hn _
    obtain rfl := List.eq_nil_of_length_eq_zero (Nat.le_zero.1 hn)
    exact ⟨[], [], rfl, .inr rfl, trivial, trivial, rfl⟩
  | succ n ih =>
    intro s ws hr hs hn hf
    by_cases hend : AtEnd ws
    · have hk : s.current.kind = .blockEnd ∨ s.current.kind = .eof := by rw [hs.kind]; exact hend
      rw [declarations, run_bind, run_currentKind, if_pos hk]
      exact ⟨[], ws, rfl, hend, trivial, trivial, rfl⟩
    · have hk : ¬(s.current.kind = .blockEnd ∨ s.current.kind = .eof) := by rw [hs.kind]; exact hend
      rw [declarations, run_bind, run_currentKind, if_neg hk, run_bind] at hf ⊢
      have hf1 := (keeps_declarations n).not_failed hf
      obtain ⟨d, us, rfl, hw, he, hd⟩ := declaration_inv ih hr hs hn hf1
      rw [hd] at hf hf1 ⊢
      have hlen : us.length ≤ n := by
        have := words_pos d
        simp only [List.length_append] at hn
        omega
      obtain ⟨ds, us, rfl, hend, hws, hes, hrun⟩ := ih _ us ((keeps_write d).ready hr hf1)
        (reads_write d _ _ hs) hlen hf
      rw [hrun]
      refine ⟨d :: ds, us, ?_, hend, ⟨hw, hws⟩, ⟨he, hes⟩, rfl⟩
      simp [Decl.listWords]

/-! ### Whole sources -/

/-- A source that is compiled without a mistake follows the trees of a program. -/
theorem script_inv (hr : Ready s) (hs : Stream s ws) (hn : ws.length ≤ n)
    (hf : ¬Failed ((script n).run s).2) :
    ∃ ds : List Decl, ws = Decl.listWords ds ∧ Decl.ListWellFormed ds ∧
      Decl.ListEach Stopped ds [] ∧
      (script n).run s = ((), State.advance ((Decl.writeList ds).run s).2) := by
  induction n generalizing s ws with
  | zero =>
    obtain rfl := List.eq_nil_of_length_eq_zero (Nat.le_zero.1 hn)
    exact ⟨[], rfl, trivial, trivial, rfl⟩
  | succ n ih =>
    rw [script, run_bind] at hf ⊢
    by_cases hk : s.current.kind = .eof
    · rw [run_accept_of_eq hk]
      exact ⟨[], hs.eq_nil hk, trivial, trivial, rfl⟩
    · rw [run_accept_of_ne hk, if_neg Bool.false_ne_true, run_bind] at hf ⊢
      have hf1 := (keeps_script n).not_failed hf
      obtain ⟨d, us, rfl, hw, he, hd⟩ := declaration_inv (recognizesBody n) hr hs hn hf1
      rw [hd] at hf hf1 ⊢
      have hlen : us.length ≤ n := by
        have := words_pos d
        simp only [List.length_append] at hn
        omega
      obtain ⟨ds, rfl, hws, hes, hrun⟩ := ih ((keeps_write d).ready hr hf1) (reads_write d _ _ hs)
        hlen hf
      rw [hrun]
      refine ⟨d :: ds, rfl, ⟨hw, hws⟩, ⟨?_, hes⟩, rfl⟩
      rwa [List.append_nil]

/-- The words of a program are compiled as its trees say, up to the first mistake. -/
theorem follows_script (ds : List Decl) (hw : Decl.ListWellFormed ds) (he : Decl.ListEach Stopped ds [])
    (ha : Alive s) (hs : Stream s (Decl.listWords ds)) (hn : (Decl.listWords ds).length ≤ n) :
    UpToMistake ((script n).run s) ((Decl.writeList ds >>= fun _ => advance).run s) := by
  induction n generalizing s ds with
  | zero =>
    cases ds with
    | nil => exact .of_eq rfl
    | cons d ds =>
      have := words_pos d
      simp only [Decl.listWords, List.length_append] at hn
      omega
  | succ n ih =>
    rw [script, run_bind]
    cases ds with
    | nil =>
      have hk : s.current.kind = .eof := hs.kind
      rw [run_accept_of_eq hk]
      exact .of_eq rfl
    | cons d ds =>
      have hk : s.current.kind ≠ .eof := by
        rw [hs.kind]
        exact fun h => not_atEnd_words d _ (.inr h)
      have hlen : (Decl.listWords ds).length ≤ n := by
        have := words_pos d
        simp only [Decl.listWords, List.length_append] at hn
        omega
      have hb : Behind (Decl.listWords ds) := by
        simpa using behind_listWords ds (show AtEnd [] from .inr rfl)
      have he1 := he.1
      rw [List.append_nil] at he1
      have hd := follows_declaration d hw.1 n s _ he1 hb ha hs hn
      rw [run_accept_of_ne hk, if_neg Bool.false_ne_true, Decl.writeList]
      exact hd.bind (g := fun _ => Decl.writeList ds >>= fun _ => advance) fun _ =>
        ih ds hw.2 he.2 (ha.run (keeps_write d)) (reads_write d _ _ hs) hlen

end StackScript.Compiler
