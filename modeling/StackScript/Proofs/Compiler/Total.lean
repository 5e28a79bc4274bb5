import StackScript.Proofs.Compiler.Intact

/-! Every part of the grammar leads from an intact state to an intact state, whatever tokens it finds: scopes
are left that have been entered, jumps are closed that have been opened, and the code of every function can
be listed. -/
namespace StackScript.Compiler
variable {s t : State}

/-! ### Constants -/

/-- A constant has been added that can be shown, and it may be that of a name. -/
theorem steady_addConstant {v : Value} {i : UInt8} {b : Bytecode} {names : List (Symbol × UInt8)}
    (h : s.draft.bytecode.addConstant? v = some (i, b)) (hv : s.store.Shows v)
    (hn : ∀ p ∈ names, p ∈ s.draft.names ∨ p.2 = i) :
    Steady s { s with draft := { s.draft with bytecode := b, names } } ∧ i.toNat < b.constants.size := by
  by_cases hr : s.draft.bytecode.constants.size < Bytecode.maxConstants
  · rw [addConstant?_of_lt hr] at h
    obtain ⟨rfl, rfl⟩ := Prod.mk.inj (Option.some.inj h)
    have hsize : s.draft.bytecode.constants.size.toUInt8.toNat = s.draft.bytecode.constants.size :=
      UInt8.toNat_ofNat_of_lt' hr
    have hpush : (s.draft.bytecode.constants.push v).size = s.draft.bytecode.constants.size + 1 :=
      Array.size_push v
    refine ⟨fun hi => ⟨⟨hi.defect, ⟨hi.tokens.1, hi.tokens.2, hi.tokens.3⟩, ?_⟩, rfl, rfl, ?_, Nat.le_refl _,
      .of_code_eq rfl, .refl _, id⟩, ?_⟩
    · obtain ⟨is, his, hknown⟩ := hi.draft.code
      refine ⟨⟨is, ⟨his.code, his.fits⟩, fun j hj hop => ?_⟩, hi.draft.lined.of_eq rfl rfl, fun w hw => ?_,
        fun p hp => ?_, hi.draft.name⟩
      · exact Nat.lt_of_lt_of_le (hknown j hj hop) (by simp)
      · rcases Array.mem_push.1 hw with hw | rfl
        · exact hi.draft.shown w hw
        · exact hv
      · rcases hn p hp with hp | hp
        · exact Nat.lt_of_lt_of_le (hi.draft.names p hp) (by simp)
        · simp [hp, hsize]
    · simp
    · simp [hsize]
  · rw [addConstant?_of_not_lt hr] at h
    cases h

/-- If no more constants can be added there are some. -/
theorem pos_of_addConstant? {b : Bytecode} {v : Value} (h : b.addConstant? v = none) :
    0 < b.constants.size := by
  by_cases hr : b.constants.size < Bytecode.maxConstants
  · rw [addConstant?_of_lt hr] at h
    cases h
  · exact Nat.lt_of_lt_of_le (show 0 < Bytecode.maxConstants by decide) (Nat.le_of_not_lt hr)

theorem lasts_shows (v : Value) : Lasts fun s => s.store.Shows v := fun h hs => hs.mono h.store

/-- An action that adds a constant, or reports that there is no room for it. -/
theorem gives_adding {v : Value} {a : Action UInt8} (hv : s.store.Shows v)
    (hsome : ∀ i b, s.draft.bytecode.addConstant? v = some (i, b) →
      ∃ names, (∀ p ∈ names, p ∈ s.draft.names ∨ p.2 = i) ∧
        a.run s = (i, { s with draft := { s.draft with bytecode := b, names } }))
    (hnone : s.draft.bytecode.addConstant? v = none → a.run s = (0, ((mistake .tooManyConstants).run s).2)) :
    Steady s (a.run s).2 ∧ (a.run s).1.toNat < (a.run s).2.draft.bytecode.constants.size := by
  cases h : s.draft.bytecode.addConstant? v with
  | some added =>
    obtain ⟨i, b⟩ := added
    obtain ⟨names, hn, hrun⟩ := hsome i b h
    rw [hrun]
    exact steady_addConstant h hv hn
  | none =>
    rw [hnone h]
    refine ⟨steady_mistake _ s, ?_⟩
    have hdraft : ((mistake .tooManyConstants).run s).2.draft = s.draft := by
      change (s.report _ _ _).draft = s.draft
      unfold State.report
      split <;> rfl
    rw [hdraft]
    exact pos_of_addConstant? h

theorem gives_poolConstant (v : Value) :
    Gives (fun s => s.store.Shows v) (poolConstant v) (Names .constant) := by
  intro s hv
  have h : Steady s ((poolConstant v).run s).2 ∧ _ := gives_adding hv (fun i b hb => ?_) fun hb => ?_
  · exact ⟨h.1, fun _ _ => h.2⟩
  · refine ⟨s.draft.names, fun p hp => .inl hp, ?_⟩
    rw [poolConstant, run_bind, run_get, hb]
    rfl
  · rw [poolConstant, run_bind, run_get, hb]
    rfl

theorem steady_emitConstant (v : Value) : KeepsFrom (fun s => s.store.Shows v) (emitConstant v) :=
  .give (lasts_shows v) (gives_poolConstant v) fun i => (steady_emitWith rfl i).mono And.right

/-- A constant that holds a value with nothing to look up can be shown. -/
theorem steady_emitPlainConstant {v : Value} (h : ∀ s : Store, s.Shows v) : Keeps Steady (emitConstant v) :=
  fun s => steady_emitConstant v s (h s.store)

theorem gives_symbolConstant (a : Symbol) :
    Gives (fun s => (s.store.text? a).isSome) (symbolConstant a) fun i s =>
      i.toNat < s.draft.bytecode.constants.size := by
  intro s ha
  rw [symbolConstant, run_bind, run_get]
  cases hl : s.draft.names.lookup a with
  | some i =>
    refine ⟨Std.Refl.refl s, fun hi => ?_⟩
    obtain ⟨before, after, hnames, -⟩ := List.lookup_eq_some_iff.1 hl
    exact hi.draft.names (a, i) (by rw [hnames]; simp)
  | none =>
    have h : Steady s ((newNameConstant a).run s).2 ∧ _ :=
      gives_adding (v := .string a) ha (fun i b hb => ?_) fun hb => ?_
    · exact ⟨h.1, fun _ => h.2⟩
    · refine ⟨(a, i) :: s.draft.names, fun p hp => ?_, ?_⟩
      · rcases List.mem_cons.1 hp with rfl | hp
        · exact .inr rfl
        · exact .inl hp
      · rw [newNameConstant, run_bind, run_get, hb]
        rfl
    · rw [newNameConstant, run_bind, run_get, hb]
      rfl

theorem gives_nameConstant {p : State → Prop} (x : String) :
    Gives p (nameConstant x) fun i s => i.toNat < s.draft.bytecode.constants.size := by
  intro s hs
  obtain ⟨h, ha⟩ := gives_intern x s hs
  refine ⟨fun hi => ?_, fun hi => ?_⟩
  · obtain ⟨ht, hst⟩ := h hi
    obtain ⟨hu, htu⟩ := (gives_symbolConstant _ _ (ha hi)).1 ht
    exact ⟨hu, hst.trans htu⟩
  · exact (gives_symbolConstant _ _ (ha hi)).2 (h hi).1

/-! ### Variables -/

/-- Both ways to use a variable are instructions that name a constant that is there, or none. -/
structure Usable (a : Access) (s : State) : Prop where
  getWidth : a.get.width = 1
  setWidth : a.set.width = 1
  get : Names a.get a.operand s
  set : Names a.set a.operand s

theorem lasts_usable (a : Access) : Lasts (Usable a) := fun h hs =>
  ⟨hs.getWidth, hs.setWidth, lasts_names _ _ h hs.get, lasts_names _ _ h hs.set⟩

theorem steady_checkInitialized (v : Local) : Keeps Steady (checkInitialized v) :=
  .ite _ (steady_mistake _) (.pure _)

theorem gives_accessTo {p : State → Prop} (x : String) : Gives p (accessTo x) Usable := by
  intro s hs
  rw [accessTo, run_bind, run_get]
  cases Draft.findLocal? x s.draft.locals with
  | some found =>
    refine ⟨(steady_checkInitialized found.2).seq (.pure _) s, fun _ => ⟨rfl, rfl, ?_, ?_⟩⟩
    · exact names_of_not rfl _ _
    · exact names_of_not rfl _ _
  | none =>
    obtain ⟨h, hi⟩ := gives_nameConstant x s hs
    exact ⟨h, fun hs => ⟨rfl, rfl, fun _ => hi hs, fun _ => hi hs⟩⟩

theorem steady_get (a : Access) : KeepsFrom (Usable a) (emitWith a.get a.operand) :=
  fun s hs => steady_emitWith hs.getWidth _ s hs.get

theorem steady_set (a : Access) : KeepsFrom (Usable a) (emitWith a.set a.operand) :=
  fun s hs => steady_emitWith hs.setWidth _ s hs.set

theorem intact_draft {d : Draft} (h : Intact s) (hd : Coherent d s.store) : Intact { s with draft := d } :=
  ⟨h.defect, ⟨h.tokens.1, h.tokens.2, h.tokens.3⟩, hd⟩

/-- The variables in scope are nothing that the code depends on. -/
theorem coherent_draft {d d' : Draft} {store : Store} (h : Coherent d store) (hb : d'.bytecode = d.bytecode)
    (hn : d'.names = d.names) (hname : d'.name = d.name) : Coherent d' store :=
  ⟨hb ▸ h.code, hb ▸ h.lined, hb ▸ h.shown, hn ▸ hb ▸ h.names, hname ▸ h.name⟩

theorem steady_draft {d : Draft} (hb : d.bytecode = s.draft.bytecode) (hn : d.names = s.draft.names)
    (hname : d.name = s.draft.name) (hd : d.depth = s.draft.depth) : Steady s { s with draft := d } := by
  intro h
  refine ⟨intact_draft h (coherent_draft h.draft hb hn hname), hname, hd, ?_, ?_, .of_code_eq ?_, .refl _, id⟩
  all_goals rw [hb]

theorem steady_checkNew (x : String) : Keeps Steady (checkNew x) :=
  Keeps.get.bind fun _ => .ite _ (steady_mistake _) (.pure _)

theorem steady_addLocal (x : String) : Keeps Steady (addLocal x) :=
  Keeps.get.bind fun _ => .ite _ (steady_mistake _) (.modify fun _ => steady_draft rfl rfl rfl rfl)

theorem steady_declareLocal (x : String) : Keeps Steady (declareLocal x) :=
  Keeps.get.bind fun _ => .ite _ ((steady_checkNew x).seq (steady_addLocal x)) (.pure _)

theorem steady_bringInScope : Keeps Steady bringInScope := by
  refine .modify fun s => ?_
  split
  · unfold Draft.bringInScope
    split <;> exact steady_draft rfl rfl rfl rfl
  · exact Std.Refl.refl s

/-- Outside all scopes the constant that a new variable is defined by is there. -/
def Settleable (i : UInt8) (s : State) : Prop := s.draft.depth = 0 → Names .defineGlobal i s

theorem lasts_settleable (i : UInt8) : Lasts (Settleable i) :=
  fun h hs hd => lasts_names _ _ h (hs (h.depth ▸ hd))

theorem gives_readNewName {p : State → Prop} (what : Expectation) :
    Gives p (readNewName what) Settleable := by
  intro s _
  have h : Keeps Steady (expect .ident what >>= fun _ => previousToken >>= fun t => declareLocal t.lexeme) :=
    Keeps.seq (closed_expect (fun _ => Keeps Steady) _ _) <| steady_previousToken.bind fun t =>
      steady_declareLocal t.lexeme
  have hrun : (readNewName what).run s = (do
      if 0 < (← get).draft.depth then return 0
      nameConstant (← previousToken).lexeme : Action UInt8).run
        ((expect .ident what >>= fun _ => previousToken >>= fun t => declareLocal t.lexeme).run s).2 := rfl
  rw [hrun, run_bind, run_get]
  generalize hu : ((expect .ident what >>= fun _ => previousToken >>= fun t => declareLocal t.lexeme).run s).2 = u
  have hsu : Steady s u := hu ▸ h s
  by_cases hd : 0 < u.draft.depth
  · rw [if_pos hd]
    exact ⟨hsu, fun _ hz => absurd hz (Nat.ne_of_gt hd)⟩
  · rw [if_neg hd]
    obtain ⟨hsteady, hi⟩ := gives_nameConstant (p := fun _ => True) u.previous.lexeme u trivial
    exact ⟨IsTrans.trans _ _ _ hsu hsteady, fun hs _ _ => hi (hsu hs).1⟩

theorem steady_settleVariable (i : UInt8) : KeepsFrom (Settleable i) (settleVariable i) := by
  intro s hs
  rw [settleVariable, run_bind, run_get]
  by_cases hd : 0 < s.draft.depth
  · rw [if_pos hd]
    exact steady_bringInScope s
  · rw [if_neg hd]
    exact steady_emitWith rfl i s (hs (Nat.eq_zero_of_not_pos hd))

/-- A variable is settled after its first value, whatever writes that. -/
theorem steady_newVariable {what : Expectation} {first : Action Unit} (h : Keeps Steady first) :
    Keeps Steady (readNewName what >>= fun i => first >>= fun _ => settleVariable i) :=
  .give (gives_readNewName what) fun i => .bind (lasts_settleable i) (.of_keeps h) fun _ =>
    steady_settleVariable i

/-! ### Expressions -/

theorem steady_literal {k : TokenKind} {o : Operand} (ho : operand? k = some o) (op : Opcode)
    (h : o = .unary op ∨ o = .literal op) : op.width = 0 := by
  rcases h with rfl | rfl <;> cases k <;> cases ho <;> rfl

section Parse
variable {parse : Level → Action Unit} (h : ∀ l, Keeps Steady (parse l))
include h

/-- The rest of an operand, behind its first token. -/
theorem steady_operand (canAssign : Bool) (o : Operand) :
    KeepsFrom (fun s => operand? s.previous.kind = some o) (operand parse canAssign o) := by
  cases o with
  | group => exact .of_keeps ((h _).seq (closed_expect (fun _ => Keeps Steady) _ _))
  | unary op =>
    exact fun s hs => (h _).seq (steady_emit (steady_literal hs op (.inl rfl))) s
  | «variable» =>
    refine .of_keeps (steady_previousToken.bind fun t => .give (gives_accessTo _) fun a => ?_)
    refine .bind (lasts_usable a) (.of_keeps (closed_acceptAssign (fun _ => Keeps Steady) _)) fun b => ?_
    refine .ite _ (.bind (lasts_usable a) (.of_keeps (h _)) fun _ => steady_set a) (steady_get a)
  | string =>
    intro s hs hi
    have hk : s.previous.kind = .string := by
      revert hs
      cases s.previous.kind <;> simp [operand?]
    have hlen := hi.tokens.previous (.inl hk)
    have hrest : Keeps Steady (ensure (decide (2 ≤ s.previous.lexeme.toList.length)) .literalDelimited >>=
        fun _ => intern (String.ofList (Quoted.content s.previous.lexeme.toList)) >>= fun a =>
          emitConstant (.string a)) :=
      (steady_ensure (decide_eq_true hlen) _).seq (.give (gives_intern _) fun a s hs => steady_emitConstant
        (.string a) s hs)
    exact hrest s hi
  | number =>
    refine .of_keeps (steady_previousToken.bind fun t => ?_)
    split
    · exact steady_emitPlainConstant fun _ => rfl
    · exact steady_mistake _
  | char =>
    intro s hs hi
    have hk : s.previous.kind = .char := by
      revert hs
      cases s.previous.kind <;> simp [operand?]
    have hlen := hi.tokens.previous (.inr hk)
    have hrest : Keeps Steady (ensure (decide (2 ≤ s.previous.lexeme.toList.length)) .literalDelimited >>=
        fun _ => emitConstant (.char (charByte s.previous.lexeme.toList))) :=
      (steady_ensure (decide_eq_true hlen) _).seq (steady_emitPlainConstant fun _ => rfl)
    exact hrest s hi
  | escape byte => exact .of_keeps (steady_emitPlainConstant fun _ => rfl)
  | literal op => exact fun s hs => steady_emit (steady_literal hs op (.inr rfl)) s

/-- The right side of a short circuit is jumped over. -/
theorem steady_shortCircuit {op : Opcode} (hw : op.width = 2) (l : Level) :
    Keeps Steady (openJump op >>= fun skip => emit .pop >>= fun _ => parse l >>= fun _ => closeJump skip) :=
  .give (gives_openJump hw) fun skip => .bind (lasts_jumpAt skip) (.of_keeps (steady_emit rfl)) fun _ =>
    .bind (lasts_jumpAt skip) (.of_keeps (h l)) fun _ => steady_closeJump skip

theorem steady_operator {arguments : Action Nat} (ha : Keeps Steady arguments) {k : TokenKind} {o : Operator}
    (ho : operator? k = some o) : Keeps Steady (operator parse arguments o) := by
  cases o with
  | binary op level =>
    refine (h _).seq (steady_emit ?_)
    cases k <;> cases ho <;> rfl
  | and => exact steady_shortCircuit h rfl _
  | or => exact steady_shortCircuit h rfl _
  | call =>
    exact Keeps.bind (closed_argumentList (fun _ => Keeps Steady) ha) fun _ =>
      Keeps.seq (closed_expect (fun _ => Keeps Steady) _ _) (steady_emitPlain rfl rfl _)

theorem steady_expressionRest {operators : Action Unit} (ho : Keeps Steady operators) (level : Level) :
    Keeps Steady (expressionRest parse operators level) := by
  intro s
  rw [expressionRest, run_bind, run_previousToken]
  split
  · rename_i o hop
    have hrest : Keeps Steady (operators >>= fun _ => acceptAssign (decide (level ≤ .assignment)) >>=
        fun b => if b then mistake .invalidAssignTarget else pure ()) :=
      ho.seq <| Keeps.bind (closed_acceptAssign (fun _ => Keeps Steady) _) fun _ =>
        .ite _ (steady_mistake _) (.pure _)
    exact IsTrans.trans _ _ _ (steady_operand h (decide (level ≤ .assignment)) o s hop) (hrest _)
  · exact steady_mistake _ s

end Parse

/-! ### Statements -/

theorem steady_expect (k : TokenKind) (what : Expectation) : Keeps Steady (expect k what) :=
  closed_expect (fun _ => Keeps Steady) k what

/-- Behind a scope, before its variables are dropped. -/
def State.left (s : State) : State :=
  { s with draft := { s.draft with
      depth := s.draft.depth - 1
      locals := s.draft.locals.drop (Draft.leaving (s.draft.depth - 1) s.draft.locals) } }

theorem run_leaveScope (h : 0 < s.draft.depth) :
    leaveScope.run s = (emitPops (Draft.leaving (s.draft.depth - 1) s.draft.locals)).run s.left := by
  rw [leaveScope, run_bind, run_get, run_bind, run_ensure (decide_eq_true h), run_bind, run_modify]
  rfl

/-- The scope that is left at the end of a block is the one that was entered at its beginning. -/
theorem steady_blockInScope {body : Action Unit} (h : Keeps Steady body) :
    Keeps Steady (blockInScope body) := by
  intro s hi
  have hbody : Keeps Steady (body >>= fun _ => expect .blockEnd .blockEnd) := h.seq (steady_expect _ _)
  have hentered := intact_draft hi (d := { s.draft with depth := s.draft.depth + 1 })
    (coherent_draft hi.draft rfl rfl rfl)
  obtain ⟨ht, hst⟩ := hbody _ hentered
  have hrun : (blockInScope body).run s = leaveScope.run ((body >>= fun _ => expect .blockEnd .blockEnd).run
      { s with draft := { s.draft with depth := s.draft.depth + 1 } }).2 := rfl
  rw [hrun]
  generalize ((body >>= fun _ => expect .blockEnd .blockEnd).run
    { s with draft := { s.draft with depth := s.draft.depth + 1 } }).2 = t at ht hst
  have hpos : 0 < t.draft.depth := by
    rw [hst.depth]
    exact Nat.succ_pos _
  have hleft : Intact t.left := intact_draft ht (coherent_draft ht.draft rfl rfl rfl)
  rw [run_leaveScope hpos]
  obtain ⟨hu, htu⟩ := steady_emitPops (Draft.leaving (t.draft.depth - 1) t.draft.locals) t.left hleft
  refine ⟨hu, htu.name.trans hst.name, htu.depth.trans ?_, hst.constants.trans htu.constants, hst.size.trans htu.size,
    hst.code.trans htu.code, hst.store.trans htu.store, htu.lined ∘ hst.lined⟩
  change t.draft.depth - 1 = s.draft.depth
  rw [hst.depth]
  rfl

theorem steady_readTarget : Keeps Steady readTarget := by
  refine (steady_expect _ _).seq <| steady_previousToken.bind fun t => .give (gives_accessTo _) fun a => ?_
  exact .bind (lasts_usable a) (steady_set a) fun _ =>
    .of_keeps ((steady_emit rfl).seq (steady_expect _ _))

theorem gives_codeSize {p : State → Prop} : Gives p codeSize Covers :=
  fun s _ => ⟨steady_codeSize s, fun _ => Nat.le_refl _⟩

section Body
variable {n : Nat} {body : Action Unit} (he : Keeps Steady (expression n)) (hb : Keeps Steady body)
include he hb

theorem steady_ifStatement : Keeps Steady (ifStatement n body) := by
  have hblock := steady_blockInScope hb
  refine Keeps.seq he <| .give (gives_openJump rfl) fun past => ?_
  have hpast : Lasts (JumpAt past) := lasts_jumpAt past
  refine .bind hpast (.of_keeps (steady_emit rfl)) fun _ => .bind hpast (.of_keeps (steady_expect _ _)) fun _ =>
    .bind hpast (.of_keeps hblock) fun _ => .give hpast (gives_openJump rfl) fun beyond => ?_
  have hbeyond : Lasts (JumpAt beyond) := lasts_jumpAt beyond
  refine .bind (hpast.and hbeyond) ((steady_closeJump past).mono And.left) fun _ => KeepsFrom.mono And.right ?_
  exact .bind hbeyond (.of_keeps (steady_emit rfl)) fun _ =>
    .bind hbeyond (.of_keeps (closed_elsePart (fun _ => Keeps Steady) hblock)) fun _ => steady_closeJump beyond

theorem steady_loopStatement : Keeps Steady (loopStatement n body) := by
  refine .give gives_codeSize fun start => ?_
  have hstart : Lasts (Covers start) := lasts_covers start
  refine .bind hstart (.of_keeps he) fun _ => .give hstart (gives_openJump rfl) fun exit => ?_
  have hboth : Lasts fun s => Covers start s ∧ JumpAt exit s := hstart.and (lasts_jumpAt exit)
  refine .bind hboth (.of_keeps (steady_emit rfl)) fun _ => .bind hboth (.of_keeps (steady_expect _ _)) fun _ =>
    .bind hboth (.of_keeps (steady_blockInScope hb)) fun _ =>
      .bind hboth ((steady_emitBackJump start).mono And.left) fun _ => KeepsFrom.mono And.right ?_
  exact .bind (lasts_jumpAt exit) (steady_closeJump exit) fun _ => .of_keeps (steady_emit rfl)

end Body

/-! ### Functions -/

/-- What has been compiled of a function can be listed at any time. -/
theorem Intact.isSome_listing (h : Intact s) : (listing? s.store s.draft.toFunction).isSome := by
  obtain ⟨is, his, hknown⟩ := h.draft.code
  have hlisting := fun title => his.isSome_listing hknown h.draft.shown title
  unfold listing?
  cases hn : s.draft.toFunction.name with
  | none => exact hlisting _
  | some a =>
    obtain ⟨x, hx⟩ := Option.isSome_iff_exists.1 (h.draft.name a hn)
    simp only [hx]
    exact hlisting x

theorem steady_listFunction : Keeps Steady listFunction := by
  intro s hi
  rw [listFunction, run_bind, run_get]
  split
  · have hlist : Keeps Steady (ensure (listing? s.store s.draft.toFunction).isSome .listable >>= fun _ =>
        modify fun t => { t with listing := t.listing ++ (listing? s.store s.draft.toFunction).getD "" }) :=
      (steady_ensure hi.isSome_listing _).seq <| .modify fun t =>
        steady_of_draft_eq rfl (.refl _) (fun _ => id) rfl fun h => ⟨h.1, h.2, h.3⟩
    exact hlist s hi
  · exact (Std.Refl.refl s : Steady s s) hi

theorem gives_addFunction {p : State → Prop} :
    Gives p addFunction fun r s => s.store.Shows (.function r) := by
  intro s _
  refine ⟨steady_with_store s (.of_addFunction _ _) fun hi hlined => hlined.addFunction hi.draft.lined, fun hi => ?_⟩
  change (Option.isSome (Option.bind ((s.store.addFunction s.draft.toFunction).2.function?
    (s.store.addFunction s.draft.toFunction).1) _))
  have hf : (s.store.addFunction s.draft.toFunction).2.function? (s.store.addFunction s.draft.toFunction).1 =
      some s.draft.toFunction := by simp [Store.addFunction, Store.function?]
  rw [hf, Option.bind_some, Store.functionText?]
  cases hn : s.draft.toFunction.name with
  | none => rfl
  | some a =>
    obtain ⟨x, hx⟩ := Option.isSome_iff_exists.1 (hi.draft.name a hn)
    have hx' : (s.store.addFunction s.draft.toFunction).2.text? a = some x := hx
    simp only
    rw [show (addFunction.run s).2.store.text? a = some x from hx']
    rfl

theorem gives_finishFunction {p : State → Prop} :
    Gives p finishFunction fun r s => s.store.Shows (.function r) := by
  intro s hs
  have h : Keeps Steady (emitReturn >>= fun _ => listFunction) := steady_emitReturn.seq steady_listFunction
  obtain ⟨hadd, hshows⟩ := gives_addFunction (p := fun _ => True) ((emitReturn >>= fun _ => listFunction).run s).2
    trivial
  exact ⟨IsTrans.trans _ _ _ (h s) hadd, fun hi => hshows (h s hi).1⟩

theorem coherent_empty {d : Draft} {store : Store} (hb : d.bytecode = {}) (hn : d.names = [])
    (hname : ∀ a, d.name = some a → (store.text? a).isSome) : Coherent d store := by
  refine ⟨⟨[], ?_, .nil⟩, ?_, ?_, ?_, hname⟩
  · rw [hb]
    exact ⟨rfl, by simp⟩
  · rw [hb]
    exact Bytecode.isLined_empty
  · simp [hb]
  · simp [hn]

/-- A new function is intact up to its body, and the one around it is given back. -/
theorem functionHead_intact {n : Nat} (hp : Keeps Steady (parameterList n)) (hi : Intact s) :
    ∃ u, (functionHead n).run s = (s.draft, u) ∧ Intact u ∧ s.store.Extends u.store ∧
      (s.store.IsLined → u.store.IsLined) := by
  obtain ⟨hintern, htext⟩ := gives_intern (p := fun _ => True) s.previous.lexeme s trivial
  obtain ⟨ht, hst⟩ := hintern hi
  have hrest : Keeps Steady (expect .leftParen .parametersStart >>= fun _ => parameterList n >>= fun count =>
      setArity count >>= fun _ => expect .rightParen .parametersEnd >>= fun _ =>
        expect .blockStart .functionBlock >>= fun _ => pure s.draft) :=
    (steady_expect _ _).seq <| hp.bind fun _ => Keeps.seq (.modify fun _ => steady_draft rfl rfl rfl rfl) <|
      (steady_expect _ _).seq <| (steady_expect _ _).seq (.pure _)
  have hbegun : Intact { ((intern s.previous.lexeme).run s).2 with
      draft := { name := some ((intern s.previous.lexeme).run s).1, depth := 1 } } := by
    refine intact_draft ht (coherent_empty rfl rfl ?_)
    rintro _ ⟨⟩
    exact htext hi
  obtain ⟨hu, htu⟩ := hrest _ hbegun
  refine ⟨_, ?_, hu, hst.store.trans htu.store, htu.lined ∘ hst.lined⟩
  rw [functionHead, run_bind, run_previousToken, run_bind, run_bind, run_bind]
  simp only [run_bind, run_pure]
  rfl

/-- The function around another one is as it was when that one ends. -/
theorem steady_functionBody {n : Nat} {body : Action Unit} (hp : Keeps Steady (parameterList n))
    (hb : Keeps Steady body) : Keeps Steady (functionBody n body) := by
  intro s hi
  obtain ⟨u, hhead, hu, hsu, hlined⟩ := functionHead_intact hp hi
  have hrest : Keeps Steady (body >>= fun _ => expect .blockEnd .blockEnd) := hb.seq (steady_expect _ _)
  obtain ⟨hv, huv⟩ := hrest u hu
  obtain ⟨hfinish, hshows⟩ := gives_finishFunction (p := fun _ => True)
    ((body >>= fun _ => expect .blockEnd .blockEnd).run u).2 trivial
  obtain ⟨hw, hvw⟩ := hfinish hv
  have hstore := hsu.trans (huv.store.trans hvw.store)
  rw [functionBody, run_bind, hhead]
  have hrun : (body >>= fun _ => expect .blockEnd .blockEnd >>= fun _ => finishFunction >>= fun r =>
      (modify fun w => { w with draft := s.draft }) >>= fun _ => emitConstant (.function r)).run u =
        (finishFunction >>= fun r => (modify fun w => { w with draft := s.draft }) >>= fun _ =>
          emitConstant (.function r)).run ((body >>= fun _ => expect .blockEnd .blockEnd).run u).2 := rfl
  rw [hrun, run_bind, run_bind, run_modify]
  generalize finishFunction.run ((body >>= fun _ => expect .blockEnd .blockEnd).run u).2 = done
    at hw hvw hshows hstore
  obtain ⟨r, w⟩ := done
  have hrestored : Intact { w with draft := s.draft } := intact_draft hw (hi.draft.mono hstore)
  have hsw : Continues s { w with draft := s.draft } :=
    ⟨rfl, rfl, Nat.le_refl _, Nat.le_refl _, .of_code_eq rfl, hstore, hvw.lined ∘ huv.lined ∘ hlined⟩
  obtain ⟨hx, hwx⟩ := steady_emitConstant (.function r) { w with draft := s.draft } (hshows hv) hrestored
  exact ⟨hx, hsw.trans hwx⟩

theorem steady_functionDeclaration {n : Nat} {body : Action Unit} (hp : Keeps Steady (parameterList n))
    (hb : Keeps Steady body) : Keeps Steady (functionDeclaration n body) :=
  .give (gives_readNewName _) fun i => .bind (lasts_settleable i) (.of_keeps steady_bringInScope) fun _ =>
    .bind (lasts_settleable i) (.of_keeps (steady_functionBody hp hb)) fun _ => steady_settleVariable i

/-! ### The whole grammar -/

instance : ClosedGrammar fun _ => Keeps Steady where
  emit := steady_emit
  emitReturn := steady_emitReturn
  expressionRest h ho := steady_expressionRest h ho
  operator h ha _ _ ho := steady_operator h ha ho
  blockInScope := steady_blockInScope
  readTarget := steady_readTarget
  ifStatement := steady_ifStatement
  loopStatement := steady_loopStatement
  checkInFunction := Keeps.get.bind fun _ => .ite _ (steady_mistake _) (.pure _)
  variableDeclaration he :=
    steady_newVariable (Keeps.bind (closed_accept (fun _ => Keeps Steady) _) fun _ =>
      .ite _ he (steady_emit rfl))
  parameter count :=
    Keeps.seq (closed_checkParameterCount (fun _ => Keeps Steady) count)
      (.give (gives_readNewName _) steady_settleVariable)
  functionDeclaration := steady_functionDeclaration
  recover n := Keeps.get.bind fun _ => .ite _
    (Keeps.seq (.modify steady_resume) (closed_skipToStatement (fun _ => Keeps Steady) n)) (.pure _)

end StackScript.Compiler
