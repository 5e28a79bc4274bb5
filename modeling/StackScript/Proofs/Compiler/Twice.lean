import Mathlib.Logic.Basic
import StackScript.Proofs.Compiler.Respelled

/-! A source that is compiled twice, into stores that hold the same things: mistakes and code are the same, and the
stores hold the same things afterwards. -/
namespace StackScript.Compiler
variable {p : Pairing} {α β : Type}

/-- An action that states which go alike do alike, and that takes nothing out of the store. -/
structure Repeats (p : Pairing) (a : Action α) : Prop where
  alike : Match p a a
  keeps : Keeps Grows a

/-- An outer function that is kept for later is still the same after another action. -/
theorem Repeats.before {Q : Store → Store → β → β → Prop} {a : Action α} (ha : Repeats p a) {s t : State} {d e : Draft}
    (h : AlikeStates p s t) (hd : AlikeDrafts p s.store t.store d e) {f g : α → Action β}
    (hf : ∀ {x s t}, AlikeStates p s t → AlikeDrafts p s.store t.store d e → Parallel p Q ((f x).run s) ((g x).run t)) :
    Parallel p Q ((a >>= f).run s) ((a >>= g).run t) := by
  obtain ⟨hstates, hequal⟩ := ha.alike s t h
  have hnext := hf (x := (a.run s).1) hstates (hd.mono (ha.keeps s) (ha.keeps t))
  rw [run_bind, run_bind, ← show (a.run s).1 = (a.run t).1 from hequal]
  exact hnext

section Lined
variable [hp : Fact p.lines]

/-! ### Tokens -/

theorem match_currentKind : Match p currentKind currentKind := fun _ _ h =>
  ⟨h, congrArg Token.kind (h.source hp.out).current⟩

theorem match_previousToken : Match p previousToken previousToken := fun _ _ h => ⟨h, (h.source hp.out).previous⟩

instance : Closed fun _ a => Match p a a where
  pure := .pure
  bind := .bind
  currentKind := match_currentKind
  advance := match_advance
  mistake := match_mistake
  mistakeAhead := match_mistakeAhead

theorem match_accept (k : TokenKind) : Match p (accept k) (accept k) := closed_accept (fun _ a => Match p a a) k

theorem match_expect (k : TokenKind) (what : Expectation) : Match p (expect k what) (expect k what) :=
  closed_expect (fun _ a => Match p a a) k what

theorem match_acceptAssign (allowed : Bool) : Match p (acceptAssign allowed) (acceptAssign allowed) :=
  closed_acceptAssign (fun _ a => Match p a a) allowed

theorem match_recover (n : Nat) : Match p (recover n) (recover n) := by
  refine .get fun s t h => ?_
  rw [h.recovering]
  refine Match.ite _ (.seq (.modify fun h => ?_) (closed_skipToStatement (fun _ a => Match p a a) n)) (.pure _) s t h
  exact ⟨fun hl => ⟨(h.source hl).1, (h.source hl).2, (h.source hl).3, (h.source hl).4, (h.source hl).5⟩, h.faultless,
    rfl, h.failed, h.draft, h.store⟩

/-! ### Expressions -/

section
variable {parse : Level → Action Unit} (h : ∀ l, Match p (parse l) (parse l))
include h

theorem match_operand (canAssign : Bool) (o : Operand) :
    Match p (operand parse canAssign o) (operand parse canAssign o) := by
  cases o with
  | group => exact (h _).seq (match_expect _ _)
  | unary op => exact (h _).seq (match_emit op)
  | «variable» =>
    refine match_previousToken.bind fun t => (match_accessTo _).bind fun access =>
      (match_acceptAssign _).bind fun b => .ite _ ?_ (match_emitWith _ _)
    exact (h _).seq (match_emitWith _ _)
  | string =>
    refine match_previousToken.bind fun t => (match_ensure _).seq fun _ _ h => ?_
    exact (parallel_intern h _).bind fun k hab => parallel_emitConstant k (.string hab)
  | number =>
    refine match_previousToken.bind fun t => ?_
    split
    · exact match_emitConstant fun _ _ => .number _
    · exact match_mistake _
  | char => exact match_previousToken.bind fun t => (match_ensure _).seq (match_emitConstant fun _ _ => .char _)
  | escape byte => exact match_emitConstant fun _ _ => .char _
  | literal op => exact match_emit op

theorem match_operator {arguments : Action Nat} (ha : Match p arguments arguments) (o : Operator) :
    Match p (operator parse arguments o) (operator parse arguments o) := by
  cases o with
  | binary op level => exact (h _).seq (match_emit op)
  | and => exact (match_openJump _).bind fun _ => (match_emit _).seq <| (h _).seq (match_closeJump _)
  | or => exact (match_openJump _).bind fun _ => (match_emit _).seq <| (h _).seq (match_closeJump _)
  | call =>
    exact Match.bind (closed_argumentList (fun _ a => Match p a a) ha) fun _ =>
      (match_expect _ _).seq (match_emitWith _ _)

theorem match_expressionRest {operators : Action Unit} (ho : Match p operators operators) (level : Level) :
    Match p (expressionRest parse operators level) (expressionRest parse operators level) := by
  refine match_previousToken.bind fun t => ?_
  split
  · refine (match_operand h _ _).seq <| ho.seq <| (match_acceptAssign _).bind fun b => ?_
    exact .ite _ (match_mistake _) (.pure _)
  · exact match_mistake _

end

/-! ### Statements -/

theorem match_blockInScope {body : Action Unit} (h : Match p body body) :
    Match p (blockInScope body) (blockInScope body) :=
  match_enterScope.seq <| h.seq <| (match_expect _ _).seq match_leaveScope

theorem match_readTarget : Match p readTarget readTarget :=
  (match_expect _ _).seq <| match_previousToken.bind fun _ => (match_accessTo _).bind fun _ =>
    (match_emitWith _ _).seq <| (match_emit _).seq (match_expect _ _)

theorem match_readNewName (what : Expectation) : Match p (readNewName what) (readNewName what) := by
  refine (match_expect _ _).seq <| match_previousToken.bind fun _ => (match_declareLocal _).seq <| .get fun s t h => ?_
  rw [h.draft.depth]
  exact Match.ite _ (.pure 0) (match_previousToken.bind fun _ => match_nameConstant _) s t h

theorem match_parameter (count : Nat) : Match p (parameter count) (parameter count) :=
  (match_checkParameterCount count).seq <| (match_readNewName _).bind fun _ => match_settleVariable _

section
variable {n : Nat} {body : Action Unit}

theorem match_ifStatement (he : Match p (expression n) (expression n)) (hb : Match p body body) :
    Match p (ifStatement n body) (ifStatement n body) :=
  he.seq <| (match_openJump _).bind fun _ => (match_emit _).seq <| (match_expect _ _).seq <|
    (match_blockInScope hb).seq <| (match_openJump _).bind fun _ => (match_closeJump _).seq <| (match_emit _).seq <|
      Match.seq (closed_elsePart (fun _ a => Match p a a) (match_blockInScope hb)) (match_closeJump _)

theorem match_loopStatement (he : Match p (expression n) (expression n)) (hb : Match p body body) :
    Match p (loopStatement n body) (loopStatement n body) :=
  match_codeSize.bind fun _ => he.seq <| (match_openJump _).bind fun _ => (match_emit _).seq <|
    (match_expect _ _).seq <| (match_blockInScope hb).seq <| (match_emitBackJump _).seq <| (match_closeJump _).seq
      (match_emit _)

theorem match_variableDeclaration (he : Match p (expression n) (expression n)) :
    Match p (variableDeclaration n) (variableDeclaration n) :=
  (match_readNewName _).bind fun _ => .seq ((match_accept _).bind fun _ => .ite _ he (match_emit _))
    (match_settleVariable _)

theorem repeats_expect (k : TokenKind) (what : Expectation) : Repeats p (expect k what) :=
  ⟨match_expect k what, keeps_expect k what⟩

theorem parallel_functionHead (hl : Repeats p (parameterList n)) {s t : State} (h : AlikeStates p s t) :
    Parallel p (fun s t => AlikeDrafts p s t) ((functionHead n).run s) ((functionHead n).run t) := by
  refine (match_previousToken s t h).bind fun {x y s t} h hxy => ?_
  obtain rfl : x = y := hxy
  refine (parallel_intern h _).bind fun h hab => (parallel_beginFunction h hab).bind fun h hdraft => ?_
  refine Repeats.before ⟨match_enterScope, keeps_enterScope⟩ h hdraft fun h hdraft => ?_
  refine (repeats_expect _ _).before h hdraft fun h hdraft => hl.before h hdraft fun h hdraft => ?_
  refine Repeats.before ⟨match_setArity _, keeps_setArity _⟩ h hdraft fun h hdraft => ?_
  refine (repeats_expect _ _).before h hdraft fun h hdraft => (repeats_expect _ _).before h hdraft fun h hdraft => ?_
  exact ⟨h, hdraft⟩

theorem match_functionBody (hl : Repeats p (parameterList n)) (hb : Repeats p body) :
    Match p (functionBody n body) (functionBody n body) :=
  match_function (parallel_functionHead hl) hb.alike (match_expect _ _) hb.keeps hb.keeps (keeps_expect _ _)
    (keeps_expect _ _)

theorem match_functionDeclaration (hl : Repeats p (parameterList n)) (hb : Repeats p body) :
    Match p (functionDeclaration n body) (functionDeclaration n body) :=
  (match_readNewName _).bind fun _ => match_bringInScope.seq <|
    (match_functionBody hl hb).seq (match_settleVariable _)

end

/-! ### The whole source -/

instance : ClosedGrammar fun _ a => Repeats p a where
  pure x := ⟨.pure x, .pure x⟩
  bind ha hf := ⟨ha.alike.bind fun x => (hf x).alike, ha.keeps.bind fun x => (hf x).keeps⟩
  currentKind := ⟨match_currentKind, keeps_currentKind⟩
  advance := ⟨match_advance, keeps_advance⟩
  mistake m := ⟨match_mistake m, keeps_mistake m⟩
  mistakeAhead m := ⟨match_mistakeAhead m, keeps_mistakeAhead m⟩
  emit _ := ⟨match_emit _, keeps_emit _⟩
  emitReturn := ⟨match_emitReturn, keeps_emitReturn⟩
  expressionRest h ho level := ⟨match_expressionRest (fun l => (h l).alike) ho.alike level,
    keeps_expressionRest (fun l => (h l).keeps) ho.keeps level⟩
  operator h ha _ o _ := ⟨match_operator (fun l => (h l).alike) ha.alike o,
    keeps_operator (fun l => (h l).keeps) ha.keeps o⟩
  blockInScope h := ⟨match_blockInScope h.alike, keeps_blockInScope h.keeps⟩
  readTarget := ⟨match_readTarget, keeps_readTarget⟩
  ifStatement he hb := ⟨match_ifStatement he.alike hb.alike,
    ClosedGrammar.ifStatement (K := fun _ => Keeps Grows) he.keeps hb.keeps⟩
  loopStatement he hb := ⟨match_loopStatement he.alike hb.alike,
    ClosedGrammar.loopStatement (K := fun _ => Keeps Grows) he.keeps hb.keeps⟩
  checkInFunction := ⟨match_checkInFunction, keeps_checkInFunction⟩
  variableDeclaration he := ⟨match_variableDeclaration he.alike,
    ClosedForms.variableDeclaration (K := fun _ => Keeps Grows) he.keeps⟩
  parameter count := ⟨match_parameter count, keeps_parameter count⟩
  functionDeclaration hp hb := ⟨match_functionDeclaration hp hb,
    ClosedGrammar.functionDeclaration (K := fun _ => Keeps Grows) hp.keeps hb.keeps⟩
  recover n := ⟨match_recover n, keeps_recover n⟩

theorem parallel_wholeScript (n : Nat) {s t : State} (h : AlikeStates p s t) :
    Parallel p (fun _ _ => p.pairs) ((wholeScript n).run s) ((wholeScript n).run t) :=
  (match_advance s t h).bind fun h _ =>
    ((closed_script (fun _ a => Repeats p a) n).alike _ _ h).bind fun h _ => parallel_finishFunction h

end Lined

/-- Results of compilations that are the same up to how functions take each other's place. -/
inductive AlikeResults (p : Pairing) :
    Except (List CompileError) FunctionRef → Except (List CompileError) FunctionRef → Prop
  | ok {f g : FunctionRef} (h : p.pairs f g) : AlikeResults p (.ok f) (.ok g)
  | error (errors : List CompileError) : AlikeResults p (.error errors) (.error errors)

/-- Into stores that hold the same things, a source is compiled to the same. -/
theorem compile_alike [hp : Fact p.lines] {s t : Store} (h : p.AlikeStores s t) (source : String) (printCode : Bool) :
    AlikeResults p (compile source s printCode).result (compile source t printCode).result ∧
      p.AlikeStores (compile source s printCode).store (compile source t printCode).store := by
  have hstart : AlikeStates p (.start (TokenStream.ofSource source) s printCode)
      (.start (TokenStream.ofSource source) t printCode) :=
    ⟨fun _ => ⟨rfl, rfl, rfl, rfl, rfl⟩, absurd hp.out, rfl, Iff.rfl, ⟨.none, rfl, ⟨rfl, .nil, fun _ => rfl⟩, rfl, rfl,
      .nil⟩, h⟩
  have hparallel := parallel_wholeScript (TokenStream.ofSource source).lexemes.length hstart
  generalize hs : (wholeScript (TokenStream.ofSource source).lexemes.length).run
    (.start (TokenStream.ofSource source) s printCode) = x at hparallel
  generalize ht : (wholeScript (TokenStream.ofSource source).lexemes.length).run
    (.start (TokenStream.ofSource source) t printCode) = y at hparallel
  obtain ⟨f, s'⟩ := x
  obtain ⟨g, t'⟩ := y
  obtain ⟨hstates, hrefs⟩ := hparallel
  have herrors : s'.errors = t'.errors := (hstates.source hp.out).errors
  simp only [compile, hs, ht, herrors]
  refine ⟨?_, hstates.store⟩
  split
  · exact .ok hrefs
  · exact .error _

end StackScript.Compiler
