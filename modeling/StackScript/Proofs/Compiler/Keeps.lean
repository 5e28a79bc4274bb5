import StackScript.Proofs.Compiler.Action
import StackScript.Proofs.Compiler.Closed
import StackScript.Proofs.Compiler.Write

/-! What the actions keep: those that read no token keep every tame relation, and all of them, the
ones that follow a tree included, keep every lasting one. -/
namespace StackScript.Compiler
variable {r : State → State → Prop}

section Tame
variable [Tame r]

theorem keeps_modify_draft (f : State → Draft) :
    Keeps r (modify fun s => { s with draft := f s } : Action Unit) :=
  .modify fun s => Tame.rest s (f s) s.listing s.defect (.refl _) rfl

theorem keeps_ensure (b : Bool) (d : Defect) : Keeps r (ensure b d) := by
  unfold ensure
  split
  · exact .pure _
  · exact .modify fun s => Tame.rest s s.draft s.listing (s.defect <|> some d) (.refl _) rfl

theorem keeps_currentKind : Keeps r currentKind := Keeps.get.bind fun _ => .pure _

theorem keeps_previousToken : Keeps r previousToken := Keeps.get.bind fun _ => .pure _

theorem keeps_mistakeAt (t : Token) (m : Mistake) : Keeps r (mistakeAt t m) :=
  .modify fun s => Tame.report s ..

theorem keeps_mistake (m : Mistake) : Keeps r (mistake m) :=
  Keeps.get.bind fun _ => keeps_mistakeAt _ m

theorem keeps_mistakeAhead (m : Mistake) : Keeps r (mistakeAhead m) :=
  Keeps.get.bind fun _ => keeps_mistakeAt _ m

theorem keeps_intern (text : String) : Keeps r (intern text) :=
  .modifyGet fun s => Tame.rest s s.draft s.listing s.defect (.of_intern _ text) rfl

theorem keeps_listFunction : Keeps r listFunction := by
  refine Keeps.get.bind fun s => .ite _ ((keeps_ensure _ _).seq <| .modify fun t => ?_) (.pure _)
  exact Tame.rest t t.draft _ t.defect (.refl _) rfl

theorem keeps_addFunction : Keeps r addFunction :=
  .modifyGet fun s => Tame.rest s s.draft s.listing s.defect (.of_addFunction _ _) rfl

instance : ClosedCode fun _ => Keeps r where
  pure := .pure
  bind := .bind
  mistake := keeps_mistake
  mistakeAhead := keeps_mistakeAhead
  previousToken := keeps_previousToken
  look _ hf := Keeps.get.bind hf
  draft f := keeps_modify_draft fun s => f s.draft
  ensure := keeps_ensure
  intern := keeps_intern
  listFunction := keeps_listFunction
  addFunction := keeps_addFunction

theorem keeps_codeSize : Keeps r codeSize := closed_codeSize fun _ => Keeps r

theorem keeps_check (k : TokenKind) : Keeps r (check k) := keeps_currentKind.bind fun _ => .pure _

theorem keeps_emitByte (b : UInt8) : Keeps r (emitByte b) := closed_emitByte (fun _ => Keeps r) b

theorem keeps_emit (op : Opcode) : Keeps r (emit op) := closed_emit (fun _ => Keeps r) op

theorem keeps_emitWith (op : Opcode) (operand : UInt8) : Keeps r (emitWith op operand) :=
  closed_emitWith (fun _ => Keeps r) op operand

theorem keeps_emitReturn : Keeps r emitReturn := closed_emitReturn fun _ => Keeps r

theorem keeps_poolConstant (v : Value) : Keeps r (poolConstant v) := closed_poolConstant (fun _ => Keeps r) v

theorem keeps_emitConstant (v : Value) : Keeps r (emitConstant v) := closed_emitConstant (fun _ => Keeps r) v

theorem keeps_symbolConstant (name : Symbol) : Keeps r (symbolConstant name) :=
  closed_symbolConstant (fun _ => Keeps r) name

theorem keeps_nameConstant (name : String) : Keeps r (nameConstant name) := closed_nameConstant (fun _ => Keeps r) name

theorem keeps_openJump (op : Opcode) : Keeps r (openJump op) := closed_openJump (fun _ => Keeps r) op

theorem keeps_closeJump (offset : Nat) : Keeps r (closeJump offset) := closed_closeJump (fun _ => Keeps r) offset

theorem keeps_loopDistance (distance : Nat) : Keeps r (loopDistance distance) :=
  closed_loopDistance (fun _ => Keeps r) distance

theorem keeps_emitBackJump (start : Nat) : Keeps r (emitBackJump start) := closed_emitBackJump (fun _ => Keeps r) start

theorem keeps_checkInitialized (v : Local) : Keeps r (checkInitialized v) :=
  closed_checkInitialized (fun _ => Keeps r) v

theorem keeps_accessTo (name : String) : Keeps r (accessTo name) := closed_accessTo (fun _ => Keeps r) name

theorem keeps_checkNew (name : String) : Keeps r (checkNew name) := closed_checkNew (fun _ => Keeps r) name

theorem keeps_addLocal (name : String) : Keeps r (addLocal name) := closed_addLocal (fun _ => Keeps r) name

theorem keeps_declareLocal (name : String) : Keeps r (declareLocal name) := closed_declareLocal (fun _ => Keeps r) name

theorem keeps_checkParameterCount (count : Nat) : Keeps r (checkParameterCount count) :=
  closed_checkParameterCount (fun _ => Keeps r) count

theorem keeps_checkInFunction : Keeps r checkInFunction := closed_checkInFunction fun _ => Keeps r

theorem keeps_bringInScope : Keeps r bringInScope := closed_bringInScope fun _ => Keeps r

theorem keeps_settleVariable (global : UInt8) : Keeps r (settleVariable global) :=
  closed_settleVariable (fun _ => Keeps r) global

theorem keeps_enterScope : Keeps r enterScope := closed_enterScope fun _ => Keeps r

theorem keeps_emitPops (n : Nat) : Keeps r (emitPops n) := closed_emitPops (fun _ => Keeps r) n

theorem keeps_leaveScope : Keeps r leaveScope := closed_leaveScope fun _ => Keeps r

theorem keeps_countArgument (count : Nat) : Keeps r (countArgument count) :=
  closed_countArgument (fun _ => Keeps r) count

theorem keeps_beginFunction (name : Symbol) : Keeps r (beginFunction name) :=
  closed_beginFunction (fun _ => Keeps r) name

theorem keeps_setArity (count : Nat) : Keeps r (setArity count) := closed_setArity (fun _ => Keeps r) count

theorem keeps_finishFunction : Keeps r finishFunction := closed_finishFunction fun _ => Keeps r

theorem keeps_literal (l : Literal) : Keeps r l.write := by
  cases l with
  | number text =>
    simp only [Literal.write]
    split
    · exact keeps_emitConstant _
    · exact keeps_mistake _
  | string text =>
    exact (keeps_ensure _ _).seq <| (keeps_intern _).bind fun _ => keeps_emitConstant _
  | char text => exact (keeps_ensure _ _).seq (keeps_emitConstant _)
  | newLine => exact keeps_emitConstant _
  | tab => exact keeps_emitConstant _
  | true_ => exact keeps_emit _
  | false_ => exact keeps_emit _

end Tame

section Lasting
variable [Lasting r]

theorem keeps_advance : Keeps r advance := .modify Lasting.advance

theorem keeps_accept (k : TokenKind) : Keeps r (accept k) :=
  (keeps_check k).bind fun _ => .ite _ (keeps_advance.seq (.pure _)) (.pure _)

theorem keeps_expect (k : TokenKind) (what : Expectation) : Keeps r (expect k what) :=
  (keeps_accept k).bind fun _ => .ite _ (.pure _) (keeps_mistakeAhead _)

/-! ### Following a tree -/

theorem keeps_readComma {α : Type} (xs : List α) : Keeps r (readComma xs) := by
  cases xs with
  | nil => exact .pure _
  | cons x xs => exact keeps_advance

mutual

theorem keeps_write_expr (e : Expr) : Keeps r e.write := by
  cases e with
  | literal l => exact keeps_advance.seq (keeps_literal l)
  | name x => exact keeps_advance.seq <| (keeps_accessTo x).bind fun _ => keeps_emitWith _ _
  | group e => exact keeps_advance.seq <| (keeps_write_expr e).seq keeps_advance
  | assign x value =>
    exact keeps_advance.seq <| (keeps_accessTo x).bind fun _ => keeps_advance.seq <|
      (keeps_write_expr value).seq (keeps_emitWith _ _)
  | unary op e => exact keeps_advance.seq <| (keeps_write_expr e).seq (keeps_emit _)
  | binary op left right =>
    exact (keeps_write_expr left).seq <| keeps_advance.seq <| (keeps_write_expr right).seq (keeps_emit _)
  | and left right =>
    exact (keeps_write_expr left).seq <| keeps_advance.seq <| (keeps_openJump _).bind fun _ =>
      (keeps_emit _).seq <| (keeps_write_expr right).seq (keeps_closeJump _)
  | or left right =>
    exact (keeps_write_expr left).seq <| keeps_advance.seq <| (keeps_openJump _).bind fun _ =>
      (keeps_emit _).seq <| (keeps_write_expr right).seq (keeps_closeJump _)
  | call callee arguments =>
    exact (keeps_write_expr callee).seq <| keeps_advance.seq <|
      (keeps_writeArguments 0 arguments).bind fun _ => keeps_advance.seq (keeps_emitWith _ _)

theorem keeps_writeArguments (count : Nat) (es : List Expr) :
    Keeps r (Expr.writeArguments count es) := by
  cases es with
  | nil => exact .pure _
  | cons e es =>
    exact (keeps_write_expr e).seq <| (keeps_countArgument _).bind fun count =>
      (keeps_readComma es).seq (keeps_writeArguments count es)

end

theorem keeps_writeItems (es : List Expr) : Keeps r (Expr.writeItems es) := by
  induction es with
  | nil => exact .pure _
  | cons e es ih => exact keeps_advance.seq <| (keeps_write_expr e).seq <| (keeps_emit _).seq ih

theorem keeps_writeNewName (name : String) : Keeps r (Decl.writeNewName name) :=
  keeps_advance.seq <| (keeps_declareLocal name).seq <| Keeps.get.bind fun _ =>
    .ite _ (.pure _) (keeps_nameConstant name)

theorem keeps_writeParameter (count : Nat) (x : String) : Keeps r (Decl.writeParameter count x) :=
  (keeps_checkParameterCount count).seq <| (keeps_writeNewName x).bind fun _ =>
    keeps_settleVariable _

theorem keeps_writeParameters (count : Nat) (xs : List String) :
    Keeps r (Decl.writeParameters count xs) := by
  induction xs generalizing count with
  | nil => exact .pure _
  | cons x xs ih =>
    exact (keeps_writeParameter count x).seq <| (keeps_readComma xs).seq (ih _)

theorem keeps_writeBlock {body : Action Unit} (h : Keeps r body) : Keeps r (Decl.writeBlock body) :=
  keeps_enterScope.seq <| h.seq <| keeps_advance.seq keeps_leaveScope

theorem keeps_writeHead (name : String) (xs : List String) : Keeps r (Decl.writeHead name xs) :=
  (keeps_intern name).bind fun _ => (keeps_beginFunction _).bind fun _ => keeps_enterScope.seq <|
    keeps_advance.seq <| (keeps_writeParameters 0 xs).bind fun _ => (keeps_setArity _).seq <|
      keeps_advance.seq <| keeps_advance.seq (.pure _)

theorem keeps_writeFunction (name : String) (xs : List String) {body : Action Unit}
    (h : Keeps r body) : Keeps r (Decl.writeFunction name xs body) :=
  (keeps_writeHead name xs).bind fun _ => h.seq <| keeps_advance.seq <|
    keeps_finishFunction.bind fun _ => (keeps_modify_draft _).seq (keeps_emitConstant _)

mutual

theorem keeps_write (d : Decl) : Keeps r d.write := by
  cases d with
  | expression e => exact (keeps_write_expr e).seq (keeps_emit _)
  | print first rest =>
    exact keeps_advance.seq <| (keeps_write_expr first).seq <| (keeps_emit _).seq <|
      (keeps_writeItems rest).seq keeps_advance
  | read form name =>
    exact keeps_advance.seq <| keeps_advance.seq <| (keeps_emit _).seq <| keeps_advance.seq <|
      (keeps_accessTo name).bind fun _ => (keeps_emitWith _ _).seq <| (keeps_emit _).seq keeps_advance
  | if_ condition body =>
    exact keeps_advance.seq <| (keeps_write_expr condition).seq <| (keeps_openJump _).bind fun _ =>
      (keeps_emit _).seq <| keeps_advance.seq <| (keeps_writeBlock (keeps_writeList body)).seq <|
        (keeps_openJump _).bind fun _ => (keeps_closeJump _).seq <| (keeps_emit _).seq <|
          keeps_closeJump _
  | ifElse condition body alternative =>
    exact keeps_advance.seq <| (keeps_write_expr condition).seq <| (keeps_openJump _).bind fun _ =>
      (keeps_emit _).seq <| keeps_advance.seq <| (keeps_writeBlock (keeps_writeList body)).seq <|
        (keeps_openJump _).bind fun _ => (keeps_closeJump _).seq <| (keeps_emit _).seq <|
          keeps_advance.seq <| keeps_advance.seq <|
            (keeps_writeBlock (keeps_writeList alternative)).seq (keeps_closeJump _)
  | until_ condition body =>
    exact keeps_advance.seq <| keeps_codeSize.bind fun _ => (keeps_write_expr condition).seq <|
      (keeps_openJump _).bind fun _ => (keeps_emit _).seq <| keeps_advance.seq <|
        (keeps_writeBlock (keeps_writeList body)).seq <| (keeps_emitBackJump _).seq <|
          (keeps_closeJump _).seq (keeps_emit _)
  | out value =>
    refine keeps_advance.seq <| keeps_checkInFunction.seq ?_
    cases value with
    | none => exact keeps_advance.seq keeps_emitReturn
    | some e => exact (keeps_write_expr e).seq <| keeps_advance.seq (keeps_emit _)
  | block mark body => exact keeps_advance.seq (keeps_writeBlock (keeps_writeList body))
  | var name initial =>
    refine keeps_advance.seq <| (keeps_writeNewName name).bind fun global => ?_
    cases initial with
    | none => exact (keeps_emit _).seq (keeps_settleVariable global)
    | some e => exact keeps_advance.seq <| (keeps_write_expr e).seq (keeps_settleVariable global)
  | fun_ name parameters body =>
    exact keeps_advance.seq <| (keeps_writeNewName name).bind fun _ => keeps_bringInScope.seq <|
      (keeps_writeFunction name parameters (keeps_writeList body)).seq (keeps_settleVariable _)

theorem keeps_writeList (ds : List Decl) : Keeps r (Decl.writeList ds) := by
  cases ds with
  | nil => exact .pure _
  | cons d ds => exact (keeps_write d).seq (keeps_writeList ds)

end

/-! ### Looking at the tokens -/

instance : ClosedActions fun _ => Keeps r where
  currentKind := keeps_currentKind
  advance := keeps_advance
  resume ha := Keeps.get.bind fun _ => .ite _ (Keeps.seq (.modify Lasting.resume) ha) (.pure _)

theorem keeps_acceptAssign (allowed : Bool) : Keeps r (acceptAssign allowed) :=
  closed_acceptAssign (fun _ => Keeps r) allowed

theorem keeps_operand {parse : Level → Action Unit} (h : ∀ l, Keeps r (parse l)) (canAssign : Bool)
    (o : Operand) : Keeps r (operand parse canAssign o) := closed_operand (fun _ => Keeps r) h canAssign o

theorem keeps_operator {parse : Level → Action Unit} {arguments : Action Nat}
    (h : ∀ l, Keeps r (parse l)) (ha : Keeps r arguments) (o : Operator) :
    Keeps r (operator parse arguments o) := closed_operator (fun _ => Keeps r) h ha o

theorem keeps_expressionRest {parse : Level → Action Unit} {operators : Action Unit}
    (h : ∀ l, Keeps r (parse l)) (ho : Keeps r operators) (level : Level) :
    Keeps r (expressionRest parse operators level) := closed_expressionRest (fun _ => Keeps r) h ho level

theorem keeps_blockInScope {body : Action Unit} (h : Keeps r body) : Keeps r (blockInScope body) :=
  closed_block (fun _ => Keeps r) h

theorem keeps_readTarget : Keeps r readTarget := closed_readTarget fun _ => Keeps r

theorem keeps_elsePart {body : Action Unit} (h : Keeps r body) : Keeps r (elsePart body) :=
  closed_elsePart (fun _ => Keeps r) (keeps_blockInScope h)

theorem keeps_readNewName (what : Expectation) : Keeps r (readNewName what) :=
  closed_readNewName (fun _ => Keeps r) what

theorem keeps_parameter (count : Nat) : Keeps r (parameter count) := closed_parameter (fun _ => Keeps r) count

theorem keeps_functionHead {n : Nat} (h : Keeps r (parameterList n)) : Keeps r (functionHead n) :=
  closed_functionHead (fun _ => Keeps r) h

theorem keeps_functionBody {n : Nat} {body : Action Unit} (hp : Keeps r (parameterList n))
    (h : Keeps r body) : Keeps r (functionBody n body) := ClosedWords.functionBody (K := fun _ => Keeps r) hp h

theorem keeps_recover (n : Nat) : Keeps r (recover n) := closed_recover (fun _ => Keeps r) n

theorem keeps_expressionAt (n : Nat) (level : Level) : Keeps r (expressionAt n level) :=
  closed_expressionAt (fun _ => Keeps r) n level

theorem keeps_operators (n : Nat) (level : Level) : Keeps r (operators n level) :=
  closed_operators (fun _ => Keeps r) n level

theorem keeps_arguments (n count : Nat) : Keeps r (arguments n count) :=
  closed_arguments (fun _ => Keeps r) n count

theorem keeps_printedItems (n : Nat) : Keeps r (printedItems n) :=
  closed_printedItems (fun _ => Keeps r) n

theorem keeps_outValue (n : Nat) : Keeps r (outValue n) := closed_outValue (fun _ => Keeps r) n

theorem keeps_initializer (n : Nat) : Keeps r (initializer n) :=
  closed_initializer (fun _ => Keeps r) n

theorem keeps_parameters (n count : Nat) : Keeps r (parameters n count) :=
  closed_parameters (fun _ => Keeps r) n count

theorem keeps_parameterList (n : Nat) : Keeps r (parameterList n) :=
  closed_parameterList (fun _ => Keeps r) n

theorem keeps_signed {body : Action Unit} (h : Keeps r body) (n : Nat) {k : TokenKind} {a : Action Unit}
    (ha : signed? n body k = some a) : Keeps r a := closed_signed (fun _ => Keeps r) h n ha

theorem keeps_declaration {body : Action Unit} (h : Keeps r body) (n : Nat) :
    Keeps r (declaration n body) := closed_declaration (fun _ => Keeps r) h n

theorem keeps_declarations (n : Nat) : Keeps r (declarations n) :=
  closed_declarations (fun _ => Keeps r) n

theorem keeps_script (n : Nat) : Keeps r (script n) := closed_script (fun _ => Keeps r) n

end Lasting

end StackScript.Compiler
