import StackScript.Compiler.Program

/-! Properties that actions have if their parts have them. The grammar is gone through here once: a property
holds of the whole compilation if it holds of the few actions that it is put together from. -/
namespace StackScript.Compiler
variable {α β : Type}

/-- Properties of actions that are kept by putting actions together, and that reporting a mistake has. -/
class Stable (K : (α : Type) → Action α → Prop) : Prop where
  pure : ∀ {α : Type} (x : α), K α (Pure.pure x)
  bind : ∀ {α β : Type} {a : Action α} {f : α → Action β}, K α a → (∀ x, K β (f x)) → K β (a >>= f)
  mistake : ∀ m, K _ (mistake m)
  mistakeAhead : ∀ m, K _ (mistakeAhead m)

/-- Stable properties that actions on tokens have. -/
class Closed (K : (α : Type) → Action α → Prop) : Prop extends Stable K where
  currentKind : K _ currentKind
  advance : K _ advance

/-- Stable properties that actions have which write code and ask for constants. -/
class ClosedBytes (K : (α : Type) → Action α → Prop) : Prop extends Stable K where
  emitByte : ∀ byte, K _ (emitByte byte)
  codeSize : K _ codeSize
  patch : ∀ offset distance, K Unit (modify fun s =>
    { s with draft := { s.draft with bytecode := s.draft.bytecode.patch offset distance } })
  poolConstant : ∀ v, K _ (poolConstant v)
  symbolConstant : ∀ name, K _ (symbolConstant name)
  ensure : ∀ b defect, K _ (ensure b defect)
  intern : ∀ text, K _ (intern text)
  listFunction : K _ listFunction
  addFunction : K _ addFunction

/-- Properties of this kind that actions on the variables in scope have too. -/
class ClosedScope (K : (α : Type) → Action α → Prop) : Prop extends ClosedBytes K where
  lookup : ∀ {α : Type} {f : State → Action α},
    (∀ {s t}, s.draft.locals = t.draft.locals → s.draft.depth = t.draft.depth → f s = f t) → (∀ s, K α (f s)) →
      K α (get >>= f)
  rescope : ∀ (depth : Nat → Nat) (locals : Nat → List Local → List Local), K Unit (modify fun s =>
    { s with draft := { s.draft with depth := depth s.draft.depth, locals := locals s.draft.depth s.draft.locals } })
  checkInFunction : K _ checkInFunction

/-- Stable properties that actions on the function being compiled and on the store have, whatever they look at or
change there. -/
class ClosedCode (K : (α : Type) → Action α → Prop) : Prop extends Stable K where
  previousToken : K _ previousToken
  look : ∀ {α : Type} {f : State → Action α}, (∀ {s t}, s.draft = t.draft → f s = f t) → (∀ s, K α (f s)) → K α (get >>= f)
  draft : ∀ f : Draft → Draft, K Unit (modify fun s => { s with draft := f s.draft })
  ensure : ∀ b defect, K _ (ensure b defect)
  intern : ∀ text, K _ (intern text)
  listFunction : K _ listFunction
  addFunction : K _ addFunction

namespace Stable
variable {K : (α : Type) → Action α → Prop}

theorem ite {a b : Action α} (c : Prop) [Decidable c] (ha : K α a) (hb : K α b) :
    K α (if c then a else b) := by
  split
  · exact ha
  · exact hb

variable [Stable K]

theorem seq {a : Action α} {b : Action β} (ha : K α a) (hb : K β b) : K β (a >>= fun _ => b) :=
  bind ha fun _ => hb

/-- An action and the next one, which have the property together, with what is done after them. -/
theorem both {γ : Type} {a : Action α} {b : Action β} {f : β → Action γ} (h : K β (a >>= fun _ => b))
    (hf : ∀ x, K γ (f x)) : K γ (a >>= fun _ => b >>= f) := by
  change K γ ((a >>= fun _ => b) >>= f)
  exact bind h hf

/-- An action that is left out in one case, with what is done after it in both. -/
theorem branch {a : Action Unit} {k : Unit → Action β} (c : Prop) [Decidable c] (ha : K Unit a)
    (hk : ∀ x, K β (k x)) : K β (if c then a >>= k else k ()) := ite c (bind ha hk) (hk ())

end Stable

section Counts
variable (K : (α : Type) → Action α → Prop) [Stable K]

theorem closed_countArgument (count : Nat) : K _ (countArgument count) :=
  Stable.branch _ (Stable.mistake _) fun _ => Stable.pure _

theorem closed_checkParameterCount (count : Nat) : K _ (checkParameterCount count) :=
  Stable.ite _ (Stable.mistakeAhead _) (Stable.pure _)

theorem closed_checkInitialized (v : Local) : K _ (checkInitialized v) :=
  Stable.ite _ (Stable.mistake _) (Stable.pure _)

theorem closed_loopDistance (distance : Nat) : K _ (loopDistance distance) :=
  Stable.ite _ (Stable.pure _) (Stable.seq (Stable.mistake _) (Stable.pure _))

end Counts

section Code
variable (K : (α : Type) → Action α → Prop) [ClosedCode K]

theorem closed_codeSize : K _ codeSize := ClosedCode.look (fun h => by rw [h]) fun _ => Stable.pure _

theorem closed_emitByte (b : UInt8) : K _ (emitByte b) :=
  Stable.bind ClosedCode.previousToken fun t =>
    ClosedCode.draft fun d => { d with bytecode := d.bytecode.write b t.line }

theorem closed_poolConstant (v : Value) : K _ (poolConstant v) := by
  refine ClosedCode.look (fun h => by rw [h]) fun s => ?_
  split
  · exact Stable.seq (ClosedCode.draft fun d => { d with bytecode := _ }) (Stable.pure _)
  · exact Stable.seq (Stable.mistake _) (Stable.pure _)

theorem closed_newNameConstant (name : Symbol) : K _ (newNameConstant name) := by
  refine ClosedCode.look (fun h => by rw [h]) fun s => ?_
  split
  · exact Stable.seq (ClosedCode.draft fun d => { d with bytecode := _, names := (name, _) :: d.names }) (Stable.pure _)
  · exact Stable.seq (Stable.mistake _) (Stable.pure _)

theorem closed_symbolConstant (name : Symbol) : K _ (symbolConstant name) := by
  refine ClosedCode.look (fun h => by rw [h]) fun s => ?_
  split
  · exact Stable.pure _
  · exact closed_newNameConstant K name

theorem closed_checkInFunction : K _ checkInFunction :=
  ClosedCode.look (fun h => by rw [h]) fun _ => Stable.ite _ (Stable.mistake _) (Stable.pure _)

theorem closed_beginFunction (name : Symbol) : K _ (beginFunction name) := by
  change K Draft (get >>= fun s => (modify fun s => { s with draft := { name := some name } }) >>=
    fun _ => pure s.draft)
  refine ClosedCode.look (fun h => by rw [h]) fun s => Stable.seq ?_ (Stable.pure _)
  exact ClosedCode.draft fun _ => { name := some name }

theorem closed_setArity (count : Nat) : K _ (setArity count) :=
  ClosedCode.draft fun d => { d with arity := (min count 255).toUInt8 }

instance : ClosedScope K where
  emitByte := closed_emitByte K
  codeSize := closed_codeSize K
  patch offset distance := ClosedCode.draft fun d => { d with bytecode := d.bytecode.patch offset distance }
  poolConstant := closed_poolConstant K
  symbolConstant := closed_symbolConstant K
  ensure := ClosedCode.ensure
  intern := ClosedCode.intern
  listFunction := ClosedCode.listFunction
  addFunction := ClosedCode.addFunction
  lookup hf := ClosedCode.look fun h => hf (congrArg Draft.locals h) (congrArg Draft.depth h)
  rescope depth locals := ClosedCode.draft fun d => { d with depth := depth d.depth, locals := locals d.depth d.locals }
  checkInFunction := closed_checkInFunction K

end Code

section Bytes
variable (K : (α : Type) → Action α → Prop) [ClosedBytes K]

theorem closed_emit (op : Opcode) : K _ (emit op) := ClosedBytes.emitByte _

theorem closed_emitWith (op : Opcode) (operand : UInt8) : K _ (emitWith op operand) :=
  Stable.seq (closed_emit K op) (ClosedBytes.emitByte operand)

theorem closed_emitReturn : K _ emitReturn := Stable.seq (closed_emit K _) (closed_emit K _)

theorem closed_emitConstant (v : Value) : K _ (emitConstant v) :=
  Stable.bind (ClosedBytes.poolConstant v) fun _ => closed_emitWith K _ _

theorem closed_nameConstant (name : String) : K _ (nameConstant name) :=
  Stable.bind (ClosedBytes.intern name) ClosedBytes.symbolConstant

theorem closed_openJump (op : Opcode) : K _ (openJump op) :=
  Stable.seq (closed_emit K op) <| Stable.seq (ClosedBytes.emitByte _) <| Stable.seq (ClosedBytes.emitByte _) <|
    Stable.bind ClosedBytes.codeSize fun _ => Stable.pure _

theorem closed_closeJump (offset : Nat) : K _ (closeJump offset) :=
  Stable.bind ClosedBytes.codeSize fun _ => Stable.seq (ClosedBytes.ensure _ _) <|
    Stable.bind ClosedBytes.codeSize fun _ => Stable.ite _ (ClosedBytes.patch _ _) (Stable.mistake _)

theorem closed_emitBackJump (start : Nat) : K _ (emitBackJump start) :=
  Stable.seq (closed_emit K _) <| Stable.bind ClosedBytes.codeSize fun _ => Stable.seq (ClosedBytes.ensure _ _) <|
    Stable.bind ClosedBytes.codeSize fun _ => Stable.bind (closed_loopDistance K _) fun _ =>
      Stable.seq (ClosedBytes.emitByte _) (ClosedBytes.emitByte _)

theorem closed_emitPops (n : Nat) : K _ (emitPops n) := by
  induction n with
  | zero => exact Stable.pure _
  | succ n ih => exact Stable.seq (closed_emit K _) ih

theorem closed_finishFunction : K _ finishFunction :=
  Stable.seq (closed_emitReturn K) <| Stable.seq ClosedBytes.listFunction ClosedBytes.addFunction

end Bytes

section Scopes
variable (K : (α : Type) → Action α → Prop) [ClosedScope K]

theorem closed_accessTo (name : String) : K _ (accessTo name) := by
  refine ClosedScope.lookup (fun hl _ => by rw [hl]) fun s => ?_
  split
  · exact Stable.seq (closed_checkInitialized K _) (Stable.pure _)
  · exact Stable.bind (closed_nameConstant K name) fun _ => Stable.pure _

theorem closed_checkNew (name : String) : K _ (checkNew name) :=
  ClosedScope.lookup (fun hl hd => by rw [Draft.declares, Draft.declares, Draft.innermost, Draft.innermost, hl, hd])
    fun _ => Stable.ite _ (Stable.mistake _) (Stable.pure _)

theorem closed_addLocal (name : String) : K _ (addLocal name) :=
  ClosedScope.lookup (fun hl _ => by rw [hl]) fun _ => Stable.ite _ (Stable.mistake _)
    (ClosedScope.rescope (fun depth => depth) fun _ locals => ⟨name, none⟩ :: locals)

theorem closed_declareLocal (name : String) : K _ (declareLocal name) :=
  ClosedScope.lookup (fun _ hd => by rw [hd]) fun _ =>
    Stable.ite _ (Stable.seq (closed_checkNew K name) (closed_addLocal K name)) (Stable.pure _)

/-- The variables after the newest one has been put in scope. -/
def broughtInScope (depth : Nat) : List Local → List Local
  | v :: older => if 0 < depth then { v with depth := some depth } :: older else v :: older
  | [] => []

theorem bringInScope_eq : bringInScope = modify fun s =>
    { s with draft := { s.draft with
        depth := s.draft.depth, locals := broughtInScope s.draft.depth s.draft.locals } } := by
  refine congrArg (modify · : (State → State) → Action Unit) (funext fun s => ?_)
  obtain ⟨_, _, _, _, _, _, ⟨_, _, _, locals, depth, _⟩, _, _, _, _⟩ := s
  by_cases hdepth : 0 < depth <;> cases locals <;> simp [Draft.bringInScope, broughtInScope, hdepth]

theorem closed_bringInScope : K _ bringInScope := by
  rw [bringInScope_eq]
  exact ClosedScope.rescope (fun depth => depth) broughtInScope

theorem closed_settleVariable (global : UInt8) : K _ (settleVariable global) :=
  ClosedScope.lookup (fun _ hd => by rw [hd]) fun _ => Stable.ite _ (closed_bringInScope K) (closed_emitWith K _ _)

theorem closed_enterScope : K _ enterScope := ClosedScope.rescope (· + 1) fun _ locals => locals

theorem closed_leaveScope : K _ leaveScope := by
  refine ClosedScope.lookup (fun hl hd => by dsimp only; rw [hl, hd]) fun s =>
    Stable.seq (ClosedBytes.ensure _ _) <| Stable.seq ?_ (closed_emitPops K _)
  exact ClosedScope.rescope (· - 1) fun _ locals => locals.drop (Draft.leaving (s.draft.depth - 1) s.draft.locals)

end Scopes

section Tokens
variable (K : (α : Type) → Action α → Prop) [Closed K]

theorem closed_check (k : TokenKind) : K _ (check k) := Stable.bind Closed.currentKind fun _ => Stable.pure _

theorem closed_accept (k : TokenKind) : K _ (accept k) :=
  Stable.bind (closed_check K k) fun _ => Stable.ite _ (Stable.seq Closed.advance (Stable.pure _)) (Stable.pure _)

theorem closed_expect (k : TokenKind) (what : Expectation) : K _ (expect k what) :=
  Stable.bind (closed_accept K k) fun _ => Stable.ite _ (Stable.pure _) (Stable.mistakeAhead _)

theorem closed_acceptAssign (allowed : Bool) : K _ (acceptAssign allowed) :=
  Stable.ite _ (closed_accept K _) (Stable.pure _)

theorem closed_missingOperand : K _ missingOperand := Stable.seq Closed.advance (Stable.mistake _)

theorem closed_argumentList {arguments : Action Nat} (h : K _ arguments) :
    K _ (argumentList arguments) := Stable.bind (closed_check K _) fun _ => Stable.ite _ (Stable.pure _) h

theorem closed_skipToStatement (n : Nat) : K _ (skipToStatement n) := by
  induction n with
  | zero => exact Stable.pure _
  | succ n ih =>
    exact Stable.bind Closed.currentKind fun _ =>
      Stable.ite _ (Stable.pure _) (Stable.seq Closed.advance ih)

theorem closed_elsePart {body : Action Unit} (h : K _ (blockInScope body)) : K _ (elsePart body) :=
  Stable.bind (closed_accept K _) fun _ => Stable.ite _ (Stable.seq (closed_expect K _ _) h) (Stable.pure _)

end Tokens

/-- Properties of actions that each form of the grammar without a block in it has if the expressions in it have them. -/
class ClosedForms (K : (α : Type) → Action α → Prop) : Prop extends Closed K where
  emit : ∀ {op : Opcode}, op.width = 0 → K _ (emit op)
  emitReturn : K _ emitReturn
  expressionRest : ∀ {parse : Level → Action Unit} {operators : Action Unit},
    (∀ l, K _ (parse l)) → K _ operators → ∀ level, K _ (expressionRest parse operators level)
  operator : ∀ {parse : Level → Action Unit} {arguments : Action Nat}, (∀ l, K _ (parse l)) →
    K _ arguments → ∀ {k o}, operator? k = some o → K _ (operator parse arguments o)
  readTarget : K _ readTarget
  checkInFunction : K _ checkInFunction
  variableDeclaration : ∀ {n : Nat}, K _ (expression n) → K _ (variableDeclaration n)
  parameter : ∀ count, K _ (parameter count)

/-- Properties of actions that each form of the grammar has if the expressions and blocks in it have them. -/
class ClosedGrammar (K : (α : Type) → Action α → Prop) : Prop extends ClosedForms K where
  blockInScope : ∀ {body : Action Unit}, K _ body → K _ (blockInScope body)
  ifStatement : ∀ {n : Nat} {body : Action Unit}, K _ (expression n) → K _ body →
    K _ (ifStatement n body)
  loopStatement : ∀ {n : Nat} {body : Action Unit}, K _ (expression n) → K _ body →
    K _ (loopStatement n body)
  functionDeclaration : ∀ {n : Nat} {body : Action Unit}, K _ (parameterList n) → K _ body →
    K _ (functionDeclaration n body)
  recover : ∀ n, K _ (recover n)

section Forms
variable (K : (α : Type) → Action α → Prop) [ClosedForms K]

theorem closed_expressionWith {parse : Level → Action Unit} {operators : Action Unit}
    (h : ∀ l, K _ (parse l)) (ho : K _ operators) (level : Level) :
    K _ (expressionWith parse operators level) :=
  Stable.seq Closed.advance (ClosedForms.expressionRest h ho level)

mutual

theorem closed_expressionAt (n : Nat) (level : Level) : K _ (expressionAt n level) := by
  cases n with
  | zero => exact closed_missingOperand K
  | succ n => exact closed_expressionWith K (closed_expressionAt n) (closed_operators n level) level

theorem closed_operators (n : Nat) (level : Level) : K _ (operators n level) := by
  cases n with
  | zero => exact Stable.pure _
  | succ n =>
    refine Stable.bind Closed.currentKind fun kind => ?_
    split
    · rename_i o ho
      refine Stable.ite _ (Stable.seq Closed.advance (Stable.seq ?_ (closed_operators n level))) (Stable.pure _)
      exact ClosedForms.operator (closed_expressionAt n) (closed_arguments n 0) ho
    · exact Stable.pure _

theorem closed_arguments (n count : Nat) : K _ (arguments n count) := by
  cases n with
  | zero => exact Stable.seq (closed_missingOperand K) (closed_countArgument K count)
  | succ n =>
    refine Stable.seq (closed_expressionWith K (closed_expressionAt n) (closed_operators n _) _) ?_
    refine Stable.bind (closed_countArgument K count) fun count => Stable.bind (closed_accept K _) fun _ => ?_
    exact Stable.ite _ (closed_arguments n count) (Stable.pure _)

end

theorem closed_expression (n : Nat) : K _ (expression n) := closed_expressionAt K n _

theorem closed_printedItems (n : Nat) : K _ (printedItems n) := by
  induction n with
  | zero => exact Stable.seq (closed_expression K 0) (ClosedForms.emit rfl)
  | succ n ih =>
    refine Stable.seq (closed_expression K _) (Stable.seq (ClosedForms.emit rfl) ?_)
    exact Stable.bind (closed_accept K _) fun _ => Stable.ite _ ih (Stable.pure _)

theorem closed_readForm : K _ readForm := by
  refine Stable.bind Closed.currentKind fun kind => ?_
  split
  · rename_i op hop
    refine Stable.seq Closed.advance (ClosedForms.emit ?_)
    cases kind <;> cases hop <;> rfl
  · exact Stable.seq (Stable.mistakeAhead _) Closed.advance

theorem closed_initializer (n : Nat) : K _ (initializer n) :=
  Stable.bind (closed_accept K _) fun _ => Stable.ite _ (closed_expression K n) (ClosedForms.emit rfl)

theorem closed_outValue (n : Nat) : K _ (outValue n) := by
  refine Stable.bind (closed_accept K _) fun _ => Stable.ite _ ClosedForms.emitReturn ?_
  exact Stable.seq (closed_expression K n) (Stable.seq (closed_expect K _ _) (ClosedForms.emit rfl))

theorem closed_parameters (n count : Nat) : K _ (parameters n count) := by
  induction n generalizing count with
  | zero => exact Stable.seq (ClosedForms.parameter count) (Stable.bind (closed_accept K _) fun _ => Stable.pure _)
  | succ n ih =>
    refine Stable.seq (ClosedForms.parameter count) ?_
    exact Stable.bind (closed_accept K _) fun _ => Stable.ite _ (ih _) (Stable.pure _)

theorem closed_parameterList (n : Nat) : K _ (parameterList n) :=
  Stable.bind (closed_check K _) fun _ => Stable.ite _ (Stable.pure _) (closed_parameters K n 0)

/-- A form that starts with a sign of its own, if the forms with a block in them have the property. -/
theorem closed_signed_of_blocks {n : Nat} {body : Action Unit} (hblock : K _ (blockInScope body))
    (hif : K _ (ifStatement n body)) (hloop : K _ (loopStatement n body)) (hfun : K _ (functionDeclaration n body))
    {k : TokenKind} {a : Action Unit} (ha : signed? n body k = some a) : K _ a := by
  cases k <;> simp only [signed?, Option.some.injEq, reduceCtorEq] at ha <;> subst ha
  case fun_ => exact hfun
  case var => exact ClosedForms.variableDeclaration (closed_expression K n)
  case print => exact Stable.seq (closed_printedItems K n) (closed_expect K _ _)
  case read => exact Stable.seq (closed_readForm K) ClosedForms.readTarget
  case if_ => exact hif
  case loop => exact hloop
  case out => exact Stable.seq ClosedForms.checkInFunction (closed_outValue K n)
  all_goals exact hblock

end Forms

section Grammar
variable (K : (α : Type) → Action α → Prop) [ClosedGrammar K] {body : Action Unit} (h : K _ body) (n : Nat)
include h

theorem closed_signed {k : TokenKind} {a : Action Unit} (ha : signed? n body k = some a) : K _ a :=
  closed_signed_of_blocks K (ClosedGrammar.blockInScope h) (ClosedGrammar.ifStatement (closed_expression K n) h)
    (ClosedGrammar.loopStatement (closed_expression K n) h)
    (ClosedGrammar.functionDeclaration (closed_parameterList K n) h) ha

theorem closed_declaration : K _ (declaration n body) := by
  refine Stable.bind Closed.currentKind fun kind => ?_
  split
  · exact Stable.seq Closed.advance (Stable.bind (closed_signed K h n ‹_›) fun _ => ClosedGrammar.recover n)
  · refine Stable.seq (closed_expression K _) (Stable.bind (ClosedForms.emit rfl) fun _ => ?_)
    exact ClosedGrammar.recover n

omit h

theorem closed_declarations : K _ (declarations n) := by
  induction n with
  | zero => exact Stable.pure _
  | succ n ih =>
    exact Stable.bind Closed.currentKind fun _ =>
      Stable.ite _ (Stable.pure _) (Stable.seq (closed_declaration K ih n) ih)

theorem closed_script : K _ (script n) := by
  induction n with
  | zero => exact Closed.advance
  | succ n ih =>
    refine Stable.bind (closed_accept K _) fun _ => Stable.ite _ (Stable.pure _) (Stable.seq ?_ ih)
    exact closed_declaration K (closed_declarations K n) n

end Grammar

/-- Properties that all the actions have which the forms of the grammar are put together from, where of a token that has
been read only its kind and its text are looked at. -/
class ClosedSteps (K : (α : Type) → Action α → Prop) : Prop extends Closed K, ClosedScope K where
  word : ∀ {α : Type} {f : Token → Action α}, (∀ {t u : Token}, t.kind = u.kind → t.lexeme = u.lexeme → f t = f u) →
    (∀ t, K α (f t)) → K α (previousToken >>= f)

/-- Properties of this kind that functions have if their parameters and bodies have them, and that actions keep which
follow the end of a recovery. -/
class ClosedWords (K : (α : Type) → Action α → Prop) : Prop extends ClosedSteps K where
  functionBody : ∀ {n : Nat} {body : Action Unit}, K _ (parameterList n) → K _ body → K _ (functionBody n body)
  resume : ∀ {a : Action Unit}, K _ a →
    K _ (get >>= fun s => if s.recovering then (modify fun s => { s with recovering := false }) >>= fun _ => a else Pure.pure ())

section Steps
variable (K : (α : Type) → Action α → Prop) [ClosedSteps K]

theorem closed_operand {parse : Level → Action Unit} (h : ∀ l, K _ (parse l)) (canAssign : Bool) (o : Operand) :
    K _ (operand parse canAssign o) := by
  cases o with
  | group => exact Stable.seq (h _) (closed_expect K _ _)
  | unary op => exact Stable.seq (h _) (closed_emit K op)
  | «variable» =>
    refine ClosedSteps.word (fun _ hx => by rw [hx]) fun t => Stable.bind (closed_accessTo K _) fun access =>
      Stable.bind (closed_acceptAssign K _) fun b => Stable.ite _ ?_ (closed_emitWith K _ _)
    exact Stable.seq (h _) (closed_emitWith K _ _)
  | string =>
    exact ClosedSteps.word (fun _ hx => by rw [hx]) fun t => Stable.seq (ClosedBytes.ensure _ _) <|
      Stable.bind (ClosedBytes.intern _) fun _ => closed_emitConstant K _
  | number =>
    refine ClosedSteps.word (fun _ hx => by rw [hx]) fun t => ?_
    split
    · exact closed_emitConstant K _
    · exact Stable.mistake _
  | char =>
    exact ClosedSteps.word (fun _ hx => by rw [hx]) fun t =>
      Stable.seq (ClosedBytes.ensure _ _) (closed_emitConstant K _)
  | escape byte => exact closed_emitConstant K _
  | literal op => exact closed_emit K op

theorem closed_operator {parse : Level → Action Unit} {arguments : Action Nat} (h : ∀ l, K _ (parse l))
    (ha : K _ arguments) (o : Operator) : K _ (operator parse arguments o) := by
  cases o with
  | binary op level => exact Stable.seq (h _) (closed_emit K op)
  | and =>
    exact Stable.bind (closed_openJump K _) fun _ => Stable.seq (closed_emit K _) <|
      Stable.seq (h _) (closed_closeJump K _)
  | or =>
    exact Stable.bind (closed_openJump K _) fun _ => Stable.seq (closed_emit K _) <|
      Stable.seq (h _) (closed_closeJump K _)
  | call =>
    exact Stable.bind (closed_argumentList K ha) fun _ => Stable.seq (closed_expect K _ _) (closed_emitWith K _ _)

theorem closed_expressionRest {parse : Level → Action Unit} {operators : Action Unit} (h : ∀ l, K _ (parse l))
    (ho : K _ operators) (level : Level) : K _ (expressionRest parse operators level) := by
  refine ClosedSteps.word (fun hk _ => by rw [hk]) fun t => ?_
  split
  · refine Stable.seq (closed_operand K h _ _) <| Stable.seq ho <| Stable.bind (closed_acceptAssign K _) fun b => ?_
    exact Stable.ite _ (Stable.mistake _) (Stable.pure _)
  · exact Stable.mistake _

theorem closed_readTarget : K _ readTarget :=
  Stable.seq (closed_expect K _ _) <| ClosedSteps.word (fun _ hx => by rw [hx]) fun _ =>
    Stable.bind (closed_accessTo K _) fun _ => Stable.seq (closed_emitWith K _ _) <|
      Stable.seq (closed_emit K _) (closed_expect K _ _)

theorem closed_readNewName (what : Expectation) : K _ (readNewName what) :=
  Stable.seq (closed_expect K _ _) <| ClosedSteps.word (fun _ hx => by rw [hx]) fun _ =>
    Stable.seq (closed_declareLocal K _) <| ClosedScope.lookup (fun _ hd => by rw [hd]) fun _ =>
      Stable.ite _ (Stable.pure _) <| ClosedSteps.word (fun _ hx => by rw [hx]) fun _ => closed_nameConstant K _

theorem closed_parameter (count : Nat) : K _ (parameter count) :=
  Stable.seq (closed_checkParameterCount K count) <| Stable.bind (closed_readNewName K _) fun _ =>
    closed_settleVariable K _

instance : ClosedForms K where
  emit _ := closed_emit K _
  emitReturn := closed_emitReturn K
  expressionRest := closed_expressionRest K
  operator h ha _ _ _ := closed_operator K h ha _
  readTarget := closed_readTarget K
  checkInFunction := ClosedScope.checkInFunction
  variableDeclaration he :=
    Stable.bind (closed_readNewName K _) fun _ => Stable.seq
      (Stable.bind (closed_accept K _) fun _ => Stable.ite _ he (closed_emit K _)) (closed_settleVariable K _)
  parameter := closed_parameter K

/-- A block has the property already if it is had up to its end mark. -/
theorem closed_blockInScope {body : Action Unit} (h : K _ (body >>= fun _ => expect .blockEnd .blockEnd)) :
    K _ (blockInScope body) :=
  Stable.seq (closed_enterScope K) (Stable.both h fun _ => closed_leaveScope K)

theorem closed_ifStatement {n : Nat} {body : Action Unit} (he : K _ (expression n)) (hb : K _ (blockInScope body)) :
    K _ (ifStatement n body) :=
  Stable.seq he <| Stable.bind (closed_openJump K _) fun _ => Stable.seq (closed_emit K _) <|
    Stable.seq (closed_expect K _ _) <| Stable.seq hb <| Stable.bind (closed_openJump K _) fun _ =>
      Stable.seq (closed_closeJump K _) <| Stable.seq (closed_emit K _) <|
        Stable.seq (closed_elsePart K hb) (closed_closeJump K _)

theorem closed_loopStatement {n : Nat} {body : Action Unit} (he : K _ (expression n)) (hb : K _ (blockInScope body)) :
    K _ (loopStatement n body) :=
  Stable.bind ClosedBytes.codeSize fun _ => Stable.seq he <| Stable.bind (closed_openJump K _) fun _ =>
    Stable.seq (closed_emit K _) <| Stable.seq (closed_expect K _ _) <| Stable.seq hb <|
      Stable.seq (closed_emitBackJump K _) <| Stable.seq (closed_closeJump K _) (closed_emit K _)

theorem closed_functionDeclaration {n : Nat} {body : Action Unit} (h : K _ (functionBody n body)) :
    K _ (functionDeclaration n body) :=
  Stable.bind (closed_readNewName K _) fun _ => Stable.seq (closed_bringInScope K) <|
    Stable.seq h (closed_settleVariable K _)

end Steps

section Words
variable (K : (α : Type) → Action α → Prop) [ClosedWords K]

theorem closed_recover (n : Nat) : K _ (recover n) := ClosedWords.resume (closed_skipToStatement K n)

theorem closed_block {body : Action Unit} (h : K _ body) : K _ (blockInScope body) :=
  closed_blockInScope K (Stable.seq h (closed_expect K _ _))

instance : ClosedGrammar K where
  blockInScope := closed_block K
  ifStatement he hb := closed_ifStatement K he (closed_block K hb)
  loopStatement he hb := closed_loopStatement K he (closed_block K hb)
  functionDeclaration hp hb := closed_functionDeclaration K (ClosedWords.functionBody hp hb)
  recover := closed_recover K

theorem closed_wholeScript (n : Nat) : K _ (wholeScript n) :=
  Stable.seq Closed.advance <| Stable.seq (closed_script K n) (closed_finishFunction K)

end Words

/-- Properties that all these actions have, whatever they look at or change in the function being compiled. -/
class ClosedCompiler (K : (α : Type) → Action α → Prop) : Prop extends Closed K, ClosedCode K

/-- Properties of this kind that actions keep which follow the end of a recovery. -/
class ClosedActions (K : (α : Type) → Action α → Prop) : Prop extends ClosedCompiler K where
  resume : ∀ {a : Action Unit}, K _ a →
    K _ (get >>= fun s => if s.recovering then (modify fun s => { s with recovering := false }) >>= fun _ => a else Pure.pure ())

section Compiler
variable (K : (α : Type) → Action α → Prop) [ClosedCompiler K]

instance : ClosedSteps K where
  word _ hf := Stable.bind ClosedCode.previousToken hf

theorem closed_functionHead {n : Nat} (h : K _ (parameterList n)) : K _ (functionHead n) :=
  Stable.bind ClosedCode.previousToken fun _ => Stable.bind (ClosedCode.intern _) fun _ =>
    Stable.bind (closed_beginFunction K _) fun _ => Stable.seq (closed_enterScope K) <|
      Stable.seq (closed_expect K _ _) <| Stable.bind h fun _ => Stable.seq (closed_setArity K _) <|
        Stable.seq (closed_expect K _ _) <| Stable.seq (closed_expect K _ _) (Stable.pure _)

/-- A function has the property already if its body has it up to its end mark. -/
theorem closed_functionBody {n : Nat} {body : Action Unit} (hp : K _ (parameterList n))
    (h : K _ (body >>= fun _ => expect .blockEnd .blockEnd)) : K _ (functionBody n body) :=
  Stable.bind (closed_functionHead K hp) fun outer => Stable.both h fun _ =>
    Stable.bind (closed_finishFunction K) fun _ =>
      Stable.seq (ClosedCode.draft fun _ => outer) (closed_emitConstant K _)

end Compiler

instance (K : (α : Type) → Action α → Prop) [ClosedActions K] : ClosedWords K where
  functionBody hp h := closed_functionBody K hp (Stable.seq h (closed_expect K _ _))
  resume := ClosedActions.resume

end StackScript.Compiler
