import StackScript.Proofs.Code.Events
import StackScript.Proofs.Syntax.Limits

/-! What happens while a tree is compiled. The words of the tree are read in their order, and between them its code is
written and its constants are asked for. -/
namespace StackScript

/-- A word is read that has only one spelling. -/
def TokenKind.event (k : TokenKind) : Event := .read k.mark

/-- An instruction without an operand is written. -/
def Opcode.event (op : Opcode) : Event := .emit ⟨op, 0⟩

def Literal.event : Literal → Event
  | true_ => Opcode.event .true
  | false_ => Opcode.event .false
  | l => .literal l

/-- A name is used: it is asked for if it is not in scope. -/
def askEvents (names : List String) (x : String) : List Event := if x ∈ names then [] else [.ask x]

/-- The variable of a name is accessed: its slot is the operand, or its name if it is global. -/
def accessEvent (names : List String) (x : String) (ofLocal ofGlobal : Opcode) : Event :=
  match slot? x names with
  | some i => .emit ⟨ofLocal, i⟩
  | none => .access ofGlobal x

def getEvent (names : List String) (x : String) : Event := accessEvent names x .getLocal .getGlobal

def setEvent (names : List String) (x : String) : Event := accessEvent names x .setLocal .setGlobal

/-- The comma before something is read. -/
def commaEvents {α : Type} (following : List α) : List Event := (commaBefore following).map .read

namespace Expr

mutual

/-- What happens while an expression is compiled where these names are in scope. The right side of a short circuit is
jumped over. -/
def events (names : List String) : Expr → List Event
  | literal l => [.read l.word, l.event]
  | name x => .read ⟨.ident, x⟩ :: (askEvents names x ++ [getEvent names x])
  | group e => TokenKind.leftParen.event :: (e.events names ++ [TokenKind.rightParen.event])
  | assign x value =>
    .read ⟨.ident, x⟩ :: (askEvents names x ++ TokenKind.assign.event :: (value.events names ++ [setEvent names x]))
  | unary op e => op.kind.event :: (e.events names ++ [op.opcode.event])
  | binary op left right => left.events names ++ op.kind.event :: (right.events names ++ [op.opcode.event])
  | and left right =>
    left.events names ++ TokenKind.and.event :: .emit ⟨.jumpIfFalse, right.size + 1⟩ :: Opcode.pop.event ::
      right.events names
  | or left right =>
    left.events names ++ TokenKind.or.event :: .emit ⟨.jumpIfTrue, right.size + 1⟩ :: Opcode.pop.event ::
      right.events names
  | call callee arguments =>
    callee.events names ++ TokenKind.leftParen.event :: (argumentEvents names arguments ++
      [TokenKind.rightParen.event, .emit ⟨.call, arguments.length⟩])

def argumentEvents (names : List String) : List Expr → List Event
  | [] => []
  | e :: es => e.events names ++ (commaEvents es ++ argumentEvents names es)

end

/-- Printed expressions with a comma before each. -/
def itemEvents (names : List String) : List Expr → List Event
  | [] => []
  | e :: es => TokenKind.comma.event :: (e.events names ++ Opcode.print.event :: itemEvents names es)

end Expr

namespace Decl

/-- A new name is read, and asked for if it is global. -/
def nameEvents (σ : Scope) (x : String) : List Event := .read ⟨.ident, x⟩ :: if σ.isLocal then [] else [.ask x]

/-- A new variable gets its value: a local one has it on the stack. -/
def settleEvents (isLocal : Bool) (x : String) : List Event := if isLocal then [] else [.access .defineGlobal x]

/-- The end of every function. -/
def returnEvents : List Event := [Opcode.null.event, Opcode.out.event]

/-- The end of a block drops its variables. -/
def blockEvents (body : List Decl) (inner : List Event) : List Event :=
  inner ++ TokenKind.blockEnd.event :: List.replicate (listDeclared body).length Opcode.pop.event

/-- What happens while a function is compiled. -/
def functionEvents (parameters : List String) (inner : List Event) : List Event :=
  TokenKind.leftParen.event :: ((nameWords parameters).map .read ++
    TokenKind.rightParen.event :: TokenKind.blockStart.event :: (inner ++ TokenKind.blockEnd.event :: returnEvents))

mutual

/-- What happens while a declaration is compiled in its scope. The functions in it are numbered from `first` on, in the
order in which they end. -/
def events (σ : Scope) (first : Nat) : Decl → List Event
  | expression e => e.events σ.names ++ [Opcode.pop.event]
  | print e es =>
    TokenKind.print.event :: (e.events σ.names ++ Opcode.print.event :: (Expr.itemEvents σ.names es ++
      [TokenKind.outEnd.event]))
  | read form x =>
    TokenKind.read.event :: form.kind.event :: form.opcode.event :: .read ⟨.ident, x⟩ :: (askEvents σ.names x ++
      [setEvent σ.names x, Opcode.pop.event, TokenKind.readEnd.event])
  | if_ condition body =>
    TokenKind.if_.event :: (condition.events σ.names ++ .emit ⟨.jumpIfFalse, blockSize body + 4⟩ :: Opcode.pop.event ::
      TokenKind.blockStart.event :: (blockEvents body (listEvents σ.enter first body) ++
        [.emit ⟨.jump, 1⟩, Opcode.pop.event]))
  | ifElse condition body alternative =>
    TokenKind.if_.event :: (condition.events σ.names ++ .emit ⟨.jumpIfFalse, blockSize body + 4⟩ :: Opcode.pop.event ::
      TokenKind.blockStart.event :: (blockEvents body (listEvents σ.enter first body) ++
        .emit ⟨.jump, blockSize alternative + 1⟩ :: Opcode.pop.event :: TokenKind.else_.event ::
          TokenKind.blockStart.event ::
            blockEvents alternative (listEvents σ.enter (first + listFunctionCount body) alternative)))
  | until_ condition body =>
    TokenKind.loop.event :: (condition.events σ.names ++ .emit ⟨.jumpIfTrue, blockSize body + 4⟩ :: Opcode.pop.event ::
      TokenKind.blockStart.event :: (blockEvents body (listEvents σ.enter first body) ++
        [.emit ⟨.loop, condition.size + blockSize body + 7⟩, Opcode.pop.event]))
  | out none => TokenKind.out.event :: TokenKind.outEnd.event :: returnEvents
  | out (some e) => TokenKind.out.event :: (e.events σ.names ++ [TokenKind.outEnd.event, Opcode.out.event])
  | block mark body => mark.kind.event :: blockEvents body (listEvents σ.enter first body)
  | var x none => TokenKind.var.event :: (nameEvents σ x ++ Opcode.null.event :: settleEvents σ.isLocal x)
  | var x (some e) =>
    TokenKind.var.event :: (nameEvents σ x ++ TokenKind.assign.event :: (e.events σ.names ++ settleEvents σ.isLocal x))
  | fun_ x parameters body =>
    TokenKind.fun_.event :: (nameEvents σ x ++ .function ⟨first + listFunctionCount body⟩
      (functionEvents parameters (listEvents (.function parameters) first body)) :: settleEvents σ.isLocal x)

def listEvents (σ : Scope) (first : Nat) : List Decl → List Event
  | [] => []
  | d :: ds => d.events σ first ++ listEvents (σ.after d) (first + d.functionCount) ds

end

/-- What happens while a program is compiled, up to the end of the source, which is read too. -/
def programEvents (first : Nat) (ds : List Decl) : List Event :=
  listEvents .script first ds ++ TokenKind.eof.event :: returnEvents

/-- The histories of the functions of a program, in the order in which they end. The script comes last. -/
def programHistories (first : Nat) (ds : List Decl) : List History :=
  Event.allHistories 0 (programEvents first ds) ++ [⟨0, programEvents first ds⟩]

end Decl

/-! ### Words -/

attribute [local simp] TokenKind.event Opcode.event

section Words

@[simp] theorem words_reads (ws : List Word) : Event.allWords (ws.map .read) = ws := by
  induction ws with
  | nil => rfl
  | cons w ws ih => simp [ih]

@[simp] theorem words_literalEvent (l : Literal) : l.event.words = [] := by cases l <;> rfl

@[simp] theorem words_askEvents (names : List String) (x : String) : Event.allWords (askEvents names x) = [] := by
  unfold askEvents
  split <;> rfl

@[simp] theorem words_accessEvent (names : List String) (x : String) (op op' : Opcode) :
    (accessEvent names x op op').words = [] := by
  unfold accessEvent
  split <;> rfl

mutual

theorem Expr.words_events (names : List String) (e : Expr) : Event.allWords (e.events names) = e.words := by
  cases e with
  | literal l => simp [Expr.events, Expr.words]
  | name x => simp [Expr.events, Expr.words, getEvent]
  | group e => simp [Expr.events, Expr.words, Expr.words_events names e]
  | assign x value => simp [Expr.events, Expr.words, setEvent, Expr.words_events names value]
  | unary op e => simp [Expr.events, Expr.words, Expr.words_events names e]
  | binary op left right | and left right | or left right =>
    simp [Expr.events, Expr.words, Expr.words_events names left, Expr.words_events names right]
  | call callee arguments =>
    simp [Expr.events, Expr.words, Expr.words_events names callee, Expr.words_argumentEvents names arguments]

theorem Expr.words_argumentEvents (names : List String) (es : List Expr) :
    Event.allWords (Expr.argumentEvents names es) = Expr.argumentWords es := by
  cases es with
  | nil => rfl
  | cons e es =>
    simp [Expr.argumentEvents, Expr.argumentWords, commaEvents, Expr.words_events names e,
      Expr.words_argumentEvents names es]

end

theorem Expr.words_itemEvents (names : List String) (es : List Expr) :
    Event.allWords (Expr.itemEvents names es) = itemWords es := by
  induction es with
  | nil => rfl
  | cons e es ih => simp [Expr.itemEvents, itemWords, Expr.words_events, ih]

@[simp] theorem words_nameEvents (σ : Scope) (x : String) : Event.allWords (Decl.nameEvents σ x) = [⟨.ident, x⟩] := by
  unfold Decl.nameEvents
  cases σ.isLocal <;> rfl

@[simp] theorem words_settleEvents (isLocal : Bool) (x : String) :
    Event.allWords (Decl.settleEvents isLocal x) = [] := by
  cases isLocal <;> rfl

@[simp] theorem words_returnEvents : Event.allWords Decl.returnEvents = [] := rfl

@[simp] theorem words_pops (n : Nat) : Event.allWords (List.replicate n Opcode.pop.event) = [] := by
  induction n with
  | zero => rfl
  | succ n ih => simpa [List.replicate_succ] using ih

@[simp] theorem words_blockEvents (body : List Decl) (inner : List Event) :
    Event.allWords (Decl.blockEvents body inner) = Event.allWords inner ++ [TokenKind.blockEnd.mark] := by
  have hpops := words_pops (Decl.listDeclared body).length
  simp only [Opcode.event] at hpops
  simp [Decl.blockEvents, hpops]

mutual

/-- The words of a tree are read in their order. -/
theorem Decl.words_events (σ : Scope) (first : Nat) (d : Decl) : Event.allWords (d.events σ first) = d.words := by
  cases d with
  | expression e => simp [Decl.events, Decl.words, Expr.words_events]
  | print e es => simp [Decl.events, Decl.words, Expr.words_events, Expr.words_itemEvents]
  | read form x => simp [Decl.events, Decl.words, setEvent]
  | if_ e ds | until_ e ds =>
    simp [Decl.events, Decl.words, Expr.words_events, Decl.words_listEvents _ _ ds, BlockMark.enclosed, BlockMark.kind]
  | ifElse e ds es =>
    simp [Decl.events, Decl.words, Expr.words_events, Decl.words_listEvents _ _ ds, Decl.words_listEvents _ _ es,
      BlockMark.enclosed, BlockMark.kind]
  | out value => cases value <;> simp [Decl.events, Decl.words, Expr.words_events]
  | block mark ds => simp [Decl.events, Decl.words, Decl.words_listEvents _ _ ds, BlockMark.enclosed]
  | var x initial => cases initial <;> simp [Decl.events, Decl.words, Expr.words_events]
  | fun_ x xs ds =>
    simp [Decl.events, Decl.words, Decl.functionEvents, Decl.words_listEvents _ _ ds, BlockMark.enclosed,
      BlockMark.kind]

theorem Decl.words_listEvents (σ : Scope) (first : Nat) (ds : List Decl) :
    Event.allWords (Decl.listEvents σ first ds) = Decl.listWords ds := by
  cases ds with
  | nil => rfl
  | cons d ds => simp [Decl.listEvents, Decl.listWords, Decl.words_events σ first d, Decl.words_listEvents _ _ ds]

end

/-- What is read while a program is compiled is the program and the end of the source. -/
theorem Decl.words_programEvents (first : Nat) (ds : List Decl) :
    Event.allWords (Decl.programEvents first ds) = Decl.listWords ds ++ [TokenKind.eof.mark] := by
  simp [Decl.programEvents, Decl.words_listEvents]

end Words

/-! ### Sizes -/

section Sizes

attribute [local simp] Instr.size Opcode.width

@[simp] theorem size_reads (ws : List Word) : Event.allSize (ws.map .read) = 0 := by
  induction ws with
  | nil => rfl
  | cons w ws ih => simp [ih]

@[simp] theorem size_literalEvent (l : Literal) : l.event.size = l.size := by cases l <;> rfl

@[simp] theorem size_askEvents (names : List String) (x : String) : Event.allSize (askEvents names x) = 0 := by
  unfold askEvents
  split <;> rfl

@[simp] theorem size_getEvent (names : List String) (x : String) : (getEvent names x).size = 2 := by
  unfold getEvent accessEvent
  split <;> rfl

@[simp] theorem size_setEvent (names : List String) (x : String) : (setEvent names x).size = 2 := by
  unfold setEvent accessEvent
  split <;> rfl

mutual

/-- The events write the code of the tree. -/
theorem Expr.size_events (names : List String) (e : Expr) : Event.allSize (e.events names) = e.size := by
  cases e with
  | literal l => simp [Expr.events, Expr.size]
  | name x => simp [Expr.events, Expr.size]
  | group e => simp [Expr.events, Expr.size, Expr.size_events names e]
  | assign x value => simp [Expr.events, Expr.size, Expr.size_events names value]
  | unary op e => cases op <;> simp [Expr.events, Expr.size, Expr.size_events names e, Unary.opcode]
  | binary op left right =>
    cases op <;>
      simp [Expr.events, Expr.size, Expr.size_events names left, Expr.size_events names right, Binary.opcode,
        Nat.add_assoc]
  | and left right | or left right =>
    simp [Expr.events, Expr.size, Expr.size_events names left, Expr.size_events names right]
    omega
  | call callee arguments =>
    simp [Expr.events, Expr.size, Expr.size_events names callee, Expr.size_argumentEvents names arguments,
      Nat.add_assoc]

theorem Expr.size_argumentEvents (names : List String) (es : List Expr) :
    Event.allSize (Expr.argumentEvents names es) = Expr.allSize es := by
  cases es with
  | nil => rfl
  | cons e es =>
    simp [Expr.argumentEvents, Expr.allSize, commaEvents, Expr.size_events names e, Expr.size_argumentEvents names es]

end

theorem Expr.size_itemEvents (names : List String) (es : List Expr) :
    Event.allSize (Expr.itemEvents names es) = Expr.allSize es + es.length := by
  induction es with
  | nil => rfl
  | cons e es ih =>
    simp [Expr.itemEvents, Expr.allSize, Expr.size_events, ih]
    omega

@[simp] theorem size_nameEvents (σ : Scope) (x : String) : Event.allSize (Decl.nameEvents σ x) = 0 := by
  unfold Decl.nameEvents
  cases σ.isLocal <;> rfl

@[simp] theorem size_settleEvents (isLocal : Bool) (x : String) :
    Event.allSize (Decl.settleEvents isLocal x) = Decl.nameSize isLocal := by cases isLocal <;> rfl

@[simp] theorem size_returnEvents : Event.allSize Decl.returnEvents = 2 := rfl

@[simp] theorem size_pops (n : Nat) : Event.allSize (List.replicate n Opcode.pop.event) = n := by
  induction n with
  | zero => rfl
  | succ n ih =>
    rw [List.replicate_succ, Event.allSize, ih, Nat.add_comm]
    rfl

theorem size_blockEvents (body : List Decl) (inner : List Event) :
    Event.allSize (Decl.blockEvents body inner) = Event.allSize inner + (Decl.listDeclared body).length := by
  have hpops := size_pops (Decl.listDeclared body).length
  simp only [Opcode.event] at hpops
  simp [Decl.blockEvents, hpops]

mutual

theorem Decl.size_events (σ : Scope) (first : Nat) (d : Decl) :
    Event.allSize (d.events σ first) = d.size σ.isLocal := by
  cases d with
  | expression e => simp [Decl.events, Decl.size, Expr.size_events]
  | print e es =>
    simp [Decl.events, Decl.size, Expr.size_events, Expr.size_itemEvents]
    omega
  | read form x => cases form <;> simp [Decl.events, Decl.size, InputForm.opcode]
  | if_ e ds | until_ e ds =>
    simp [Decl.events, Decl.size, Expr.size_events, size_blockEvents, Decl.size_listEvents _ _ ds]
    omega
  | ifElse e ds es =>
    simp [Decl.events, Decl.size, Expr.size_events, size_blockEvents, Decl.size_listEvents _ _ ds,
      Decl.size_listEvents _ _ es]
    omega
  | out value => cases value <;> simp [Decl.events, Decl.size, Expr.size_events]
  | block mark ds => simp [Decl.events, Decl.size, size_blockEvents, Decl.size_listEvents _ _ ds]
  | var x initial => cases initial <;> simp [Decl.events, Decl.size, Expr.size_events]
  | fun_ x xs ds => simp [Decl.events, Decl.size]

theorem Decl.size_listEvents (σ : Scope) (first : Nat) (ds : List Decl) :
    Event.allSize (Decl.listEvents σ first ds) = Decl.listSize σ.isLocal ds := by
  cases ds with
  | nil => rfl
  | cons d ds => simp [Decl.listEvents, Decl.listSize, Decl.size_events σ first d, Decl.size_listEvents _ _ ds]

end

end Sizes

/-! ### Constants -/

section Constants

@[simp] theorem needs_reads (ws : List Word) : Event.allNeeds (ws.map .read) = 0 := by
  induction ws with
  | nil => rfl
  | cons w ws ih => simp [ih]

@[simp] theorem needs_literalEvent (l : Literal) : l.event.needs = l.needs := by cases l <;> rfl

@[simp] theorem needs_askEvents (names : List String) (x : String) :
    Event.allNeeds (askEvents names x) = .name names x := by
  unfold askEvents Needs.name
  split <;> simp

@[simp] theorem needs_accessEvent (names : List String) (x : String) (op op' : Opcode) :
    (accessEvent names x op op').needs = 0 := by
  unfold accessEvent
  split <;> rfl

mutual

/-- The events ask for the constants of the tree. -/
theorem Expr.needs_events (names : List String) (e : Expr) : Event.allNeeds (e.events names) = e.needs names := by
  cases e with
  | literal l => simp [Expr.events, Expr.needs]
  | name x => simp [Expr.events, Expr.needs, getEvent]
  | group e => simp [Expr.events, Expr.needs, Expr.needs_events names e]
  | assign x value => simp [Expr.events, Expr.needs, setEvent, Expr.needs_events names value]
  | unary op e => simp [Expr.events, Expr.needs, Expr.needs_events names e]
  | binary op left right | and left right | or left right =>
    simp [Expr.events, Expr.needs, Expr.needs_events names left, Expr.needs_events names right]
  | call callee arguments =>
    simp [Expr.events, Expr.needs, Expr.needs_events names callee, Expr.needs_argumentEvents names arguments]

theorem Expr.needs_argumentEvents (names : List String) (es : List Expr) :
    Event.allNeeds (Expr.argumentEvents names es) = Expr.allNeeds names es := by
  cases es with
  | nil => rfl
  | cons e es =>
    simp [Expr.argumentEvents, Expr.allNeeds, commaEvents, Expr.needs_events names e,
      Expr.needs_argumentEvents names es]

end

theorem Expr.needs_itemEvents (names : List String) (es : List Expr) :
    Event.allNeeds (Expr.itemEvents names es) = Expr.allNeeds names es := by
  induction es with
  | nil => rfl
  | cons e es ih => simp [Expr.itemEvents, Expr.allNeeds, Expr.needs_events, ih]

@[simp] theorem needs_nameEvents (σ : Scope) (x : String) :
    Event.allNeeds (Decl.nameEvents σ x) = Decl.nameNeeds σ x := by
  unfold Decl.nameEvents Decl.nameNeeds
  cases σ.isLocal <;> simp

@[simp] theorem needs_settleEvents (isLocal : Bool) (x : String) :
    Event.allNeeds (Decl.settleEvents isLocal x) = 0 := by
  cases isLocal <;> simp [Decl.settleEvents]

@[simp] theorem needs_returnEvents : Event.allNeeds Decl.returnEvents = 0 := by simp [Decl.returnEvents]

@[simp] theorem needs_pops (n : Nat) : Event.allNeeds (List.replicate n Opcode.pop.event) = 0 := by
  induction n with
  | zero => rfl
  | succ n ih =>
    rw [List.replicate_succ, Event.allNeeds, ih]
    rfl

@[simp] theorem needs_blockEvents (body : List Decl) (inner : List Event) :
    Event.allNeeds (Decl.blockEvents body inner) = Event.allNeeds inner := by
  have hpops := needs_pops (Decl.listDeclared body).length
  simp only [Opcode.event] at hpops
  simp [Decl.blockEvents, hpops]

mutual

theorem Decl.needs_events (σ : Scope) (first : Nat) (d : Decl) : Event.allNeeds (d.events σ first) = d.needs σ := by
  cases d with
  | expression e => simp [Decl.events, Decl.needs, Expr.needs_events]
  | print e es => simp [Decl.events, Decl.needs, Expr.needs_events, Expr.needs_itemEvents]
  | read form x => simp [Decl.events, Decl.needs, setEvent]
  | if_ e ds | until_ e ds => simp [Decl.events, Decl.needs, Expr.needs_events, Decl.needs_listEvents _ _ ds]
  | ifElse e ds es =>
    simp [Decl.events, Decl.needs, Expr.needs_events, Decl.needs_listEvents _ _ ds, Decl.needs_listEvents _ _ es,
      Needs.add_assoc]
  | out value => cases value <;> simp [Decl.events, Decl.needs, Expr.needs_events]
  | block mark ds => simp [Decl.events, Decl.needs, Decl.needs_listEvents _ _ ds]
  | var x initial => cases initial <;> simp [Decl.events, Decl.needs, Expr.needs_events]
  | fun_ x xs ds => simp [Decl.events, Decl.needs]

theorem Decl.needs_listEvents (σ : Scope) (first : Nat) (ds : List Decl) :
    Event.allNeeds (Decl.listEvents σ first ds) = Decl.listNeeds σ ds := by
  cases ds with
  | nil => rfl
  | cons d ds => simp [Decl.listEvents, Decl.listNeeds, Decl.needs_events σ first d, Decl.needs_listEvents _ _ ds]

end

theorem Decl.needs_functionEvents (xs : List String) (inner : List Event) :
    Event.allNeeds (Decl.functionEvents xs inner) = Event.allNeeds inner := by
  simp [Decl.functionEvents]

theorem Decl.needs_programEvents (first : Nat) (ds : List Decl) :
    Event.allNeeds (Decl.programEvents first ds) = Decl.listNeeds .script ds := by
  simp [Decl.programEvents, Decl.needs_listEvents]

end Constants

/-! ### Functions -/

section Functions
variable (start : Nat)

/-- Where no function is declared there are no histories. -/
@[simp] theorem histories_reads (ws : List Word) : Event.allHistories start (ws.map .read) = [] := by
  induction ws generalizing start with
  | nil => rfl
  | cons w ws ih => simp [ih]

@[simp] theorem histories_literalEvent (l : Literal) : l.event.histories start = [] := by cases l <;> rfl

@[simp] theorem histories_askEvents (names : List String) (x : String) :
    Event.allHistories start (askEvents names x) = [] := by
  unfold askEvents
  split <;> rfl

@[simp] theorem histories_accessEvent (names : List String) (x : String) (op op' : Opcode) :
    (accessEvent names x op op').histories start = [] := by
  unfold accessEvent
  split <;> rfl

mutual

@[simp] theorem Expr.histories_events (start : Nat) (names : List String) (e : Expr) :
    Event.allHistories start (e.events names) = [] := by
  cases e with
  | literal l => simp [Expr.events]
  | name x => simp [Expr.events, getEvent]
  | group e => simp [Expr.events, Expr.histories_events _ names e]
  | assign x value => simp [Expr.events, setEvent, Expr.histories_events _ names value]
  | unary op e => simp [Expr.events, Expr.histories_events _ names e]
  | binary op left right | and left right | or left right =>
    simp [Expr.events, Expr.histories_events _ names left, Expr.histories_events _ names right]
  | call callee arguments =>
    simp [Expr.events, Expr.histories_events _ names callee, Expr.histories_argumentEvents _ names arguments]

@[simp] theorem Expr.histories_argumentEvents (start : Nat) (names : List String) (es : List Expr) :
    Event.allHistories start (Expr.argumentEvents names es) = [] := by
  cases es with
  | nil => rfl
  | cons e es =>
    simp [Expr.argumentEvents, commaEvents, Expr.histories_events _ names e, Expr.histories_argumentEvents _ names es]

end

@[simp] theorem Expr.histories_itemEvents (names : List String) (es : List Expr) :
    Event.allHistories start (Expr.itemEvents names es) = [] := by
  induction es generalizing start with
  | nil => rfl
  | cons e es ih => simp [Expr.itemEvents, ih]

@[simp] theorem histories_nameEvents (σ : Scope) (x : String) :
    Event.allHistories start (Decl.nameEvents σ x) = [] := by
  unfold Decl.nameEvents
  cases σ.isLocal <;> rfl

@[simp] theorem histories_settleEvents (isLocal : Bool) (x : String) :
    Event.allHistories start (Decl.settleEvents isLocal x) = [] := by cases isLocal <;> rfl

@[simp] theorem histories_returnEvents : Event.allHistories start Decl.returnEvents = [] := rfl

@[simp] theorem histories_pops (n : Nat) : Event.allHistories start (List.replicate n Opcode.pop.event) = [] := by
  induction n generalizing start with
  | zero => rfl
  | succ n ih =>
    rw [List.replicate_succ, Event.allHistories, ih]
    rfl

@[simp] theorem histories_blockEvents (body : List Decl) (inner : List Event) :
    Event.allHistories start (Decl.blockEvents body inner) = Event.allHistories start inner := by
  simp [Decl.blockEvents, -Opcode.event]

@[simp] theorem histories_functionEvents (xs : List String) (inner : List Event) :
    Event.allHistories start (Decl.functionEvents xs inner) =
      Event.allHistories (start + (nameWords xs).length + 3) inner := by
  simp only [Decl.functionEvents, TokenKind.event, Event.allHistories_cons, Event.allHistories_append, histories_reads,
    Event.histories_read, histories_returnEvents, Event.words_read, words_reads, List.nil_append, List.append_nil,
    List.length_singleton]
  congr 1
  omega

mutual

theorem Expr.everywhere_true (e : Expr) : e.Everywhere fun _ => True := by
  cases e with
  | literal | name => trivial
  | group e | assign _ e | unary _ e => simp [Expr.Everywhere, Expr.everywhere_true e]
  | binary _ left right | and left right | or left right =>
    simp [Expr.Everywhere, Expr.everywhere_true left, Expr.everywhere_true right]
  | call callee arguments => simp [Expr.Everywhere, Expr.everywhere_true callee, Expr.allEverywhere_true arguments]

theorem Expr.allEverywhere_true (es : List Expr) : Expr.AllEverywhere (fun _ => True) es := by
  cases es with
  | nil => trivial
  | cons e es => exact ⟨Expr.everywhere_true e, Expr.allEverywhere_true es⟩

end

namespace Decl

attribute [local simp] Everywhere FewConstants Expr.everywhere_true Expr.allEverywhere_true

mutual

/-- A byte can name every constant of the functions in a declaration. -/
theorem fewConstants_iff (σ : Scope) (first start : Nat) (d : Decl) : d.Everywhere FewConstants (fun _ => True) σ ↔
    ∀ h ∈ Event.allHistories start (d.events σ first), h.entries.length ≤ Bytecode.maxConstants := by
  cases d with
  | expression | print | read => simp [Decl.events, setEvent]
  | if_ e ds | until_ e ds | block _ ds =>
    simpa [Decl.events] using listFewConstants_iff _ _ _ ds
  | ifElse e ds es =>
    simpa [Decl.events, List.forall_mem_append, -List.mem_append] using
      and_congr (listFewConstants_iff _ _ _ ds) (listFewConstants_iff _ _ _ es)
  | out value => cases value <;> simp [Decl.events]
  | var x initial => cases initial <;> simp [Decl.events]
  | fun_ x xs ds =>
    have hlength : ∀ k, (⟨k, functionEvents xs (listEvents (.function xs) first ds)⟩ : History).entries.length =
        (listNeeds (.function xs) ds).count := fun k => by
      rw [History.length_entries, needs_functionEvents, needs_listEvents]
    simp [Decl.events, List.forall_mem_append, -List.mem_append, hlength]
    rw [and_comm]
    exact and_congr_left fun _ => listFewConstants_iff _ _ _ ds

theorem listFewConstants_iff (σ : Scope) (first start : Nat) (ds : List Decl) :
    ListEverywhere FewConstants (fun _ => True) σ ds ↔
      ∀ h ∈ Event.allHistories start (listEvents σ first ds), h.entries.length ≤ Bytecode.maxConstants := by
  cases ds with
  | nil => simp [ListEverywhere, listEvents]
  | cons d ds =>
    rw [ListEverywhere, listEvents, Event.allHistories_append, List.forall_mem_append]
    exact and_congr (fewConstants_iff σ first start d) (listFewConstants_iff _ _ _ ds)

end
end Decl

end Functions
end StackScript
