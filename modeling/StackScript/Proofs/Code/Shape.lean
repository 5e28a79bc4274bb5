import StackScript.Proofs.Code.Instr
import StackScript.Proofs.Store.Extends
import StackScript.Proofs.Syntax.Scope

/-! The code of a tree. Constants are where the code says they are, in the pool of the function that the
code belongs to; more constants and more objects in the store change nothing. -/
namespace StackScript
open Compiler (charByte)

/-- The constants of a function, with the store that they refer to. -/
structure Pool where
  constants : Array Value
  store : Store

namespace Pool

/-- A pool to which constants have been added. -/
structure Extends (κ κ' : Pool) : Prop where
  constants : ∀ {i : Nat} {v}, κ.constants[i]? = some v → κ'.constants[i]? = some v
  store : κ.store.Extends κ'.store

theorem Extends.refl (κ : Pool) : κ.Extends κ := ⟨id, .refl _⟩

theorem Extends.trans {κ κ' κ'' : Pool} (h : κ.Extends κ') (k : κ'.Extends κ'') : κ.Extends κ'' :=
  ⟨k.constants ∘ h.constants, h.store.trans k.store⟩

theorem Extends.of_store (constants : Array Value) {s t : Store} (hs : s.Extends t) :
    Extends ⟨constants, s⟩ ⟨constants, t⟩ := ⟨id, hs⟩

/-- A constant is a name. -/
def IsName (κ : Pool) (i : Nat) (x : String) : Prop :=
  ∃ a, κ.constants[i]? = some (.string a) ∧ κ.store.text? a = some x

theorem IsName.mono {κ κ' : Pool} (hk : κ.Extends κ') {i : Nat} {x : String} (h : κ.IsName i x) :
    κ'.IsName i x :=
  h.imp fun _ ⟨hc, ht⟩ => ⟨hk.constants hc, hk.store.text ht⟩

end Pool

/-- Where a variable lives: in a slot of the stack, or under the name that is a constant. -/
inductive Home
  | slot (i : Nat)
  | global (i : Nat)

namespace Home

def get : Home → Instr
  | slot i => ⟨.getLocal, i⟩
  | global i => ⟨.getGlobal, i⟩

def set : Home → Instr
  | slot i => ⟨.setLocal, i⟩
  | global i => ⟨.setGlobal, i⟩

@[simp] theorem size_get (p : Home) : p.get.size = 2 := by cases p <;> rfl

@[simp] theorem size_set (p : Home) : p.set.size = 2 := by cases p <;> rfl

end Home

/-- Where the variable of a name is, if the given names are in scope. -/
def Pool.Finds (κ : Pool) (names : List String) (x : String) : Home → Prop
  | .slot i => slot? x names = some i
  | .global i => x ∉ names ∧ κ.IsName i x

theorem Pool.Finds.mono {κ κ' : Pool} (hk : κ.Extends κ') {names : List String} {x : String} {p : Home}
    (h : κ.Finds names x p) : κ'.Finds names x p := by
  cases p with
  | slot i => exact h
  | global i => exact ⟨h.1, h.2.mono hk⟩

/-- The code that gives a new variable its value: a local one has it on the stack. -/
def Pool.Settles (κ : Pool) (isLocal : Bool) (x : String) (is : List Instr) : Prop :=
  if isLocal then is = [] else ∃ i, κ.IsName i x ∧ is = [⟨.defineGlobal, i⟩]

theorem Pool.Settles.mono {κ κ' : Pool} (hk : κ.Extends κ') {isLocal : Bool} {x : String}
    {is : List Instr} (h : κ.Settles isLocal x is) : κ'.Settles isLocal x is := by
  cases isLocal with
  | true => exact h
  | false => exact h.imp fun i ⟨hi, he⟩ => ⟨hi.mono hk, he⟩

theorem Pool.Settles.size {κ : Pool} {isLocal : Bool} {x : String} {is : List Instr}
    (h : κ.Settles isLocal x is) : codeLength is = Decl.nameSize isLocal := by
  cases isLocal with
  | true =>
    obtain rfl : is = [] := h
    rfl
  | false =>
    obtain ⟨i, -, rfl⟩ := h
    rfl

/-! ### Expressions -/

namespace Literal

/-- The value that a literal stands for. -/
def Means (s : Store) : Literal → Value → Prop
  | number text, v => ∃ n, Numeral.leading? text.toList = some n ∧ v = .number n.value
  | string text, v => ∃ a, s.text? a = some (String.ofList (Quoted.content text.toList)) ∧ v = .string a
  | char text, v => v = .char (charByte text.toList)
  | newLine, v => v = .char 10
  | tab, v => v = .char 9
  | true_, v => v = .bool true
  | false_, v => v = .bool false

theorem Means.mono {s t : Store} (hs : s.Extends t) {l : Literal} {v : Value} (h : l.Means s v) :
    l.Means t v := by
  cases l with
  | string text => exact h.imp fun a ⟨ha, hv⟩ => ⟨hs.text ha, hv⟩
  | _ => exact h

/-- Truth values are instructions of their own, and all other literals are constants. -/
def Code (κ : Pool) : Literal → List Instr → Prop
  | true_, is => is = [⟨.true, 0⟩]
  | false_, is => is = [⟨.false, 0⟩]
  | l, is => ∃ i v, κ.constants[i]? = some v ∧ l.Means κ.store v ∧ is = [⟨.constant, i⟩]

theorem Code.mono {κ κ' : Pool} (hk : κ.Extends κ') {l : Literal} {is : List Instr} (h : l.Code κ is) :
    l.Code κ' is := by
  cases l <;> first
    | exact h
    | exact h.imp fun i ⟨v, hc, hm, he⟩ => ⟨v, hk.constants hc, hm.mono hk.store, he⟩

theorem Code.size {κ : Pool} {l : Literal} {is : List Instr} (h : l.Code κ is) :
    codeLength is = l.size := by
  cases l with
  | true_ =>
    obtain rfl := h
    rfl
  | false_ =>
    obtain rfl := h
    rfl
  | _ =>
    obtain ⟨i, v, -, -, rfl⟩ := h
    rfl

end Literal

namespace Expr

mutual

/-- The code of an expression, which leaves its value on the stack. -/
def Code (κ : Pool) (names : List String) : Expr → List Instr → Prop
  | literal l, is => l.Code κ is
  | name x, is => ∃ p, κ.Finds names x p ∧ is = [p.get]
  | group e, is => e.Code κ names is
  | assign x value, is =>
    ∃ p iv, κ.Finds names x p ∧ value.Code κ names iv ∧ is = iv ++ [p.set]
  | unary op e, is => ∃ ie, e.Code κ names ie ∧ is = ie ++ [⟨op.opcode, 0⟩]
  | binary op left right, is =>
    ∃ il ir, left.Code κ names il ∧ right.Code κ names ir ∧ is = il ++ (ir ++ [⟨op.opcode, 0⟩])
  | and left right, is =>
    ∃ il ir, left.Code κ names il ∧ right.Code κ names ir ∧
      is = il ++ ⟨.jumpIfFalse, right.size + 1⟩ :: ⟨.pop, 0⟩ :: ir
  | or left right, is =>
    ∃ il ir, left.Code κ names il ∧ right.Code κ names ir ∧
      is = il ++ ⟨.jumpIfTrue, right.size + 1⟩ :: ⟨.pop, 0⟩ :: ir
  | call callee arguments, is =>
    ∃ ic ia, callee.Code κ names ic ∧ AllCode κ names arguments ia ∧
      is = ic ++ (ia ++ [⟨.call, arguments.length⟩])

/-- The code of expressions one after another. -/
def AllCode (κ : Pool) (names : List String) : List Expr → List Instr → Prop
  | [], is => is = []
  | e :: es, is => ∃ ie js, e.Code κ names ie ∧ AllCode κ names es js ∧ is = ie ++ js

end

/-- The code of printed expressions. -/
def ItemsCode (κ : Pool) (names : List String) : List Expr → List Instr → Prop
  | [], is => is = []
  | e :: es, is =>
    ∃ ie js, e.Code κ names ie ∧ ItemsCode κ names es js ∧ is = ie ++ ⟨.print, 0⟩ :: js

section Mono
variable {κ κ' : Pool} {names : List String}

mutual

theorem Code.mono (hk : κ.Extends κ') (e : Expr) (is : List Instr) (h : e.Code κ names is) :
    e.Code κ' names is := by
  cases e with
  | literal l => exact Literal.Code.mono hk h
  | name x => exact h.imp fun p ⟨hp, he⟩ => ⟨hp.mono hk, he⟩
  | group e => exact Code.mono hk e is h
  | assign x value =>
    obtain ⟨p, iv, hp, hv, rfl⟩ := h
    exact ⟨p, iv, hp.mono hk, Code.mono hk value iv hv, rfl⟩
  | unary op e =>
    obtain ⟨ie, he, rfl⟩ := h
    exact ⟨ie, Code.mono hk e ie he, rfl⟩
  | binary op left right =>
    obtain ⟨il, ir, hl, hr, rfl⟩ := h
    exact ⟨il, ir, Code.mono hk left il hl, Code.mono hk right ir hr, rfl⟩
  | and left right =>
    obtain ⟨il, ir, hl, hr, rfl⟩ := h
    exact ⟨il, ir, Code.mono hk left il hl, Code.mono hk right ir hr, rfl⟩
  | or left right =>
    obtain ⟨il, ir, hl, hr, rfl⟩ := h
    exact ⟨il, ir, Code.mono hk left il hl, Code.mono hk right ir hr, rfl⟩
  | call callee arguments =>
    obtain ⟨ic, ia, hc, ha, rfl⟩ := h
    exact ⟨ic, ia, Code.mono hk callee ic hc, AllCode.mono hk arguments ia ha, rfl⟩

theorem AllCode.mono (hk : κ.Extends κ') (es : List Expr) (is : List Instr)
    (h : AllCode κ names es is) : AllCode κ' names es is := by
  cases es with
  | nil => exact h
  | cons e es =>
    obtain ⟨ie, js, he, hs, rfl⟩ := h
    exact ⟨ie, js, Code.mono hk e ie he, AllCode.mono hk es js hs, rfl⟩

end

theorem ItemsCode.mono (hk : κ.Extends κ') (es : List Expr) (is : List Instr)
    (h : ItemsCode κ names es is) : ItemsCode κ' names es is := by
  induction es generalizing is with
  | nil => exact h
  | cons e es ih =>
    obtain ⟨ie, js, he, hs, rfl⟩ := h
    exact ⟨ie, js, he.mono hk, ih js hs, rfl⟩

mutual

theorem Code.size (e : Expr) (is : List Instr) (h : e.Code κ names is) : codeLength is = e.size := by
  cases e with
  | literal l => exact Literal.Code.size h
  | name x =>
    obtain ⟨p, -, rfl⟩ := h
    exact p.size_get
  | group e => exact Code.size e is h
  | assign x value =>
    obtain ⟨p, iv, -, hv, rfl⟩ := h
    simp [Code.size value iv hv, Expr.size]
  | unary op e =>
    obtain ⟨ie, he, rfl⟩ := h
    cases op <;> simp [Code.size e ie he, Expr.size, Instr.size, Unary.opcode, Opcode.width]
  | binary op left right =>
    obtain ⟨il, ir, hl, hr, rfl⟩ := h
    cases op <;> simp [Code.size left il hl, Code.size right ir hr, Expr.size, Instr.size,
      Binary.opcode, Opcode.width, Nat.add_assoc]
  | and left right =>
    obtain ⟨il, ir, hl, hr, rfl⟩ := h
    simp [Code.size left il hl, Code.size right ir hr, Expr.size, Instr.size, Opcode.width]
    omega
  | or left right =>
    obtain ⟨il, ir, hl, hr, rfl⟩ := h
    simp [Code.size left il hl, Code.size right ir hr, Expr.size, Instr.size, Opcode.width]
    omega
  | call callee arguments =>
    obtain ⟨ic, ia, hc, ha, rfl⟩ := h
    simp [Code.size callee ic hc, AllCode.size arguments ia ha, Expr.size, Instr.size, Opcode.width]
    omega

theorem AllCode.size (es : List Expr) (is : List Instr) (h : AllCode κ names es is) :
    codeLength is = allSize es := by
  cases es with
  | nil =>
    obtain rfl := h
    rfl
  | cons e es =>
    obtain ⟨ie, js, he, hs, rfl⟩ := h
    simp [Code.size e ie he, AllCode.size es js hs, allSize]

end

theorem ItemsCode.size (es : List Expr) (is : List Instr) (h : ItemsCode κ names es is) :
    codeLength is = allSize es + es.length := by
  induction es generalizing is with
  | nil =>
    obtain rfl := h
    rfl
  | cons e es ih =>
    obtain ⟨ie, js, he, hs, rfl⟩ := h
    simp [he.size, ih js hs, allSize, Instr.size, Opcode.width]
    omega

end Mono

end Expr

/-! ### Declarations and statements -/

/-- A function as a tree: its name, unless it is the script, its parameters and its body. The functions
declared in the body are numbered from `first` on, in the order in which they end. -/
structure FunctionTree where
  name : Option String
  parameters : List String
  body : List Decl
  first : Nat
  /-- The script has no parameters. -/
  plain : name = none → parameters = []

theorem FunctionTree.plain_script : (none : Option String) = none → ([] : List String) = [] := fun _ => rfl

def FunctionTree.scope (t : FunctionTree) : Scope :=
  if t.name.isSome then .function t.parameters else .script

/-- The instructions at the end of every function. -/
def returnCode : List Instr := [⟨.null, 0⟩, ⟨.out, 0⟩]

/-- A function has a name that the store knows, or none. -/
def Store.Names (s : Store) (f : Function) (name : Option String) : Prop :=
  match f.name, name with
  | some a, some x => s.text? a = some x
  | none, none => True
  | _, _ => False

theorem Store.Names.mono {s t : Store} (hs : s.Extends t) {f : Function} {name : Option String}
    (h : s.Names f name) : t.Names f name := by
  obtain ⟨n, a, b⟩ := f
  cases n <;> cases name <;> first
    | exact h
    | exact hs.text h

theorem Store.Names.bind_text {s : Store} {f : Function} {name : Option String} (h : s.Names f name) :
    f.name.bind s.text? = name := by
  obtain ⟨n, a, b⟩ := f
  cases n <;> cases name <;> first
    | exact h
    | exact h.elim
    | rfl

/-- A function whose code is the given instructions, with the return at their end. -/
structure Function.Compiles (f : Function) (s : Store) (name : Option String) (parameters : List String)
    (body : List Instr) : Prop where
  named : s.Names f name
  arity : f.arity.toNat = parameters.length
  code : f.bytecode.Consists (body ++ returnCode)
  room : f.bytecode.constants.size ≤ Bytecode.maxConstants

theorem Function.Compiles.mono {f : Function} {s t : Store} (hs : s.Extends t) {name : Option String}
    {parameters : List String} {body : List Instr} (h : f.Compiles s name parameters body) :
    f.Compiles t name parameters body := ⟨h.named.mono hs, h.arity, h.code, h.room⟩

namespace Decl

/-- Drops values from the stack. -/
def pops (n : Nat) : List Instr := List.replicate n ⟨.pop, 0⟩

@[simp] theorem codeLength_pops (n : Nat) : codeLength (pops n) = n := by
  rw [pops, codeLength_replicate]
  exact Nat.mul_one n

mutual

/-- The code of a declaration. The functions in it are numbered from `first` on, in the order in which they
end. -/
def Code (κ : Pool) (σ : Scope) (first : Nat) : Decl → List Instr → Prop
  | expression e, is => ∃ ie, e.Code κ σ.names ie ∧ is = ie ++ [⟨.pop, 0⟩]
  | print e es, is =>
    ∃ ie js, e.Code κ σ.names ie ∧ Expr.ItemsCode κ σ.names es js ∧ is = ie ++ ⟨.print, 0⟩ :: js
  | read form x, is => ∃ h, κ.Finds σ.names x h ∧ is = [⟨form.opcode, 0⟩, h.set, ⟨.pop, 0⟩]
  | if_ condition body, is =>
    ∃ ic ib, condition.Code κ σ.names ic ∧ ListCode κ σ.enter first body ib ∧
      is = ic ++ ⟨.jumpIfFalse, blockSize body + 4⟩ :: ⟨.pop, 0⟩ ::
        (ib ++ pops (listDeclared body).length ++ [⟨.jump, 1⟩, ⟨.pop, 0⟩])
  | ifElse condition body alternative, is =>
    ∃ ic ib ia, condition.Code κ σ.names ic ∧ ListCode κ σ.enter first body ib ∧
      ListCode κ σ.enter (first + listFunctionCount body) alternative ia ∧
      is = ic ++ ⟨.jumpIfFalse, blockSize body + 4⟩ :: ⟨.pop, 0⟩ ::
        (ib ++ pops (listDeclared body).length ++ ⟨.jump, blockSize alternative + 1⟩ :: ⟨.pop, 0⟩ ::
          (ia ++ pops (listDeclared alternative).length))
  | until_ condition body, is =>
    ∃ ic ib, condition.Code κ σ.names ic ∧ ListCode κ σ.enter first body ib ∧
      is = ic ++ ⟨.jumpIfTrue, blockSize body + 4⟩ :: ⟨.pop, 0⟩ ::
        (ib ++ pops (listDeclared body).length ++
          [⟨.loop, condition.size + blockSize body + 7⟩, ⟨.pop, 0⟩])
  | out none, is => is = returnCode
  | out (some e), is => ∃ ie, e.Code κ σ.names ie ∧ is = ie ++ [⟨.out, 0⟩]
  | block _ body, is =>
    ∃ ib, ListCode κ σ.enter first body ib ∧ is = ib ++ pops (listDeclared body).length
  | var x none, is => ∃ js, κ.Settles σ.isLocal x js ∧ is = ⟨.null, 0⟩ :: js
  | var x (some e), is =>
    ∃ ie js, e.Code κ σ.names ie ∧ κ.Settles σ.isLocal x js ∧ is = ie ++ js
  | fun_ x parameters body, is =>
    ∃ i f ib js, κ.constants[i]? = some (.function ⟨first + listFunctionCount body⟩) ∧
      κ.store.function? ⟨first + listFunctionCount body⟩ = some f ∧
      f.Compiles κ.store (some x) parameters ib ∧
      ListCode ⟨f.bytecode.constants, κ.store⟩ (.function parameters) first body ib ∧
      κ.Settles σ.isLocal x js ∧ is = ⟨.constant, i⟩ :: js

/-- The code of declarations one after another. -/
def ListCode (κ : Pool) (σ : Scope) (first : Nat) : List Decl → List Instr → Prop
  | [], is => is = []
  | d :: ds, is =>
    ∃ id js, d.Code κ σ first id ∧ ListCode κ (σ.after d) (first + d.functionCount) ds js ∧
      is = id ++ js

end

mutual

theorem Code.mono {κ κ' : Pool} (hk : κ.Extends κ') (σ : Scope) (first : Nat) (d : Decl)
    (is : List Instr) (h : d.Code κ σ first is) : d.Code κ' σ first is := by
  cases d with
  | expression e => exact h.imp fun ie ⟨he, hi⟩ => ⟨he.mono hk, hi⟩
  | print e es =>
    obtain ⟨ie, js, he, hs, rfl⟩ := h
    exact ⟨ie, js, he.mono hk, hs.mono hk, rfl⟩
  | read form x => exact h.imp fun p ⟨hp, hi⟩ => ⟨hp.mono hk, hi⟩
  | if_ condition body =>
    obtain ⟨ic, ib, hc, hb, rfl⟩ := h
    exact ⟨ic, ib, hc.mono hk, ListCode.mono hk _ _ body ib hb, rfl⟩
  | ifElse condition body alternative =>
    obtain ⟨ic, ib, ia, hc, hb, ha, rfl⟩ := h
    exact ⟨ic, ib, ia, hc.mono hk, ListCode.mono hk _ _ body ib hb,
      ListCode.mono hk _ _ alternative ia ha, rfl⟩
  | until_ condition body =>
    obtain ⟨ic, ib, hc, hb, rfl⟩ := h
    exact ⟨ic, ib, hc.mono hk, ListCode.mono hk _ _ body ib hb, rfl⟩
  | out value =>
    cases value with
    | none => exact h
    | some e => exact h.imp fun ie ⟨he, hi⟩ => ⟨he.mono hk, hi⟩
  | block mark body => exact h.imp fun ib ⟨hb, hi⟩ => ⟨ListCode.mono hk _ _ body ib hb, hi⟩
  | var x initial =>
    cases initial with
    | none => exact h.imp fun js ⟨hj, hi⟩ => ⟨hj.mono hk, hi⟩
    | some e =>
      obtain ⟨ie, js, he, hj, rfl⟩ := h
      exact ⟨ie, js, he.mono hk, hj.mono hk, rfl⟩
  | fun_ x parameters body =>
    obtain ⟨i, f, ib, js, hi, hf, hc, hb, hj, rfl⟩ := h
    exact ⟨i, f, ib, js, hk.constants hi, hk.store.function hf, hc.mono hk.store,
      ListCode.mono (.of_store _ hk.store) _ _ body ib hb, hj.mono hk, rfl⟩

theorem ListCode.mono {κ κ' : Pool} (hk : κ.Extends κ') (σ : Scope) (first : Nat) (ds : List Decl)
    (is : List Instr) (h : ListCode κ σ first ds is) : ListCode κ' σ first ds is := by
  cases ds with
  | nil => exact h
  | cons d ds =>
    obtain ⟨id, js, hd, hs, rfl⟩ := h
    exact ⟨id, js, Code.mono hk σ first d id hd, ListCode.mono hk _ _ ds js hs, rfl⟩

end

section Size
variable {κ : Pool}

mutual

theorem Code.size (σ : Scope) (first : Nat) (d : Decl) (is : List Instr) (h : d.Code κ σ first is) :
    codeLength is = d.size σ.isLocal := by
  cases d with
  | expression e =>
    obtain ⟨ie, he, rfl⟩ := h
    simp [he.size, Decl.size, Instr.size, Opcode.width]
  | print e es =>
    obtain ⟨ie, js, he, hs, rfl⟩ := h
    simp [he.size, hs.size, Decl.size, Instr.size, Opcode.width, Nat.add_assoc]
  | read form x =>
    obtain ⟨p, -, rfl⟩ := h
    cases form <;> cases p <;> rfl
  | if_ condition body =>
    obtain ⟨ic, ib, hc, hb, rfl⟩ := h
    simp [hc.size, ListCode.size _ _ body ib hb, Decl.size, Instr.size, Opcode.width]
    omega
  | ifElse condition body alternative =>
    obtain ⟨ic, ib, ia, hc, hb, ha, rfl⟩ := h
    simp [hc.size, ListCode.size _ _ body ib hb, ListCode.size _ _ alternative ia ha, Decl.size,
      Instr.size, Opcode.width]
    omega
  | until_ condition body =>
    obtain ⟨ic, ib, hc, hb, rfl⟩ := h
    simp [hc.size, ListCode.size _ _ body ib hb, Decl.size, Instr.size, Opcode.width]
    omega
  | out value =>
    cases value with
    | none =>
      obtain rfl := h
      rfl
    | some e =>
      obtain ⟨ie, he, rfl⟩ := h
      simp [he.size, Decl.size, Instr.size, Opcode.width]
  | block mark body =>
    obtain ⟨ib, hb, rfl⟩ := h
    simp [ListCode.size _ _ body ib hb, Decl.size]
  | var x initial =>
    cases initial with
    | none =>
      obtain ⟨js, hj, rfl⟩ := h
      simp [hj.size, Decl.size, Instr.size, Opcode.width]
    | some e =>
      obtain ⟨ie, js, he, hj, rfl⟩ := h
      simp [he.size, hj.size, Decl.size]
  | fun_ x parameters body =>
    obtain ⟨i, f, ib, js, -, -, -, -, hj, rfl⟩ := h
    simp [hj.size, Decl.size, Instr.size, Opcode.width]

theorem ListCode.size (σ : Scope) (first : Nat) (ds : List Decl) (is : List Instr)
    (h : ListCode κ σ first ds is) : codeLength is = listSize σ.isLocal ds := by
  cases ds with
  | nil =>
    obtain rfl := h
    rfl
  | cons d ds =>
    obtain ⟨id, js, hd, hs, rfl⟩ := h
    rw [codeLength_append, Code.size σ first d id hd, ListCode.size _ _ ds js hs, listSize,
      Scope.isLocal_after]

end

end Size

end Decl

/-- The function of a tree. -/
def FunctionTree.IsCompiled (t : FunctionTree) (s : Store) (f : Function) : Prop :=
  ∃ ib, f.Compiles s t.name t.parameters ib ∧
    Decl.ListCode ⟨f.bytecode.constants, s⟩ t.scope t.first t.body ib

theorem FunctionTree.IsCompiled.mono {t : FunctionTree} {s s' : Store} (hs : s.Extends s') {f : Function}
    (h : t.IsCompiled s f) : t.IsCompiled s' f :=
  h.imp fun _ ⟨hc, hb⟩ => ⟨hc.mono hs, hb.mono (.of_store _ hs)⟩

/-- Values all of whose references the store knows: functions are those of trees, and so are the functions
among their constants. -/
inductive Store.Sound (s : Store) : Value → Prop
  | null : s.Sound .null
  | bool (b : Bool) : s.Sound (.bool b)
  | number (x : Double) : s.Sound (.number x)
  | char (byte : UInt8) : s.Sound (.char byte)
  | string {a : Symbol} (h : (s.text? a).isSome) : s.Sound (.string a)
  | native {r : NativeRef} (h : (s.native? r).isSome) : s.Sound (.native r)
  | function {r : FunctionRef} {f : Function} {t : FunctionTree} (hr : s.function? r = some f)
    (ht : t.IsCompiled s f) (hc : ∀ v ∈ f.bytecode.constants, s.Sound v) : s.Sound (.function r)

theorem Store.Sound.isSome_text {s : Store} {a : Symbol} (h : s.Sound (.string a)) :
    (s.text? a).isSome := by
  cases h
  assumption

theorem Store.Sound.mono {s t : Store} (hs : s.Extends t) {v : Value} (h : s.Sound v) : t.Sound v := by
  induction h with
  | null => exact .null
  | bool b => exact .bool b
  | number x => exact .number x
  | char b => exact .char b
  | string h => exact .string (hs.isSome_text h)
  | native h => exact .native (hs.isSome_native h)
  | function hr ht _ ih => exact .function (hs.function hr) (ht.mono hs) ih

/-- Functions among the constants of others, at any depth. -/
inductive Store.Contains (s : Store) (r : FunctionRef) : FunctionRef → Prop
  | self : s.Contains r r
  | constant {g g' : FunctionRef} {f : Function} (h : s.Contains r g) (hg : s.function? g = some f)
    (hc : .function g' ∈ f.bytecode.constants) : s.Contains r g'

theorem Store.Contains.sound {s : Store} {r g : FunctionRef} (h : s.Contains r g) (hr : s.Sound (.function r)) :
    s.Sound (.function g) := by
  induction h with
  | self => exact hr
  | constant _ hg hc ih =>
    cases ih with
    | function hr ht hs =>
      obtain rfl := Option.some.inj (hr.symm.trans hg)
      exact hs _ hc

end StackScript
