import Mathlib.Data.Finset.Card
import StackScript.Proofs.Syntax.Tree

/-! What can be read off a tree before any code is written: the names in scope, the constants that are
asked for, and the length of the code. -/
namespace StackScript

/-- The names declared where a piece of a program stands, in the function that it belongs to. Slot zero
has the empty name. -/
structure Scope where
  /-- The names of the innermost block, newest first. -/
  inner : List String
  /-- The names of the blocks around it, the innermost one first. -/
  outer : List (List String)
  /-- Whether there is a function around the piece. -/
  inFunction : Bool
  deriving DecidableEq, Repr

namespace Scope

/-- Outside all blocks and functions. -/
def script : Scope := ⟨[""], [], false⟩

/-- The outermost block of a function. -/
def function (parameters : List String) : Scope := ⟨parameters.reverse, [[""]], true⟩

/-- Whether what is declared is local; outside all blocks it is global. -/
def isLocal (σ : Scope) : Bool := !σ.outer.isEmpty

/-- The names in scope, newest first. -/
def names (σ : Scope) : List String := σ.inner ++ σ.outer.flatten

/-- How many slots of the stack belong to names in scope. -/
def live (σ : Scope) : Nat := σ.names.length

def declare (σ : Scope) (x : String) : Scope :=
  if σ.isLocal then { σ with inner := x :: σ.inner } else σ

/-- In a new block. -/
def enter (σ : Scope) : Scope := { σ with inner := [], outer := σ.inner :: σ.outer }

@[simp] theorem isLocal_enter (σ : Scope) : σ.enter.isLocal = true := rfl

@[simp] theorem isLocal_function (xs : List String) : (function xs).isLocal = true := rfl

@[simp] theorem isLocal_script : script.isLocal = false := rfl

@[simp] theorem isLocal_declare (σ : Scope) (x : String) : (σ.declare x).isLocal = σ.isLocal := by
  unfold declare
  split <;> rfl

@[simp] theorem outer_declare (σ : Scope) (x : String) : (σ.declare x).outer = σ.outer := by
  unfold declare
  split <;> rfl

@[simp] theorem inFunction_declare (σ : Scope) (x : String) :
    (σ.declare x).inFunction = σ.inFunction := by
  unfold declare
  split <;> rfl

@[simp] theorem names_enter (σ : Scope) : σ.enter.names = σ.names := rfl

@[simp] theorem live_enter (σ : Scope) : σ.enter.live = σ.live := rfl

theorem names_declare {σ : Scope} (h : σ.isLocal = true) (x : String) :
    (σ.declare x).names = x :: σ.names := by simp [declare, h, names]

theorem live_declare {σ : Scope} (h : σ.isLocal = true) (x : String) :
    (σ.declare x).live = σ.live + 1 := by rw [live, names_declare h]; rfl

theorem function_declare (xs : List String) (x : String) :
    (function xs).declare x = function (xs ++ [x]) := by
  simp [declare, function, isLocal]

theorem foldl_declare_function (xs ys : List String) : ys.foldl declare (function xs) = function (xs ++ ys) := by
  induction ys generalizing xs with
  | nil => rw [List.foldl_nil, List.append_nil]
  | cons y ys ih => rw [List.foldl_cons, function_declare, ih, List.append_assoc, List.singleton_append]

theorem live_function (xs : List String) : (function xs).live = xs.length + 1 := by
  simp [live, names, function]

theorem declare_of_global {σ : Scope} (h : σ.isLocal = false) (x : String) : σ.declare x = σ := by
  simp [declare, h]

end Scope

/-- The slot of the newest of the names that is the given one: the number of older names. -/
def slot? (x : String) : List String → Option Nat
  | [] => none
  | y :: older => if y = x then some older.length else slot? x older

theorem slot?_eq_none {x : String} {names : List String} : slot? x names = none ↔ x ∉ names := by
  induction names with
  | nil => simp [slot?]
  | cons y older ih =>
    by_cases h : y = x
    · simp [slot?, h]
    · simp [slot?, h, Ne.symm h, ih]

theorem slot?_lt {x : String} {names : List String} {i : Nat} (h : slot? x names = some i) :
    i < names.length := by
  induction names with
  | nil => cases h
  | cons y older ih =>
    rw [slot?] at h
    split at h
    · obtain rfl := Option.some.inj h
      exact Nat.lt_succ_self _
    · exact Nat.lt_succ_of_lt (ih h)

namespace Decl

/-- The name that a declaration adds to the block it stands in. -/
def declared : Decl → List String
  | var x _ => [x]
  | fun_ x _ _ => [x]
  | _ => []

/-- The names that declarations add to the block they stand in. -/
def listDeclared (ds : List Decl) : List String := ds.flatMap declared

@[simp] theorem listDeclared_nil : listDeclared [] = [] := rfl

@[simp] theorem listDeclared_cons (d : Decl) (ds : List Decl) :
    listDeclared (d :: ds) = d.declared ++ listDeclared ds := rfl

end Decl

/-- Behind a declaration. -/
def Scope.after (σ : Scope) (d : Decl) : Scope := d.declared.foldl declare σ

/-- Behind declarations. -/
def Scope.afterAll (σ : Scope) (ds : List Decl) : Scope := ds.foldl after σ

namespace Scope

@[simp] theorem afterAll_nil (σ : Scope) : σ.afterAll [] = σ := rfl

@[simp] theorem afterAll_cons (σ : Scope) (d : Decl) (ds : List Decl) :
    σ.afterAll (d :: ds) = (σ.after d).afterAll ds := rfl

theorem foldl_declare_of_global {σ : Scope} (h : σ.isLocal = false) (xs : List String) :
    xs.foldl declare σ = σ := by
  induction xs with
  | nil => rfl
  | cons x xs ih => rw [List.foldl_cons, declare_of_global h, ih]

theorem foldl_declare {σ : Scope} (h : σ.isLocal = true) (xs : List String) :
    xs.foldl declare σ = { σ with inner := xs.reverse ++ σ.inner } := by
  induction xs generalizing σ with
  | nil => rfl
  | cons x xs ih =>
    rw [List.foldl_cons, ih (by simpa using h)]
    simp [declare, h]

theorem afterAll_eq (σ : Scope) (ds : List Decl) :
    σ.afterAll ds = (Decl.listDeclared ds).foldl declare σ := by
  induction ds generalizing σ with
  | nil => rfl
  | cons d ds ih => rw [afterAll_cons, ih, Decl.listDeclared_cons, List.foldl_append, after]

@[simp] theorem isLocal_after (σ : Scope) (d : Decl) : (σ.after d).isLocal = σ.isLocal := by
  cases h : σ.isLocal with
  | false => rw [after, foldl_declare_of_global h, h]
  | true => rw [after, foldl_declare h]; exact h

@[simp] theorem inFunction_after (σ : Scope) (d : Decl) : (σ.after d).inFunction = σ.inFunction := by
  cases h : σ.isLocal with
  | false => rw [after, foldl_declare_of_global h]
  | true => rw [after, foldl_declare h]

/-- Behind the declarations of a block its names are those that they declare. -/
theorem afterAll_enter (σ : Scope) (ds : List Decl) :
    σ.enter.afterAll ds = { σ.enter with inner := (Decl.listDeclared ds).reverse } := by
  rw [afterAll_eq, foldl_declare (isLocal_enter σ)]
  simp [enter]

end Scope

/-! ### Constants -/

/-- The constants that a piece of a function asks for: each literal and each function has one of its own,
and all uses of a global name share one. -/
structure Needs where
  own : Nat := 0
  globals : Finset String := ∅

namespace Needs

instance : Zero Needs := ⟨{}⟩

instance : Add Needs := ⟨fun m n => ⟨m.own + n.own, m.globals ∪ n.globals⟩⟩

theorem ext {m n : Needs} (ho : m.own = n.own) (hg : m.globals = n.globals) : m = n := by
  cases m
  cases n
  cases ho
  cases hg
  rfl

@[simp] theorem own_zero : (0 : Needs).own = 0 := rfl

@[simp] theorem globals_zero : (0 : Needs).globals = ∅ := rfl

@[simp] theorem own_add (m n : Needs) : (m + n).own = m.own + n.own := rfl

@[simp] theorem globals_add (m n : Needs) : (m + n).globals = m.globals ∪ n.globals := rfl

@[simp] theorem add_zero (n : Needs) : n + 0 = n := ext rfl (Finset.union_empty _)

@[simp] theorem zero_add (n : Needs) : 0 + n = n := ext (Nat.zero_add _) (Finset.empty_union _)

theorem add_assoc (l m n : Needs) : l + m + n = l + (m + n) :=
  ext (Nat.add_assoc _ _ _) (Finset.union_assoc _ _ _)

/-- How many constants there are. -/
def count (n : Needs) : Nat := n.own + n.globals.card

theorem count_le_add (m n : Needs) : m.count ≤ (m + n).count :=
  Nat.add_le_add (Nat.le_add_right _ _) (Finset.card_le_card Finset.subset_union_left)

/-- A constant of its own. -/
def one : Needs := { own := 1 }

/-- The name of a global variable; a name in scope is no constant. -/
def name (names : List String) (x : String) : Needs := if x ∈ names then 0 else { globals := {x} }

end Needs

namespace Literal

def needs : Literal → Needs
  | true_ | false_ => 0
  | _ => .one

def size : Literal → Nat
  | true_ | false_ => 1
  | _ => 2

end Literal

namespace Expr

mutual

def needs (names : List String) : Expr → Needs
  | literal l => l.needs
  | name x => .name names x
  | group e => e.needs names
  | assign x value => .name names x + value.needs names
  | unary _ e => e.needs names
  | binary _ left right => left.needs names + right.needs names
  | and left right => left.needs names + right.needs names
  | or left right => left.needs names + right.needs names
  | call callee arguments => callee.needs names + allNeeds names arguments

def allNeeds (names : List String) : List Expr → Needs
  | [] => 0
  | e :: es => e.needs names + allNeeds names es

end

mutual

/-- How many bytes the code of an expression takes. -/
def size : Expr → Nat
  | literal l => l.size
  | name _ => 2
  | group e => e.size
  | assign _ value => value.size + 2
  | unary _ e => e.size + 1
  | binary _ left right => left.size + right.size + 1
  | and left right => left.size + 4 + right.size
  | or left right => left.size + 4 + right.size
  | call callee arguments => callee.size + allSize arguments + 2

def allSize : List Expr → Nat
  | [] => 0
  | e :: es => e.size + allSize es

end

mutual

/-- The names that an expression reads or assigns to. -/
def mentions : Expr → List String
  | literal _ => []
  | name x => [x]
  | group e => e.mentions
  | assign x value => x :: value.mentions
  | unary _ e => e.mentions
  | binary _ left right => left.mentions ++ right.mentions
  | and left right => left.mentions ++ right.mentions
  | or left right => left.mentions ++ right.mentions
  | call callee arguments => callee.mentions ++ allMentions arguments

def allMentions : List Expr → List String
  | [] => []
  | e :: es => e.mentions ++ allMentions es

end

end Expr

namespace Decl

/-- The name of a new global variable. -/
def nameNeeds (σ : Scope) (x : String) : Needs := if σ.isLocal then 0 else { globals := {x} }

mutual

/-- The constants that a declaration asks for in the function it stands in. -/
def needs (σ : Scope) : Decl → Needs
  | expression e => e.needs σ.names
  | print first rest => first.needs σ.names + Expr.allNeeds σ.names rest
  | read _ x => .name σ.names x
  | if_ condition body => condition.needs σ.names + listNeeds σ.enter body
  | ifElse condition body alternative =>
    condition.needs σ.names + listNeeds σ.enter body + listNeeds σ.enter alternative
  | until_ condition body => condition.needs σ.names + listNeeds σ.enter body
  | out none => 0
  | out (some e) => e.needs σ.names
  | block _ body => listNeeds σ.enter body
  | var x none => nameNeeds σ x
  | var x (some e) => nameNeeds σ x + e.needs σ.names
  | fun_ x _ _ => nameNeeds σ x + .one

def listNeeds (σ : Scope) : List Decl → Needs
  | [] => 0
  | d :: ds => d.needs σ + listNeeds (σ.after d) ds

end

/-- How many bytes the code takes that gives a new variable its value: a local one has it on the stack. -/
def nameSize (isLocal : Bool) : Nat := if isLocal then 0 else 2

mutual

/-- How many bytes the code of a declaration takes in the function it stands in. -/
def size (isLocal : Bool) : Decl → Nat
  | expression e => e.size + 1
  | print first rest => first.size + 1 + (Expr.allSize rest + rest.length)
  | read _ _ => 4
  | if_ condition body => condition.size + (listSize true body + (listDeclared body).length) + 8
  | ifElse condition body alternative =>
    condition.size + (listSize true body + (listDeclared body).length) + 8 +
      (listSize true alternative + (listDeclared alternative).length)
  | until_ condition body => condition.size + (listSize true body + (listDeclared body).length) + 8
  | out none => 2
  | out (some e) => e.size + 1
  | block _ body => listSize true body + (listDeclared body).length
  | var _ none => 1 + nameSize isLocal
  | var _ (some e) => e.size + nameSize isLocal
  | fun_ _ _ _ => 2 + nameSize isLocal

def listSize (isLocal : Bool) : List Decl → Nat
  | [] => 0
  | d :: ds => d.size isLocal + listSize isLocal ds

end

/-- How many bytes the code of a block takes, which drops the names of the block at its end. -/
def blockSize (body : List Decl) : Nat := listSize true body + (listDeclared body).length

mutual

/-- How many functions are declared in a declaration, at any depth. -/
def functionCount : Decl → Nat
  | if_ _ body => listFunctionCount body
  | ifElse _ body alternative => listFunctionCount body + listFunctionCount alternative
  | until_ _ body => listFunctionCount body
  | block _ body => listFunctionCount body
  | fun_ _ _ body => listFunctionCount body + 1
  | _ => 0

def listFunctionCount : List Decl → Nat
  | [] => 0
  | d :: ds => d.functionCount + listFunctionCount ds

end

end Decl
end StackScript
