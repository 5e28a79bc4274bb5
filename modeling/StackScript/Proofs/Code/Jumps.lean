import StackScript.Proofs.Code.Stages

/-! The jumps that a compilation closes, in the order in which it closes them. Where one is meant to go is told by the
code that has been written when it is closed. -/
namespace StackScript
namespace Compiler

/-- A jump that is closed: a jump forward once its target has been reached, a jump back when it is written. -/
structure Jump where
  function : FunctionRef
  /-- Where its instruction is in the code of the function. -/
  place : Nat
  /-- Where it is meant to go. -/
  target : Nat
  back : Bool
  /-- The token read last. -/
  token : Token

namespace Jump

/-- A jump from a place to the end of the code so far. -/
def forward (r : FunctionRef) (place : Nat) (s : State) : Jump :=
  ⟨r, place, s.draft.bytecode.size, false, s.previous⟩

/-- A jump from the end of the code so far back to a place. -/
def backward (r : FunctionRef) (start : Nat) (s : State) : Jump :=
  ⟨r, s.draft.bytecode.size, start, true, s.previous⟩

/-- How far it is from behind the operand. -/
def distance (j : Jump) : Nat := if j.back then j.place + 3 - j.target else j.target - (j.place + 3)

/-- Two bytes cannot say how far it is. -/
def IsFar (j : Jump) : Prop := maxDistance < j.distance

instance (j : Jump) : Decidable j.IsFar := inferInstanceAs (Decidable (maxDistance < j.distance))

def mistake (j : Jump) : Mistake := if j.back then .loopTooLarge else .jumpTooLarge

/-- What is reported of it if it is far. -/
def error (j : Jump) : CompileError := ⟨j.token.line, .ofToken j.token, j.mistake⟩

end Jump
end Compiler

/-! ### Jumps of a tree -/

open Compiler

/-- The jumps on the right side of a short circuit, and the jump over it. -/
def Compiler.jumpsAcross (r : FunctionRef) (op : Opcode) (right : Action Unit) (jumps : State → List Jump) (s : State) :
    List Jump :=
  let t := ((do let _ ← openJump op; emit .pop : Action Unit).run s).2
  jumps t ++ [.forward r s.draft.bytecode.size (right.run t).2]

namespace Expr

/-- Writes an argument up to the next one; gives how many have been counted. -/
def writeArgument (count : Nat) (e : Expr) (es : List Expr) : Action Nat := do
  e.write
  let count ← countArgument count
  readComma es
  return count

mutual

/-- The jumps that are closed while an expression in a function is written. -/
def jumps (r : FunctionRef) (s : State) : Expr → List Jump
  | literal _ => []
  | name _ => []
  | group e => e.jumps r s.advance
  | assign x value => value.jumps r ((accessTo x).run s.advance).2.advance
  | unary _ e => e.jumps r s.advance
  | binary _ left right => left.jumps r s ++ right.jumps r (left.write.run s).2.advance
  | and left right =>
    left.jumps r s ++ jumpsAcross r .jumpIfFalse right.write (fun t => right.jumps r t) (left.write.run s).2.advance
  | or left right =>
    left.jumps r s ++ jumpsAcross r .jumpIfTrue right.write (fun t => right.jumps r t) (left.write.run s).2.advance
  | call callee arguments => callee.jumps r s ++ argumentJumps r 0 (callee.write.run s).2.advance arguments

def argumentJumps (r : FunctionRef) (count : Nat) (s : State) : List Expr → List Jump
  | [] => []
  | e :: es =>
    let p := (writeArgument count e es).run s
    e.jumps r s ++ argumentJumps r p.1 p.2 es

end

def itemJumps (r : FunctionRef) (s : State) : List Expr → List Jump
  | [] => []
  | e :: es =>
    e.jumps r s.advance ++ itemJumps r ((do e.write; emit .print : Action Unit).run s.advance).2 es

end Expr

namespace Decl

/-- Writes a jump over a block, and the block up to its first declaration. -/
def enterGuarded (op : Opcode) : Action Unit := do
  let _ ← openJump op
  emit .pop
  advance
  enterScope

/-- Writes a jump over a block, and the block; gives the jump. -/
def writeGuarded (op : Opcode) (body : List Decl) : Action Nat := do
  let jump ← openJump op
  emit .pop
  advance
  writeBlock (writeList body)
  return jump

mutual

/-- The jumps that are closed while a declaration is written. It is in a function `r`, and the functions in it are
numbered from `first` on. -/
def jumps (r : FunctionRef) (first : Nat) (s : State) : Decl → List Jump
  | expression e => e.jumps r s
  | print e es => e.jumps r s.advance ++ Expr.itemJumps r ((do e.write; emit .print : Action Unit).run s.advance).2 es
  | read _ _ => []
  | if_ condition body =>
    let t := (condition.write.run s.advance).2
    let p := (writeGuarded .jumpIfFalse body).run t
    let u := ((openJump .jump).run p.2).2
    condition.jumps r s.advance ++ (listJumps r first ((enterGuarded .jumpIfFalse).run t).2 body ++
      [.forward r t.draft.bytecode.size u,
        .forward r p.2.draft.bytecode.size ((do closeJump p.1; emit .pop : Action Unit).run u).2])
  | ifElse condition body alternative =>
    let t := (condition.write.run s.advance).2
    let p := (writeGuarded .jumpIfFalse body).run t
    let u := ((openJump .jump).run p.2).2
    let v := ((do closeJump p.1; emit .pop : Action Unit).run u).2.advance.advance
    condition.jumps r s.advance ++ (listJumps r first ((enterGuarded .jumpIfFalse).run t).2 body ++
      .forward r t.draft.bytecode.size u ::
        (listJumps r (first + listFunctionCount body) (enterScope.run v).2 alternative ++
          [.forward r p.2.draft.bytecode.size ((writeBlock (writeList alternative)).run v).2]))
  | until_ condition body =>
    let t := (condition.write.run s.advance).2
    let p := (writeGuarded .jumpIfTrue body).run t
    let start := s.advance.draft.bytecode.size
    condition.jumps r s.advance ++ (listJumps r first ((enterGuarded .jumpIfTrue).run t).2 body ++
      [.backward r start p.2, .forward r t.draft.bytecode.size ((emitBackJump start).run p.2).2])
  | out none => []
  | out (some e) => e.jumps r (checkInFunction.run s.advance).2
  | block _ body => listJumps r first (enterScope.run s.advance).2 body
  | var _ none => []
  | var x (some e) => e.jumps r ((writeNewName x).run s.advance).2.advance
  | fun_ x parameters body =>
    listJumps ⟨first + listFunctionCount body⟩ first ((writeOpening x parameters).run s).2 body

def listJumps (r : FunctionRef) (first : Nat) (s : State) : List Decl → List Jump
  | [] => []
  | d :: ds => d.jumps r first s ++ listJumps r (first + d.functionCount) (d.write.run s).2 ds

end
end Decl

end StackScript
