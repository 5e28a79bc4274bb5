import StackScript.Proofs.Syntax.Tree

/-! The grammar: which trees are written with only the parentheses that the levels of their operators
ask for, and which programs take the longest run of words for each expression. -/
namespace StackScript
open Compiler

namespace Expr

/-- How tightly a tree holds together at its root. -/
def level : Expr → Level
  | literal _ | name _ | group _ => .primary
  | assign _ _ => .assignment
  | unary _ _ => .unary
  | binary op _ _ => op.level
  | and _ _ => .and
  | or _ _ => .or
  | call _ _ => .call

mutual

/-- Every operand holds together at least as tightly as its place asks for. Binary operators group to
the left; `awnd`, `ow` and assignments nest to the right, and what is assigned to is a name. -/
def WellFormed : Expr → Prop
  | literal _ | name _ => True
  | group e => e.WellFormed
  | assign _ value => value.WellFormed
  | unary _ e => Level.unary ≤ e.level ∧ e.WellFormed
  | binary op left right =>
    (op.level ≤ left.level ∧ op.level.next ≤ right.level) ∧ left.WellFormed ∧ right.WellFormed
  | and left right =>
    (Level.and.next ≤ left.level ∧ Level.and ≤ right.level) ∧ left.WellFormed ∧ right.WellFormed
  | or left right =>
    (Level.or.next ≤ left.level ∧ Level.or ≤ right.level) ∧ left.WellFormed ∧ right.WellFormed
  | call callee arguments =>
    Level.call ≤ callee.level ∧ callee.WellFormed ∧ AllWellFormed arguments

def AllWellFormed : List Expr → Prop
  | [] => True
  | e :: es => e.WellFormed ∧ AllWellFormed es

end

/-- No expression takes a longer run of the words that an expression and what follows it make up. -/
def Longest (e : Expr) (rest : List Word) : Prop :=
  ∀ e' : Expr, e'.WellFormed → ∀ rest', e'.words ++ rest' = e.words ++ rest →
    e'.words.length ≤ e.words.length

/-- What holds for each expression after a comma and the words behind it. -/
def EachItem (P : Expr → List Word → Prop) : List Expr → List Word → Prop
  | [], _ => True
  | e :: es, rest => P e (itemWords es ++ rest) ∧ EachItem P es rest

end Expr

namespace Decl

mutual

def WellFormed : Decl → Prop
  | expression e => e.WellFormed
  | print first rest => first.WellFormed ∧ Expr.AllWellFormed rest
  | read _ _ => True
  | if_ condition body => condition.WellFormed ∧ ListWellFormed body
  | ifElse condition body alternative =>
    condition.WellFormed ∧ ListWellFormed body ∧ ListWellFormed alternative
  | until_ condition body => condition.WellFormed ∧ ListWellFormed body
  | out none => True
  | out (some e) => e.WellFormed
  | block _ body => ListWellFormed body
  | var _ none => True
  | var _ (some e) => e.WellFormed
  | fun_ _ _ body => ListWellFormed body

def ListWellFormed : List Decl → Prop
  | [] => True
  | d :: ds => d.WellFormed ∧ ListWellFormed ds

end

mutual

/-- What holds for each expression of a declaration before the given words, and the words behind it. -/
def Each (P : Expr → List Word → Prop) : Decl → List Word → Prop
  | expression e, rest => P e rest
  | print first items, rest =>
    P first (itemWords items ++ TokenKind.outEnd.mark :: rest) ∧
      Expr.EachItem P items (TokenKind.outEnd.mark :: rest)
  | read _ _, _ => True
  | if_ condition body, rest =>
    P condition (BlockMark.colon.enclosed (listWords body) ++ rest) ∧
      ListEach P body (TokenKind.blockEnd.mark :: rest)
  | ifElse condition body alternative, rest =>
    P condition (BlockMark.colon.enclosed (listWords body) ++
      TokenKind.else_.mark :: BlockMark.colon.enclosed (listWords alternative) ++ rest) ∧
      ListEach P body (TokenKind.blockEnd.mark ::
        TokenKind.else_.mark :: BlockMark.colon.enclosed (listWords alternative) ++ rest) ∧
      ListEach P alternative (TokenKind.blockEnd.mark :: rest)
  | until_ condition body, rest =>
    P condition (BlockMark.colon.enclosed (listWords body) ++ rest) ∧
      ListEach P body (TokenKind.blockEnd.mark :: rest)
  | out none, _ => True
  | out (some e), rest => P e (TokenKind.outEnd.mark :: rest)
  | block _ body, rest => ListEach P body (TokenKind.blockEnd.mark :: rest)
  | var _ none, _ => True
  | var _ (some e), rest => P e rest
  | fun_ _ _ body, rest => ListEach P body (TokenKind.blockEnd.mark :: rest)

def ListEach (P : Expr → List Word → Prop) : List Decl → List Word → Prop
  | [], _ => True
  | d :: ds, rest => d.Each P (listWords ds ++ rest) ∧ ListEach P ds rest

end

end Decl

/-- A program, each expression of which takes the longest run of words that it can. -/
structure IsProgram (ds : List Decl) : Prop where
  wellFormed : Decl.ListWellFormed ds
  greedy : Decl.ListEach Expr.Longest ds []

end StackScript
