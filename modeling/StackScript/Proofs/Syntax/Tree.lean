import StackScript.Compiler.Expression
import StackScript.Compiler.Statement

/-! Syntax trees of the language, and the words they are written with. A word is what the grammar
sees of a token: its kind, and its text where tokens of that kind differ. -/
namespace StackScript

/-- Whether tokens of a kind differ in their text. -/
def TokenKind.varies : TokenKind → Bool
  | .ident | .string | .number | .char => true
  | _ => false

structure Word where
  kind : TokenKind
  text : String := ""
  deriving DecidableEq, Repr

def Token.word (t : Token) : Word := ⟨t.kind, if t.kind.varies then t.lexeme else ""⟩

@[simp] theorem Token.word_kind (t : Token) : t.word.kind = t.kind := rfl

/-- A word that is written in one way only. -/
def TokenKind.mark (k : TokenKind) : Word := ⟨k, ""⟩

@[simp] theorem TokenKind.mark_kind (k : TokenKind) : k.mark.kind = k := rfl

/-! ### Expressions -/

inductive Literal
  | number (text : String)
  | string (text : String)
  | char (text : String)
  | newLine
  | tab
  | true_
  | false_
  deriving DecidableEq, Repr

def Literal.word : Literal → Word
  | number text => ⟨.number, text⟩
  | string text => ⟨.string, text⟩
  | char text => ⟨.char, text⟩
  | newLine => TokenKind.newLine.mark
  | tab => TokenKind.tab.mark
  | true_ => TokenKind.true_.mark
  | false_ => TokenKind.false_.mark

inductive Unary
  | negate
  | not
  deriving DecidableEq, Repr

namespace Unary

def kind : Unary → TokenKind
  | negate => .minus
  | not => .bang

def opcode : Unary → Opcode
  | negate => .negate
  | not => .not

end Unary

inductive Binary
  | add
  | subtract
  | multiply
  | divide
  | equal
  | notEqual
  | greater
  | greaterEqual
  | less
  | lessEqual
  deriving DecidableEq, Repr

namespace Binary

def kind : Binary → TokenKind
  | add => .plus
  | subtract => .minus
  | multiply => .star
  | divide => .slash
  | equal => .equal
  | notEqual => .bangEqual
  | greater => .greater
  | greaterEqual => .greaterEqual
  | less => .less
  | lessEqual => .lessEqual

def opcode : Binary → Opcode
  | add => .add
  | subtract => .subtract
  | multiply => .multiply
  | divide => .divide
  | equal => .equal
  | notEqual => .notEqual
  | greater => .greater
  | greaterEqual => .greaterEqual
  | less => .less
  | lessEqual => .lessEqual

def level : Binary → Compiler.Level
  | add | subtract => .term
  | multiply | divide => .factor
  | equal | notEqual => .equality
  | greater | greaterEqual | less | lessEqual => .comparison

end Binary

inductive Expr
  | literal (l : Literal)
  | name (x : String)
  | group (e : Expr)
  | assign (x : String) (value : Expr)
  | unary (op : Unary) (operand : Expr)
  | binary (op : Binary) (left right : Expr)
  | and (left right : Expr)
  | or (left right : Expr)
  | call (callee : Expr) (arguments : List Expr)

/-- Induction on the operands of an expression, where nothing is asked of the arguments of a call. -/
@[elab_as_elim]
theorem Expr.operand_induction {P : Expr → Prop} (literal : ∀ l, P (.literal l)) (name : ∀ x, P (.name x))
    (group : ∀ e, P e → P (.group e)) (assign : ∀ x value, P value → P (.assign x value))
    (unary : ∀ op e, P e → P (.unary op e))
    (binary : ∀ op left right, P left → P right → P (.binary op left right))
    (and : ∀ left right, P left → P right → P (.and left right))
    (or : ∀ left right, P left → P right → P (.or left right))
    (call : ∀ callee arguments, P callee → P (.call callee arguments)) (e : Expr) : P e :=
  @Expr.rec P (fun _ => True) literal name group assign unary binary and or
    (fun callee arguments h _ => call callee arguments h) trivial (fun _ _ _ _ => trivial) e

/-- A comma, unless nothing follows. -/
def commaBefore (following : List α) : List Word :=
  if following.isEmpty then [] else [TokenKind.comma.mark]

namespace Expr

mutual

def words : Expr → List Word
  | literal l => [l.word]
  | name x => [⟨.ident, x⟩]
  | group e => TokenKind.leftParen.mark :: e.words ++ [TokenKind.rightParen.mark]
  | assign x value => ⟨.ident, x⟩ :: TokenKind.assign.mark :: value.words
  | unary op e => op.kind.mark :: e.words
  | binary op left right => left.words ++ op.kind.mark :: right.words
  | and left right => left.words ++ TokenKind.and.mark :: right.words
  | or left right => left.words ++ TokenKind.or.mark :: right.words
  | call callee arguments =>
    callee.words ++ TokenKind.leftParen.mark :: argumentWords arguments ++
      [TokenKind.rightParen.mark]

/-- Arguments with commas between them. -/
def argumentWords : List Expr → List Word
  | [] => []
  | e :: es => e.words ++ commaBefore es ++ argumentWords es

end

end Expr

/-! ### Declarations and statements -/

/-- What a read statement reads. -/
inductive InputForm
  | string
  | number
  | char
  deriving DecidableEq, Repr

namespace InputForm

def kind : InputForm → TokenKind
  | string => .readString
  | number => .readNumber
  | char => .readChar

def opcode : InputForm → Opcode
  | string => .readString
  | number => .readNumber
  | char => .readChar

end InputForm

/-- The two marks that open a block standing alone. -/
inductive BlockMark
  | bracket
  | colon
  deriving DecidableEq, Repr

def BlockMark.kind : BlockMark → TokenKind
  | bracket => .leftBracket
  | colon => .blockStart

/-- A declaration or a statement. -/
inductive Decl
  | expression (e : Expr)
  | print (first : Expr) (rest : List Expr)
  | read (form : InputForm) (name : String)
  | if_ (condition : Expr) (body : List Decl)
  | ifElse (condition : Expr) (body alternative : List Decl)
  | until_ (condition : Expr) (body : List Decl)
  | out (value : Option Expr)
  | block (mark : BlockMark) (body : List Decl)
  | var (name : String) (initial : Option Expr)
  | fun_ (name : String) (parameters : List String) (body : List Decl)

/-- Names with commas between them. -/
def nameWords : List String → List Word
  | [] => []
  | x :: xs => ⟨.ident, x⟩ :: commaBefore xs ++ nameWords xs

/-- Expressions with a comma before each. -/
def itemWords : List Expr → List Word
  | [] => []
  | e :: es => TokenKind.comma.mark :: e.words ++ itemWords es

/-- What stands in a block, between its marks. -/
def BlockMark.enclosed (mark : BlockMark) (inner : List Word) : List Word :=
  mark.kind.mark :: inner ++ [TokenKind.blockEnd.mark]

namespace Decl

mutual

def words : Decl → List Word
  | expression e => e.words
  | print first rest =>
    TokenKind.print.mark :: first.words ++ itemWords rest ++ [TokenKind.outEnd.mark]
  | read form name =>
    [TokenKind.read.mark, form.kind.mark, ⟨.ident, name⟩, TokenKind.readEnd.mark]
  | if_ condition body => TokenKind.if_.mark :: condition.words ++ BlockMark.colon.enclosed (listWords body)
  | ifElse condition body alternative =>
    TokenKind.if_.mark :: condition.words ++ BlockMark.colon.enclosed (listWords body) ++
      TokenKind.else_.mark :: BlockMark.colon.enclosed (listWords alternative)
  | until_ condition body => TokenKind.loop.mark :: condition.words ++ BlockMark.colon.enclosed (listWords body)
  | out none => [TokenKind.out.mark, TokenKind.outEnd.mark]
  | out (some e) => TokenKind.out.mark :: e.words ++ [TokenKind.outEnd.mark]
  | block mark body => mark.enclosed (listWords body)
  | var name none => [TokenKind.var.mark, ⟨.ident, name⟩]
  | var name (some e) => TokenKind.var.mark :: ⟨.ident, name⟩ :: TokenKind.assign.mark :: e.words
  | fun_ name parameters body =>
    TokenKind.fun_.mark :: ⟨.ident, name⟩ :: TokenKind.leftParen.mark :: nameWords parameters ++
      TokenKind.rightParen.mark :: BlockMark.colon.enclosed (listWords body)

def listWords : List Decl → List Word
  | [] => []
  | d :: ds => d.words ++ listWords ds

end

end Decl

/-! ### The words of the parts

A tree is written with all words of its parts, so what holds for the words of a tree holds for those of its parts. -/

theorem BlockMark.subset_enclosed (mark : BlockMark) (inner : List Word) : inner ⊆ mark.enclosed inner :=
  List.subset_append_of_subset_left _ (List.subset_cons_self _ _)

section Parts
variable {e value left right callee condition first : Expr} {arguments es : List Expr} {x : String}

namespace Expr

theorem words_subset_group : e.words ⊆ (group e).words :=
  List.subset_append_of_subset_left _ (List.subset_cons_self _ _)

theorem words_subset_assign : value.words ⊆ (assign x value).words :=
  List.subset_cons_of_subset _ (List.subset_cons_self _ _)

theorem words_subset_unary {op : Unary} : e.words ⊆ (unary op e).words := List.subset_cons_self _ _

theorem words_subset_binary {op : Binary} :
    left.words ⊆ (binary op left right).words ∧ right.words ⊆ (binary op left right).words :=
  ⟨List.subset_append_left _ _, List.subset_append_of_subset_right _ (List.subset_cons_self _ _)⟩

theorem words_subset_and : left.words ⊆ (and left right).words ∧ right.words ⊆ (and left right).words :=
  ⟨List.subset_append_left _ _, List.subset_append_of_subset_right _ (List.subset_cons_self _ _)⟩

theorem words_subset_or : left.words ⊆ (or left right).words ∧ right.words ⊆ (or left right).words :=
  ⟨List.subset_append_left _ _, List.subset_append_of_subset_right _ (List.subset_cons_self _ _)⟩

theorem words_subset_call :
    callee.words ⊆ (call callee arguments).words ∧ argumentWords arguments ⊆ (call callee arguments).words := by
  constructor
  · exact List.subset_append_of_subset_left _ (List.subset_append_left _ _)
  · exact List.subset_append_of_subset_left _ (List.subset_append_of_subset_right _ (List.subset_cons_self _ _))

theorem words_subset_arguments :
    e.words ⊆ argumentWords (e :: es) ∧ argumentWords es ⊆ argumentWords (e :: es) :=
  ⟨List.subset_append_of_subset_left _ (List.subset_append_left _ _), List.subset_append_right _ _⟩

end Expr

theorem words_subset_items : e.words ⊆ itemWords (e :: es) ∧ itemWords es ⊆ itemWords (e :: es) :=
  ⟨List.subset_append_of_subset_left _ (List.subset_cons_self _ _), List.subset_append_right _ _⟩

namespace Decl
variable {body alternative ds : List Decl} {d : Decl}

theorem words_subset_print : first.words ⊆ (print first es).words ∧ itemWords es ⊆ (print first es).words := by
  constructor <;> refine List.subset_append_of_subset_left _ ?_
  · exact List.subset_append_of_subset_left _ (List.subset_cons_self _ _)
  · exact List.subset_append_right _ _

theorem words_subset_if :
    condition.words ⊆ (if_ condition body).words ∧ listWords body ⊆ (if_ condition body).words :=
  ⟨List.subset_append_of_subset_left _ (List.subset_cons_self _ _),
    List.subset_append_of_subset_right _ (BlockMark.subset_enclosed _ _)⟩

theorem words_subset_ifElse : condition.words ⊆ (ifElse condition body alternative).words ∧
    listWords body ⊆ (ifElse condition body alternative).words ∧
      listWords alternative ⊆ (ifElse condition body alternative).words :=
  ⟨List.subset_append_of_subset_left _ words_subset_if.1, List.subset_append_of_subset_left _ words_subset_if.2,
    List.subset_append_of_subset_right _ (List.subset_cons_of_subset _ (BlockMark.subset_enclosed _ _))⟩

theorem words_subset_until :
    condition.words ⊆ (until_ condition body).words ∧ listWords body ⊆ (until_ condition body).words :=
  ⟨List.subset_append_of_subset_left _ (List.subset_cons_self _ _),
    List.subset_append_of_subset_right _ (BlockMark.subset_enclosed _ _)⟩

theorem words_subset_out : e.words ⊆ (out (some e)).words :=
  List.subset_append_of_subset_left _ (List.subset_cons_self _ _)

theorem words_subset_block {mark : BlockMark} : listWords body ⊆ (block mark body).words :=
  mark.subset_enclosed _

theorem words_subset_var : e.words ⊆ (var x (some e)).words :=
  List.subset_cons_of_subset _ (List.subset_cons_of_subset _ (List.subset_cons_self _ _))

theorem words_subset_fun {parameters : List String} : listWords body ⊆ (fun_ x parameters body).words :=
  List.subset_append_of_subset_right _ (List.subset_cons_of_subset _ (BlockMark.subset_enclosed _ _))

theorem words_subset_list : d.words ⊆ listWords (d :: ds) ∧ listWords ds ⊆ listWords (d :: ds) :=
  ⟨List.subset_append_left _ _, List.subset_append_right _ _⟩

end Decl

end Parts
end StackScript
