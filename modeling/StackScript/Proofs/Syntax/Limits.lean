import StackScript.Proofs.Syntax.Scope

/-! What the language asks of a program beyond its grammar. Each condition is one on single declarations
and expressions, wherever they stand. -/
namespace StackScript
open Compiler (maxDistance)

namespace Expr

mutual

/-- What holds for an expression and each expression in it. -/
def Everywhere (P : Expr → Prop) : Expr → Prop
  | literal l => P (literal l)
  | name x => P (name x)
  | group e => P (group e) ∧ e.Everywhere P
  | assign x value => P (assign x value) ∧ value.Everywhere P
  | unary op e => P (unary op e) ∧ e.Everywhere P
  | binary op left right => P (binary op left right) ∧ left.Everywhere P ∧ right.Everywhere P
  | and left right => P (and left right) ∧ left.Everywhere P ∧ right.Everywhere P
  | or left right => P (or left right) ∧ left.Everywhere P ∧ right.Everywhere P
  | call callee arguments =>
    P (call callee arguments) ∧ callee.Everywhere P ∧ AllEverywhere P arguments

def AllEverywhere (P : Expr → Prop) : List Expr → Prop
  | [] => True
  | e :: es => e.Everywhere P ∧ AllEverywhere P es

end

/-- A call has no more arguments than a byte can count. -/
def FewArguments : Expr → Prop
  | call _ arguments => arguments.length ≤ 255
  | _ => True

/-- What jumps over the right side of a short circuit goes no farther than two bytes can say. -/
def ShortJumps : Expr → Prop
  | and _ right => right.size + 1 ≤ maxDistance
  | or _ right => right.size + 1 ≤ maxDistance
  | _ => True

end Expr

namespace Decl

mutual

/-- What holds for a declaration in its scope and each declaration in it, and for all expressions. -/
def Everywhere (P : Scope → Decl → Prop) (Q : Expr → Prop) (σ : Scope) : Decl → Prop
  | expression e => P σ (expression e) ∧ e.Everywhere Q
  | print first rest => P σ (print first rest) ∧ first.Everywhere Q ∧ Expr.AllEverywhere Q rest
  | read form x => P σ (read form x)
  | if_ condition body =>
    P σ (if_ condition body) ∧ condition.Everywhere Q ∧ ListEverywhere P Q σ.enter body
  | ifElse condition body alternative =>
    P σ (ifElse condition body alternative) ∧ condition.Everywhere Q ∧
      ListEverywhere P Q σ.enter body ∧ ListEverywhere P Q σ.enter alternative
  | until_ condition body =>
    P σ (until_ condition body) ∧ condition.Everywhere Q ∧ ListEverywhere P Q σ.enter body
  | out none => P σ (out none)
  | out (some e) => P σ (out (some e)) ∧ e.Everywhere Q
  | block mark body => P σ (block mark body) ∧ ListEverywhere P Q σ.enter body
  | var x none => P σ (var x none)
  | var x (some e) => P σ (var x (some e)) ∧ e.Everywhere Q
  | fun_ x parameters body =>
    P σ (fun_ x parameters body) ∧ ListEverywhere P Q (.function parameters) body

def ListEverywhere (P : Scope → Decl → Prop) (Q : Expr → Prop) (σ : Scope) : List Decl → Prop
  | [] => True
  | d :: ds => d.Everywhere P Q σ ∧ ListEverywhere P Q (σ.after d) ds

end

/-- Nothing is given back outside all functions. -/
def OutInFunction (σ : Scope) : Decl → Prop
  | out _ => σ.inFunction = true
  | _ => True

/-- No name is declared twice in a block. Parameters belong to the block that is the body. -/
def DistinctNames (_ : Scope) : Decl → Prop
  | if_ _ body => (listDeclared body).Nodup
  | ifElse _ body alternative => (listDeclared body).Nodup ∧ (listDeclared alternative).Nodup
  | until_ _ body => (listDeclared body).Nodup
  | block _ body => (listDeclared body).Nodup
  | fun_ _ parameters body => (parameters ++ listDeclared body).Nodup
  | _ => True

/-- The initializer of a local variable does not mention it. -/
def OwnNameUnread (σ : Scope) : Decl → Prop
  | var x (some e) => σ.isLocal = true → x ∉ e.mentions
  | _ => True

/-- A function has no more parameters than a byte can count. -/
def FewParameters (_ : Scope) : Decl → Prop
  | fun_ _ parameters _ => parameters.length ≤ 255
  | _ => True

/-- A slot byte can name every local variable. -/
def FewSlots (σ : Scope) : Decl → Prop
  | var x _ => (σ.declare x).live ≤ maxLocals
  | fun_ x parameters _ => (σ.declare x).live ≤ maxLocals ∧ (Scope.function parameters).live ≤ maxLocals
  | _ => True

/-- A byte can name every constant of a function. -/
def FewConstants (_ : Scope) : Decl → Prop
  | fun_ _ parameters body => (listNeeds (.function parameters) body).count ≤ Bytecode.maxConstants
  | _ => True

/-- Jumps over a block or back to a condition go no farther than two bytes can say. -/
def ShortJumps (_ : Scope) : Decl → Prop
  | if_ _ body => blockSize body + 4 ≤ maxDistance
  | ifElse _ body alternative =>
    blockSize body + 4 ≤ maxDistance ∧ blockSize alternative + 1 ≤ maxDistance
  | until_ condition body => condition.size + blockSize body + 7 ≤ maxDistance
  | _ => True

end Decl

/-! ### Conditions joined -/

namespace Expr
variable {P Q : Expr → Prop}

mutual

theorem everywhere_and (e : Expr) :
    e.Everywhere (fun e => P e ∧ Q e) ↔ e.Everywhere P ∧ e.Everywhere Q := by
  cases e with
  | literal l => rfl
  | name x => rfl
  | group e => simp only [Everywhere, everywhere_and e]; tauto
  | assign x e => simp only [Everywhere, everywhere_and e]; tauto
  | unary op e => simp only [Everywhere, everywhere_and e]; tauto
  | binary op l r => simp only [Everywhere, everywhere_and l, everywhere_and r]; tauto
  | and l r => simp only [Everywhere, everywhere_and l, everywhere_and r]; tauto
  | or l r => simp only [Everywhere, everywhere_and l, everywhere_and r]; tauto
  | call e es => simp only [Everywhere, everywhere_and e, allEverywhere_and es]; tauto

theorem allEverywhere_and (es : List Expr) :
    AllEverywhere (fun e => P e ∧ Q e) es ↔ AllEverywhere P es ∧ AllEverywhere Q es := by
  cases es with
  | nil => simp [AllEverywhere]
  | cons e es => simp only [AllEverywhere, everywhere_and e, allEverywhere_and es]; tauto

end

end Expr

namespace Decl
variable {P P' : Scope → Decl → Prop} {Q Q' : Expr → Prop}

mutual

theorem everywhere_and (σ : Scope) (d : Decl) :
    d.Everywhere (fun σ d => P σ d ∧ P' σ d) (fun e => Q e ∧ Q' e) σ ↔
      d.Everywhere P Q σ ∧ d.Everywhere P' Q' σ := by
  cases d with
  | expression e => simp only [Everywhere, e.everywhere_and]; tauto
  | print e es => simp only [Everywhere, e.everywhere_and, Expr.allEverywhere_and es]; tauto
  | read form x => rfl
  | if_ e b => simp only [Everywhere, e.everywhere_and, listEverywhere_and _ b]; tauto
  | ifElse e b a =>
    simp only [Everywhere, e.everywhere_and, listEverywhere_and _ b, listEverywhere_and _ a]; tauto
  | until_ e b => simp only [Everywhere, e.everywhere_and, listEverywhere_and _ b]; tauto
  | out value =>
    cases value with
    | none => rfl
    | some e => simp only [Everywhere, e.everywhere_and]; tauto
  | block mark b => simp only [Everywhere, listEverywhere_and _ b]; tauto
  | var x initial =>
    cases initial with
    | none => rfl
    | some e => simp only [Everywhere, e.everywhere_and]; tauto
  | fun_ x ps b => simp only [Everywhere, listEverywhere_and _ b]; tauto

theorem listEverywhere_and (σ : Scope) (ds : List Decl) :
    ListEverywhere (fun σ d => P σ d ∧ P' σ d) (fun e => Q e ∧ Q' e) σ ds ↔
      ListEverywhere P Q σ ds ∧ ListEverywhere P' Q' σ ds := by
  cases ds with
  | nil => simp [ListEverywhere]
  | cons d ds =>
    simp only [ListEverywhere, everywhere_and σ d, listEverywhere_and _ ds]
    tauto

end

/-- What the compilation checks at a declaration. -/
def Allowed (σ : Scope) (d : Decl) : Prop :=
  OutInFunction σ d ∧ DistinctNames σ d ∧ OwnNameUnread σ d ∧ FewParameters σ d ∧ FewSlots σ d ∧
    FewConstants σ d ∧ ShortJumps σ d

/-- As `Allowed`, where jumps are held to their limit only if that is asked for. -/
def Judged (strict : Prop) (σ : Scope) (d : Decl) : Prop :=
  OutInFunction σ d ∧ DistinctNames σ d ∧ OwnNameUnread σ d ∧ FewParameters σ d ∧ FewSlots σ d ∧
    FewConstants σ d ∧ (strict → ShortJumps σ d)

theorem judged_true : Judged True = Allowed := by
  funext σ d
  simp only [Judged, Allowed, true_imp_iff]

/-- What the compilation checks at a declaration, but for the number of constants. -/
def Regular (σ : Scope) (d : Decl) : Prop :=
  OutInFunction σ d ∧ DistinctNames σ d ∧ OwnNameUnread σ d ∧ FewParameters σ d ∧ FewSlots σ d ∧ ShortJumps σ d

end Decl

/-- What the compilation checks at an expression. -/
def Expr.Allowed (e : Expr) : Prop := e.FewArguments ∧ e.ShortJumps

/-- As `Allowed`, where jumps are held to their limit only if that is asked for. -/
def Expr.Judged (strict : Prop) (e : Expr) : Prop := e.FewArguments ∧ (strict → e.ShortJumps)

theorem Expr.judged_true : Expr.Judged True = Expr.Allowed := by
  funext e
  simp only [Judged, Allowed, true_imp_iff]

/-- A condition on declarations and one on expressions hold wherever in a program they stand. -/
def Throughout (ds : List Decl) (P : Scope → Decl → Prop) (Q : Expr → Prop := fun _ => True) : Prop :=
  Decl.ListEverywhere P Q .script ds

/-- The conditions of the language on a program beyond its grammar. -/
structure IsLegal (ds : List Decl) : Prop where
  outInFunction : Throughout ds Decl.OutInFunction
  distinctNames : Throughout ds Decl.DistinctNames
  ownNameUnread : Throughout ds Decl.OwnNameUnread
  fewOperands : Throughout ds Decl.FewParameters Expr.FewArguments
  fewSlots : Throughout ds Decl.FewSlots
  fewConstants : Throughout ds Decl.FewConstants
  fewScriptConstants : (Decl.listNeeds .script ds).count ≤ Bytecode.maxConstants
  shortJumps : Throughout ds Decl.ShortJumps Expr.ShortJumps

/-- The conditions of the language are those that the compilation checks. -/
theorem isLegal_iff {ds : List Decl} :
    IsLegal ds ↔ Throughout ds Decl.Allowed Expr.Allowed ∧
      (Decl.listNeeds .script ds).count ≤ Bytecode.maxConstants := by
  have h : Throughout ds Decl.Allowed Expr.Allowed ↔
      Throughout ds Decl.OutInFunction ∧ Throughout ds Decl.DistinctNames ∧
        Throughout ds Decl.OwnNameUnread ∧ Throughout ds Decl.FewParameters Expr.FewArguments ∧
        Throughout ds Decl.FewSlots ∧ Throughout ds Decl.FewConstants ∧
        Throughout ds Decl.ShortJumps Expr.ShortJumps := by
    simp only [Throughout, ← Decl.listEverywhere_and, true_and]
    rfl
  rw [h]
  constructor
  · exact fun h => ⟨⟨h.1, h.2, h.3, h.4, h.5, h.6, h.8⟩, h.7⟩
  · exact fun ⟨⟨h1, h2, h3, h4, h5, h6, h7⟩, h8⟩ => ⟨h1, h2, h3, h4, h5, h6, h8, h7⟩

/-- The conditions of the language on a program beyond its grammar, but for how far jumps go. -/
structure IsLegalButJumps (ds : List Decl) : Prop where
  outInFunction : Throughout ds Decl.OutInFunction
  distinctNames : Throughout ds Decl.DistinctNames
  ownNameUnread : Throughout ds Decl.OwnNameUnread
  fewOperands : Throughout ds Decl.FewParameters Expr.FewArguments
  fewSlots : Throughout ds Decl.FewSlots
  fewConstants : Throughout ds Decl.FewConstants
  fewScriptConstants : (Decl.listNeeds .script ds).count ≤ Bytecode.maxConstants

theorem IsLegalButJumps.judged {ds : List Decl} (h : IsLegalButJumps ds) :
    Throughout ds (Decl.Judged False) (Expr.Judged False) := by
  have hall := (Decl.listEverywhere_and _ _).2 ⟨h.outInFunction, (Decl.listEverywhere_and _ _).2 ⟨h.distinctNames,
    (Decl.listEverywhere_and _ _).2 ⟨h.ownNameUnread, (Decl.listEverywhere_and _ _).2 ⟨h.fewOperands,
      (Decl.listEverywhere_and _ _).2 ⟨h.fewSlots, h.fewConstants⟩⟩⟩⟩⟩
  unfold Throughout Decl.Judged Expr.Judged
  simpa only [true_and, and_true, false_imp_iff] using hall

/-- The conditions of the language on a program beyond its grammar, but for how many constants there are. -/
structure IsLegalButConstants (ds : List Decl) : Prop where
  outInFunction : Throughout ds Decl.OutInFunction
  distinctNames : Throughout ds Decl.DistinctNames
  ownNameUnread : Throughout ds Decl.OwnNameUnread
  fewOperands : Throughout ds Decl.FewParameters Expr.FewArguments
  fewSlots : Throughout ds Decl.FewSlots
  shortJumps : Throughout ds Decl.ShortJumps Expr.ShortJumps

theorem IsLegal.butConstants {ds : List Decl} (h : IsLegal ds) : IsLegalButConstants ds :=
  ⟨h.outInFunction, h.distinctNames, h.ownNameUnread, h.fewOperands, h.fewSlots, h.shortJumps⟩

theorem IsLegalButConstants.regular {ds : List Decl} (h : IsLegalButConstants ds) :
    Throughout ds Decl.Regular Expr.Allowed := by
  have hall := (Decl.listEverywhere_and _ _).2 ⟨h.outInFunction, (Decl.listEverywhere_and _ _).2 ⟨h.distinctNames,
    (Decl.listEverywhere_and _ _).2 ⟨h.ownNameUnread, (Decl.listEverywhere_and _ _).2 ⟨h.fewOperands,
      (Decl.listEverywhere_and _ _).2 ⟨h.fewSlots, h.shortJumps⟩⟩⟩⟩⟩
  unfold Throughout Decl.Regular Expr.Allowed
  simpa only [true_and] using hall

theorem isLegal_iff_fewConstants {ds : List Decl} (h : IsLegalButConstants ds) :
    IsLegal ds ↔ Throughout ds Decl.FewConstants ∧ (Decl.listNeeds .script ds).count ≤ Bytecode.maxConstants :=
  ⟨fun hl => ⟨hl.fewConstants, hl.fewScriptConstants⟩, fun ⟨hfew, hscript⟩ => ⟨h.outInFunction, h.distinctNames,
    h.ownNameUnread, h.fewOperands, h.fewSlots, hfew, hscript, h.shortJumps⟩⟩

end StackScript
