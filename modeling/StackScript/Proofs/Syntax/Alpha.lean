import StackScript.Proofs.Parsing.Joined
import StackScript.Proofs.Scanning.Spaced
import StackScript.Proofs.Syntax.Scope

/-! Trees that differ in the names of local variables only. Names are compared by what they stand for where they are
used: the same slot of the stack in both trees, or the same global variable. -/
namespace StackScript
open Compiler

/-! ### Names -/

/-- A name may be another one in its place if that is an identifier. -/
def IsRespelled (x x' : String) : Prop := x' = x ∨ (⟨.ident, x'⟩ : Word).IsWritten

/-- With some names in scope, and in their places others, two names stand for the same. -/
structure SameHome (names names' : List String) (x x' : String) : Prop where
  slot : slot? x names = slot? x' names'
  global : slot? x names = none → x' = x
  respelled : IsRespelled x x'

/-- Where one name can be declared the other can. Names that are not local are the same. -/
structure SameDeclared (σ σ' : Scope) (x x' : String) : Prop where
  global : σ.isLocal = false → x' = x
  fresh : x' ∈ σ'.inner → x ∈ σ.inner
  respelled : IsRespelled x x'

/-! ### Trees -/

/-- Expressions whose names stand for the same. -/
inductive Expr.Alpha (names names' : List String) : Expr → Expr → Prop
  | literal (l : Literal) : Alpha names names' (.literal l) (.literal l)
  | name {x x' : String} (hx : SameHome names names' x x') : Alpha names names' (.name x) (.name x')
  | group {e e' : Expr} (h : Alpha names names' e e') : Alpha names names' (.group e) (.group e')
  | assign {x x' : String} {value value' : Expr} (hx : SameHome names names' x x') (h : Alpha names names' value value') :
    Alpha names names' (.assign x value) (.assign x' value')
  | unary (op : Unary) {e e' : Expr} (h : Alpha names names' e e') : Alpha names names' (.unary op e) (.unary op e')
  | binary (op : Binary) {left left' right right' : Expr} (hl : Alpha names names' left left')
    (hr : Alpha names names' right right') : Alpha names names' (.binary op left right) (.binary op left' right')
  | and {left left' right right' : Expr} (hl : Alpha names names' left left') (hr : Alpha names names' right right') :
    Alpha names names' (.and left right) (.and left' right')
  | or {left left' right right' : Expr} (hl : Alpha names names' left left') (hr : Alpha names names' right right') :
    Alpha names names' (.or left right) (.or left' right')
  | call {callee callee' : Expr} {arguments arguments' : List Expr} (hc : Alpha names names' callee callee')
    (ha : List.Forall₂ (Alpha names names') arguments arguments') :
    Alpha names names' (.call callee arguments) (.call callee' arguments')

/-- Expressions, each of which has its counterpart. -/
abbrev Expr.AllAlpha (names names' : List String) : List Expr → List Expr → Prop := List.Forall₂ (Alpha names names')

/-- Parameters that can be declared one after another. -/
inductive ParametersAlpha : Scope → Scope → List String → List String → Prop
  | nil {σ σ' : Scope} : ParametersAlpha σ σ' [] []
  | cons {σ σ' : Scope} {x x' : String} {xs xs' : List String} (hx : SameDeclared σ σ' x x')
    (h : ParametersAlpha (σ.declare x) (σ'.declare x') xs xs') : ParametersAlpha σ σ' (x :: xs) (x' :: xs')

namespace Decl

mutual

/-- Declarations whose names stand for the same, each in its scope. Functions keep their names, which are more than a
place on the stack. -/
inductive Alpha : Scope → Scope → Decl → Decl → Prop
  | expression {σ σ' : Scope} {e e' : Expr} (h : e.Alpha σ.names σ'.names e') : Alpha σ σ' (.expression e) (.expression e')
  | print {σ σ' : Scope} {e e' : Expr} {es es' : List Expr} (h : e.Alpha σ.names σ'.names e')
    (hs : Expr.AllAlpha σ.names σ'.names es es') : Alpha σ σ' (.print e es) (.print e' es')
  | read {σ σ' : Scope} (form : InputForm) {x x' : String} (hx : SameHome σ.names σ'.names x x') :
    Alpha σ σ' (.read form x) (.read form x')
  | if_ {σ σ' : Scope} {e e' : Expr} {ds ds' : List Decl} (h : e.Alpha σ.names σ'.names e')
    (hs : ListAlpha σ.enter σ'.enter ds ds') : Alpha σ σ' (.if_ e ds) (.if_ e' ds')
  | ifElse {σ σ' : Scope} {e e' : Expr} {ds ds' es es' : List Decl} (h : e.Alpha σ.names σ'.names e')
    (hds : ListAlpha σ.enter σ'.enter ds ds') (hes : ListAlpha σ.enter σ'.enter es es') :
    Alpha σ σ' (.ifElse e ds es) (.ifElse e' ds' es')
  | until_ {σ σ' : Scope} {e e' : Expr} {ds ds' : List Decl} (h : e.Alpha σ.names σ'.names e')
    (hs : ListAlpha σ.enter σ'.enter ds ds') : Alpha σ σ' (.until_ e ds) (.until_ e' ds')
  | outNothing {σ σ' : Scope} : Alpha σ σ' (.out none) (.out none)
  | out {σ σ' : Scope} {e e' : Expr} (h : e.Alpha σ.names σ'.names e') : Alpha σ σ' (.out (some e)) (.out (some e'))
  | block {σ σ' : Scope} (mark : BlockMark) {ds ds' : List Decl} (hs : ListAlpha σ.enter σ'.enter ds ds') :
    Alpha σ σ' (.block mark ds) (.block mark ds')
  | varNothing {σ σ' : Scope} {x x' : String} (hx : SameDeclared σ σ' x x') : Alpha σ σ' (.var x none) (.var x' none)
  | var {σ σ' : Scope} {x x' : String} {e e' : Expr} (hx : SameDeclared σ σ' x x')
    (h : e.Alpha (σ.declare x).names (σ'.declare x').names e') : Alpha σ σ' (.var x (some e)) (.var x' (some e'))
  | fun_ {σ σ' : Scope} {x : String} {xs xs' : List String} {ds ds' : List Decl} (hx : SameDeclared σ σ' x x)
    (hxs : ParametersAlpha (.function []) (.function []) xs xs')
    (hs : ListAlpha (.function xs) (.function xs') ds ds') : Alpha σ σ' (.fun_ x xs ds) (.fun_ x xs' ds')

/-- Declarations one behind the other. -/
inductive ListAlpha : Scope → Scope → List Decl → List Decl → Prop
  | nil {σ σ' : Scope} : ListAlpha σ σ' [] []
  | cons {σ σ' : Scope} {d d' : Decl} {ds ds' : List Decl} (h : d.Alpha σ σ' d')
    (hs : ListAlpha (σ.after d) (σ'.after d') ds ds') : ListAlpha σ σ' (d :: ds) (d' :: ds')

end

end Decl

/-! ### Words

The words of the trees are the same but for the names. -/

/-- A word that an identifier may have taken the place of, if it is one. -/
def Word.Renamed (w w' : Word) : Prop := w' = w ∨ w.kind = .ident ∧ w'.kind = .ident ∧ w'.IsWritten

namespace Word

theorem Renamed.refl (w : Word) : w.Renamed w := .inl rfl

theorem Renamed.kind {w w' : Word} (h : w.Renamed w') : w'.kind = w.kind := by
  obtain rfl | ⟨hw, hw', -⟩ := h
  · rfl
  · rw [hw, hw']

theorem renamed_ident {x x' : String} (h : IsRespelled x x') : (⟨.ident, x⟩ : Word).Renamed ⟨.ident, x'⟩ := by
  obtain rfl | h := h
  · exact .refl _
  · exact .inr ⟨rfl, rfl, h⟩

/-- Words that are the same but for names. -/
abbrev AllRenamed : List Word → List Word → Prop := List.Forall₂ Renamed

theorem allRenamed_refl (ws : List Word) : AllRenamed ws ws := List.forall₂_same.2 fun w _ => .refl w

theorem AllRenamed.append {us us' vs vs' : List Word} (hu : AllRenamed us us') (hv : AllRenamed vs vs') :
    AllRenamed (us ++ vs) (us' ++ vs') := List.rel_append hu hv

theorem AllRenamed.mark {ws ws' : List Word} (k : TokenKind) (h : AllRenamed ws ws') :
    AllRenamed (k.mark :: ws) (k.mark :: ws') := .cons (.refl _) h

theorem AllRenamed.enclosed {ws ws' : List Word} (mark : BlockMark) (h : AllRenamed ws ws') :
    AllRenamed (mark.enclosed ws) (mark.enclosed ws') := (h.mark _).append (allRenamed_refl _)

theorem allRenamed_commaBefore {α : Type} {xs xs' : List α} (h : xs.length = xs'.length) :
    AllRenamed (commaBefore xs) (commaBefore xs') := by
  have hempty : xs.isEmpty = xs'.isEmpty := by cases xs <;> cases xs' <;> simp at h ⊢
  rw [commaBefore, commaBefore, hempty]
  exact allRenamed_refl _

end Word

open Word

namespace Expr

mutual

theorem Alpha.words {names names' : List String} {e' : Expr} (e : Expr) (h : e.Alpha names names' e') :
    AllRenamed e.words e'.words := by
  cases h with
  | literal l => exact allRenamed_refl _
  | name hx => exact .cons (renamed_ident hx.respelled) .nil
  | group h => exact ((Alpha.words _ h).mark _).append (allRenamed_refl _)
  | assign hx h => exact .cons (renamed_ident hx.respelled) ((Alpha.words _ h).mark _)
  | unary op h => exact (Alpha.words _ h).mark _
  | binary op hl hr => exact (Alpha.words _ hl).append ((Alpha.words _ hr).mark _)
  | and hl hr => exact (Alpha.words _ hl).append ((Alpha.words _ hr).mark _)
  | or hl hr => exact (Alpha.words _ hl).append ((Alpha.words _ hr).mark _)
  | call hc ha =>
    exact ((Alpha.words _ hc).append ((AllAlpha.argumentWords _ ha).mark _)).append (allRenamed_refl _)

theorem AllAlpha.argumentWords {names names' : List String} {es' : List Expr} (es : List Expr)
    (h : AllAlpha names names' es es') : AllRenamed (argumentWords es) (argumentWords es') := by
  cases h with
  | nil => exact .nil
  | cons h hs =>
    exact ((Alpha.words _ h).append (allRenamed_commaBefore hs.length_eq)).append (AllAlpha.argumentWords _ hs)

end

theorem AllAlpha.itemWords {names names' : List String} {es es' : List Expr} (h : AllAlpha names names' es es') :
    AllRenamed (itemWords es) (itemWords es') := by
  induction h with
  | nil => exact .nil
  | cons h _ ih => exact ((h.words).mark _).append ih

end Expr

theorem ParametersAlpha.length_eq {σ σ' : Scope} {xs xs' : List String} (h : ParametersAlpha σ σ' xs xs') :
    xs.length = xs'.length := by
  induction h with
  | nil => rfl
  | cons hx h ih => exact congrArg Nat.succ ih

theorem ParametersAlpha.nameWords {σ σ' : Scope} {xs xs' : List String} (h : ParametersAlpha σ σ' xs xs') :
    AllRenamed (nameWords xs) (nameWords xs') := by
  induction h with
  | nil => exact .nil
  | cons hx h ih => exact .cons (renamed_ident hx.respelled) ((allRenamed_commaBefore h.length_eq).append ih)

namespace Decl

mutual

theorem Alpha.words {σ σ' : Scope} {d' : Decl} (d : Decl) (h : d.Alpha σ σ' d') : AllRenamed d.words d'.words := by
  cases h with
  | expression h => exact h.words
  | print h hs => exact ((h.words.append hs.itemWords).mark _).append (allRenamed_refl _)
  | read form hx => exact .mark _ (.mark _ (.cons (renamed_ident hx.respelled) (allRenamed_refl _)))
  | if_ h hs => exact .append (.mark _ h.words) ((ListAlpha.listWords _ hs).enclosed _)
  | ifElse h hds hes =>
    exact ((h.words.mark _).append ((ListAlpha.listWords _ hds).enclosed _)).append
      (((ListAlpha.listWords _ hes).enclosed _).mark _)
  | until_ h hs => exact .append (.mark _ h.words) ((ListAlpha.listWords _ hs).enclosed _)
  | outNothing => exact allRenamed_refl _
  | out h => exact (h.words.mark _).append (allRenamed_refl _)
  | block mark hs => exact (ListAlpha.listWords _ hs).enclosed _
  | varNothing hx => exact .mark _ (.cons (renamed_ident hx.respelled) .nil)
  | var hx h => exact .mark _ (.cons (renamed_ident hx.respelled) (h.words.mark _))
  | fun_ hx hxs hs =>
    exact .mark _ (.cons (.refl _) ((hxs.nameWords.mark _).append (((ListAlpha.listWords _ hs).enclosed _).mark _)))

theorem ListAlpha.listWords {σ σ' : Scope} {ds' : List Decl} (ds : List Decl) (h : ListAlpha σ σ' ds ds') :
    AllRenamed (listWords ds) (listWords ds') := by
  cases h with
  | nil => exact .nil
  | cons h hs => exact (Alpha.words _ h).append (ListAlpha.listWords _ hs)

end

end Decl

/-! ### Grammar

Names do not matter for how a tree is to be written. -/

namespace Expr

theorem Alpha.level {names names' : List String} {e e' : Expr} (h : e.Alpha names names' e') : e'.level = e.level := by
  cases h <;> rfl

mutual

theorem Alpha.wellFormed {names names' : List String} {e' : Expr} (e : Expr) (h : e.Alpha names names' e')
    (hw : e.WellFormed) : e'.WellFormed := by
  cases h with
  | literal l => trivial
  | name hx => trivial
  | @group e e' h => exact show e'.WellFormed from Alpha.wellFormed e h hw
  | @assign x x' value value' hx h => exact show value'.WellFormed from Alpha.wellFormed value h hw
  | unary op h => exact ⟨h.level ▸ hw.1, Alpha.wellFormed _ h hw.2⟩
  | binary op hl hr => exact ⟨hl.level ▸ hr.level ▸ hw.1, Alpha.wellFormed _ hl hw.2.1, Alpha.wellFormed _ hr hw.2.2⟩
  | and hl hr => exact ⟨hl.level ▸ hr.level ▸ hw.1, Alpha.wellFormed _ hl hw.2.1, Alpha.wellFormed _ hr hw.2.2⟩
  | or hl hr => exact ⟨hl.level ▸ hr.level ▸ hw.1, Alpha.wellFormed _ hl hw.2.1, Alpha.wellFormed _ hr hw.2.2⟩
  | call hc ha => exact ⟨hc.level ▸ hw.1, Alpha.wellFormed _ hc hw.2.1, AllAlpha.allWellFormed _ ha hw.2.2⟩

theorem AllAlpha.allWellFormed {names names' : List String} {es' : List Expr} (es : List Expr)
    (h : AllAlpha names names' es es') (hw : AllWellFormed es) : AllWellFormed es' := by
  cases h with
  | nil => trivial
  | cons h hs => exact ⟨Alpha.wellFormed _ h hw.1, AllAlpha.allWellFormed _ hs hw.2⟩

end

end Expr

namespace Decl

mutual

theorem Alpha.wellFormed {σ σ' : Scope} {d' : Decl} (d : Decl) (h : d.Alpha σ σ' d') (hw : d.WellFormed) :
    d'.WellFormed := by
  cases h with
  | expression h => exact h.wellFormed _ hw
  | print h hs => exact ⟨h.wellFormed _ hw.1, hs.allWellFormed _ hw.2⟩
  | read form hx => trivial
  | if_ h hs => exact ⟨h.wellFormed _ hw.1, ListAlpha.listWellFormed _ hs hw.2⟩
  | ifElse h hds hes =>
    exact ⟨h.wellFormed _ hw.1, ListAlpha.listWellFormed _ hds hw.2.1, ListAlpha.listWellFormed _ hes hw.2.2⟩
  | until_ h hs => exact ⟨h.wellFormed _ hw.1, ListAlpha.listWellFormed _ hs hw.2⟩
  | outNothing => trivial
  | out h => exact h.wellFormed _ hw
  | block mark hs => exact ListAlpha.listWellFormed _ hs hw
  | varNothing hx => trivial
  | var hx h => exact h.wellFormed _ hw
  | fun_ hx hxs hs => exact ListAlpha.listWellFormed _ hs hw

theorem ListAlpha.listWellFormed {σ σ' : Scope} {ds' : List Decl} (ds : List Decl) (h : ListAlpha σ σ' ds ds')
    (hw : ListWellFormed ds) : ListWellFormed ds' := by
  cases h with
  | nil => trivial
  | cons h hs => exact ⟨Alpha.wellFormed _ h hw.1, ListAlpha.listWellFormed _ hs hw.2⟩

end

/-- What stops an expression stops it in other words too. -/
theorem stops_renamed {us us' rest rest' : List Word} (hu : AllRenamed us us')
    (h : Stops .assignment rest → Stops .assignment rest') (hs : Stops .assignment (us ++ rest)) :
    Stops .assignment (us' ++ rest') := by
  cases hu with
  | nil => exact h hs
  | @cons w w' us us' hw hus =>
    have hkind : headKind (w' :: us' ++ rest') = headKind (w :: us ++ rest) := hw.kind
    obtain ⟨hcloses, hassign⟩ := hs
    refine ⟨?_, by rwa [hkind]⟩
    rw [Closes, hkind]
    exact hcloses

mutual

theorem Alpha.stopped {σ σ' : Scope} {d' : Decl} {rest rest' : List Word}
    (hrest : Stops .assignment rest → Stops .assignment rest') (d : Decl) (h : d.Alpha σ σ' d')
    (hd : d.Each Stopped rest) : d'.Each Stopped rest' := by
  cases h with
  | expression h => exact hrest hd
  | print h hs =>
    refine ⟨?_, stopped_items _⟩
    cases hs <;> exact stops_mark rfl (by decide)
  | read form hx => trivial
  | if_ h hs => exact ⟨stops_mark rfl (by decide), ListAlpha.listStopped (stops_append hrest [_]) _ hs hd.2⟩
  | ifElse h hds hes =>
    refine ⟨stops_mark rfl (by decide), ListAlpha.listStopped ?_ _ hds hd.2.1,
      ListAlpha.listStopped (stops_append hrest [_]) _ hes hd.2.2⟩
    exact fun _ => stops_mark rfl (by decide)
  | until_ h hs => exact ⟨stops_mark rfl (by decide), ListAlpha.listStopped (stops_append hrest [_]) _ hs hd.2⟩
  | outNothing => trivial
  | out h => exact stops_mark rfl (by decide)
  | block mark hs => exact ListAlpha.listStopped (stops_append hrest [_]) _ hs hd
  | varNothing hx => trivial
  | var hx h => exact hrest hd
  | fun_ hx hxs hs => exact ListAlpha.listStopped (stops_append hrest [_]) _ hs hd

/-- Where nothing goes on with an expression, nothing goes on with its counterpart. -/
theorem ListAlpha.listStopped {σ σ' : Scope} {ds' : List Decl} {rest rest' : List Word}
    (hrest : Stops .assignment rest → Stops .assignment rest') (ds : List Decl) (h : ListAlpha σ σ' ds ds')
    (hd : ListEach Stopped ds rest) : ListEach Stopped ds' rest' := by
  cases h with
  | nil => trivial
  | cons h hs =>
    exact ⟨Alpha.stopped (stops_renamed (ListAlpha.listWords _ hs) hrest) _ h hd.1,
      ListAlpha.listStopped hrest _ hs hd.2⟩

end

end Decl
end StackScript
