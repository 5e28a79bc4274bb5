import StackScript.Proofs.Syntax.Alpha

/-! Renaming a local variable or a parameter: its declaration, and the uses that are bound to it. If the new name is not
found in the program then every name goes on standing for what it did. -/
namespace StackScript

/-! ### Uses

What a use is bound to is told by where it stands: behind a declaration of the same name in the same block, or in a block
inside it, it is bound to that declaration, and in a function nothing is bound to the variables around the function. -/

/-- A use of `z`, if those of `x` are renamed to `y`. -/
def renameUse (x y z : String) : String := if z = x then y else z

namespace Expr

mutual

/-- The names read and assigned to. -/
def rename (x y : String) : Expr → Expr
  | literal l => literal l
  | name z => name (renameUse x y z)
  | group e => group (e.rename x y)
  | assign z value => assign (renameUse x y z) (value.rename x y)
  | unary op e => unary op (e.rename x y)
  | binary op left right => binary op (left.rename x y) (right.rename x y)
  | and left right => and (left.rename x y) (right.rename x y)
  | or left right => or (left.rename x y) (right.rename x y)
  | call callee arguments => call (callee.rename x y) (allRename x y arguments)

def allRename (x y : String) : List Expr → List Expr
  | [] => []
  | e :: es => e.rename x y :: allRename x y es

end

end Expr

namespace Decl

mutual

/-- The uses in a declaration that are bound to the variable around it. -/
def rename (x y : String) : Decl → Decl
  | expression e => expression (e.rename x y)
  | print first rest => print (first.rename x y) (Expr.allRename x y rest)
  | read form z => read form (renameUse x y z)
  | if_ condition body => if_ (condition.rename x y) (listRename x y body)
  | ifElse condition body alternative =>
    ifElse (condition.rename x y) (listRename x y body) (listRename x y alternative)
  | until_ condition body => until_ (condition.rename x y) (listRename x y body)
  | out none => out none
  | out (some e) => out (some (e.rename x y))
  | block mark body => block mark (listRename x y body)
  | var z none => var z none
  | var z (some e) => var z (some (if z = x then e else e.rename x y))
  | fun_ f parameters body => fun_ f parameters body

/-- Declarations of one block, up to one that declares the name anew. -/
def listRename (x y : String) : List Decl → List Decl
  | [] => []
  | d :: ds => d.rename x y :: if x ∈ d.declared then ds else listRename x y ds

end

/-! ### Variables -/

mutual

/-- Somewhere in a declaration a variable of a block, or a parameter, is renamed. The parameters of a function have
different names, so none behind it has its name. -/
inductive Renames (x y : String) : Decl → Decl → Prop
  | ifBlock {condition : Expr} {body body' : List Decl} (h : ListRenames x y true body body') :
    Renames x y (.if_ condition body) (.if_ condition body')
  | thenBlock {condition : Expr} {body body' alternative : List Decl} (h : ListRenames x y true body body') :
    Renames x y (.ifElse condition body alternative) (.ifElse condition body' alternative)
  | elseBlock {condition : Expr} {body alternative alternative' : List Decl}
    (h : ListRenames x y true alternative alternative') :
    Renames x y (.ifElse condition body alternative) (.ifElse condition body alternative')
  | loopBlock {condition : Expr} {body body' : List Decl} (h : ListRenames x y true body body') :
    Renames x y (.until_ condition body) (.until_ condition body')
  | block {mark : BlockMark} {body body' : List Decl} (h : ListRenames x y true body body') :
    Renames x y (.block mark body) (.block mark body')
  | functionBlock {f : String} {parameters : List String} {body body' : List Decl} (h : ListRenames x y true body body') :
    Renames x y (.fun_ f parameters body) (.fun_ f parameters body')
  | parameter {f : String} {before after : List String} {body : List Decl} (hlast : x ∉ after) :
    Renames x y (.fun_ f (before ++ x :: after) body) (.fun_ f (before ++ y :: after) (listRename x y body))

/-- In declarations one of their variables is renamed, if these are local, or something inside one of them. -/
inductive ListRenames (x y : String) : Bool → List Decl → List Decl → Prop
  | variable {initial : Option Expr} {ds : List Decl} :
    ListRenames x y true (.var x initial :: ds) (.var y (initial.map (Expr.rename x y)) :: listRename x y ds)
  | inside {isLocal : Bool} {d d' : Decl} {ds : List Decl} (h : Renames x y d d') :
    ListRenames x y isLocal (d :: ds) (d' :: ds)
  | later {isLocal : Bool} {d : Decl} {ds ds' : List Decl} (h : ListRenames x y isLocal ds ds') :
    ListRenames x y isLocal (d :: ds) (d :: ds')

end

end Decl

/-! ### Renaming nothing -/

@[simp] theorem renameUse_self (y z : String) : renameUse y y z = z := by
  unfold renameUse
  split
  · exact Eq.symm ‹z = y›
  · rfl

namespace Expr

mutual

@[simp] theorem rename_self (y : String) (e : Expr) : e.rename y y = e := by
  cases e with
  | literal l => rfl
  | name z => rw [rename, renameUse_self]
  | group e => rw [rename, rename_self y e]
  | assign z value => rw [rename, renameUse_self, rename_self y value]
  | unary op e => rw [rename, rename_self y e]
  | binary op left right => rw [rename, rename_self y left, rename_self y right]
  | and left right => rw [rename, rename_self y left, rename_self y right]
  | or left right => rw [rename, rename_self y left, rename_self y right]
  | call callee arguments => rw [rename, rename_self y callee, allRename_self y arguments]

@[simp] theorem allRename_self (y : String) (es : List Expr) : allRename y y es = es := by
  cases es with
  | nil => rfl
  | cons e es => rw [allRename, rename_self y e, allRename_self y es]

end

end Expr

namespace Decl

mutual

@[simp] theorem rename_self (y : String) (d : Decl) : d.rename y y = d := by
  cases d with
  | expression e => rw [rename, e.rename_self]
  | print e es => rw [rename, e.rename_self, Expr.allRename_self]
  | read form z => rw [rename, renameUse_self]
  | if_ condition body => rw [rename, condition.rename_self, listRename_self y body]
  | ifElse condition body alternative =>
    rw [rename, condition.rename_self, listRename_self y body, listRename_self y alternative]
  | until_ condition body => rw [rename, condition.rename_self, listRename_self y body]
  | out value =>
    cases value with
    | none => rfl
    | some e => rw [rename, e.rename_self]
  | block mark body => rw [rename, listRename_self y body]
  | var z initial =>
    cases initial with
    | none => rfl
    | some e => rw [rename, e.rename_self, ite_self]
  | fun_ f parameters body => rfl

@[simp] theorem listRename_self (y : String) (ds : List Decl) : listRename y y ds = ds := by
  cases ds with
  | nil => rfl
  | cons d ds => rw [listRename, rename_self y d, listRename_self y ds, ite_self]

end

@[simp] theorem declared_rename (x y : String) (d : Decl) : (d.rename x y).declared = d.declared := by
  cases d with
  | out value => cases value <;> rfl
  | var z initial => cases initial <;> rfl
  | _ => rfl

theorem after_rename (σ : Scope) (x y : String) (d : Decl) : σ.after (d.rename x y) = σ.after d := by
  rw [Scope.after, Scope.after, declared_rename]

end Decl

/-! ### Scopes

Behind the declaration that is renamed, the one scope has the new name where the other has the old one. -/

/-- What the uses of names other than `y` are bound to stays what it was if those of `x` are renamed to `y`. -/
structure Scope.Renamed (x y : String) (σ σ' : Scope) : Prop where
  isLocal : σ'.isLocal = σ.isLocal
  live : σ'.live = σ.live
  slot : ∀ z ≠ y, slot? (renameUse x y z) σ'.names = slot? z σ.names
  global : ∀ z ≠ y, slot? z σ.names = none → renameUse x y z = z
  inner : ∀ z ≠ y, z ∈ σ'.inner → z ∈ σ.inner

namespace Scope
variable {x y z : String} {σ σ' : Scope}

theorem Renamed.refl (y : String) (σ : Scope) : Renamed y y σ σ :=
  ⟨rfl, rfl, fun z _ => by rw [renameUse_self], fun z _ _ => renameUse_self y z, fun _ _ h => h⟩

theorem Renamed.enter (h : Renamed x y σ σ') : Renamed x y σ.enter σ'.enter :=
  ⟨rfl, h.live, h.slot, h.global, fun _ _ h => h⟩

theorem inner_declare (h : σ.isLocal = true) (x : String) : (σ.declare x).inner = x :: σ.inner := by
  simp [declare, h]

theorem slot?_declare (h : σ.isLocal = true) (x z : String) :
    slot? z (σ.declare x).names = if x = z then some σ.live else slot? z σ.names := by
  rw [names_declare h, slot?]
  rfl

/-- The declaration that is renamed. -/
theorem Renamed.binder (h : σ.isLocal = true) (hy : y ∉ σ.names) (x : String) :
    Renamed x y (σ.declare x) (σ.declare y) where
  isLocal := by simp
  live := by rw [live_declare h, live_declare h]
  slot z hz := by
    rw [slot?_declare h, slot?_declare h, renameUse]
    by_cases hzx : z = x
    · rw [if_pos hzx, if_pos rfl, if_pos hzx.symm]
    · rw [if_neg hzx, if_neg hz.symm, if_neg (Ne.symm hzx)]
  global z hz hslot := by
    rw [slot?_declare h] at hslot
    have hzx : z ≠ x := by
      rintro rfl
      rw [if_pos rfl] at hslot
      cases hslot
    rw [renameUse, if_neg hzx]
  inner z hz hin := by
    rw [inner_declare h] at hin ⊢
    obtain rfl | hin := List.mem_cons.1 hin
    · exact absurd rfl hz
    · exact List.mem_cons_of_mem _ hin

/-- A declaration hides the variable that is renamed if it has its name. -/
theorem renameUse_hidden (x y z : String) : renameUse (if x = z then y else x) y z = z := by
  by_cases hx : x = z
  · rw [if_pos hx, renameUse_self]
  · rw [if_neg hx, renameUse, if_neg (Ne.symm hx)]

/-- Names other than that of a declaration are not hidden by it, and do not become its name. -/
theorem renameUse_other {w : String} (hz : z ≠ y) (hw : w ≠ z) :
    renameUse (if x = z then y else x) y w = renameUse x y w ∧ renameUse x y w ≠ z := by
  by_cases hx : x = z
  · have hwx : w ≠ x := fun h => hw (h.trans hx)
    rw [if_pos hx, renameUse_self, renameUse, if_neg hwx]
    exact ⟨rfl, hw⟩
  · rw [if_neg hx, renameUse]
    split
    · exact ⟨rfl, hz.symm⟩
    · exact ⟨rfl, hw⟩

/-- Behind another declaration. -/
theorem Renamed.declare (h : Renamed x y σ σ') (hlocal : x ≠ y → σ.isLocal = true) (hz : z ≠ y) :
    Renamed (if x = z then y else x) y (σ.declare z) (σ'.declare z) := by
  cases hσ : σ.isLocal with
  | false =>
    obtain rfl : x = y := by
      by_contra hne
      rw [hlocal hne] at hσ
      cases hσ
    rw [ite_self, declare_of_global hσ, declare_of_global (h.isLocal.trans hσ)]
    exact h
  | true =>
    have hσ' : σ'.isLocal = true := h.isLocal.trans hσ
    refine ⟨by simpa using h.isLocal, by rw [live_declare hσ, live_declare hσ', h.live], fun w hw => ?_,
      fun w hw hslot => ?_, fun w hw hin => ?_⟩
    · rw [slot?_declare hσ, slot?_declare hσ', h.live]
      by_cases hwz : w = z
      · rw [hwz, renameUse_hidden, if_pos rfl, if_pos rfl]
      · obtain ⟨huse, hne⟩ := renameUse_other (x := x) hz hwz
        rw [huse, if_neg hne.symm, if_neg (Ne.symm hwz), h.slot w hw]
    · rw [slot?_declare hσ] at hslot
      by_cases hwz : w = z
      · rw [hwz, renameUse_hidden]
      · rw [if_neg (Ne.symm hwz)] at hslot
        rw [(renameUse_other hz hwz).1, h.global w hw hslot]
    · rw [inner_declare hσ'] at hin
      rw [inner_declare hσ]
      obtain rfl | hin := List.mem_cons.1 hin
      · exact List.mem_cons_self
      · exact List.mem_cons_of_mem _ (h.inner w hw hin)

end Scope

/-! ### Names stand for what they did -/

section Fresh
variable {x y z : String} {σ σ' : Scope}

theorem isRespelled_renameUse (hy : (⟨.ident, y⟩ : Word).IsWritten) (x z : String) :
    IsRespelled z (renameUse x y z) := by
  unfold renameUse
  split
  · exact .inr hy
  · exact .inl rfl

theorem Scope.Renamed.sameHome (h : Scope.Renamed x y σ σ') (hy : (⟨.ident, y⟩ : Word).IsWritten) (hz : z ≠ y) :
    SameHome σ.names σ'.names z (renameUse x y z) :=
  ⟨(h.slot z hz).symm, h.global z hz, isRespelled_renameUse hy x z⟩

theorem Scope.Renamed.sameDeclared (h : Scope.Renamed x y σ σ') (hz : z ≠ y) : SameDeclared σ σ' z z :=
  ⟨fun _ => rfl, h.inner z hz, .inl rfl⟩

/-- Behind a declaration. -/
theorem Scope.Renamed.after (h : Scope.Renamed x y σ σ') (hlocal : x ≠ y → σ.isLocal = true) (d : Decl)
    (hw : ⟨.ident, y⟩ ∉ d.words) : Scope.Renamed (if x ∈ d.declared then y else x) y (σ.after d) (σ'.after d) := by
  cases d with
  | var z initial =>
    have hz : z ≠ y := by
      rintro rfl
      cases initial <;> simp [Decl.words] at hw
    simpa [Decl.declared, Scope.after] using h.declare hlocal hz
  | fun_ z parameters body =>
    have hz : z ≠ y := by
      rintro rfl
      simp [Decl.words] at hw
    simpa [Decl.declared, Scope.after] using h.declare hlocal hz
  | _ => simpa [Decl.declared, Scope.after] using h

namespace Expr

mutual

theorem alpha_rename (hy : (⟨.ident, y⟩ : Word).IsWritten) (h : Scope.Renamed x y σ σ') (e : Expr)
    (hw : ⟨.ident, y⟩ ∉ e.words) : e.Alpha σ.names σ'.names (e.rename x y) := by
  cases e with
  | literal l => exact .literal l
  | name z => exact .name (h.sameHome hy (by rintro rfl; simp [words] at hw))
  | group e => exact .group (alpha_rename hy h e (by simp_all [words]))
  | assign z value =>
    simp only [words, List.mem_cons, not_or] at hw
    exact .assign (h.sameHome hy fun hz => hw.1 (hz ▸ rfl)) (alpha_rename hy h value hw.2.2)
  | unary op e => exact .unary op (alpha_rename hy h e (by simp_all [words]))
  | binary op left right =>
    exact .binary op (alpha_rename hy h left (by simp_all [words])) (alpha_rename hy h right (by simp_all [words]))
  | and left right =>
    exact .and (alpha_rename hy h left (by simp_all [words])) (alpha_rename hy h right (by simp_all [words]))
  | or left right =>
    exact .or (alpha_rename hy h left (by simp_all [words])) (alpha_rename hy h right (by simp_all [words]))
  | call callee arguments =>
    exact .call (alpha_rename hy h callee (by simp_all [words])) (allAlpha_rename hy h arguments (by simp_all [words]))

theorem allAlpha_rename (hy : (⟨.ident, y⟩ : Word).IsWritten) (h : Scope.Renamed x y σ σ') (es : List Expr)
    (hw : ⟨.ident, y⟩ ∉ argumentWords es) : AllAlpha σ.names σ'.names es (allRename x y es) := by
  cases es with
  | nil => exact .nil
  | cons e es =>
    exact .cons (alpha_rename hy h e (by simp_all [argumentWords]))
      (allAlpha_rename hy h es (by simp_all [argumentWords]))

end

theorem itemsAlpha_rename (hy : (⟨.ident, y⟩ : Word).IsWritten) (h : Scope.Renamed x y σ σ') (es : List Expr)
    (hw : ⟨.ident, y⟩ ∉ itemWords es) : AllAlpha σ.names σ'.names es (allRename x y es) := by
  induction es with
  | nil => exact .nil
  | cons e es ih => exact .cons (alpha_rename hy h e (by simp_all [itemWords])) (ih (by simp_all [itemWords]))

end Expr

theorem parametersAlpha_refl (σ : Scope) (xs : List String) : ParametersAlpha σ σ xs xs := by
  induction xs generalizing σ with
  | nil => exact .nil
  | cons x xs ih => exact .cons ⟨fun _ => rfl, id, .inl rfl⟩ (ih _)

namespace Decl

mutual

theorem alpha_rename (hy : (⟨.ident, y⟩ : Word).IsWritten) {x : String} {σ σ' : Scope} (h : Scope.Renamed x y σ σ')
    (hlocal : x ≠ y → σ.isLocal = true) (d : Decl) (hw : ⟨.ident, y⟩ ∉ d.words) : d.Alpha σ σ' (d.rename x y) := by
  cases d with
  | expression e => exact .expression (e.alpha_rename hy h (by simp_all [words]))
  | print e es =>
    exact .print (e.alpha_rename hy h (by simp_all [words])) (Expr.itemsAlpha_rename hy h es (by simp_all [words]))
  | read form z => exact .read form (h.sameHome hy (by rintro rfl; simp [words] at hw))
  | if_ condition body =>
    exact .if_ (condition.alpha_rename hy h (by simp_all [words]))
      (listAlpha_rename hy h.enter (fun _ => rfl) body (by simp_all [words, BlockMark.enclosed]))
  | ifElse condition body alternative =>
    exact .ifElse (condition.alpha_rename hy h (by simp_all [words]))
      (listAlpha_rename hy h.enter (fun _ => rfl) body (by simp_all [words, BlockMark.enclosed]))
      (listAlpha_rename hy h.enter (fun _ => rfl) alternative (by simp_all [words, BlockMark.enclosed]))
  | until_ condition body =>
    exact .until_ (condition.alpha_rename hy h (by simp_all [words]))
      (listAlpha_rename hy h.enter (fun _ => rfl) body (by simp_all [words, BlockMark.enclosed]))
  | out value =>
    cases value with
    | none => exact .outNothing
    | some e => exact .out (e.alpha_rename hy h (by simp_all [words]))
  | block mark body =>
    exact .block mark (listAlpha_rename hy h.enter (fun _ => rfl) body (by simp_all [words, BlockMark.enclosed]))
  | var z initial =>
    have hz : z ≠ y := by
      rintro rfl
      cases initial <;> simp [words] at hw
    cases initial with
    | none => exact .varNothing (h.sameDeclared hz)
    | some e =>
      have he : (if z = x then e else e.rename x y) = e.rename (if x = z then y else x) y := by
        by_cases hx : z = x
        · rw [if_pos hx, if_pos hx.symm, e.rename_self]
        · rw [if_neg hx, if_neg (Ne.symm hx)]
      rw [rename, he]
      exact .var (h.sameDeclared hz) (e.alpha_rename hy (h.declare hlocal hz) (by simp_all [words]))
  | fun_ z parameters body =>
    have hbody := listAlpha_rename hy (Scope.Renamed.refl y (.function parameters)) (fun _ => rfl) body
      (by simp_all [words, BlockMark.enclosed])
    rw [listRename_self] at hbody
    exact .fun_ (h.sameDeclared (by rintro rfl; simp [words] at hw)) (parametersAlpha_refl _ _) hbody

theorem listAlpha_rename (hy : (⟨.ident, y⟩ : Word).IsWritten) {x : String} {σ σ' : Scope} (h : Scope.Renamed x y σ σ')
    (hlocal : x ≠ y → σ.isLocal = true) (ds : List Decl) (hw : ⟨.ident, y⟩ ∉ listWords ds) :
    ListAlpha σ σ' ds (listRename x y ds) := by
  cases ds with
  | nil => exact .nil
  | cons d ds =>
    have hwords : ⟨.ident, y⟩ ∉ d.words ∧ ⟨.ident, y⟩ ∉ listWords ds := by simpa [listWords] using hw
    have hlocal' : (if x ∈ d.declared then y else x) ≠ y → (σ.after d).isLocal = true := by
      intro hne
      rw [Scope.isLocal_after]
      exact hlocal fun heq => hne (by rw [heq, ite_self])
    have hrest := listAlpha_rename hy (h.after hlocal d hwords.1) hlocal' ds hwords.2
    have hds : listRename (if x ∈ d.declared then y else x) y ds =
      if x ∈ d.declared then ds else listRename x y ds := by
      split
      · exact listRename_self y ds
      · rfl
    rw [hds] at hrest
    refine .cons (alpha_rename hy h hlocal d hwords.1) ?_
    rwa [after_rename]

end

/-- Declarations in which nothing is renamed. -/
theorem alpha_self (hy : (⟨.ident, y⟩ : Word).IsWritten) (σ : Scope) (d : Decl) (hw : ⟨.ident, y⟩ ∉ d.words) :
    d.Alpha σ σ d := by
  have h := alpha_rename hy (.refl y σ) (fun hne => absurd rfl hne) d hw
  rwa [rename_self] at h

theorem listAlpha_self (hy : (⟨.ident, y⟩ : Word).IsWritten) (σ : Scope) (ds : List Decl)
    (hw : ⟨.ident, y⟩ ∉ listWords ds) :
    ListAlpha σ σ ds ds := by
  have h := listAlpha_rename hy (.refl y σ) (fun hne => absurd rfl hne) ds hw
  rwa [listRename_self] at h

end Decl

/-! ### One variable or parameter -/

theorem Scope.not_mem_declare (hσ : y ∉ σ.names) (hz : z ≠ y) : y ∉ (σ.declare z).names := by
  cases h : σ.isLocal with
  | false => rwa [declare_of_global h]
  | true =>
    rw [names_declare h, List.mem_cons, not_or]
    exact ⟨hz.symm, hσ⟩

theorem Scope.not_mem_after (hσ : y ∉ σ.names) (d : Decl) (hw : ⟨.ident, y⟩ ∉ d.words) : y ∉ (σ.after d).names := by
  cases d with
  | var z initial =>
    refine not_mem_declare hσ ?_
    rintro rfl
    cases initial <;> simp [Decl.words] at hw
  | fun_ z parameters body =>
    refine not_mem_declare hσ ?_
    rintro rfl
    simp [Decl.words] at hw
  | _ => exact hσ

theorem ident_mem_nameWords (xs : List String) : ⟨.ident, y⟩ ∈ nameWords xs ↔ y ∈ xs := by
  have hcomma (xs : List String) : ⟨.ident, y⟩ ∉ commaBefore xs := by cases xs <;> simp [commaBefore, TokenKind.mark]
  induction xs with
  | nil => simp [nameWords]
  | cons x xs ih => simp [nameWords, hcomma, ih]

theorem ne_empty_of_isWritten (hy : (⟨.ident, y⟩ : Word).IsWritten) : y ≠ "" := by
  rintro rfl
  revert hy
  decide

theorem Scope.not_mem_function (hy : (⟨.ident, y⟩ : Word).IsWritten) {xs : List String} (hw : y ∉ xs) :
    y ∉ (function xs).names := by
  simp [function, names, ne_empty_of_isWritten hy, hw]

theorem Scope.Renamed.parameters (h : Scope.Renamed x y σ σ') (hσ : σ.isLocal = true) {zs : List String} (hx : x ∉ zs)
    (hw : y ∉ zs) : ParametersAlpha σ σ' zs zs ∧
      Scope.Renamed x y (zs.foldl Scope.declare σ) (zs.foldl Scope.declare σ') := by
  induction zs generalizing σ σ' with
  | nil => exact ⟨.nil, h⟩
  | cons z zs ih =>
    simp only [List.mem_cons, not_or] at hw hx
    have hdeclare := h.declare (fun _ => hσ) (Ne.symm hw.1)
    rw [if_neg hx.1] at hdeclare
    obtain ⟨halpha, hrenamed⟩ := ih hdeclare (by simpa using hσ) hx.2 hw.2
    exact ⟨.cons (h.sameDeclared (Ne.symm hw.1)) halpha, hrenamed⟩

theorem ParametersAlpha.append_left {ys ys' : List String} (xs : List String)
    (h : ParametersAlpha (xs.foldl Scope.declare σ) (xs.foldl Scope.declare σ) ys ys') :
    ParametersAlpha σ σ (xs ++ ys) (xs ++ ys') := by
  induction xs generalizing σ with
  | nil => exact h
  | cons x xs ih => exact .cons ⟨fun _ => rfl, id, .inl rfl⟩ (ih h)

/-- A parameter can have any name that is not found in the program. -/
theorem alpha_parameter (hy : (⟨.ident, y⟩ : Word).IsWritten) {before after : List String} (hx : x ∉ after)
    (hw : y ∉ before ++ x :: after) :
    ParametersAlpha (.function []) (.function []) (before ++ x :: after) (before ++ y :: after) ∧
      Scope.Renamed x y (.function (before ++ x :: after)) (.function (before ++ y :: after)) := by
  simp only [List.mem_append, List.mem_cons, not_or] at hw
  have hbinder : Scope.Renamed x y ((Scope.function before).declare x) ((Scope.function before).declare y) :=
    .binder rfl (Scope.not_mem_function hy hw.1) x
  obtain ⟨halpha, hrenamed⟩ := hbinder.parameters rfl hx hw.2.2
  constructor
  · refine .append_left before ?_
    rw [Scope.foldl_declare_function, List.nil_append]
    refine .cons ⟨fun h => Bool.noConfusion h, fun h => ?_, .inr hy⟩ halpha
    exact absurd (List.mem_reverse.1 h) hw.1
  · simpa only [Scope.function_declare, Scope.foldl_declare_function, List.append_assoc,
      List.singleton_append] using hrenamed

namespace Decl

mutual

theorem alpha_of_renames (hy : (⟨.ident, y⟩ : Word).IsWritten) {σ : Scope} (hσ : y ∉ σ.names) {d' : Decl} (d : Decl)
    (h : Renames x y d d') (hw : ⟨.ident, y⟩ ∉ d.words) : d.Alpha σ σ d' := by
  have hself (e : Expr) (hw : ⟨.ident, y⟩ ∉ e.words) : e.Alpha σ.names σ.names e := by
    simpa using e.alpha_rename hy (Scope.Renamed.refl y σ) hw
  cases h with
  | ifBlock h =>
    exact .if_ (hself _ (by simp_all [words]))
      (listAlpha_of_renames hy (σ := σ.enter) hσ (fun _ => rfl) _ h (by simp_all [words, BlockMark.enclosed]))
  | thenBlock h =>
    exact .ifElse (hself _ (by simp_all [words]))
      (listAlpha_of_renames hy (σ := σ.enter) hσ (fun _ => rfl) _ h (by simp_all [words, BlockMark.enclosed]))
      (listAlpha_self hy _ _ (by simp_all [words, BlockMark.enclosed]))
  | elseBlock h =>
    exact .ifElse (hself _ (by simp_all [words])) (listAlpha_self hy _ _ (by simp_all [words, BlockMark.enclosed]))
      (listAlpha_of_renames hy (σ := σ.enter) hσ (fun _ => rfl) _ h (by simp_all [words, BlockMark.enclosed]))
  | loopBlock h =>
    exact .until_ (hself _ (by simp_all [words]))
      (listAlpha_of_renames hy (σ := σ.enter) hσ (fun _ => rfl) _ h (by simp_all [words, BlockMark.enclosed]))
  | block h =>
    exact .block _ (listAlpha_of_renames hy (σ := σ.enter) hσ (fun _ => rfl) _ h
      (by simp_all [words, BlockMark.enclosed]))
  | @functionBlock f parameters body body' h =>
    have hparameters : y ∉ parameters := by
      rw [← ident_mem_nameWords]
      simp_all [words]
    exact .fun_ ⟨fun _ => rfl, id, .inl rfl⟩ (parametersAlpha_refl _ _)
      (listAlpha_of_renames hy (Scope.not_mem_function hy hparameters) (fun _ => rfl) _ h
        (by simp_all [words, BlockMark.enclosed]))
  | @parameter f before after body hlast =>
    have hparameters : y ∉ before ++ x :: after := by
      rw [← ident_mem_nameWords]
      simp only [words, List.mem_cons, List.mem_append, not_or] at hw
      exact hw.1.2.2.2
    obtain ⟨halpha, hrenamed⟩ := alpha_parameter hy hlast hparameters
    exact .fun_ ⟨fun _ => rfl, id, .inl rfl⟩ halpha
      (listAlpha_rename hy hrenamed (fun _ => rfl) body (by simp_all [words, BlockMark.enclosed]))

/-- Where one local variable is renamed to a name that is not found in the program, all names stand for what they did. -/
theorem listAlpha_of_renames (hy : (⟨.ident, y⟩ : Word).IsWritten) {σ : Scope} (hσ : y ∉ σ.names) {l : Bool}
    (hl : l = true → σ.isLocal = true) {ds' : List Decl} (ds : List Decl) (h : ListRenames x y l ds ds')
    (hw : ⟨.ident, y⟩ ∉ listWords ds) : ListAlpha σ σ ds ds' := by
  cases h with
  | @«variable» initial ds =>
    have hlocal := hl rfl
    have hbinder := Scope.Renamed.binder hlocal hσ x
    have hnew : SameDeclared σ σ x y :=
      ⟨fun hg => absurd (hg.symm.trans hlocal) Bool.false_ne_true, fun hin => absurd (List.mem_append_left _ hin)
        hσ, .inr hy⟩
    refine .cons ?_ (listAlpha_rename hy hbinder (fun _ => by simpa using hlocal) ds (by simp_all [listWords]))
    cases initial with
    | none => exact .varNothing hnew
    | some e => exact .var hnew (e.alpha_rename hy hbinder (by simp_all [listWords, words]))
  | @inside _ d d' ds h =>
    have hwords : ⟨.ident, y⟩ ∉ d.words ∧ ⟨.ident, y⟩ ∉ listWords ds := by simpa [listWords] using hw
    have hafter : σ.after d' = σ.after d := by cases h <;> rfl
    refine .cons (alpha_of_renames hy hσ _ h hwords.1) ?_
    rw [hafter]
    exact listAlpha_self hy _ _ hwords.2
  | @later _ d ds ds' h =>
    have hwords : ⟨.ident, y⟩ ∉ d.words ∧ ⟨.ident, y⟩ ∉ listWords ds := by simpa [listWords] using hw
    exact .cons (alpha_self hy σ d hwords.1)
      (listAlpha_of_renames hy (Scope.not_mem_after hσ d hwords.1) (fun h => by simpa using hl h) _ h hwords.2)

end

end Decl

end Fresh
end StackScript
