import StackScript.Proofs.Code.Program
import StackScript.Proofs.Syntax.Parentheses

/-! Parentheses leave nothing in the code: a tree without them has the same code. -/
namespace StackScript

namespace Expr

mutual

theorem size_bare (e : Expr) : e.bare.size = e.size := by
  cases e with
  | literal l => rfl
  | name x => rfl
  | group e => exact size_bare e
  | assign x value => simp [bare, size, size_bare value]
  | unary op e => simp [bare, size, size_bare e]
  | binary op left right => simp [bare, size, size_bare left, size_bare right]
  | and left right => simp [bare, size, size_bare left, size_bare right]
  | or left right => simp [bare, size, size_bare left, size_bare right]
  | call callee arguments => simp [bare, size, size_bare callee, allSize_allBare arguments]

theorem allSize_allBare (es : List Expr) : allSize (allBare es) = allSize es := by
  cases es with
  | nil => rfl
  | cons e es => simp [allBare, allSize, size_bare e, allSize_allBare es]

end

theorem allBare_eq_map (es : List Expr) : allBare es = es.map bare := by
  induction es with
  | nil => rfl
  | cons e es ih => rw [allBare, ih, List.map_cons]

theorem allSize_map_bare (es : List Expr) : allSize (es.map bare) = allSize es := by
  rw [← allBare_eq_map, allSize_allBare]

theorem length_allBare (es : List Expr) : (allBare es).length = es.length := by
  rw [allBare_eq_map, List.length_map]

section
variable {κ : Pool} {names : List String}

mutual

theorem code_bare (e : Expr) (is : List Instr) : e.bare.Code κ names is ↔ e.Code κ names is := by
  cases e with
  | literal l => rfl
  | name x => rfl
  | group e => exact code_bare e is
  | assign x value => simp only [bare, Code, code_bare value]
  | unary op e => simp only [bare, Code, code_bare e]
  | binary op left right => simp only [bare, Code, code_bare left, code_bare right]
  | and left right => simp only [bare, Code, code_bare left, code_bare right, size_bare right]
  | or left right => simp only [bare, Code, code_bare left, code_bare right, size_bare right]
  | call callee arguments =>
    simp only [bare, Code, code_bare callee, allCode_bare arguments, length_allBare]

theorem allCode_bare (es : List Expr) (is : List Instr) : AllCode κ names (allBare es) is ↔ AllCode κ names es is := by
  cases es with
  | nil => rfl
  | cons e es => simp only [allBare, AllCode, code_bare e, allCode_bare es]

end

theorem itemsCode_bare (es : List Expr) (is : List Instr) :
    ItemsCode κ names (es.map bare) is ↔ ItemsCode κ names es is := by
  induction es generalizing is with
  | nil => rfl
  | cons e es ih => simp only [List.map_cons, ItemsCode, code_bare e, ih]

end

end Expr

namespace Decl
variable {f : Expr → Expr}

@[simp] theorem declared_respell (d : Decl) : (d.respell f).declared = d.declared := by cases d <;> rfl

@[simp] theorem listDeclared_respell (ds : List Decl) : listDeclared (listRespell f ds) = listDeclared ds := by
  induction ds with
  | nil => rfl
  | cons d ds ih => rw [listRespell, listDeclared_cons, listDeclared_cons, ih, declared_respell]

@[simp] theorem after_respell (σ : Scope) (d : Decl) : σ.after (d.respell f) = σ.after d := by
  rw [Scope.after, Scope.after, declared_respell]

mutual

theorem functionCount_respell (d : Decl) : (d.respell f).functionCount = d.functionCount := by
  cases d with
  | if_ condition body => exact listFunctionCount_respell body
  | ifElse condition body alternative =>
    simp [respell, functionCount, listFunctionCount_respell body, listFunctionCount_respell alternative]
  | until_ condition body => exact listFunctionCount_respell body
  | block mark body => exact listFunctionCount_respell body
  | fun_ x parameters body => simp [respell, functionCount, listFunctionCount_respell body]
  | _ => rfl

theorem listFunctionCount_respell (ds : List Decl) :
    listFunctionCount (listRespell f ds) = listFunctionCount ds := by
  cases ds with
  | nil => rfl
  | cons d ds => simp [listRespell, listFunctionCount, functionCount_respell d, listFunctionCount_respell ds]

end

mutual

theorem size_respell (isLocal : Bool) (d : Decl) : (d.respell Expr.bare).size isLocal = d.size isLocal := by
  cases d with
  | expression e => simp [respell, size, e.size_bare]
  | print e es => simp [respell, size, e.size_bare, Expr.allSize_map_bare]
  | read form x => rfl
  | if_ condition body => simp [respell, size, condition.size_bare, listSize_respell true body]
  | ifElse condition body alternative =>
    simp [respell, size, condition.size_bare, listSize_respell true body, listSize_respell true alternative]
  | until_ condition body => simp [respell, size, condition.size_bare, listSize_respell true body]
  | out value => cases value <;> simp [respell, size, Expr.size_bare]
  | block mark body => simp [respell, size, listSize_respell true body]
  | var x initial => cases initial <;> simp [respell, size, Expr.size_bare]
  | fun_ x parameters body => rfl

theorem listSize_respell (isLocal : Bool) (ds : List Decl) :
    listSize isLocal (listRespell Expr.bare ds) = listSize isLocal ds := by
  cases ds with
  | nil => rfl
  | cons d ds => simp [listRespell, listSize, size_respell isLocal d, listSize_respell isLocal ds]

end

theorem blockSize_respell (ds : List Decl) : blockSize (listRespell Expr.bare ds) = blockSize ds := by
  rw [blockSize, listSize_respell, listDeclared_respell, blockSize]

mutual

theorem code_respell (κ : Pool) (σ : Scope) (first : Nat) (d : Decl) (is : List Instr) :
    (d.respell Expr.bare).Code κ σ first is ↔ d.Code κ σ first is := by
  cases d with
  | expression e => simp only [respell, Code, e.code_bare]
  | print e es => simp only [respell, Code, e.code_bare, Expr.itemsCode_bare]
  | read form x => rfl
  | if_ condition body =>
    simp only [respell, Code, condition.code_bare, listCode_respell _ _ _ body, blockSize_respell,
      listDeclared_respell]
  | ifElse condition body alternative =>
    simp only [respell, Code, condition.code_bare, listCode_respell _ _ _ body, blockSize_respell,
      listCode_respell _ _ _ alternative, listFunctionCount_respell, listDeclared_respell]
  | until_ condition body =>
    simp only [respell, Code, condition.code_bare, listCode_respell _ _ _ body, blockSize_respell,
      condition.size_bare, listDeclared_respell]
  | out value =>
    cases value with
    | none => rfl
    | some e => simp only [respell, Option.map_some, Code, e.code_bare]
  | block mark body => simp only [respell, Code, listCode_respell _ _ _ body, listDeclared_respell]
  | var x initial =>
    cases initial with
    | none => rfl
    | some e => simp only [respell, Option.map_some, Code, e.code_bare]
  | fun_ x parameters body =>
    simp only [respell, Code, listCode_respell _ _ _ body, listFunctionCount_respell]

theorem listCode_respell (κ : Pool) (σ : Scope) (first : Nat) (ds : List Decl) (is : List Instr) :
    ListCode κ σ first (listRespell Expr.bare ds) is ↔ ListCode κ σ first ds is := by
  cases ds with
  | nil => rfl
  | cons d ds =>
    simp only [listRespell, ListCode, code_respell _ _ _ d, listCode_respell _ _ _ ds, after_respell,
      functionCount_respell]

end

end Decl

/-- The functions of a program are those of its trees without parentheses. -/
theorem Store.gains_listBare {s t : Store} {ds : List Decl} {r : FunctionRef} (h : s.Gains ds r t) :
    s.Gains (Decl.listBare ds) r t := by
  obtain ⟨f, hf, ⟨ib, hc, hb⟩, hs⟩ := h.compiled
  have hcount : Decl.listFunctionCount (Decl.listBare ds) = Decl.listFunctionCount ds := by
    rw [Decl.listBare, Decl.listFunctionCount_respell]
  exact ⟨h.grown, hcount ▸ h.ref, hcount ▸ h.size, f, hf, ⟨ib, hc, (Decl.listCode_respell _ _ _ ds ib).2 hb⟩, hs⟩

end StackScript
