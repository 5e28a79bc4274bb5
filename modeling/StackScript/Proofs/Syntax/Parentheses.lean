import StackScript.Proofs.Syntax.Grammar

/-! Parentheses: which of them the levels of the operators ask for, and trees that differ in nothing else. -/
namespace StackScript
open Compiler

theorem Binary.levels_le_primary (op : Binary) : op.level ≤ .primary ∧ op.level.next ≤ .primary := by
  cases op <;> decide

namespace Expr

mutual

/-- The tree without its parentheses. -/
def bare : Expr → Expr
  | literal l => literal l
  | name x => name x
  | group e => e.bare
  | assign x value => assign x value.bare
  | unary op e => unary op e.bare
  | binary op left right => binary op left.bare right.bare
  | and left right => and left.bare right.bare
  | or left right => or left.bare right.bare
  | call callee arguments => call callee.bare (allBare arguments)

def allBare : List Expr → List Expr
  | [] => []
  | e :: es => e.bare :: allBare es

end

/-- A tree in a place that asks for a level, in parentheses if it does not hold together tightly enough. -/
def at_ (e : Expr) (level : Level) : Expr := if level ≤ e.level then e else group e

mutual

/-- The tree with only the parentheses that are required. -/
def minimal : Expr → Expr
  | literal l => literal l
  | name x => name x
  | group e => e.minimal
  | assign x value => assign x value.minimal
  | unary op e => unary op (e.minimal.at_ .unary)
  | binary op left right => binary op (left.minimal.at_ op.level) (right.minimal.at_ op.level.next)
  | and left right => and (left.minimal.at_ Level.and.next) (right.minimal.at_ .and)
  | or left right => or (left.minimal.at_ Level.or.next) (right.minimal.at_ .or)
  | call callee arguments => call (callee.minimal.at_ .call) (allMinimal arguments)

def allMinimal : List Expr → List Expr
  | [] => []
  | e :: es => e.minimal :: allMinimal es

end

mutual

/-- The tree with parentheses around every operand. -/
def full : Expr → Expr
  | literal l => literal l
  | name x => name x
  | group e => e.full
  | assign x value => assign x (group value.full)
  | unary op e => unary op (group e.full)
  | binary op left right => binary op (group left.full) (group right.full)
  | and left right => and (group left.full) (group right.full)
  | or left right => or (group left.full) (group right.full)
  | call callee arguments => call (group callee.full) (allFull arguments)

def allFull : List Expr → List Expr
  | [] => []
  | e :: es => group e.full :: allFull es

end

@[simp] theorem bare_at (e : Expr) (level : Level) : (e.at_ level).bare = e.bare := by
  unfold at_
  split <;> rfl

theorem level_le_at {level : Level} (h : level ≤ .primary) (e : Expr) : level ≤ (e.at_ level).level := by
  unfold at_
  split
  · assumption
  · exact h

theorem wellFormed_at {e : Expr} (h : e.WellFormed) (level : Level) : (e.at_ level).WellFormed := by
  unfold at_
  split <;> exact h

/-! ### The required parentheses are enough -/

mutual

theorem bare_minimal (e : Expr) : e.minimal.bare = e.bare := by
  cases e with
  | literal l => rfl
  | name x => rfl
  | group e => simp [minimal, bare, bare_minimal e]
  | assign x value => simp [minimal, bare, bare_minimal value]
  | unary op e => simp [minimal, bare, bare_minimal e]
  | binary op left right => simp [minimal, bare, bare_minimal left, bare_minimal right]
  | and left right => simp [minimal, bare, bare_minimal left, bare_minimal right]
  | or left right => simp [minimal, bare, bare_minimal left, bare_minimal right]
  | call callee arguments => simp [minimal, bare, bare_minimal callee, allBare_allMinimal arguments]

theorem allBare_allMinimal (es : List Expr) : allBare (allMinimal es) = allBare es := by
  cases es with
  | nil => rfl
  | cons e es => simp [allMinimal, allBare, bare_minimal e, allBare_allMinimal es]

end

mutual

theorem wellFormed_minimal (e : Expr) : e.minimal.WellFormed := by
  cases e with
  | literal l => trivial
  | name x => trivial
  | group e => exact wellFormed_minimal e
  | assign x value => exact wellFormed_minimal value
  | unary op e => exact ⟨level_le_at (by decide) _, wellFormed_at (wellFormed_minimal e) _⟩
  | binary op left right =>
    obtain ⟨hl, hr⟩ := op.levels_le_primary
    exact ⟨⟨level_le_at hl _, level_le_at hr _⟩, wellFormed_at (wellFormed_minimal left) _,
      wellFormed_at (wellFormed_minimal right) _⟩
  | and left right =>
    exact ⟨⟨level_le_at (by decide) _, level_le_at (by decide) _⟩, wellFormed_at (wellFormed_minimal left) _,
      wellFormed_at (wellFormed_minimal right) _⟩
  | or left right =>
    exact ⟨⟨level_le_at (by decide) _, level_le_at (by decide) _⟩, wellFormed_at (wellFormed_minimal left) _,
      wellFormed_at (wellFormed_minimal right) _⟩
  | call callee arguments =>
    exact ⟨level_le_at (by decide) _, wellFormed_at (wellFormed_minimal callee) _,
      allWellFormed_allMinimal arguments⟩

theorem allWellFormed_allMinimal (es : List Expr) : AllWellFormed (allMinimal es) := by
  cases es with
  | nil => trivial
  | cons e es => exact ⟨wellFormed_minimal e, allWellFormed_allMinimal es⟩

end

/-! ### No fewer parentheses will do -/

mutual

theorem minimal_bare (e : Expr) : e.bare.minimal = e.minimal := by
  cases e with
  | literal l => rfl
  | name x => rfl
  | group e => simp [minimal, bare, minimal_bare e]
  | assign x value => simp [minimal, bare, minimal_bare value]
  | unary op e => simp [minimal, bare, minimal_bare e]
  | binary op left right => simp [minimal, bare, minimal_bare left, minimal_bare right]
  | and left right => simp [minimal, bare, minimal_bare left, minimal_bare right]
  | or left right => simp [minimal, bare, minimal_bare left, minimal_bare right]
  | call callee arguments => simp [minimal, bare, minimal_bare callee, allMinimal_allBare arguments]

theorem allMinimal_allBare (es : List Expr) : allMinimal (allBare es) = allMinimal es := by
  cases es with
  | nil => rfl
  | cons e es => simp [allMinimal, allBare, minimal_bare e, allMinimal_allBare es]

end

/-- A tree that is not in parentheses holds together as tightly without the parentheses in it that are
not required. -/
theorem level_minimal {e : Expr} (h : ∀ inner, e ≠ group inner) : e.minimal.level = e.level := by
  cases e with
  | group e => exact absurd rfl (h e)
  | _ => rfl

mutual

theorem length_minimal_le (e : Expr) (h : e.WellFormed) : e.minimal.words.length ≤ e.words.length := by
  cases e with
  | literal l => exact Nat.le_refl _
  | name x => exact Nat.le_refl _
  | group e =>
    have he := length_minimal_le e h
    simp only [minimal, words, List.length_cons, List.length_append]
    omega
  | assign x value =>
    have hv := length_minimal_le value h
    simp only [minimal, words, List.length_cons]
    omega
  | unary op e =>
    have he := length_at_le e h.2 h.1
    simp only [minimal, words, List.length_cons]
    omega
  | binary op left right =>
    have hl := length_at_le left h.2.1 h.1.1
    have hr := length_at_le right h.2.2 h.1.2
    simp only [minimal, words, List.length_cons, List.length_append]
    omega
  | and left right =>
    have hl := length_at_le left h.2.1 h.1.1
    have hr := length_at_le right h.2.2 h.1.2
    simp only [minimal, words, List.length_cons, List.length_append]
    omega
  | or left right =>
    have hl := length_at_le left h.2.1 h.1.1
    have hr := length_at_le right h.2.2 h.1.2
    simp only [minimal, words, List.length_cons, List.length_append]
    omega
  | call callee arguments =>
    have hc := length_at_le callee h.2.1 h.1
    have ha := length_argumentWords_le arguments h.2.2
    simp only [minimal, words, List.length_cons, List.length_append]
    omega

/-- A tree that a place takes as it is has no more words than the least one there. -/
theorem length_at_le (e : Expr) (h : e.WellFormed) {level : Level} (hl : level ≤ e.level) :
    (e.minimal.at_ level).words.length ≤ e.words.length := by
  have he := length_minimal_le e h
  cases e with
  | group e =>
    have he := length_minimal_le e h
    unfold at_
    split <;> simp only [minimal, words, List.length_cons, List.length_append] <;> omega
  | _ =>
    rw [at_, if_pos (by rwa [level_minimal (by simp)])]
    exact he

theorem length_argumentWords_le (es : List Expr) (h : AllWellFormed es) :
    (argumentWords (allMinimal es)).length ≤ (argumentWords es).length := by
  cases es with
  | nil => exact Nat.le_refl _
  | cons e es =>
    have he := length_minimal_le e h.1
    have hs := length_argumentWords_le es h.2
    have hc : commaBefore (allMinimal es) = commaBefore es := by cases es <;> rfl
    simp only [allMinimal, argumentWords, List.length_append, hc]
    omega

end

/-- Nothing that is written with fewer words is the same tree. -/
theorem minimal_le {e e' : Expr} (hw : e'.WellFormed) (h : e'.bare = e.bare) :
    e.minimal.words.length ≤ e'.words.length := by
  rw [← minimal_bare e, ← h, minimal_bare]
  exact length_minimal_le e' hw

/-! ### All parentheses -/

mutual

theorem bare_full (e : Expr) : e.full.bare = e.bare := by
  cases e with
  | literal l => rfl
  | name x => rfl
  | group e => simp [full, bare, bare_full e]
  | assign x value => simp [full, bare, bare_full value]
  | unary op e => simp [full, bare, bare_full e]
  | binary op left right => simp [full, bare, bare_full left, bare_full right]
  | and left right => simp [full, bare, bare_full left, bare_full right]
  | or left right => simp [full, bare, bare_full left, bare_full right]
  | call callee arguments => simp [full, bare, bare_full callee, allBare_allFull arguments]

theorem allBare_allFull (es : List Expr) : allBare (allFull es) = allBare es := by
  cases es with
  | nil => rfl
  | cons e es => simp [allFull, allBare, bare, bare_full e, allBare_allFull es]

end

mutual

theorem wellFormed_full (e : Expr) : e.full.WellFormed := by
  cases e with
  | literal l => trivial
  | name x => trivial
  | group e => exact wellFormed_full e
  | assign x value => exact wellFormed_full value
  | unary op e => exact ⟨show Level.unary ≤ Level.primary by decide, wellFormed_full e⟩
  | binary op left right => exact ⟨op.levels_le_primary, wellFormed_full left, wellFormed_full right⟩
  | and left right =>
    exact ⟨show Level.and.next ≤ Level.primary ∧ Level.and ≤ Level.primary by decide, wellFormed_full left,
      wellFormed_full right⟩
  | or left right =>
    exact ⟨show Level.or.next ≤ Level.primary ∧ Level.or ≤ Level.primary by decide, wellFormed_full left,
      wellFormed_full right⟩
  | call callee arguments =>
    exact ⟨show Level.call ≤ Level.primary by decide, wellFormed_full callee, allWellFormed_allFull arguments⟩

theorem allWellFormed_allFull (es : List Expr) : AllWellFormed (allFull es) := by
  cases es with
  | nil => trivial
  | cons e es => exact ⟨wellFormed_full e, allWellFormed_allFull es⟩

end

end Expr

/-! ### Declarations -/

namespace Decl

mutual

/-- The declaration with a tree put in the place of each expression. -/
def respell (f : Expr → Expr) : Decl → Decl
  | expression e => expression (f e)
  | print first rest => print (f first) (rest.map f)
  | read form x => read form x
  | if_ condition body => if_ (f condition) (listRespell f body)
  | ifElse condition body alternative => ifElse (f condition) (listRespell f body) (listRespell f alternative)
  | until_ condition body => until_ (f condition) (listRespell f body)
  | out value => out (value.map f)
  | block mark body => block mark (listRespell f body)
  | var x initial => var x (initial.map f)
  | fun_ x parameters body => fun_ x parameters (listRespell f body)

def listRespell (f : Expr → Expr) : List Decl → List Decl
  | [] => []
  | d :: ds => d.respell f :: listRespell f ds

end

section
variable {f g h : Expr → Expr}

mutual

theorem respell_respell (hfg : ∀ e, g (f e) = h e) (d : Decl) : (d.respell f).respell g = d.respell h := by
  cases d with
  | expression e => simp [respell, hfg]
  | print e es => simp [respell, hfg]
  | read form x => rfl
  | if_ condition body => simp [respell, hfg, listRespell_listRespell hfg body]
  | ifElse condition body alternative =>
    simp [respell, hfg, listRespell_listRespell hfg body, listRespell_listRespell hfg alternative]
  | until_ condition body => simp [respell, hfg, listRespell_listRespell hfg body]
  | out value => cases value <;> simp [respell, hfg]
  | block mark body => simp [respell, listRespell_listRespell hfg body]
  | var x initial => cases initial <;> simp [respell, hfg]
  | fun_ x parameters body => simp [respell, listRespell_listRespell hfg body]

theorem listRespell_listRespell (hfg : ∀ e, g (f e) = h e) (ds : List Decl) :
    listRespell g (listRespell f ds) = listRespell h ds := by
  cases ds with
  | nil => rfl
  | cons d ds => simp [listRespell, respell_respell hfg d, listRespell_listRespell hfg ds]

end

theorem allWellFormed_map (hf : ∀ e, (f e).WellFormed) (es : List Expr) : Expr.AllWellFormed (es.map f) := by
  induction es with
  | nil => trivial
  | cons e es ih => exact ⟨hf e, ih⟩

mutual

theorem wellFormed_respell (hf : ∀ e, (f e).WellFormed) (d : Decl) : (d.respell f).WellFormed := by
  cases d with
  | expression e => exact hf e
  | print e es => exact ⟨hf e, allWellFormed_map hf es⟩
  | read form x => trivial
  | if_ condition body => exact ⟨hf condition, listWellFormed_respell hf body⟩
  | ifElse condition body alternative =>
    exact ⟨hf condition, listWellFormed_respell hf body, listWellFormed_respell hf alternative⟩
  | until_ condition body => exact ⟨hf condition, listWellFormed_respell hf body⟩
  | out value =>
    cases value with
    | none => trivial
    | some e => exact hf e
  | block mark body => exact listWellFormed_respell hf body
  | var x initial =>
    cases initial with
    | none => trivial
    | some e => exact hf e
  | fun_ x parameters body => exact listWellFormed_respell hf body

theorem listWellFormed_respell (hf : ∀ e, (f e).WellFormed) (ds : List Decl) :
    ListWellFormed (listRespell f ds) := by
  cases ds with
  | nil => trivial
  | cons d ds => exact ⟨wellFormed_respell hf d, listWellFormed_respell hf ds⟩

end

end

/-- The declarations without the parentheses in their expressions. -/
def listBare (ds : List Decl) : List Decl := listRespell Expr.bare ds

/-- The declarations with only the parentheses that are required. -/
def listMinimal (ds : List Decl) : List Decl := listRespell Expr.minimal ds

/-- The declarations with parentheses around every operand. -/
def listFull (ds : List Decl) : List Decl := listRespell Expr.full ds

theorem listBare_listMinimal (ds : List Decl) : listBare (listMinimal ds) = listBare ds :=
  listRespell_listRespell Expr.bare_minimal ds

theorem listBare_listFull (ds : List Decl) : listBare (listFull ds) = listBare ds :=
  listRespell_listRespell Expr.bare_full ds

theorem listWellFormed_listMinimal (ds : List Decl) : ListWellFormed (listMinimal ds) :=
  listWellFormed_respell Expr.wellFormed_minimal ds

theorem listWellFormed_listFull (ds : List Decl) : ListWellFormed (listFull ds) :=
  listWellFormed_respell Expr.wellFormed_full ds

end Decl
end StackScript
