import StackScript.Store.Basic

/-! Stores only grow: what a reference stands for stays. -/
namespace StackScript

/-- A store to which objects have been added. -/
structure Store.Extends (s t : Store) : Prop where
  text : ∀ {a u}, s.text? a = some u → t.text? a = some u
  function : ∀ {r f}, s.function? r = some f → t.function? r = some f
  native : ∀ {r n}, s.native? r = some n → t.native? r = some n

namespace Store.Extends
variable {s t u : Store}

theorem refl (s : Store) : s.Extends s := ⟨id, id, id⟩

theorem trans (h : s.Extends t) (k : t.Extends u) : s.Extends u :=
  ⟨k.text ∘ h.text, k.function ∘ h.function, k.native ∘ h.native⟩

theorem of_intern (s : Store) (text : String) : s.Extends (s.intern text).2 :=
  ⟨Symbols.text?_intern_of_eq_some text, id, id⟩

theorem of_addFunction (s : Store) (f : Function) : s.Extends (s.addFunction f).2 := by
  refine ⟨id, fun {r g} h => ?_, id⟩
  simp only [Store.function?, Store.addFunction, Array.getElem?_push] at h ⊢
  rw [if_neg, h]
  rintro hr
  simp [hr] at h

theorem of_addNative (s : Store) (n : Native) : s.Extends (s.addNative n).2 := by
  refine ⟨id, id, fun {r k} h => ?_⟩
  simp only [Store.native?, Store.addNative, Array.getElem?_push] at h ⊢
  rw [if_neg, h]
  rintro hr
  simp [hr] at h

theorem isSome_text (h : s.Extends t) {a : Symbol} (ha : (s.text? a).isSome) : (t.text? a).isSome := by
  obtain ⟨u, hu⟩ := Option.isSome_iff_exists.1 ha
  rw [h.text hu]
  rfl

theorem isSome_native (h : s.Extends t) {r : NativeRef} (hr : (s.native? r).isSome) :
    (t.native? r).isSome := by
  obtain ⟨n, hn⟩ := Option.isSome_iff_exists.1 hr
  rw [h.native hn]
  rfl

end Store.Extends

/-- Symbols of one text are equal. -/
theorem Store.symbol_eq {s : Store} {a b : Symbol} {x : String} (ha : s.text? a = some x)
    (hb : s.text? b = some x) : a = b := by
  have h := ((s.symbols.index_eq x a.index).2 ha).symm.trans ((s.symbols.index_eq x b.index).2 hb)
  cases a
  cases b
  exact congrArg Symbol.mk (Option.some.inj h)

/-! ### Symbols as keys -/

theorem compare_symbol (a b : Symbol) : compare a b = compare a.index b.index := by
  obtain ⟨i⟩ := a
  obtain ⟨j⟩ := b
  change (compare i j).then .eq = _
  cases compare i j <;> rfl

instance : Std.LawfulEqOrd Symbol where
  compare_self {a} := by
    rw [compare_symbol]
    exact Std.ReflCmp.compare_self
  eq_of_compare {a b} h := by
    rw [compare_symbol] at h
    cases a
    cases b
    exact congrArg Symbol.mk (Std.LawfulEqCmp.eq_of_compare h)

instance : Std.TransOrd Symbol where
  eq_swap {a b} := by
    rw [compare_symbol, compare_symbol]
    exact Std.OrientedCmp.eq_swap
  isLE_trans {a b c} := by
    simp only [compare_symbol]
    exact Std.TransCmp.isLE_trans

end StackScript
