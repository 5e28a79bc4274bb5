import Mathlib.Data.List.Forall2
import StackScript.Proofs.Store.Extends

/-! Stores that hold the same things under other references. Strings are the same if their texts are; which
functions take each other's place is told by a pairing. -/
namespace StackScript

/-- How functions of one store take the place of those of another. -/
structure Pairing where
  pairs : FunctionRef → FunctionRef → Prop
  unique : ∀ {f g f' g'}, pairs f g → pairs f' g' → (f = f' ↔ g = g')
  /-- Whether code also comes from the same lines. -/
  lines : Prop

/-- Symbols of the same text, each in its store. -/
def SameText (s t : Store) (a b : Symbol) : Prop := ∃ x, s.text? a = some x ∧ t.text? b = some x

section
variable {s s' t t' : Store} {a b c d : Symbol}

theorem SameText.mono (hs : s.Extends s') (ht : t.Extends t') (h : SameText s t a b) : SameText s' t' a b :=
  h.imp fun _ ⟨ha, hb⟩ => ⟨hs.text ha, ht.text hb⟩

theorem SameText.eq_iff (h : SameText s t a b) (k : SameText s t c d) : a = c ↔ b = d := by
  obtain ⟨x, ha, hb⟩ := h
  obtain ⟨y, hc, hd⟩ := k
  constructor
  · rintro rfl
    obtain rfl := Option.some.inj (ha.symm.trans hc)
    exact Store.symbol_eq hb hd
  · rintro rfl
    obtain rfl := Option.some.inj (hb.symm.trans hd)
    exact Store.symbol_eq ha hc

theorem sameText_intern (s t : Store) (x : String) :
    SameText (s.intern x).2 (t.intern x).2 (s.intern x).1 (t.intern x).1 :=
  ⟨x, Symbols.text?_intern _ x, Symbols.text?_intern _ x⟩

end

theorem rel_imp {α β : Type} {R S : α → β → Prop} (h : ∀ a b, R a b → S a b) {x : Option α} {y : Option β}
    (hxy : Option.Rel R x y) : Option.Rel S x y := by
  cases hxy with
  | some hab => exact .some (h _ _ hab)
  | none => exact .none

namespace Pairing

/-- Values that stand for the same, each in its store. -/
inductive Alike (p : Pairing) (s t : Store) : Value → Value → Prop
  | null : p.Alike s t .null .null
  | bool (b : Bool) : p.Alike s t (.bool b) (.bool b)
  | number (x : Double) : p.Alike s t (.number x) (.number x)
  | char (byte : UInt8) : p.Alike s t (.char byte) (.char byte)
  | string {a b : Symbol} (h : SameText s t a b) : p.Alike s t (.string a) (.string b)
  | function {f g : FunctionRef} (h : p.pairs f g) : p.Alike s t (.function f) (.function g)
  | native (r : NativeRef) : p.Alike s t (.native r) (.native r)

/-- Code that differs only in what its constants refer to. -/
structure AlikeCode (p : Pairing) (s t : Store) (b c : Bytecode) : Prop where
  code : b.code = c.code
  constants : List.Forall₂ (p.Alike s t) b.constants.toList c.constants.toList
  lines : p.lines → b.lines = c.lines

structure AlikeFunctions (p : Pairing) (s t : Store) (f g : Function) : Prop where
  name : Option.Rel (SameText s t) f.name g.name
  arity : f.arity = g.arity
  bytecode : p.AlikeCode s t f.bytecode g.bytecode

/-- Functions that take each other's place are alike, and those that come next will take each other's
place. -/
structure AlikeStores (p : Pairing) (s t : Store) : Prop where
  natives : s.natives = t.natives
  functions : ∀ {f g}, p.pairs f g → Option.Rel (p.AlikeFunctions s t) (s.function? f) (t.function? g)
  next : ∀ i, p.pairs ⟨s.functions.size + i⟩ ⟨t.functions.size + i⟩

variable {p : Pairing} {s s' t t' : Store}

theorem Alike.mono (hs : s.Extends s') (ht : t.Extends t') {v w : Value} (h : p.Alike s t v w) :
    p.Alike s' t' v w := by
  cases h with
  | null => exact .null
  | bool b => exact .bool b
  | number x => exact .number x
  | char b => exact .char b
  | string h => exact .string (h.mono hs ht)
  | function h => exact .function h
  | native r => exact .native r

theorem AlikeCode.mono (hs : s.Extends s') (ht : t.Extends t') {b c : Bytecode} (h : p.AlikeCode s t b c) :
    p.AlikeCode s' t' b c := ⟨h.code, h.constants.imp fun _ _ => Alike.mono hs ht, h.lines⟩

theorem AlikeCode.write {b c : Bytecode} (h : p.AlikeCode s t b c) (byte : UInt8) {line line' : Nat}
    (hl : p.lines → line = line') : p.AlikeCode s t (b.write byte line) (c.write byte line') := by
  refine ⟨congrArg (·.push byte) h.code, h.constants, fun hp => ?_⟩
  rw [hl hp]
  exact congrArg (·.push line') (h.lines hp)

/-- Alike constants get the same number, if there is room. -/
theorem AlikeCode.addConstant? {b c : Bytecode} (h : p.AlikeCode s t b c) {v w : Value} (hv : p.Alike s t v w) :
    Option.Rel (fun x y => x.1 = y.1 ∧ p.AlikeCode s t x.2 y.2) (b.addConstant? v) (c.addConstant? w) := by
  have hsize : b.constants.size = c.constants.size := h.constants.length_eq
  unfold Bytecode.addConstant?
  rw [hsize]
  split
  · refine .some ⟨rfl, h.code, ?_, h.lines⟩
    rw [Array.toList_push, Array.toList_push]
    exact List.rel_append h.constants (.cons hv .nil)
  · exact .none

theorem AlikeFunctions.mono (hs : s.Extends s') (ht : t.Extends t') {f g : Function}
    (h : p.AlikeFunctions s t f g) : p.AlikeFunctions s' t' f g :=
  ⟨rel_imp (fun _ _ => SameText.mono hs ht) h.name, h.arity, h.bytecode.mono hs ht⟩

/-- Strings are nothing that functions are told apart by. -/
theorem AlikeStores.with_symbols (h : p.AlikeStores s t) {x y : Symbols}
    (hs : s.Extends { s with symbols := x }) (ht : t.Extends { t with symbols := y }) :
    p.AlikeStores { s with symbols := x } { t with symbols := y } :=
  ⟨h.natives, fun hp => rel_imp (fun _ _ => AlikeFunctions.mono hs ht) (h.functions hp), h.next⟩

theorem AlikeStores.intern (h : p.AlikeStores s t) (x : String) :
    p.AlikeStores (s.intern x).2 (t.intern x).2 := h.with_symbols (.of_intern s x) (.of_intern t x)

theorem AlikeStores.addFunction (h : p.AlikeStores s t) {f g : Function} (hfg : p.AlikeFunctions s t f g) :
    p.AlikeStores (s.addFunction f).2 (t.addFunction g).2 := by
  have hs := Store.Extends.of_addFunction s f
  have ht := Store.Extends.of_addFunction t g
  refine ⟨h.natives, fun {a b} hab => ?_, fun i => ?_⟩
  · have hend := p.unique hab (h.next 0)
    simp only [Store.function?, Store.addFunction, Array.getElem?_push]
    by_cases ha : a.index = s.functions.size
    · have hb : b = ⟨t.functions.size⟩ := hend.1 (by cases a; simpa using ha)
      rw [if_pos ha, hb, if_pos rfl]
      exact .some (hfg.mono hs ht)
    · have hb : b.index ≠ t.functions.size := fun hb => ha (congrArg FunctionRef.index
        (hend.2 (by cases b; simpa using hb)))
      rw [if_neg ha, if_neg hb]
      exact rel_imp (fun _ _ => AlikeFunctions.mono hs ht) (h.functions hab)
  · have hnext := h.next (i + 1)
    simp only [Store.addFunction, Array.size_push]
    rwa [Nat.add_right_comm, Nat.add_right_comm t.functions.size]

end Pairing
end StackScript
