import Std.Data.TreeMap

/-! Interned strings. A table numbers strings in the order in which they are first seen, so that two
symbols are equal exactly when their texts are; the index from texts back to numbers is part of the
table, with the proof that the two agree. -/
namespace StackScript

/-- The number of an interned string. -/
structure Symbol where
  index : Nat
  deriving DecidableEq, Repr, Inhabited, Ord

/-- The interned strings: by number, and by text. -/
structure Symbols where
  texts : Array String
  index : Std.TreeMap String Nat
  index_eq : ∀ (s : String) (i : Nat), index[s]? = some i ↔ texts[i]? = some s

namespace Symbols

def empty : Symbols := ⟨#[], ∅, by simp⟩

instance : Inhabited Symbols := ⟨empty⟩

def size (t : Symbols) : Nat := t.texts.size

/-- The text of a symbol, if the table has it. -/
def text? (t : Symbols) (s : Symbol) : Option String := t.texts[s.index]?

/-- The symbol of a text that has been interned. -/
def find? (t : Symbols) (s : String) : Option Symbol := t.index[s]?.map Symbol.mk

/-- Adds a text that is not in the table yet. -/
def push (t : Symbols) (s : String) (new : t.index[s]? = none) : Symbols where
  texts := t.texts.push s
  index := t.index.insert s t.texts.size
  index_eq u i := by
    have hu := t.index_eq u i
    have hs := t.index_eq s i
    have hn : t.texts[t.texts.size]? = none := by simp
    simp only [Std.TreeMap.getElem?_insert, Array.getElem?_push, Std.LawfulEqCmp.compare_eq_iff_eq]
    grind

/-- The symbol of a text, which is added to the table if it is new. -/
def intern (t : Symbols) (s : String) : Symbol × Symbols :=
  match h : t.index[s]? with
  | some i => (⟨i⟩, t)
  | none => (⟨t.texts.size⟩, t.push s h)

/-- The symbol just given stands for its text. -/
@[simp] theorem text?_intern (t : Symbols) (s : String) :
    (t.intern s).2.text? (t.intern s).1 = some s := by
  unfold intern
  split
  · exact (t.index_eq s _).1 ‹_›
  · simp [push, text?]

/-- Interning takes no text away from a symbol. -/
theorem text?_intern_of_eq_some {t : Symbols} {a : Symbol} {u : String} (s : String)
    (h : t.text? a = some u) : (t.intern s).2.text? a = some u := by
  unfold intern
  split
  · exact h
  · simp only [text?, push] at h ⊢
    rw [Array.getElem?_push, if_neg]
    · exact h
    · rintro hi
      simp [hi] at h

/-- A text is found once it has been interned. -/
@[simp] theorem find?_intern (t : Symbols) (s : String) :
    (t.intern s).2.find? s = some (t.intern s).1 := by
  have h := text?_intern t s
  simp only [text?] at h
  simp [find?, ((t.intern s).2.index_eq s _).2 h]

end Symbols
end StackScript
