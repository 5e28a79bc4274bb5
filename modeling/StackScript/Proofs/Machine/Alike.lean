import StackScript.Proofs.Machine.Perform
import StackScript.Proofs.Store.Shown

/-! Machines that hold the same things under other references. They take the same steps, read and write the same, and
end in the same way. -/
namespace StackScript
open Pairing

/-- A host function that does not look at references: if its arguments take each other's place, so do its results. -/
def IsUniform (call : List Value → Value) : Prop :=
  ∀ (p : Pairing) (s t : Store) (args args' : List Value), List.Forall₂ (p.Alike s t) args args' →
    p.Alike s t (call args) (call args')

theorem isUniform_of_mem_mathNatives {n : NativeSpec} (h : n ∈ mathNatives) : IsUniform n.call := by
  intro p s t args args' hargs
  simp only [mathNatives, List.mem_cons, List.not_mem_nil, or_false] at h
  cases hargs with
  | nil => obtain rfl | rfl | rfl | rfl := h <;> exact .null
  | cons hv hrest =>
    cases hrest with
    | nil =>
      cases hv with
      | number x =>
        obtain rfl | rfl | rfl | rfl := h
        · exact .number _
        · exact .null
        · change p.Alike s t (if _ then _ else _) (if _ then _ else _)
          split
          · exact .number _
          · exact .null
        · exact .number _
      | _ => obtain rfl | rfl | rfl | rfl := h <;> exact .null
    | cons hw hrest =>
      cases hrest with
      | nil =>
        cases hv with
        | number x =>
          cases hw with
          | number y =>
            obtain rfl | rfl | rfl | rfl := h
            · exact .null
            · exact .number _
            · exact .null
            · exact .null
          | _ => obtain rfl | rfl | rfl | rfl := h <;> exact .null
        | _ => obtain rfl | rfl | rfl | rfl := h <;> exact .null
      | cons _ _ =>
        cases hv with
        | number x => cases hw <;> (obtain rfl | rfl | rfl | rfl := h <;> exact .null)
        | _ => obtain rfl | rfl | rfl | rfl := h <;> exact .null

/-- Arrays with related values at the same places. -/
def AlikeArrays {α β : Type} (R : α → β → Prop) (xs : Array α) (ys : Array β) : Prop :=
  ∀ i : Nat, Option.Rel R xs[i]? ys[i]?

namespace AlikeArrays
variable {α β : Type} {R S : α → β → Prop} {xs : Array α} {ys : Array β} {x : α} {y : β}

theorem isSome_eq {R : α → β → Prop} {x : Option α} {y : Option β} (h : Option.Rel R x y) : x.isSome = y.isSome := by
  cases h <;> rfl

theorem imp (h : AlikeArrays R xs ys) (hRS : ∀ a b, R a b → S a b) : AlikeArrays S xs ys := fun i => rel_imp hRS (h i)

theorem size_eq (h : AlikeArrays R xs ys) : xs.size = ys.size := by
  have hlt (i : Nat) : i < xs.size ↔ i < ys.size := by
    have hi := isSome_eq (h i)
    simpa [Option.isSome_iff_ne_none] using Bool.eq_iff_iff.1 hi
  have hx := hlt xs.size
  have hy := hlt ys.size
  omega

theorem empty : AlikeArrays R #[] #[] := fun _ => .none

theorem push (h : AlikeArrays R xs ys) (hxy : R x y) : AlikeArrays R (xs.push x) (ys.push y) := fun i => by
  rw [Array.getElem?_push, Array.getElem?_push, h.size_eq]
  split
  · exact .some hxy
  · exact h i

theorem back? (h : AlikeArrays R xs ys) : Option.Rel R xs.back? ys.back? := by
  rw [Array.back?_eq_getElem?, Array.back?_eq_getElem?, h.size_eq]
  exact h _

theorem pop (h : AlikeArrays R xs ys) : AlikeArrays R xs.pop ys.pop := fun i => by
  rw [Array.getElem?_pop, Array.getElem?_pop, h.size_eq]
  split
  · exact h i
  · exact .none

theorem set (h : AlikeArrays R xs ys) (place : Nat) (hxy : R x y) :
    AlikeArrays R (xs.setIfInBounds place x) (ys.setIfInBounds place y) := fun i => by
  rw [Array.getElem?_setIfInBounds, Array.getElem?_setIfInBounds, h.size_eq]
  split
  · split
    · exact .some hxy
    · exact .none
  · exact h i

theorem extract (h : AlikeArrays R xs ys) (start stop : Nat) :
    AlikeArrays R (xs.extract start stop) (ys.extract start stop) := fun i => by
  rw [Array.getElem?_extract, Array.getElem?_extract, h.size_eq]
  split
  · exact h _
  · exact .none

theorem shrink (h : AlikeArrays R xs ys) (n : Nat) : AlikeArrays R (xs.shrink n) (ys.shrink n) := by
  rw [Array.shrink_eq_take, Array.shrink_eq_take, Array.take_eq_extract, Array.take_eq_extract]
  exact h.extract 0 n

theorem toList (h : AlikeArrays R xs ys) : List.Forall₂ R xs.toList ys.toList := by
  refine List.forall₂_iff_get.2 ⟨h.size_eq, fun i hi hj => ?_⟩
  have hrel := h i
  rw [Array.getElem?_eq_getElem hi, Array.getElem?_eq_getElem hj] at hrel
  cases hrel with
  | some hxy => exact hxy

end AlikeArrays

/-- What can be seen of a console from outside: all but listings and traces. -/
def Console.visible (c : Console) : Console := { c with diagnostics := "" }

/-- Active calls of functions that are alike, at the same place in their code. -/
structure AlikeFrames (p : Pairing) (s t : Store) (f g : Frame) : Prop where
  function : p.AlikeFunctions s t f.function g.function
  ip : f.ip = g.ip
  base : f.base = g.base

/-- Machines that hold the same things, but for references, listings and traces. -/
structure AlikeMachines (p : Pairing) (m n : Machine) : Prop where
  config : m.config = n.config
  store : p.AlikeStores m.store n.store
  uniform : ∀ f ∈ m.store.natives, IsUniform f.call
  globals : ∀ x, Option.Rel (p.Alike m.store n.store) (m.global? x) (n.global? x)
  named : ∀ {a v}, m.globals[a]? = some v → (m.store.text? a).isSome
  named' : ∀ {a v}, n.globals[a]? = some v → (n.store.text? a).isSome
  stack : AlikeArrays (p.Alike m.store n.store) m.stack n.stack
  frames : List.Forall₂ (AlikeFrames p m.store n.store) m.frames n.frames
  console : m.console.visible = n.console.visible

variable {p : Pairing} {m m' n n' : Machine} {α β : Type}

theorem AlikeFrames.mono {s s' t t' : Store} (hs : s.Extends s') (ht : t.Extends t') {f g : Frame}
    (h : AlikeFrames p s t f g) : AlikeFrames p s' t' f g := ⟨h.function.mono hs ht, h.ip, h.base⟩

namespace Machine

/-! ### Global variables -/

theorem find?_eq_some {s : Store} {x : String} {a : Symbol} : s.find? x = some a ↔ s.text? a = some x := by
  have h := s.symbols.index_eq x a.index
  rw [Store.find?, Symbols.find?, Store.text?, Symbols.text?, Option.map_eq_some_iff, ← h]
  constructor
  · rintro ⟨i, hi, rfl⟩
    exact hi
  · exact fun ha => ⟨a.index, ha, rfl⟩

theorem global?_of_text {x : String} {a : Symbol} (h : m.store.text? a = some x) : m.global? x = m.globals[a]? := by
  rw [global?, find?_eq_some.2 h]
  rfl

theorem global?_insert {x : String} {a : Symbol} (h : m.store.text? a = some x) (v : Value) (y : String) :
    ({ m with globals := m.globals.insert a v } : Machine).global? y = if y = x then some v else m.global? y := by
  unfold global?
  cases hb : m.store.find? y with
  | none =>
    have hne : y ≠ x := by
      rintro rfl
      rw [find?_eq_some.2 h] at hb
      cases hb
    rw [if_neg hne]
    rfl
  | some b =>
    have hiff : compare a b = .eq ↔ y = x := by
      rw [Std.LawfulEqCmp.compare_eq_iff_eq]
      constructor
      · rintro rfl
        exact Option.some.inj ((find?_eq_some.1 hb).symm.trans h)
      · rintro rfl
        exact Store.symbol_eq h (find?_eq_some.1 hb)
    change (m.globals.insert a v)[b]? = _
    simp only [Std.TreeMap.getElem?_insert, hiff]
    rfl

/-- Names that are new to the store are not those of variables. -/
theorem global?_extends {s : Store} (hs : m.store.Extends s)
    (named : ∀ {a v}, m.globals[a]? = some v → (m.store.text? a).isSome) (x : String) :
    ({ m with store := s } : Machine).global? x = m.global? x := by
  unfold global?
  change (s.find? x).bind (m.globals[·]?) = _
  cases hb : s.find? x with
  | none =>
    cases ha : m.store.find? x with
    | none => rfl
    | some a =>
      rw [find?_eq_some.2 (hs.text (find?_eq_some.1 ha))] at hb
      cases hb
  | some b =>
    cases ha : m.store.find? x with
    | some a =>
      rw [Store.symbol_eq (find?_eq_some.1 hb) (hs.text (find?_eq_some.1 ha))]
    | none =>
      change m.globals[b]? = none
      rw [Option.eq_none_iff_forall_ne_some]
      intro v hv
      obtain ⟨y, hy⟩ := Option.isSome_iff_exists.1 (named hv)
      obtain rfl := Option.some.inj ((hs.text hy).symm.trans (find?_eq_some.1 hb))
      rw [find?_eq_some.2 hy] at ha
      cases ha

end Machine

open Machine

namespace AlikeMachines

/-- Both stores may take in more strings and functions. -/
theorem with_store (h : AlikeMachines p m n) {s t : Store} (hs : m.store.Extends s) (ht : n.store.Extends t)
    (hn : s.natives = m.store.natives) (hst : p.AlikeStores s t) :
    AlikeMachines p { m with store := s } { n with store := t } where
  config := h.config
  store := hst
  uniform := by
    change ∀ f ∈ s.natives, IsUniform f.call
    rw [hn]
    exact h.uniform
  globals x := by
    rw [global?_extends hs h.named, global?_extends ht h.named']
    exact rel_imp (fun _ _ => Alike.mono hs ht) (h.globals x)
  named hv := hs.isSome_text (h.named hv)
  named' hv := ht.isSome_text (h.named' hv)
  stack := h.stack.imp fun _ _ => Alike.mono hs ht
  frames := h.frames.imp fun _ _ => AlikeFrames.mono hs ht
  console := h.console

theorem with_stack (h : AlikeMachines p m n) {xs ys : Array Value}
    (hxy : AlikeArrays (p.Alike m.store n.store) xs ys) :
    AlikeMachines p { m with stack := xs } { n with stack := ys } := { h with stack := hxy }

theorem with_frames (h : AlikeMachines p m n) {fs gs : List Frame}
    (hfg : List.Forall₂ (AlikeFrames p m.store n.store) fs gs) :
    AlikeMachines p { m with frames := fs } { n with frames := gs } := { h with frames := hfg }

theorem with_console (h : AlikeMachines p m n) {c d : Console} (hcd : c.visible = d.visible) :
    AlikeMachines p { m with console := c } { n with console := d } := { h with console := hcd }

theorem insert (h : AlikeMachines p m n) {a b : Symbol} (hab : SameText m.store n.store a b) {v w : Value}
    (hvw : p.Alike m.store n.store v w) :
    AlikeMachines p { m with globals := m.globals.insert a v } { n with globals := n.globals.insert b w } := by
  obtain ⟨x, ha, hb⟩ := hab
  have hnamed {m : Machine} {a c : Symbol} {v u : Value} (ha : m.store.text? a = some x)
      (hm : ∀ {a v}, m.globals[a]? = some v → (m.store.text? a).isSome)
      (hc : (m.globals.insert a v)[c]? = some u) : (m.store.text? c).isSome := by
    rw [Std.TreeMap.getElem?_insert] at hc
    split at hc
    · rename_i hac
      obtain rfl := Std.LawfulEqCmp.eq_of_compare hac
      exact Option.isSome_of_eq_some ha
    · exact hm hc
  refine { h with globals := fun y => ?_, named := hnamed ha h.named, named' := hnamed hb h.named' }
  rw [global?_insert ha, global?_insert hb]
  split
  · exact .some hvw
  · exact h.globals y

theorem global?_rel (h : AlikeMachines p m n) {a b : Symbol} (hab : SameText m.store n.store a b) :
    Option.Rel (p.Alike m.store n.store) m.globals[a]? n.globals[b]? := by
  obtain ⟨x, ha, hb⟩ := hab
  rw [← global?_of_text ha, ← global?_of_text hb]
  exact h.globals x

end AlikeMachines

end StackScript
