import StackScript.Proofs.Machine.Running
import StackScript.Proofs.Semantics.Denotes

/-! Functions of the host in the eyes of a walk. A function that does not look at references does the same with values
that have been put into an empty store, so that what it does can be told without the store of a machine. -/
namespace StackScript

/-- A value stands for a value of a walk, but it may refer to functions that the store does not know. -/
inductive Spells (s : Store) : Value → Datum → Prop
  | null : Spells s .null .null
  | bool (b : Bool) : Spells s (.bool b) (.bool b)
  | number (x : Double) : Spells s (.number x) (.number x)
  | char (byte : UInt8) : Spells s (.char byte) (.char byte)
  | string {a : Symbol} {text : String} (h : s.text? a = some text) : Spells s (.string a) (.string text)
  | function (r : FunctionRef) (t : FunctionTree) : Spells s (.function r) (.function r t)
  | native (r : NativeRef) : Spells s (.native r) (.native r)

namespace Datum

/-- Puts a value into a store. -/
def toValue (s : Store) : Datum → Value × Store
  | null => (.null, s)
  | bool b => (.bool b, s)
  | number x => (.number x, s)
  | char byte => (.char byte, s)
  | string text => (.string (s.intern text).1, (s.intern text).2)
  | function ref _ => (.function ref, s)
  | native ref => (.native ref, s)

/-- Puts values into a store, one after another. -/
def toValues (s : Store) : List Datum → List Value × Store
  | [] => ([], s)
  | d :: ds => ((d.toValue s).1 :: (toValues (d.toValue s).2 ds).1, (toValues (d.toValue s).2 ds).2)

def isFunction (r : FunctionRef) : Datum → Bool
  | function ref _ => ref = r
  | _ => false

/-- What a value stands for in a store, if the functions are known that it may refer to. -/
def ofValue (s : Store) (known : List Datum) : Value → Datum
  | .null => null
  | .bool b => bool b
  | .number x => number x
  | .char byte => char byte
  | .string a => string ((s.text? a).getD "")
  | .function r => (known.find? (isFunction r)).getD null
  | .native r => native r

end Datum

/-- What a function of a machine does, told without its store. -/
def Native.host (n : Native) : Host where
  arity := n.arity
  call ds := .ofValue (Datum.toValues {} ds).2 ds (n.call (Datum.toValues {} ds).1)

section
variable {s t : Store} {v : Value} {d : Datum} {vs : List Value} {ds : List Datum} {r : FunctionRef}

theorem Spells.mono (hs : s.Extends t) (h : Spells s v d) : Spells t v d := by
  cases h with
  | null => exact .null
  | bool b => exact .bool b
  | number x => exact .number x
  | char byte => exact .char byte
  | string h => exact .string (hs.text h)
  | function r t => exact .function r t
  | native r => exact .native r

theorem Denotes.spells (h : Denotes s v d) : Spells s v d := by
  cases h with
  | null => exact .null
  | bool b => exact .bool b
  | number x => exact .number x
  | char byte => exact .char byte
  | string h => exact .string h
  | function _ _ => exact .function _ _
  | native _ => exact .native _

/-! ### Values put into a store -/

theorem extends_toValue (s : Store) (d : Datum) : s.Extends (d.toValue s).2 := by
  cases d with
  | string text => exact .of_intern s text
  | _ => exact .refl s

theorem spells_toValue (s : Store) (d : Datum) : Spells (d.toValue s).2 (d.toValue s).1 d := by
  cases d with
  | null => exact .null
  | bool b => exact .bool b
  | number x => exact .number x
  | char byte => exact .char byte
  | string text => exact .string (Symbols.text?_intern s.symbols text)
  | function r t => exact .function r t
  | native r => exact .native r

theorem extends_toValues (s : Store) (ds : List Datum) : s.Extends (Datum.toValues s ds).2 := by
  induction ds generalizing s with
  | nil => exact .refl s
  | cons d ds ih => exact (extends_toValue s d).trans (ih _)

theorem spells_toValues (s : Store) (ds : List Datum) :
    List.Forall₂ (Spells (Datum.toValues s ds).2) (Datum.toValues s ds).1 ds := by
  induction ds generalizing s with
  | nil => exact .nil
  | cons d ds ih => exact .cons ((spells_toValue s d).mono (extends_toValues _ ds)) (ih _)

/-! ### Functions that do not look at references -/

/-- Values that stand for the same take each other's place, if the functions among them stay. -/
theorem Spells.alike {p : Pairing} {w : Value} (hv : Spells s v d) (hw : Spells t w d)
    (hp : ∀ r t, d = .function r t → p.pairs r r) : p.Alike s t v w := by
  cases hv with
  | null =>
    cases hw
    exact .null
  | bool b =>
    cases hw
    exact .bool b
  | number x =>
    cases hw
    exact .number x
  | char byte =>
    cases hw
    exact .char byte
  | string ha =>
    cases hw with
    | string hb => exact .string ⟨_, ha, hb⟩
  | function r t =>
    cases hw
    exact .function (hp r t rfl)
  | native r =>
    cases hw
    exact .native r

/-- The functions among some values stay, and no others are paired. -/
def Pairing.among (ds : List Datum) : Pairing where
  pairs f g := f = g ∧ ∃ t, .function f t ∈ ds
  unique := by
    rintro f _ f' _ ⟨rfl, -⟩ ⟨rfl, -⟩
    exact Iff.rfl
  lines := True

theorem alike_among {ws : List Value} (hv : List.Forall₂ (Spells s) vs ds) (hw : List.Forall₂ (Spells t) ws ds)
    {es : List Datum} (hsub : ∀ d ∈ ds, d ∈ es) : List.Forall₂ ((Pairing.among es).Alike s t) vs ws := by
  induction hv generalizing ws with
  | nil =>
    cases hw
    exact .nil
  | @cons v d vs ds hd _ ih =>
    cases hw with
    | cons hd' hrest =>
      refine .cons (hd.alike hd' fun r t heq => ⟨rfl, t, ?_⟩) (ih hrest fun e he => hsub e (List.mem_cons_of_mem d he))
      exact heq ▸ hsub d List.mem_cons_self

/-- A function among some values is the one that is found under its reference. -/
theorem denotes_find? (h : List.Forall₂ (Denotes s) vs ds) {t : FunctionTree} (hmem : .function r t ∈ ds) :
    Denotes s (.function r) ((ds.find? (Datum.isFunction r)).getD .null) := by
  obtain ⟨d, hd⟩ := Option.isSome_iff_exists.1
    (List.find?_isSome.2 ⟨_, hmem, decide_eq_true (rfl : r = r)⟩ : (ds.find? (Datum.isFunction r)).isSome)
  rw [hd, Option.getD_some]
  have hfound := List.find?_some hd
  obtain ⟨i, hi⟩ := List.mem_iff_getElem?.1 (List.mem_of_find?_eq_some hd)
  have hvalue := (List.forall₂_iff_get.1 h).2
  cases d with
  | function ref u =>
    obtain rfl : ref = r := of_decide_eq_true hfound
    obtain ⟨hlt, hget⟩ := List.getElem?_eq_some_iff.1 hi
    have hdenotes := hvalue i (h.length_eq ▸ hlt) hlt
    rw [show ds.get ⟨i, hlt⟩ = .function ref u from hget] at hdenotes
    generalize vs.get _ = v at hdenotes
    cases hdenotes with
    | function hr ht => exact .function hr ht
  | _ => exact absurd hfound Bool.false_ne_true

/-- What is told of a function without a store holds in every store. -/
theorem hostOf_host {n : Native} (honest : IsHonest n.call) (uniform : IsUniform n.call) : HostOf n n.host where
  arity := rfl
  call {s args ds} hsound h := by
    have hargs := alike_among (h.imp fun _ _ => Denotes.spells) (spells_toValues {} ds) fun d hd => hd
    have hresult := uniform (Pairing.among ds) s _ args _ hargs
    have hknown := honest s args hsound
    change Denotes s (n.call args) (.ofValue (Datum.toValues {} ds).2 ds (n.call (Datum.toValues {} ds).1))
    generalize n.call args = v at hresult hknown
    generalize n.call (Datum.toValues {} ds).1 = w at hresult
    cases hresult with
    | null => exact .null
    | bool b => exact .bool b
    | number x => exact .number x
    | char byte => exact .char byte
    | string hab =>
      obtain ⟨x, ha, hb⟩ := hab
      rw [Datum.ofValue, hb, Option.getD_some]
      exact .string ha
    | function hfg =>
      obtain ⟨rfl, t, ht⟩ := hfg
      exact denotes_find? h ht
    | native r =>
      cases hknown with
      | native hr => exact .native hr

end

end StackScript
