import StackScript.Proofs.Machine.Lockstep
import StackScript.Proofs.Machine.Operations
import StackScript.Proofs.Semantics.Walk

/-! Which values of a machine stand for which values of a walk. What a machine makes of values, and what it shows of them,
is what a walk does. -/
namespace StackScript

/-- A value of a machine stands for a value of a walk: a symbol for its text, a function for its tree. -/
inductive Denotes (s : Store) : Value → Datum → Prop
  | null : Denotes s .null .null
  | bool (b : Bool) : Denotes s (.bool b) (.bool b)
  | number (x : Double) : Denotes s (.number x) (.number x)
  | char (byte : UInt8) : Denotes s (.char byte) (.char byte)
  | string {a : Symbol} {text : String} (h : s.text? a = some text) : Denotes s (.string a) (.string text)
  | function {r : FunctionRef} {f : Function} {t : FunctionTree} (hr : s.function? r = some f) (ht : t.IsCompiled s f) :
      Denotes s (.function r) (.function r t)
  | native {r : NativeRef} (h : (s.native? r).isSome) : Denotes s (.native r) (.native r)

namespace Denotes
variable {s t : Store} {v w : Value} {d e : Datum}

theorem mono (hs : s.Extends t) (h : Denotes s v d) : Denotes t v d := by
  cases h with
  | null => exact .null
  | bool b => exact .bool b
  | number x => exact .number x
  | char byte => exact .char byte
  | string h => exact .string (hs.text h)
  | function hr ht => exact .function (hs.function hr) (ht.mono hs)
  | native h => exact .native (hs.isSome_native h)

/-- Every value that a store knows stands for one. -/
theorem exists_of_sound (h : s.Sound v) : ∃ d, Denotes s v d := by
  cases h with
  | null => exact ⟨_, .null⟩
  | bool b => exact ⟨_, .bool b⟩
  | number x => exact ⟨_, .number x⟩
  | char byte => exact ⟨_, .char byte⟩
  | string h => exact ⟨_, .string (Option.some_get h).symm⟩
  | native h => exact ⟨_, .native h⟩
  | function hr ht _ => exact ⟨_, .function hr ht⟩

/-! ### Operators -/

theorem isFalsey_eq (h : Denotes s v d) : v.isFalsey = d.isFalsey := by cases h <;> rfl

theorem isTextual_eq (h : Denotes s v d) : v.isTextual = d.isTextual := by cases h <;> rfl

theorem equals_eq (hv : Denotes s v d) (hw : Denotes s w e) : v.equals w = d.equals e := by
  cases hv <;> cases hw <;> try rfl
  case bool.bool a b => simp only [Value.equals, Value.same, Value.bool.injEq, Datum.equals]
  case char.char a b => simp only [Value.equals, Value.same, Value.char.injEq, Datum.equals]
  case native.native r h r' h' => simp only [Value.equals, Value.same, Value.native.injEq, Datum.equals]
  case function.function r f t hr ht r' f' t' hr' ht' =>
    simp only [Value.equals, Value.same, Value.function.injEq, Datum.equals]
  case string.string a x ha b y hb =>
    have hiff : a = b ↔ x = y := by
      constructor
      · rintro rfl
        exact Option.some.inj (ha.symm.trans hb)
      · rintro rfl
        exact Store.symbol_eq ha hb
    simp only [Value.equals, Value.same, Value.string.injEq, Datum.equals, hiff]

/-! ### What is shown -/

theorem functionText?_eq {f : Function} {t : FunctionTree} (h : t.IsCompiled s f) :
    s.functionText? f = some t.text := by
  obtain ⟨ib, hc, -⟩ := h
  have hnamed := hc.named
  unfold Store.Names at hnamed
  unfold Store.functionText? FunctionTree.text
  generalize f.name = a at hnamed ⊢
  generalize t.name = x at hnamed ⊢
  cases a with
  | none =>
    cases x with
    | none => rfl
    | some x => exact hnamed.elim
  | some a =>
    cases x with
    | none => exact hnamed.elim
    | some x =>
      dsimp only at hnamed ⊢
      rw [hnamed]
      rfl

theorem display?_eq (h : Denotes s v d) : s.display? v = some d.text := by
  cases h with
  | string h => exact h
  | @function r f t hr ht =>
    rw [Store.display?, hr]
    exact functionText?_eq ht
  | native h =>
    obtain ⟨n, hn⟩ := Option.isSome_iff_exists.1 h
    rw [Store.display?, hn]
    rfl
  | _ => rfl

theorem bytes?_eq (h : Denotes s v d) : s.bytes? v = some d.bytes := by
  have hdisplay := h.display?_eq
  cases h with
  | char byte => rfl
  | _ => exact congrArg (Option.map String.toUTF8) hdisplay

/-- The symbol of a text that is new or not. -/
theorem intern (s : Store) (text : String) : Denotes (s.intern text).2 (.string (s.intern text).1) (.string text) :=
  .string (Symbols.text?_intern s.symbols text)

/-- A literal stands for what it means. -/
theorem of_means {l : Literal} (h : l.Means s v) : Denotes s v l.datum := by
  cases l with
  | number text =>
    obtain ⟨n, hn, rfl⟩ := h
    rw [Literal.datum, hn]
    exact .number _
  | string text =>
    obtain ⟨a, ha, rfl⟩ := h
    exact .string ha
  | char text =>
    obtain rfl := h
    exact .char _
  | newLine =>
    obtain rfl := h
    exact .char _
  | tab =>
    obtain rfl := h
    exact .char _
  | true_ =>
    obtain rfl := h
    exact .bool _
  | false_ =>
    obtain rfl := h
    exact .bool _

end Denotes

/-! ### Functions of the host -/

/-- A function of a machine does what one of a walk does, whatever the store is. -/
structure HostOf (n : Native) (h : Host) : Prop where
  arity : n.arity = h.arity
  call : ∀ {s args ds}, (∀ v ∈ args, s.Sound v) → List.Forall₂ (Denotes s) args ds → Denotes s (n.call args) (h.call ds)

/-! ### Stacks -/

/-- Values stand above a part of a stack, the topmost one first. -/
inductive Holds (s : Store) (below : Array Value) : List Datum → Array Value → Prop
  | nil : Holds s below [] below
  | push {d : Datum} {ds : List Datum} {v : Value} {rest : Array Value} (under : Holds s below ds rest)
      (top : Denotes s v d) : Holds s below (d :: ds) (rest.push v)

namespace Holds
variable {s t : Store} {below mid xs : Array Value} {d : Datum} {ds es : List Datum} {v : Value}

theorem mono (hs : s.Extends t) (h : Holds s below ds xs) : Holds t below ds xs := by
  induction h with
  | nil => exact .nil
  | push _ top ih => exact .push ih (top.mono hs)

theorem size (h : Holds s below ds xs) : xs.size = below.size + ds.length := by
  induction h with
  | nil => rfl
  | push _ _ ih => rw [Array.size_push, ih, List.length_cons, Nat.add_assoc]

theorem pop (h : Holds s below (d :: ds) xs) : ∃ rest v, xs = rest.push v ∧ Denotes s v d ∧ Holds s below ds rest := by
  cases h with
  | push under top => exact ⟨_, _, rfl, top, under⟩

theorem split (h : Holds s below (ds ++ es) xs) : ∃ mid, Holds s below es mid ∧ Holds s mid ds xs := by
  induction ds generalizing xs with
  | nil => exact ⟨xs, h, .nil⟩
  | cons d ds ih =>
    obtain ⟨rest, v, rfl, top, under⟩ := h.pop
    obtain ⟨mid, hes, hds⟩ := ih under
    exact ⟨mid, hes, .push hds top⟩

theorem join (h : Holds s below es mid) (k : Holds s mid ds xs) : Holds s below (ds ++ es) xs := by
  induction k with
  | nil => exact h
  | push _ top ih => exact .push ih top

/-- The values, from the lowest one up. -/
theorem exists_append (h : Holds s below ds xs) :
    ∃ own : Array Value, xs = below ++ own ∧ List.Forall₂ (Denotes s) own.toList ds.reverse := by
  induction h with
  | nil => exact ⟨#[], by simp, .nil⟩
  | @push d ds v rest _ top ih =>
    obtain ⟨own, rfl, hown⟩ := ih
    refine ⟨own.push v, by rw [Array.append_push], ?_⟩
    rw [Array.toList_push, List.reverse_cons]
    exact List.rel_append hown (.cons top .nil)

theorem getElem?_of_lt (h : Holds s below ds xs) {i : Nat} (hi : i < below.size) : xs[i]? = below[i]? := by
  obtain ⟨own, rfl, -⟩ := h.exists_append
  exact Array.getElem?_append_left hi

theorem set_below (h : Holds s below ds xs) {i : Nat} (hi : i < below.size) (v : Value) :
    Holds s (below.setIfInBounds i v) ds (xs.setIfInBounds i v) := by
  induction h with
  | nil => exact .nil
  | @push d ds w rest under top ih =>
    have hlt : i < rest.size := by
      rw [under.size]
      omega
    rw [push_setIfInBounds hlt]
    exact .push ih top

end Holds

/-! ### Slots -/

section
variable {s : Store} {below xs : Array Value} {locals : List (String × Datum)} {x : String} {i : Nat}

/-- A variable in a slot is the newest one of its name. -/
theorem Holds.slot (h : Holds s below (locals.map Prod.snd) xs) (hx : slot? x (locals.map Prod.fst) = some i) :
    ∃ v d, xs[below.size + i]? = some v ∧ locals.lookup x = some d ∧ Denotes s v d := by
  induction locals generalizing xs with
  | nil => cases hx
  | cons p older ih =>
    obtain ⟨y, e⟩ := p
    obtain ⟨rest, v, rfl, top, under⟩ := h.pop
    have hsize := under.size
    rw [List.length_map] at hsize
    rw [List.map_cons, slot?] at hx
    by_cases hyx : y = x
    · rw [if_pos hyx, List.length_map] at hx
      obtain rfl := Option.some.inj hx
      refine ⟨v, e, ?_, by simp [hyx], top⟩
      rw [← hsize]
      exact Array.getElem?_push_size
    · rw [if_neg hyx] at hx
      obtain ⟨w, d, hw, hd, hdenotes⟩ := ih under hx
      have hlt := slot?_lt hx
      rw [List.length_map] at hlt
      have hne : (x == y) = false := beq_eq_false_iff_ne.2 (Ne.symm hyx)
      refine ⟨w, d, ?_, ?_, hdenotes⟩
      · rw [Array.getElem?_push, if_neg (by omega)]
        exact hw
      · simp only [List.lookup_cons, hne, hd]

/-- The newest variable of a name gets another value. -/
theorem Holds.set_slot (h : Holds s below (locals.map Prod.snd) xs) (hx : slot? x (locals.map Prod.fst) = some i)
    {v : Value} {d : Datum} (hv : Denotes s v d) :
    ∃ locals', Scene.assignLocal? x d locals = some locals' ∧ locals'.map Prod.fst = locals.map Prod.fst ∧
      Holds s below (locals'.map Prod.snd) (xs.setIfInBounds (below.size + i) v) := by
  induction locals generalizing xs with
  | nil => cases hx
  | cons p older ih =>
    obtain ⟨y, e⟩ := p
    obtain ⟨rest, w, rfl, top, under⟩ := h.pop
    have hsize := under.size
    rw [List.length_map] at hsize
    rw [List.map_cons, slot?] at hx
    by_cases hyx : y = x
    · rw [if_pos hyx, List.length_map] at hx
      obtain rfl := Option.some.inj hx
      refine ⟨(y, d) :: older, by rw [Scene.assignLocal?, if_pos hyx], rfl, ?_⟩
      have hset : (rest.push w).setIfInBounds (below.size + older.length) v = rest.push v := by
        refine Array.ext_getElem? fun j => ?_
        rw [← hsize, Array.getElem?_setIfInBounds, Array.getElem?_push, Array.getElem?_push, Array.size_push]
        by_cases hj : rest.size = j
        · rw [if_pos hj, if_pos (by omega), if_pos hj.symm]
        · rw [if_neg hj, if_neg (Ne.symm hj), if_neg (Ne.symm hj)]
      rw [hset]
      exact .push under hv
    · rw [if_neg hyx] at hx
      obtain ⟨locals', hassign, hnames, hholds⟩ := ih under hx
      have hlt := slot?_lt hx
      rw [List.length_map] at hlt
      refine ⟨(y, e) :: locals', by rw [Scene.assignLocal?, if_neg hyx, hassign]; rfl, by simp [hnames], ?_⟩
      rw [push_setIfInBounds (by omega)]
      exact .push hholds top

theorem lookup_eq_none (hx : x ∉ locals.map Prod.fst) : locals.lookup x = none := by
  refine List.lookup_eq_none_iff.2 fun p hp => bne_iff_ne.2 ?_
  rintro rfl
  exact hx (List.mem_map_of_mem hp)

theorem assignLocal?_eq_none (hx : x ∉ locals.map Prod.fst) (d : Datum) : Scene.assignLocal? x d locals = none := by
  induction locals with
  | nil => rfl
  | cons p older ih =>
    obtain ⟨y, e⟩ := p
    rw [List.map_cons, List.mem_cons, not_or] at hx
    rw [Scene.assignLocal?, if_neg (Ne.symm hx.1), ih hx.2]
    rfl

end

end StackScript
