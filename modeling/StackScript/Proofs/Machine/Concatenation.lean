import StackScript.Proofs.Machine.Cut
import StackScript.Proofs.Machine.Strings
import StackScript.Proofs.Machine.Turn
import StackScript.Proofs.Text.Replacement

/-! Sums of textual values: their bytes are joined and read as text. Where these are well-formed nothing is lost, so that a
sum prints as its parts do, one after another, and sums can be regrouped. -/
namespace StackScript

/-- Values whose bytes are those of a text: strings, and characters that are a byte each. -/
def Value.IsText : Value → Prop
  | .char byte => byte < 0x80
  | .string _ => True
  | _ => False

/-- A symbol that a store has for bytes: the only one of its text, which the bytes are read as. That text has the same bytes
just if these are well-formed. -/
structure Store.Joins (s : Store) (bytes : ByteArray) (x : Symbol) (t : String) : Prop where
  text : s.text? x = some t
  only (y : Symbol) (hy : s.text? y = some t) : y = x
  reads : Utf8.ReadsAs bytes.data.toList t.toList
  whole : t.toUTF8 = bytes ↔ bytes.IsValidUTF8

theorem Store.joins_intern (s : Store) (bytes : ByteArray) :
    (s.intern (Utf8.decode bytes)).2.Joins bytes (s.intern (Utf8.decode bytes)).1 (Utf8.decode bytes) := by
  have htext := Symbols.text?_intern s.symbols (Utf8.decode bytes)
  exact ⟨htext, fun y hy => Store.symbol_eq hy htext, Utf8.readsAs_decode bytes, Utf8.toUTF8_decode_iff⟩

section
variable {s t : Store} {v w : Value} {p q : ByteArray}

theorem Store.Joins.bytes?_eq {x : Symbol} {text : String} (h : s.Joins p x text) :
    s.bytes? (.string x) = some text.toUTF8 := congrArg (Option.map _) h.text

theorem Store.Extends.bytes?_eq (h : s.Extends t) (hv : v.isTextual) (hp : s.bytes? v = some p) :
    t.bytes? v = some p := by
  cases v with
  | char byte => exact hp
  | string x =>
    obtain ⟨text, htext, rfl⟩ := Option.map_eq_some_iff.1 hp
    exact congrArg (Option.map _) (h.text htext)
  | null | bool | number | function | native => cases hv

theorem Value.IsText.isTextual (h : v.IsText) : v.isTextual := by
  cases v <;> first | rfl | exact h.elim

/-- A byte below 128 is a character. -/
theorem isValidUTF8_byte {b : UInt8} (h : b < 0x80) : ByteArray.IsValidUTF8 ⟨#[b]⟩ := by
  have hlt := UInt8.lt_iff_toNat_lt.1 h
  obtain ⟨c, hc⟩ := Utf8.char_of_valid (v := b.toNat) (.inl (Nat.lt_trans hlt (by decide)))
  refine ⟨[c], ByteArray.ext ?_⟩
  rw [List.utf8Encode, List.data_toByteArray, List.flatMap_singleton, Utf8.encode_one (hc ▸ hlt), hc, UInt8.ofNat_toNat]

theorem Value.IsText.isValidUTF8 (h : v.IsText) (hp : s.bytes? v = some p) : p.IsValidUTF8 := by
  cases v with
  | char byte =>
    obtain rfl := Option.some.inj hp
    exact isValidUTF8_byte h
  | string x =>
    obtain ⟨text, -, rfl⟩ := Option.map_eq_some_iff.1 hp
    exact text.isValidUTF8
  | null | bool | number | function | native => exact h.elim

end

/-! ### Printing -/

/-- Bytes can be written in two parts. -/
theorem Console.write_append (c : Console) (p q : ByteArray) : c.write (p ++ q) =
    match c.write p with
    | (.ok _, c) => c.write q
    | (.error e, c) => (.error e, c) := by
  obtain ⟨input, broken, output, room, flushes, failing, diagnostics⟩ := c
  cases room with
  | none => simp only [write, ByteArray.append_assoc]
  | some room =>
    simp only [write, ByteArray.size_append]
    by_cases hp : p.size ≤ room
    · simp only [if_pos hp]
      by_cases hq : q.size ≤ room - p.size
      · rw [if_pos (by omega), if_pos hq, ByteArray.append_assoc, Nat.sub_sub]
      · rw [if_neg (by omega), if_neg hq, extract_append_of_ge hp, ByteArray.append_assoc]
    · rw [if_neg (by omega), if_neg hp, extract_append_of_le (Nat.le_of_not_le hp)]

namespace Machine

/-- Puts a value on the stack and prints it. -/
def printValue (v : Value) : Exec Unit := do
  push v
  printTop

section
variable {a : Machine} {v w : Value} {p q : ByteArray} {x : Symbol}

theorem run_printValue (h : a.stack.size < a.config.stackSize) (hv : a.store.bytes? v = some p) :
    (printValue v).run a = (withConsole (·.write p)).run a := by
  rw [printValue, run_bind_ok (run_push h v)]
  exact run_printTop rfl hv

/-- What has the bytes of two values prints as these do, one after another. -/
theorem run_printValue_append (hx : a.store.bytes? (.string x) = some (p ++ q)) (hv : a.store.bytes? v = some p)
    (hw : a.store.bytes? w = some q) :
    (printValue (.string x)).run a = (do printValue v; printValue w : Exec Unit).run a := by
  by_cases hfull : a.config.stackSize ≤ a.stack.size
  · have herror (u : Value) : (printValue u).run a = .error (.failed .stackOverflow) a :=
      run_bind_error (run_push_full hfull u) _
    rw [herror, run_bind_error (herror v)]
  have hroom := Nat.lt_of_not_le hfull
  rw [run_printValue hroom hx, run_withConsole, Console.write_append]
  obtain ⟨console, hconsole⟩ : ∃ console, a.console.write p = console := ⟨_, rfl⟩
  have hfirst := run_printValue hroom hv
  rw [run_withConsole, hconsole] at hfirst
  obtain ⟨_ | _, console⟩ := console
  · rw [hconsole, run_bind_error hfirst]
  · rw [hconsole, run_bind_ok hfirst, run_printValue (a := { a with console }) hroom hw, run_withConsole]

/-! ### Sums -/

theorem run_addTop_joins {rest : Array Value} (h : a.stack = (rest.push v).push w) (ht : v.isTextual ∧ w.isTextual)
    (hv : a.store.bytes? v = some p) (hw : a.store.bytes? w = some q) :
    ∃ s x t, addTop.run a = .ok () { a with store := s, stack := rest.push (.string x) } ∧ a.store.Extends s ∧
      s.Joins (p ++ q) x t :=
  ⟨_, _, _, run_addTop_texts h ht hv hw, .of_intern _ _, Store.joins_intern _ _⟩

/-- Values that are texts are joined to one that has the bytes of both. -/
theorem run_addTop_isText {rest : Array Value} (h : a.stack = (rest.push v).push w) (hv : v.IsText) (hw : w.IsText)
    (hp : a.store.bytes? v = some p) (hq : a.store.bytes? w = some q) :
    ∃ s x, addTop.run a = .ok () { a with store := s, stack := rest.push (.string x) } ∧ a.store.Extends s ∧
      s.bytes? (.string x) = some (p ++ q) := by
  obtain ⟨s, x, t, hrun, hextends, hjoins⟩ := run_addTop_joins h ⟨hv.isTextual, hw.isTextual⟩ hp hq
  have hwhole := hjoins.whole.2 ((hv.isValidUTF8 hp).append (hw.isValidUTF8 hq))
  exact ⟨s, x, hrun, hextends, hwhole ▸ hjoins.bytes?_eq⟩

/-- Adds three values from the left. -/
def sumLeft (u v w : Value) : Exec Unit := do
  push u
  push v
  addTop
  push w
  addTop

/-- Adds three values from the right. -/
def sumRight (u v w : Value) : Exec Unit := do
  push u
  push v
  push w
  addTop
  addTop

variable {u : Value} {r : ByteArray}

theorem run_sumLeft (hroom : a.stack.size + 2 ≤ a.config.stackSize) (hu : u.IsText) (hv : v.IsText) (hw : w.IsText)
    (hp : a.store.bytes? u = some p) (hq : a.store.bytes? v = some q) (hr : a.store.bytes? w = some r) :
    ∃ s x, (sumLeft u v w).run a = .ok () { a with store := s, stack := a.stack.push (.string x) } ∧ a.store.Extends s ∧
      s.bytes? (.string x) = some (p ++ q ++ r) := by
  have hu' := run_push (m := a) (by omega) u
  have hv' := run_push (m := { a with stack := a.stack.push u })
    (show (a.stack.push u).size < a.config.stackSize by rw [Array.size_push]; omega) v
  obtain ⟨s, x, hadd, hextends, hx⟩ :=
    run_addTop_isText (a := { a with stack := (a.stack.push u).push v }) rfl hu hv hp hq
  have hw' := run_push (m := { a with store := s, stack := a.stack.push (.string x) })
    (show (a.stack.push (.string x)).size < a.config.stackSize by rw [Array.size_push]; omega) w
  obtain ⟨s', y, hadd', hextends', hy⟩ :=
    run_addTop_isText (a := { a with store := s, stack := (a.stack.push (.string x)).push w }) rfl trivial hw hx
      (hextends.bytes?_eq hw.isTextual hr)
  refine ⟨s', y, ?_, hextends.trans hextends', hy⟩
  rw [sumLeft, run_bind_ok hu', run_bind_ok hv', run_bind_ok hadd, run_bind_ok hw', hadd']

theorem run_sumRight (hroom : a.stack.size + 3 ≤ a.config.stackSize) (hu : u.IsText) (hv : v.IsText) (hw : w.IsText)
    (hp : a.store.bytes? u = some p) (hq : a.store.bytes? v = some q) (hr : a.store.bytes? w = some r) :
    ∃ s x, (sumRight u v w).run a = .ok () { a with store := s, stack := a.stack.push (.string x) } ∧
      a.store.Extends s ∧
      s.bytes? (.string x) = some (p ++ q ++ r) := by
  have hu' := run_push (m := a) (by omega) u
  have hv' := run_push (m := { a with stack := a.stack.push u })
    (show (a.stack.push u).size < a.config.stackSize by rw [Array.size_push]; omega) v
  have hw' := run_push (m := { a with stack := (a.stack.push u).push v })
    (show ((a.stack.push u).push v).size < a.config.stackSize by rw [Array.size_push, Array.size_push]; omega) w
  obtain ⟨s, x, hadd, hextends, hx⟩ :=
    run_addTop_isText (a := { a with stack := ((a.stack.push u).push v).push w }) rfl hv hw hq hr
  obtain ⟨s', y, hadd', hextends', hy⟩ :=
    run_addTop_isText (a := { a with store := s, stack := (a.stack.push u).push (.string x) }) rfl hu trivial
      (hextends.bytes?_eq hu.isTextual hp) hx
  refine ⟨s', y, ?_, hextends.trans hextends', by rw [hy, ByteArray.append_assoc]⟩
  rw [sumRight, run_bind_ok hu', run_bind_ok hv', run_bind_ok hw', run_bind_ok hadd, hadd']

/-- Strings of the same bytes are equal. -/
theorem equals_of_bytes?_eq {s : Store} {x y : Symbol} (hx : s.bytes? (.string x) = some p)
    (hy : s.bytes? (.string y) = some p) : (Value.string x).equals (.string y) = true := by
  obtain ⟨t, ht, rfl⟩ := Option.map_eq_some_iff.1 hx
  obtain ⟨t', ht', heq⟩ := Option.map_eq_some_iff.1 hy
  obtain rfl := String.toByteArray_inj.1 heq
  obtain rfl := Store.symbol_eq ht ht'
  simp only [Value.equals, Value.same, decide_true]

/-- Sums of three texts are equal, however they are grouped. -/
theorem run_sums_equal (hroom : a.stack.size + 4 ≤ a.config.stackSize) (hu : u.IsText) (hv : v.IsText) (hw : w.IsText)
    (hp : a.store.bytes? u = some p) (hq : a.store.bytes? v = some q) (hr : a.store.bytes? w = some r) :
    ∃ s, (do sumLeft u v w; sumRight u v w; compareTop true : Exec Unit).run a =
      .ok () { a with store := s, stack := a.stack.push (.bool true) } := by
  obtain ⟨s, x, hleft, hextends, hx⟩ := run_sumLeft (by omega) hu hv hw hp hq hr
  obtain ⟨s', y, hright, hextends', hy⟩ :=
    run_sumRight (a := { a with store := s, stack := a.stack.push (.string x) })
      (show (a.stack.push (.string x)).size + 3 ≤ a.config.stackSize by rw [Array.size_push]; omega) hu hv hw
      (hextends.bytes?_eq hu.isTextual hp) (hextends.bytes?_eq hv.isTextual hq) (hextends.bytes?_eq hw.isTextual hr)
  refine ⟨s', ?_⟩
  rw [run_bind_ok hleft, run_bind_ok hright, run_compareTop rfl, equals_of_bytes?_eq (hextends'.bytes?_eq rfl hx) hy]
  rfl

/-- A string that two values have been joined to. It stands for their bytes; it prints as they do, if their bytes are
well-formed together; and it is the character that two bytes make up. -/
structure IsSum (a : Machine) (v w : Value) (x : Symbol) : Prop where
  joined : ∃ p q t, a.store.bytes? v = some p ∧ a.store.bytes? w = some q ∧ a.store.Joins (p ++ q) x t ∧
    ((p ++ q).IsValidUTF8 →
      (printValue (.string x)).run a = (do printValue v; printValue w : Exec Unit).run a)
  char (c : Char) (b b' : UInt8) (hv : v = .char b) (hw : w = .char b') (h : String.utf8EncodeChar c = [b, b']) :
    a.store.text? x = some (String.singleton c)

theorem isSum_of_joins {t : String} (hv : a.store.bytes? v = some p) (hw : a.store.bytes? w = some q)
    (h : a.store.Joins (p ++ q) x t) : a.IsSum v w x := by
  refine ⟨⟨p, q, t, hv, hw, h, fun hvalid => run_printValue_append ?_ hv hw⟩, ?_⟩
  · rw [h.bytes?_eq, h.whole.2 hvalid]
  · rintro c b b' rfl rfl hchar
    obtain rfl := Option.some.inj hv
    obtain rfl := Option.some.inj hw
    have hbytes : (⟨#[b]⟩ ++ ⟨#[b']⟩ : ByteArray) = [c].utf8Encode := by
      refine ByteArray.ext ?_
      rw [List.utf8Encode, List.data_toByteArray, List.flatMap_singleton, hchar, ByteArray.data_append]
      rfl
    have hwhole := h.whole.2 ⟨[c], hbytes⟩
    rw [hbytes] at hwhole
    rw [h.text]
    exact congrArg some (String.toByteArray_inj.1 (hwhole.trans String.toByteArray_ofList.symm))

theorem Idle.exists_bytes_of_holds {m : Machine} {source : String} (hm : m.Idle) (ha : m.IsAt source a)
    (hv : a.Holds v) :
    ∃ p, a.store.bytes? v = some p := exists_bytes (hm.sound_of_holds ha hv)

/-- The next step of a machine that is about to add two textual values puts their sum in their place. -/
theorem Running.adds (ha : a.Running) {f : Frame} {callers : List Frame} (hframes : a.frames = f :: callers)
    (hop : f.function.bytecode.opAt? f.ip = some .add) {rest : Array Value} (hstack : a.stack = (rest.push v).push w)
    (ht : v.isTextual ∧ w.isTextual) :
    ∃ x b, cycle.run a = .ok () b ∧ b.stack = rest.push (.string x) ∧ b.IsSum v w x := by
  obtain ⟨i, text, hi, hrun⟩ := ha.run_cycle_of_op hframes hop
  obtain ⟨p, hp⟩ := exists_bytes (ha.sound.second hstack)
  obtain ⟨q, hq⟩ := exists_bytes (ha.sound.top hstack)
  obtain ⟨s, x, t, hadd, hextends, hjoins⟩ := run_addTop_joins (a := a.behind f callers i text) hstack ht hp hq
  obtain ⟨op, operand⟩ := i
  obtain rfl : op = .add := hi
  have hperform : Instr.perform ⟨.add, operand⟩ = addTop := rfl
  rw [hperform, hadd] at hrun
  exact ⟨x, _, hrun, rfl, isSum_of_joins (hextends.bytes?_eq ht.1 hp) (hextends.bytes?_eq ht.2 hq) hjoins⟩

end

/-- At any step of a run of a machine with any history, two textual values that a program can come by have a sum, and a step
that adds such values puts theirs in their place: the one string of the text that their bytes, joined, are read as. That has
the same bytes just if those are well-formed, and then prints as the two values do, one after another; else each maximal
ill-formed part is replaced. Two bytes that make up a character give that character. So sums of strings and of characters
below 128 are equal, however they are grouped. -/
theorem sums_of_texts {m a : Machine} {source : String} (hm : m.Idle) (ha : m.IsAt source a) :
    (∀ v w, a.Holds v → a.Holds w → v.isTextual → w.isTextual → a.stack.size + 2 ≤ a.config.stackSize →
      ∃ s x, (do push v; push w; addTop : Exec Unit).run a = .ok () { a with store := s, stack := a.stack.push (.string x) } ∧
        IsSum { a with store := s, stack := a.stack.push (.string x) } v w x) ∧
    (∀ f callers (rest : Array Value) v w, a.frames = f :: callers → f.function.bytecode.opAt? f.ip = some .add →
      a.stack = (rest.push v).push w → v.isTextual → w.isTextual →
      ∃ x b, cycle.run a = .ok () b ∧ b.stack = rest.push (.string x) ∧ b.IsSum v w x) ∧
    ∀ u v w, a.Holds u → a.Holds v → a.Holds w → u.IsText → v.IsText → w.IsText →
      a.stack.size + 4 ≤ a.config.stackSize →
      ∃ s, (do sumLeft u v w; sumRight u v w; compareTop true : Exec Unit).run a =
        .ok () { a with store := s, stack := a.stack.push (.bool true) } := by
  refine ⟨fun v w hv hw htv htw hroom => ?_, fun f callers rest v w hframes hop hstack htv htw => ?_,
    fun u v w hu hv hw htu htv htw hroom => ?_⟩
  · obtain ⟨p, hp⟩ := hm.exists_bytes_of_holds ha hv
    obtain ⟨q, hq⟩ := hm.exists_bytes_of_holds ha hw
    have hv' := run_push (m := a) (by omega) v
    have hw' := run_push (m := { a with stack := a.stack.push v })
      (show (a.stack.push v).size < a.config.stackSize by rw [Array.size_push]; omega) w
    obtain ⟨s, x, t, hadd, hextends, hjoins⟩ :=
      run_addTop_joins (a := { a with stack := (a.stack.push v).push w }) rfl ⟨htv, htw⟩ hp hq
    refine ⟨s, x, by rw [run_bind_ok hv', run_bind_ok hw', hadd], ?_⟩
    exact isSum_of_joins (hextends.bytes?_eq htv hp) (hextends.bytes?_eq htw hq) hjoins
  · obtain rfl | ha := ha
    · rw [hm.resting.frames] at hframes
      cases hframes
    · exact (hm.reaches ha).1.adds hframes hop hstack ⟨htv, htw⟩
  · obtain ⟨p, hp⟩ := hm.exists_bytes_of_holds ha hu
    obtain ⟨q, hq⟩ := hm.exists_bytes_of_holds ha hv
    obtain ⟨r, hr⟩ := hm.exists_bytes_of_holds ha hw
    exact run_sums_equal hroom htu htv htw hp hq hr

/-- Two bytes of one character, each read as a line, beside a string that has a variable. -/
theorem sums_of_texts_two_bytes :
    ∃ m a, m = Machine.new {} { input := [0xC3, 10, 0xA9, 10] } ∧ m.Idle ∧
      m.IsAt "uwu s := \"é\" uwu a uwu b iwi -c a << iwi -c b << ouo a + b >>" a ∧
      (a.Holds (.char 0xC3) ∧ a.Holds (.char 0xA9) ∧ ∃ s x, IsSum { a with store := s, stack := a.stack.push (.string x) }
        (.char 0xC3) (.char 0xA9) x) ∧
      (∃ x b, cycle.run a = .ok () b ∧ b.stack = #[.function ⟨0⟩, .string x] ∧ b.IsSum (.char 0xC3) (.char 0xA9) x ∧
        b.store.text? x = some "é") ∧
      a.Holds (.string ⟨5⟩) ∧ ∃ s, (do
          sumLeft (.string ⟨5⟩) (.string ⟨5⟩) (.string ⟨5⟩)
          sumRight (.string ⟨5⟩) (.string ⟨5⟩) (.string ⟨5⟩)
          compareTop true : Exec Unit).run a = .ok () { a with store := s, stack := a.stack.push (.bool true) } := by
  have hview : ((Machine.new {} { input := [0xC3, 10, 0xA9, 10] }).reached
      "uwu s := \"é\" uwu a uwu b iwi -c a << iwi -c b << ouo a + b >>" 14).map (fun a =>
        (a.stack, a.globals[(⟨4⟩ : Symbol)]?, a.config.stackSize, a.frames.map fun f => f.function.bytecode.opAt? f.ip)) =
      some (#[.function ⟨0⟩, .char 0xC3, .char 0xA9], some (.string ⟨5⟩), ({} : Config).stackSize, [some .add]) := by
    decide +kernel
  obtain ⟨a, hreached, hview⟩ := Option.map_eq_some_iff.1 hview
  simp only [Prod.mk.injEq] at hview
  obtain ⟨hstack, hglobal, hsize, hops⟩ := hview
  obtain ⟨f, hframes, hop⟩ := List.map_eq_singleton_iff.1 hops
  have hm : (Machine.new {} { input := [0xC3, 10, 0xA9, 10] }).Idle := .new _ _
  have ha := Or.inr (a := a = Machine.new {} { input := [0xC3, 10, 0xA9, 10] }) (reaches_of_reached hreached)
  obtain ⟨hsum, hstep, hgroup⟩ := sums_of_texts hm ha
  have hroom : a.stack.size + 4 ≤ a.config.stackSize := by
    rw [hstack, hsize]
    decide
  have hfirst : a.Holds (.char 0xC3) := .stack (by rw [hstack]; simp)
  have hsecond : a.Holds (.char 0xA9) := .stack (by rw [hstack]; simp)
  have hstring : a.Holds (.string ⟨5⟩) := .global hglobal
  obtain ⟨s, x, -, hx⟩ := hsum _ _ hfirst hsecond rfl rfl (by omega)
  obtain ⟨y, b, hrun, hb, hy⟩ := hstep f [] #[.function ⟨0⟩] _ _ hframes hop hstack rfl rfl
  exact ⟨_, a, rfl, hm, ha, ⟨hfirst, hsecond, s, x, hx⟩, ⟨y, b, hrun, hb, hy, hy.char 'é' 0xC3 0xA9 rfl rfl rfl⟩, hstring,
    hgroup _ _ _ hstring hstring hstring trivial trivial trivial hroom⟩

end Machine
end StackScript
