import StackScript.Proofs.Machine.Perform

/-! What the operations come to: each of them on a stack that holds its operands, first where it goes on and then
where it fails. -/
namespace StackScript

theorem push_setIfInBounds {rest : Array Value} {i : Nat} (hi : i < rest.size) (v w : Value) :
    (rest.push w).setIfInBounds i v = (rest.setIfInBounds i v).push w := by
  refine Array.ext_getElem? fun j => ?_
  simp only [Array.getElem?_setIfInBounds, Array.getElem?_push, Array.size_push, Array.size_setIfInBounds]
  by_cases hj : i = j
  · rw [if_pos hj, if_pos hj, if_pos (by omega), if_neg (by omega), if_pos hi]
  · rw [if_neg hj, if_neg hj]

namespace Machine
variable {m : Machine} {f : Frame} {callers : List Frame} {rest : Array Value} {v w : Value}

/-! ### Reading and writing values -/

theorem run_getSlot (h : m.frames = f :: callers) {slot : UInt8} (hv : m.stack[f.base + slot.toNat]? = some v) :
    (getSlot slot).run m = .ok v m := by
  rw [getSlot, run_bind_ok (run_frame h)]
  exact congrArg (fun o => (orStuck .badSlot o).run m) hv

theorem run_setSlot (h : m.frames = f :: callers) {slot : UInt8} (hs : f.base + slot.toNat < m.stack.size) (v : Value) :
    (setSlot slot v).run m = .ok () { m with stack := m.stack.setIfInBounds (f.base + slot.toNat) v } := by
  rw [setSlot, run_bind_ok (run_frame h)]
  simp [EStateM.run_bind, EStateM.run_get, EStateM.run_modify, hs]

theorem run_nameAt (h : m.frames = f :: callers) {k : Nat} {name : Symbol}
    (hk : f.function.bytecode.constants[k]? = some (.string name)) : (nameAt k).run m = .ok name m := by
  have hread : (constantAt k).run m = .ok (.string name) m := by rw [run_constantAt h, hk, run_orStuck_some]
  rw [nameAt, run_bind_ok hread]
  rfl

theorem run_undefined {α : Type} {name : Symbol} {text : String} (h : m.store.text? name = some text) :
    (undefined name : Exec α).run m = .error (.failed (.undefinedVariable text)) m := by
  rw [undefined, run_bind_ok (EStateM.run_get m), h, run_bind_ok (run_orStuck_some _ _ _), run_fail]

theorem run_intern (text : String) (m : Machine) :
    (intern text).run m = .ok (m.store.intern text).1 { m with store := (m.store.intern text).2 } := rfl

theorem run_truncate (height : Nat) (m : Machine) :
    (truncate height).run m = .ok () { m with stack := m.stack.shrink height } := rfl

/-! ### Operators -/

theorem run_combineNumbers {x y : Double} (h : m.stack = (rest.push (.number x)).push (.number y))
    (g : Double → Double → Value) : (combineNumbers g).run m = .ok () { m with stack := rest.push (g x y) } := by
  rw [combineNumbers, run_bind_ok (run_peek_one h), run_bind_ok (run_peek_zero h)]
  exact (run_bind_ok (run_pop h) _).trans (run_setTop rfl _)

theorem run_combineNumbers_fail (h : m.stack = (rest.push v).push w)
    (hn : ¬∃ x y, v = .number x ∧ w = .number y) (g : Double → Double → Value) :
    (combineNumbers g).run m = .error (.failed .expectedTwoNumbers) m := by
  rw [combineNumbers, run_bind_ok (run_peek_one h), run_bind_ok (run_peek_zero h)]
  split
  · exact absurd ⟨_, _, rfl, rfl⟩ hn
  · exact run_fail _ _

theorem run_addTop_numbers {x y : Double} (h : m.stack = (rest.push (.number x)).push (.number y)) :
    addTop.run m = .ok () { m with stack := rest.push (.number (x.add y)) } := by
  rw [addTop, run_bind_ok (run_peek_one h), run_bind_ok (run_peek_zero h)]
  exact (run_bind_ok (run_pop h) _).trans (run_setTop rfl _)

theorem isTextual_number {v w : Value} (ht : v.isTextual ∧ w.isTextual) : ¬∃ x y, v = .number x ∧ w = .number y := by
  rintro ⟨x, y, rfl, rfl⟩
  exact absurd ht.1 Bool.false_ne_true

theorem run_addTop_texts (h : m.stack = (rest.push v).push w) (ht : v.isTextual ∧ w.isTextual) {left right : ByteArray}
    (hl : m.store.bytes? v = some left) (hr : m.store.bytes? w = some right) :
    addTop.run m = .ok () { m with
      store := (m.store.intern (Utf8.decode (left ++ right))).2
      stack := rest.push (.string (m.store.intern (Utf8.decode (left ++ right))).1) } := by
  rw [addTop, run_bind_ok (run_peek_one h), run_bind_ok (run_peek_zero h)]
  split
  · exact absurd ⟨_, _, rfl, rfl⟩ (isTextual_number ht)
  · rw [if_pos ht, run_bind_ok (EStateM.run_get m), hl, run_bind_ok (run_orStuck_some _ _ _),
      run_bind_ok (EStateM.run_get m), hr, run_bind_ok (run_orStuck_some _ _ _), run_bind_ok (run_intern _ m)]
    have hstack : ({ m with store := (m.store.intern (Utf8.decode (left ++ right))).2 } : Machine).stack =
      (rest.push v).push w := h
    exact (run_bind_ok (run_pop hstack) _).trans (run_setTop rfl _)

theorem run_addTop_fail (h : m.stack = (rest.push v).push w) (hn : ¬∃ x y, v = .number x ∧ w = .number y)
    (ht : ¬(v.isTextual ∧ w.isTextual)) : addTop.run m = .error (.failed .invalidAddOperands) m := by
  rw [addTop, run_bind_ok (run_peek_one h), run_bind_ok (run_peek_zero h)]
  split
  · exact absurd ⟨_, _, rfl, rfl⟩ hn
  · rw [if_neg ht, run_fail]

theorem run_compareTop (h : m.stack = (rest.push v).push w) (equal : Bool) :
    (compareTop equal).run m = .ok () { m with stack := rest.push (.bool (v.equals w == equal)) } := by
  rw [compareTop, run_bind_ok (run_pop h), run_bind_ok (run_peek_zero rfl)]
  exact run_setTop rfl _

/-! ### The console -/

theorem run_withConsole {α : Type} (f : Console → Except ConsoleError α × Console) (m : Machine) :
    (withConsole f).run m = match (f m.console).1 with
      | .ok a => .ok a { m with console := (f m.console).2 }
      | .error e => .error (.failed (.console e)) { m with console := (f m.console).2 } := by
  simp only [withConsole, EStateM.run]
  rcases f m.console with ⟨_ | _, _⟩ <;> rfl

theorem run_printTop (h : m.stack = rest.push v) {bytes : ByteArray} (hb : m.store.bytes? v = some bytes) :
    printTop.run m = (withConsole (·.write bytes)).run { m with stack := rest } := by
  rw [printTop, run_bind_ok (run_pop h), run_bind_ok (EStateM.run_get _), hb, run_bind_ok (run_orStuck_some _ _ _)]

/-! ### Calls -/

theorem extract_push_append (below : Array Value) (callee : Value) (args : Array Value) :
    (below.push callee ++ args).extract ((below.push callee ++ args).size - args.size)
      (below.push callee ++ args).size = args := by
  apply Array.ext
  · simp
  · intro k h₁ h₂
    simp only [Array.getElem_extract, Array.size_append, Nat.add_sub_cancel]
    rw [Array.getElem_append_right (by simp)]
    simp

theorem shrink_push_append (below : Array Value) (callee : Value) (args : Array Value) :
    (below.push callee ++ args).shrink below.size = below := by
  apply Array.ext
  · simp
  · intro k h₁ h₂
    rw [Array.getElem_shrink, Array.getElem_append_left (by simp; omega), Array.getElem_push_lt h₂]

section
variable {below args : Array Value} {callee : Value} {count : UInt8}

theorem run_callee (h : m.stack = below.push callee ++ args) (hc : args.size = count.toNat) :
    (peek count.toNat).run m = .ok callee m := by
  have hlt : count.toNat < m.stack.size := by
    rw [h]
    simp
    omega
  refine run_peek hlt ?_
  have hindex : m.stack.size - 1 - count.toNat = below.size := by
    rw [h]
    simp
    omega
  rw [hindex, h, Array.getElem?_append_left (by simp), Array.getElem?_push_size]

theorem run_callFunction {g : Function} (h : m.stack = below.push callee ++ args) (hc : args.size = count.toNat)
    (ha : count = g.arity) (hf : m.frames.length ≠ m.config.maxFrames) :
    (callFunction g count).run m = .ok () { m with frames := ⟨g, 0, below.size⟩ :: m.frames } := by
  have hsize : ¬m.stack.size < count.toNat + 1 := by
    rw [h]
    simp
    omega
  have hbase : m.stack.size - count.toNat - 1 = below.size := by
    rw [h]
    simp
    omega
  rw [callFunction, if_neg (fun hne => hne ha)]
  simp only [EStateM.run_bind, EStateM.run_get, if_neg hf, if_neg hsize, EStateM.run_modify, hbase]

theorem run_callFunction_arity {g : Function} (ha : count ≠ g.arity) :
    (callFunction g count).run m = .error (.failed (.arityMismatch g.arity count)) m := by
  rw [callFunction, if_pos ha, run_bind_error (run_fail _ _)]

theorem run_callFunction_full {g : Function} (ha : count = g.arity) (hf : m.frames.length = m.config.maxFrames) :
    (callFunction g count).run m = .error (.failed .stackOverflow) m := by
  rw [callFunction, if_neg (fun hne => hne ha)]
  simp only [EStateM.run_bind, EStateM.run_get, if_pos hf, run_fail]

/-- There is room for the result, which comes in the place of the callee. -/
theorem run_callNative {n : Native} (h : m.stack = below.push callee ++ args) (hc : args.size = count.toNat)
    (ha : count = n.arity) (hroom : m.stack.size ≤ m.config.stackSize) :
    (callNative n count).run m = .ok () { m with stack := below.push (n.call args.toList) } := by
  have hsize : ¬m.stack.size < count.toNat + 1 := by
    rw [h]
    simp
    omega
  have hbase : m.stack.size - count.toNat - 1 = below.size := by
    rw [h]
    simp
    omega
  have hargs : m.stack.extract (m.stack.size - count.toNat) m.stack.size = args := by
    rw [h, ← hc, extract_push_append]
  have hshrink : m.stack.shrink below.size = below := by rw [h, shrink_push_append]
  have hpush : below.size < m.config.stackSize := by omega
  rw [callNative, if_neg (fun hne => hne ha)]
  simp only [EStateM.run_bind, EStateM.run_get, if_neg hsize, run_truncate, hbase, hargs, hshrink]
  exact run_push hpush _

theorem run_callNative_arity {n : Native} (ha : count ≠ n.arity) :
    (callNative n count).run m = .error (.failed (.arityMismatch n.arity count)) m := by
  rw [callNative, if_pos ha, run_bind_error (run_fail _ _)]

theorem run_callBelow_function (h : m.stack = below.push callee ++ args) (hc : args.size = count.toNat)
    {r : FunctionRef} {g : Function} (hr : callee = .function r) (hg : m.store.function? r = some g) :
    (callBelow count).run m = (callFunction g count).run m := by
  rw [callBelow, run_bind_ok (run_callee h hc), hr]
  simp only [EStateM.run_bind, EStateM.run_get, hg, run_orStuck_some]

theorem run_callBelow_native (h : m.stack = below.push callee ++ args) (hc : args.size = count.toNat)
    {r : NativeRef} {n : Native} (hr : callee = .native r) (hn : m.store.native? r = some n) :
    (callBelow count).run m = (callNative n count).run m := by
  rw [callBelow, run_bind_ok (run_callee h hc), hr]
  simp only [EStateM.run_bind, EStateM.run_get, hn, run_orStuck_some]

theorem run_callBelow_fail (h : m.stack = below.push callee ++ args) (hc : args.size = count.toNat)
    (hf : ∀ r, callee ≠ .function r) (hn : ∀ r, callee ≠ .native r) :
    (callBelow count).run m = .error (.failed .notCallable) m := by
  rw [callBelow, run_bind_ok (run_callee h hc)]
  split
  · exact absurd rfl (hf _)
  · exact absurd rfl (hn _)
  · exact run_fail _ _

end

/-- A call that another one is waiting for ends: what is on the stack from its slot zero on makes room for the value. -/
theorem run_returnTop {own : Array Value} {g : Frame} (hf : m.frames = f :: g :: callers)
    (h : m.stack = (rest ++ own).push v) (hb : rest.size = f.base) (hroom : m.stack.size ≤ m.config.stackSize) :
    returnTop.run m = .ok () { m with frames := g :: callers, stack := rest.push v } := by
  have hshrink : (rest ++ own).shrink f.base = rest := by
    apply Array.ext
    · simp [hb]
    · intro k h₁ h₂
      rw [Array.getElem_shrink, Array.getElem_append_left h₂]
  have hpush : rest.size < m.config.stackSize := by
    rw [h] at hroom
    simp at hroom
    omega
  rw [returnTop, run_bind_ok (run_pop h), run_bind_ok (EStateM.run_get _)]
  simp only [hf, EStateM.run_bind, EStateM.run_modify, List.isEmpty_cons, Bool.false_eq_true, if_false,
    run_truncate, hshrink]
  exact run_push hpush _

/-- The script ends. -/
theorem run_returnTop_script (hf : m.frames = [f]) (h : m.stack = (rest.push w).push v) :
    returnTop.run m = .error .finished { m with frames := [], stack := rest } := by
  rw [returnTop, run_bind_ok (run_pop h), run_bind_ok (EStateM.run_get _)]
  simp only [hf, EStateM.run_bind, EStateM.run_modify, List.isEmpty_nil, if_true]
  have hstack : ({ m with stack := rest.push w, frames := [] } : Machine).stack = rest.push w := rfl
  rw [run_pop hstack]
  rfl

end Machine
end StackScript
