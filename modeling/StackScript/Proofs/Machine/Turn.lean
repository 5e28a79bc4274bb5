import StackScript.Proofs.Machine.Advance

/-! Steps of a running machine, told by the instruction that comes next: it is shown if that is asked for, and carried out
behind its place. -/
namespace StackScript
namespace Machine

/-- A machine that has shown an instruction and read it. -/
def behind (a : Machine) (f : Frame) (callers : List Frame) (i : Instr) (text : String) : Machine :=
  { a with frames := { f with ip := f.ip + i.size } :: callers, console := a.console.note text }

section
variable (a : Machine) (f : Frame) (callers : List Frame) (i : Instr) (text : String)

@[simp] theorem config_behind : (a.behind f callers i text).config = a.config := rfl

@[simp] theorem stack_behind : (a.behind f callers i text).stack = a.stack := rfl

@[simp] theorem frames_behind : (a.behind f callers i text).frames = { f with ip := f.ip + i.size } :: callers := rfl

end

section
variable {a : Machine} {f : Frame} {callers : List Frame} {pre post : List Instr} {i : Instr}

/-- A step, where the code is known. -/
theorem Running.run_cycle (ha : a.Running) (hframes : a.frames = f :: callers)
    (hcode : f.function.bytecode.Consists (pre ++ i :: post)) (hip : f.ip = codeLength pre) :
    ∃ text, cycle.run a = i.perform.run (a.behind f callers i text) := by
  obtain ⟨f', callers', pre', i', post', hat⟩ := ha.at
  obtain ⟨text, htext⟩ := exists_traceText hat ha.sound
  refine ⟨if a.config.traceExecution then text else "", ?_⟩
  obtain ⟨shown, hshown⟩ : ∃ shown : Machine,
      shown = { a with console := a.console.note (if a.config.traceExecution then text else "") } := ⟨_, rfl⟩
  have hframes' : shown.frames = f :: callers := by rw [hshown, ← hframes]
  rw [cycle, run_bind_ok (run_observe htext), ← hshown, run_step hframes' hcode hip, ← hip, goTo_eq hframes', hshown]
  rfl

/-- A step, where the operation is known. -/
theorem Running.run_cycle_of_op (ha : a.Running) (hframes : a.frames = f :: callers) {op : Opcode}
    (hop : f.function.bytecode.opAt? f.ip = some op) :
    ∃ (i : Instr) (text : String), i.op = op ∧ cycle.run a = i.perform.run (a.behind f callers i text) := by
  obtain ⟨f', callers', pre, i, post, hat⟩ := ha.at
  obtain ⟨rfl, rfl⟩ := List.cons.inj (hframes.symm.trans hat.frames)
  obtain ⟨text, hrun⟩ := ha.run_cycle hframes hat.stands.code hat.stands.ip
  rw [hat.stands.ip, hat.stands.code.opAt?] at hop
  exact ⟨i, text, Option.some.inj hop, hrun⟩

end

/-! ### Single instructions -/

section
variable {a : Machine} {f : Frame} {callers : List Frame} {pre post : List Instr} {rest : Array Value} {v : Value}

/-- A value is dropped. -/
theorem Running.drops (ha : a.Running) (hframes : a.frames = f :: callers)
    (hcode : f.function.bytecode.Consists (pre ++ ⟨.pop, 0⟩ :: post)) (hip : f.ip = codeLength pre)
    (hstack : a.stack = rest.push v) :
    ∃ text, cycle.run a = .ok () { a.behind f callers ⟨.pop, 0⟩ text with stack := rest } := by
  obtain ⟨text, hrun⟩ := ha.run_cycle hframes hcode hip
  have hpop := run_pop (m := a.behind f callers ⟨.pop, 0⟩ text) hstack
  exact ⟨text, hrun.trans (run_bind_ok hpop _)⟩

/-- A slot gets the value on top of the stack. -/
theorem Running.setsSlot (ha : a.Running) (hframes : a.frames = f :: callers) {s : ℕ}
    (hcode : f.function.bytecode.Consists (pre ++ ⟨.setLocal, s⟩ :: post)) (hip : f.ip = codeLength pre)
    (hstack : a.stack = rest.push v) (hs : f.base + s < rest.size) :
    ∃ text, cycle.run a = .ok () { a.behind f callers ⟨.setLocal, s⟩ text with
      stack := (rest.setIfInBounds (f.base + s) v).push v } := by
  obtain ⟨text, hrun⟩ := ha.run_cycle hframes hcode hip
  have hslot : s.toUInt8.toNat = s := UInt8.toNat_ofNat_of_lt' (hcode.fits ⟨.setLocal, s⟩ (by simp))
  have hlt : f.base + s.toUInt8.toNat < (a.behind f callers ⟨.setLocal, s⟩ text).stack.size := by
    rw [stack_behind, hstack, Array.size_push, hslot]
    exact Nat.lt_succ_of_lt hs
  have hpeek := run_peek_zero (m := a.behind f callers ⟨.setLocal, s⟩ text) hstack
  have hset := run_setSlot (m := a.behind f callers ⟨.setLocal, s⟩ text) (frames_behind ..) hlt v
  rw [hslot, stack_behind, hstack, push_setIfInBounds hs] at hset
  exact ⟨text, hrun.trans ((run_bind_ok hpeek _).trans hset)⟩

variable {x : Symbol} {j : ℕ} (ha : a.Running) (hframes : a.frames = f :: callers)
  (hcode : f.function.bytecode.Consists (pre ++ ⟨.setGlobal, j⟩ :: post)) (hip : f.ip = codeLength pre)
  (hname : f.function.bytecode.constants[j]? = some (.string x))
include ha hframes hcode hip hname

/-- A global variable gets the value on top of the stack. -/
theorem Running.setsGlobal (hstack : a.stack = rest.push v) (hknown : a.globals.contains x) :
    ∃ text, cycle.run a = .ok () { a.behind f callers ⟨.setGlobal, j⟩ text with globals := a.globals.insert x v } := by
  obtain ⟨text, hrun⟩ := ha.run_cycle hframes hcode hip
  have hread := run_nameAt (m := a.behind f callers ⟨.setGlobal, j⟩ text) (frames_behind ..) hname
  have hpeek := run_peek_zero (m := a.behind f callers ⟨.setGlobal, j⟩ text) hstack
  refine ⟨text, hrun.trans ((run_bind_ok hread _).trans ((run_bind_ok hpeek _).trans ?_))⟩
  rw [run_get_bind]
  exact congrArg (EStateM.run · _) (if_pos hknown)

/-- There is no global variable of the name. -/
theorem Running.findsNone {name : String} (hstack : a.stack = rest.push v) (hunknown : ¬a.globals.contains x)
    (htext : a.store.text? x = some name) : ∃ text,
      cycle.run a = .error (.failed (.undefinedVariable name)) (a.behind f callers ⟨.setGlobal, j⟩ text) := by
  obtain ⟨text, hrun⟩ := ha.run_cycle hframes hcode hip
  have hread := run_nameAt (m := a.behind f callers ⟨.setGlobal, j⟩ text) (frames_behind ..) hname
  have hpeek := run_peek_zero (m := a.behind f callers ⟨.setGlobal, j⟩ text) hstack
  have hfail := run_undefined (α := Unit) (m := a.behind f callers ⟨.setGlobal, j⟩ text) htext
  refine ⟨text, hrun.trans ((run_bind_ok hread _).trans ((run_bind_ok hpeek _).trans (Eq.trans ?_ hfail)))⟩
  rw [run_get_bind]
  exact congrArg (EStateM.run · _) (if_neg hunknown)

end

end Machine
end StackScript
