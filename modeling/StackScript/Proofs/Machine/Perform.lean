import StackScript.Machine.Session
import StackScript.Proofs.Code.Instr

/-! Steps of the machine as instructions. At a place between two instructions a step reads a whole instruction,
so that what it does is told by the operation and by the number that its operand bytes hold. -/
namespace StackScript
namespace Machine

/-! ### Runs of actions -/

section
variable {α β : Type} {m m' : Machine}

theorem run_bind_ok {a : Exec α} {x : α} (h : a.run m = .ok x m') (f : α → Exec β) :
    (a >>= f).run m = (f x).run m' := by
  rw [EStateM.run_bind, h]

theorem run_bind_error {a : Exec α} {halt : Halt} (h : a.run m = .error halt m') (f : α → Exec β) :
    (a >>= f).run m = .error halt m' := by
  rw [EStateM.run_bind, h]

theorem run_get_bind (f : Machine → Exec α) (m : Machine) : (get >>= f).run m = (f m).run m := rfl

@[simp] theorem run_fail (e : RuntimeError) (m : Machine) : (fail e : Exec α).run m = .error (.failed e) m := rfl

@[simp] theorem run_stuck (r : Stuck) (m : Machine) : (stuck r : Exec α).run m = .error (.stuck r) m := rfl

@[simp] theorem run_orStuck_some (r : Stuck) (x : α) (m : Machine) : (orStuck r (some x)).run m = .ok x m := rfl

end

/-! ### The stack -/

section
variable {m : Machine} {rest : Array Value} {v w : Value}

theorem run_push (h : m.stack.size < m.config.stackSize) (v : Value) :
    (push v).run m = .ok () { m with stack := m.stack.push v } := if_neg (Nat.not_le_of_lt h)

theorem run_push_full (h : m.config.stackSize ≤ m.stack.size) (v : Value) :
    (push v).run m = .error (.failed .stackOverflow) m := if_pos h

theorem run_pop (h : m.stack = rest.push v) : pop.run m = .ok v { m with stack := rest } := by
  simp [pop, EStateM.run, h]

theorem run_peek {depth : Nat} (hd : depth < m.stack.size) (h : m.stack[m.stack.size - 1 - depth]? = some v) :
    (peek depth).run m = .ok v m := by
  simp only [peek, EStateM.run, if_pos hd, h]

theorem run_peek_zero (h : m.stack = rest.push v) : (peek 0).run m = .ok v m := by
  refine run_peek (by rw [h, Array.size_push]; exact Nat.succ_pos _) ?_
  rw [h, Array.size_push]
  exact Array.getElem?_push_size

theorem run_peek_one (h : m.stack = (rest.push v).push w) : (peek 1).run m = .ok v m := by
  refine run_peek (by rw [h, Array.size_push, Array.size_push]; omega) ?_
  rw [h, Array.size_push, Array.size_push, Array.getElem?_push, if_neg (by rw [Array.size_push]; omega)]
  exact Array.getElem?_push_size

theorem run_setTop (h : m.stack = rest.push v) (w : Value) :
    (setTop w).run m = .ok () { m with stack := rest.push w } := by
  simp [setTop, EStateM.run, h]

end

/-! ### Places in the code -/

/-- The innermost call goes on from another place. -/
def goTo (m : Machine) (ip : Nat) : Machine :=
  match m.frames with
  | [] => m
  | f :: callers => { m with frames := { f with ip } :: callers }

section
variable {m : Machine} {f : Frame} {callers : List Frame}

theorem goTo_eq (h : m.frames = f :: callers) (ip : Nat) :
    m.goTo ip = { m with frames := { f with ip } :: callers } := by
  rw [goTo, h]

theorem run_readByte {b : UInt8} (h : m.frames = f :: callers) (hb : f.function.bytecode.code[f.ip]? = some b) :
    readByte.run m = .ok b (m.goTo (f.ip + 1)) := by
  simp [readByte, EStateM.run, h, hb, goTo]

theorem run_frame (h : m.frames = f :: callers) : frame.run m = .ok f m := by
  simp [frame, h]

theorem run_jumpForward (h : m.frames = f :: callers) (distance : Nat) :
    (jumpForward distance).run m = .ok () (m.goTo (f.ip + distance)) := by
  simp [jumpForward, jumpTo, EStateM.run, h, goTo]

theorem run_jumpBack (h : m.frames = f :: callers) {distance : Nat} (hd : distance ≤ f.ip) :
    (jumpBack distance).run m = .ok () (m.goTo (f.ip - distance)) := by
  simp [jumpBack, jumpTo, EStateM.run, h, hd, goTo]

end

/-! ### Instructions -/

/-- A constant of the innermost call. -/
def constantAt (i : Nat) : Exec Value := do orStuck .badConstant ((← frame).function.bytecode.constants[i]?)

/-- A constant of the innermost call that is a name. -/
def nameAt (i : Nat) : Exec Symbol := do
  match ← constantAt i with
  | .string name => return name
  | _ => stuck .badName

end Machine

/-- Carries out an instruction whose bytes have been read. -/
def Instr.perform (i : Instr) : Exec Unit :=
  match i.op with
  | .constant => do Machine.push (← Machine.constantAt i.operand)
  | .getLocal => do Machine.push (← Machine.getSlot i.operand.toUInt8)
  | .setLocal => do Machine.setSlot i.operand.toUInt8 (← Machine.peek 0)
  | .getGlobal => do
    let name ← Machine.nameAt i.operand
    match (← get).globals[name]? with
    | some v => Machine.push v
    | none => Machine.undefined name
  | .setGlobal => do
    let name ← Machine.nameAt i.operand
    let v ← Machine.peek 0
    if (← get).globals.contains name then
      modify fun m => { m with globals := m.globals.insert name v }
    else Machine.undefined name
  | .defineGlobal => do
    let name ← Machine.nameAt i.operand
    let v ← Machine.pop
    modify fun m => { m with globals := m.globals.insert name v }
  | .jump => Machine.jumpForward i.operand
  | .jumpIfFalse => do if (← Machine.peek 0).isFalsey then Machine.jumpForward i.operand
  | .jumpIfTrue => do unless (← Machine.peek 0).isFalsey do Machine.jumpForward i.operand
  | .loop => Machine.jumpBack i.operand
  | .call => Machine.callBelow i.operand.toUInt8
  | op => Machine.execute op

namespace Machine
variable {α β : Type} {m : Machine} {f : Frame} {callers : List Frame} {pre post : List Instr} {i : Instr}

@[simp] theorem goTo_goTo (m : Machine) (ip ip' : Nat) : (m.goTo ip).goTo ip' = m.goTo ip' := by
  obtain ⟨config, store, globals, stack, frames, console⟩ := m
  cases frames <;> rfl

@[simp] theorem config_goTo (m : Machine) (ip : Nat) : (m.goTo ip).config = m.config := by
  obtain ⟨config, store, globals, stack, frames, console⟩ := m
  cases frames <;> rfl

theorem frames_goTo (h : m.frames = f :: callers) (ip : Nat) : (m.goTo ip).frames = { f with ip } :: callers := by
  rw [goTo_eq h]

theorem goTo_self (h : m.frames = f :: callers) : m.goTo f.ip = m := by
  rw [goTo_eq h, ← h]

/-- Behind the byte of an operation with one operand byte. -/
theorem run_readByte_operand (h : m.frames = f :: callers) (hc : f.function.bytecode.Consists (pre ++ i :: post))
    (hip : f.ip = codeLength pre + 1) (hw : i.op.width = 1) :
    readByte.run m = .ok i.operand.toUInt8 (m.goTo (codeLength pre + i.size)) := by
  have hbyte : f.function.bytecode.code[f.ip]? = some i.operand.toUInt8 := by rw [hip, hc.operandByte hw]
  rw [run_readByte h hbyte, hip, Instr.size, hw]

/-- Behind the byte of an operation with two operand bytes. -/
theorem run_readPair_operand (h : m.frames = f :: callers) (hc : f.function.bytecode.Consists (pre ++ i :: post))
    (hip : f.ip = codeLength pre + 1) (hw : i.op.width = 2) :
    readPair.run m = .ok i.operand (m.goTo (codeLength pre + i.size)) := by
  have hpair := hc.readPair? hw
  rw [Bytecode.readPair?] at hpair
  split at hpair
  · rename_i high low hhigh hlow
    rw [← hip] at hhigh hlow
    have hnext := run_readByte (frames_goTo h (f.ip + 1)) hlow
    rw [readPair, run_bind_ok (run_readByte h hhigh), run_bind_ok hnext, ← Option.some.inj hpair, goTo_goTo, hip,
      Instr.size, hw]
    rfl
  · cases hpair

theorem run_constantAt (h : m.frames = f :: callers) (k : Nat) :
    (constantAt k).run m = (orStuck .badConstant f.function.bytecode.constants[k]?).run m := by
  rw [constantAt, run_bind_ok (run_frame h)]

theorem run_readConstant (h : m.frames = f :: callers) (hc : f.function.bytecode.Consists (pre ++ i :: post))
    (hip : f.ip = codeLength pre + 1) (hw : i.op.width = 1) :
    readConstant.run m = (constantAt i.operand).run (m.goTo (codeLength pre + i.size)) := by
  have hfits : i.operand < 256 ^ 1 := hw ▸ hc.fits i (by simp)
  have hframe := frames_goTo h (codeLength pre + i.size)
  rw [readConstant, run_bind_ok (run_readByte_operand h hc hip hw), run_bind_ok (run_frame hframe),
    run_constantAt hframe, Bytecode.constant?, UInt8.toNat_ofNat_of_lt' hfits]

theorem run_bind_congr {a b : Exec α} {m' : Machine} (h : a.run m = b.run m') (k : α → Exec β) :
    (a >>= k).run m = (b >>= k).run m' := by
  rw [EStateM.run_bind, EStateM.run_bind, h]

theorem run_readName (h : m.frames = f :: callers) (hc : f.function.bytecode.Consists (pre ++ i :: post))
    (hip : f.ip = codeLength pre + 1) (hw : i.op.width = 1) :
    readName.run m = (nameAt i.operand).run (m.goTo (codeLength pre + i.size)) :=
  run_bind_congr (run_readConstant h hc hip hw) _

/-- Behind the byte of an operation, carrying it out reads the rest of the instruction and performs it. -/
theorem run_execute (h : m.frames = f :: callers) (hc : f.function.bytecode.Consists (pre ++ i :: post))
    (hip : f.ip = codeLength pre + 1) :
    (execute i.op).run m = i.perform.run (m.goTo (codeLength pre + i.size)) := by
  obtain ⟨op, operand⟩ := i
  cases op
  case constant => exact run_bind_congr (run_readConstant h hc hip rfl) _
  case getLocal => exact run_bind_ok (run_readByte_operand h hc hip rfl) _
  case setLocal => exact run_bind_ok (run_readByte_operand h hc hip rfl) _
  case getGlobal => exact run_bind_congr (run_readName h hc hip rfl) _
  case setGlobal => exact run_bind_congr (run_readName h hc hip rfl) _
  case defineGlobal => exact run_bind_congr (run_readName h hc hip rfl) _
  case jump => exact run_bind_ok (run_readPair_operand h hc hip rfl) _
  case jumpIfFalse => exact run_bind_ok (run_readPair_operand h hc hip rfl) _
  case jumpIfTrue => exact run_bind_ok (run_readPair_operand h hc hip rfl) _
  case loop => exact run_bind_ok (run_readPair_operand h hc hip rfl) _
  case call => exact run_bind_ok (run_readByte_operand h hc hip rfl) _
  all_goals
    have hself : m.goTo (codeLength pre + 1) = m := by rw [← hip, goTo_self h]
    exact congrArg (EStateM.run (execute _)) hself.symm

/-- A step carries out the instruction that comes next, after it has been read. -/
theorem run_step (h : m.frames = f :: callers) (hc : f.function.bytecode.Consists (pre ++ i :: post))
    (hip : f.ip = codeLength pre) : step.run m = i.perform.run (m.goTo (codeLength pre + i.size)) := by
  have hbyte : f.function.bytecode.code[f.ip]? = some i.op.toByte := by rw [hip, hc.opByte]
  rw [step, run_bind_ok (run_readByte h hbyte), Opcode.ofByte?_toByte]
  refine (run_execute (frames_goTo h (f.ip + 1)) hc (by rw [hip])).trans ?_
  rw [goTo_goTo]

end Machine
end StackScript
