import Mathlib.Algebra.Group.Nat.Defs
import StackScript.Bytecode.Basic

/-! Instructions with the numbers that their operand bytes hold, and code that is made of them. -/
namespace StackScript

/-- An operation with what its operand bytes hold. -/
structure Instr where
  op : Opcode
  operand : Nat
  deriving DecidableEq, Repr

namespace Instr

def size (i : Instr) : Nat := 1 + i.op.width

def bytes (i : Instr) : List UInt8 :=
  i.op.toByte :: match i.op.width with
    | 0 => []
    | 1 => [i.operand.toUInt8]
    | _ => [(i.operand / 256).toUInt8, i.operand.toUInt8]

/-- The operand bytes have room for the operand. -/
def Fits (i : Instr) : Prop := i.operand < 256 ^ i.op.width

theorem width_cases (op : Opcode) : op.width = 0 ∨ op.width = 1 ∨ op.width = 2 := by
  cases op <;> decide

@[simp] theorem length_bytes (i : Instr) : i.bytes.length = i.size := by
  rcases width_cases i.op with h | h | h <;> simp [bytes, size, h]

theorem size_pos (i : Instr) : 0 < i.size := Nat.add_pos_left Nat.one_pos _

end Instr

/-- The bytes of instructions one after another. -/
def codeBytes (is : List Instr) : List UInt8 := is.flatMap Instr.bytes

/-- How many bytes instructions take. -/
def codeLength : List Instr → Nat
  | [] => 0
  | i :: is => i.size + codeLength is

@[simp] theorem codeBytes_nil : codeBytes [] = [] := rfl

@[simp] theorem codeBytes_cons (i : Instr) (is : List Instr) :
    codeBytes (i :: is) = i.bytes ++ codeBytes is := rfl

@[simp] theorem codeBytes_append (is js : List Instr) :
    codeBytes (is ++ js) = codeBytes is ++ codeBytes js := by simp [codeBytes]

@[simp] theorem codeLength_nil : codeLength [] = 0 := rfl

@[simp] theorem codeLength_cons (i : Instr) (is : List Instr) :
    codeLength (i :: is) = i.size + codeLength is := rfl

@[simp] theorem codeLength_append (is js : List Instr) :
    codeLength (is ++ js) = codeLength is + codeLength js := by
  induction is with
  | nil => simp
  | cons i is ih => simp [ih, Nat.add_assoc]

@[simp] theorem length_codeBytes (is : List Instr) : (codeBytes is).length = codeLength is := by
  induction is with
  | nil => rfl
  | cons i is ih => simp [ih]

theorem codeLength_replicate (n : Nat) (i : Instr) : codeLength (List.replicate n i) = n * i.size := by
  induction n with
  | zero => simp
  | succ n ih => simp [List.replicate_succ, ih, Nat.succ_mul, Nat.add_comm]

/-- Instructions are told apart by their bytes, whatever follows. -/
theorem bytes_append_inj {i j : Instr} {xs ys : List UInt8} (hi : i.Fits) (hj : j.Fits)
    (h : i.bytes ++ xs = j.bytes ++ ys) : i = j ∧ xs = ys := by
  obtain ⟨op, n⟩ := i
  obtain ⟨op', m⟩ := j
  have hop : op.toByte = op'.toByte := by
    simpa [Instr.bytes] using congrArg List.head? h
  obtain rfl : op = op' := by
    have hof := congrArg Opcode.ofByte? hop
    rwa [Opcode.ofByte?_toByte, Opcode.ofByte?_toByte, Option.some.injEq] at hof
  obtain ⟨hb, hxs⟩ := List.append_inj h (by simp [Instr.size])
  refine ⟨congrArg (Instr.mk op) ?_, hxs⟩
  simp only [Instr.Fits] at hi hj
  rcases Instr.width_cases op with hw | hw | hw
  · rw [hw] at hi hj
    omega
  · simp only [Instr.bytes, hw, List.cons.injEq, true_and, and_true] at hb
    have hn := congrArg UInt8.toNat hb
    rw [hw] at hi hj
    simp only [UInt8.toNat_ofNat'] at hn
    omega
  · simp only [Instr.bytes, hw, List.cons.injEq, true_and, and_true] at hb
    have hn := congrArg UInt8.toNat hb.1
    have hm := congrArg UInt8.toNat hb.2
    rw [hw] at hi hj
    simp only [UInt8.toNat_ofNat'] at hn hm
    omega

theorem codeBytes_inj {is js : List Instr} (hi : ∀ i ∈ is, i.Fits) (hj : ∀ j ∈ js, j.Fits)
    (h : codeBytes is = codeBytes js) : is = js := by
  induction is generalizing js with
  | nil =>
    cases js with
    | nil => rfl
    | cons j js => simp [Instr.bytes] at h
  | cons i is ih =>
    cases js with
    | nil => simp [Instr.bytes] at h
    | cons j js =>
      rw [codeBytes_cons, codeBytes_cons] at h
      obtain ⟨rfl, hxs⟩ := bytes_append_inj (hi _ List.mem_cons_self) (hj _ List.mem_cons_self) h
      rw [ih (fun k hk => hi k (.tail _ hk)) (fun k hk => hj k (.tail _ hk)) hxs]

/-! ### Instructions in their places -/

namespace Bytecode
variable {b : Bytecode} {pre is post : List Instr} {i : Instr}

/-- The code consists of whole instructions. -/
structure Consists (b : Bytecode) (is : List Instr) : Prop where
  code : b.code.toList = codeBytes is
  fits : ∀ i ∈ is, i.Fits

theorem Consists.size (h : b.Consists is) : b.code.size = codeLength is := by
  rw [← length_codeBytes, ← h.code]
  rfl

/-- There is one way to take code apart. -/
theorem Consists.unique {js : List Instr} (h : b.Consists is) (k : b.Consists js) : is = js :=
  codeBytes_inj h.fits k.fits (h.code.symm.trans k.code)

theorem Consists.getElem? (h : b.Consists (pre ++ i :: post)) {k : Nat} (hk : k < i.size) :
    b.code[codeLength pre + k]? = i.bytes[k]? := by
  have hb : k < i.bytes.length := by rwa [Instr.length_bytes]
  rw [← Array.getElem?_toList, h.code, codeBytes_append, codeBytes_cons,
    List.getElem?_append_right (by simp), length_codeBytes, Nat.add_sub_cancel_left,
    List.getElem?_append_left hb]

theorem Consists.opByte (h : b.Consists (pre ++ i :: post)) :
    b.code[codeLength pre]? = some i.op.toByte := h.getElem? (k := 0) i.size_pos

theorem Consists.opAt? (h : b.Consists (pre ++ i :: post)) : b.opAt? (codeLength pre) = some i.op := by
  rw [Bytecode.opAt?, h.opByte]
  exact Opcode.ofByte?_toByte i.op

theorem Consists.nextOffset (h : b.Consists (pre ++ i :: post)) :
    b.nextOffset (codeLength pre) = codeLength (pre ++ [i]) := by
  rw [Bytecode.nextOffset, h.opAt?]
  simp [Instr.size, Nat.add_assoc]

theorem Consists.operandByte (h : b.Consists (pre ++ i :: post)) (hw : i.op.width = 1) :
    b.code[codeLength pre + 1]? = some i.operand.toUInt8 := by
  rw [h.getElem? (k := 1) (by rw [Instr.size, hw]; decide), Instr.bytes, hw]
  rfl

theorem Consists.readPair? (h : b.Consists (pre ++ i :: post)) (hw : i.op.width = 2) :
    b.readPair? (codeLength pre + 1) = some i.operand := by
  have h1 := h.getElem? (k := 1) (by rw [Instr.size, hw]; decide)
  have h2 := h.getElem? (k := 2) (by rw [Instr.size, hw]; decide)
  have hi : i.operand < 256 ^ 2 := hw ▸ h.fits i (by simp)
  rw [Instr.bytes, hw] at h1 h2
  simp only [List.getElem?_cons_succ, List.getElem?_cons_zero] at h1 h2
  simp only [Bytecode.readPair?, Nat.add_assoc, h1, h2, Option.some.injEq, UInt8.toNat_ofNat']
  omega

end Bytecode
end StackScript
