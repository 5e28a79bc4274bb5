import StackScript.Proofs.Code.Shape

/-! How high the stack of a call is at each instruction, counted from slot zero. Code is read straight on, and
the instructions behind a jump are entered from where the jump does not go. -/
namespace StackScript

namespace Instr

/-- How many values an instruction takes off the stack, those included that it puts back. -/
def takes (i : Instr) : Nat :=
  match i.op with
  | .constant | .null | .true | .false | .getLocal | .getGlobal | .readString | .readNumber | .readChar
  | .jump | .loop => 0
  | .pop | .setLocal | .setGlobal | .defineGlobal | .not | .negate | .print | .jumpIfFalse | .jumpIfTrue
  | .out => 1
  | .equal | .notEqual | .greater | .greaterEqual | .less | .lessEqual | .add | .subtract | .multiply
  | .divide => 2
  | .call => i.operand + 1

/-- How many values an instruction puts on the stack. -/
def gives (i : Instr) : Nat :=
  match i.op with
  | .pop | .defineGlobal | .print | .jump | .loop | .out => 0
  | _ => 1

/-- The height of the stack at the next instruction in the code. Behind a jump that is always taken there is
the condition that a jump to there has left. -/
def next (i : Instr) (height : Nat) : Nat :=
  match i.op with
  | .jump | .loop => height + 1
  | _ => height - i.takes + i.gives

/-- Where an instruction at an offset may jump. -/
def target? (i : Instr) (offset : Nat) : Option Nat :=
  match i.op with
  | .jump | .jumpIfFalse | .jumpIfTrue => some (offset + 3 + i.operand)
  | .loop => some (offset + 3 - i.operand)
  | _ => none

/-- Where the code goes on after an instruction at an offset. -/
def successors (i : Instr) (offset : Nat) : List Nat :=
  match i.op with
  | .out => []
  | .jump | .loop => (i.target? offset).toList
  | _ => (offset + i.size) :: (i.target? offset).toList

/-- What the operand of an instruction names is there: a constant, a constant that is a name, or a slot below
the top of the stack. -/
def Refers (κ : Pool) (height : Nat) (i : Instr) : Prop :=
  match i.op with
  | .constant => i.operand < κ.constants.size
  | .getGlobal | .setGlobal | .defineGlobal => ∃ x, κ.IsName i.operand x
  | .getLocal | .setLocal => i.operand < height
  | _ => True

/-- An instruction that is not a jump goes on with what it leaves on the stack. -/
theorem next_eq (i : Instr) (height : Nat) (h : i.op ≠ .jump ∧ i.op ≠ .loop) :
    i.next height = height - i.takes + i.gives := by
  unfold next
  split
  · exact absurd ‹_› h.1
  · exact absurd ‹_› h.2
  · rfl

/-- A jump leaves the stack as it is. -/
theorem height_of_target {i : Instr} {offset target height : Nat} (h : i.target? offset = some target)
    (hh : i.takes ≤ height) : height - i.takes + i.gives = height := by
  obtain ⟨op, n⟩ := i
  cases op <;> simp only [target?, reduceCtorEq, Option.some.injEq] at h <;>
    simp only [takes, gives] at hh ⊢ <;> omega

end Instr

/-- The height of the stack behind instructions. -/
def heightOf (height : Nat) (is : List Instr) : Nat := is.foldl (fun h i => i.next h) height

@[simp] theorem heightOf_nil (h : Nat) : heightOf h [] = h := rfl

@[simp] theorem heightOf_cons (h : Nat) (i : Instr) (is : List Instr) :
    heightOf h (i :: is) = heightOf (i.next h) is := rfl

@[simp] theorem heightOf_append (h : Nat) (is js : List Instr) :
    heightOf h (is ++ js) = heightOf (heightOf h is) js := List.foldl_append

/-- The height of the stack at an offset. -/
def heightAt (height : Nat) : List Instr → Nat → Nat
  | [], _ => height
  | i :: is, offset => if offset = 0 then height else heightAt (i.next height) is (offset - i.size)

theorem heightAt_append (h : Nat) (pre post : List Instr) :
    heightAt h (pre ++ post) (codeLength pre) = heightOf h pre := by
  induction pre generalizing h with
  | nil => cases post <;> rfl
  | cons i pre ih =>
    have hne : ¬i.size + codeLength pre = 0 := Nat.ne_of_gt (Nat.add_pos_left i.size_pos _)
    rw [List.cons_append, heightAt, codeLength_cons, if_neg hne, Nat.add_sub_cancel_left, ih, heightOf_cons]

/-! ### Code that keeps to its heights -/

/-- An instruction behind others in a piece of code: it leaves `floor` values alone, its operand names
something, and where it may jump an instruction stands that expects a stack of the same height. -/
structure Instr.Flows (κ : Pool) (code : List Instr) (height floor : Nat) (pre : List Instr) (i : Instr) : Prop where
  refers : i.Refers κ (heightOf height pre)
  takes : floor + i.takes ≤ heightOf height pre
  target : ∀ {n}, i.target? (codeLength pre) = some n → ∃ pre' post', code = pre' ++ post' ∧ post' ≠ [] ∧
    codeLength pre' = n ∧ heightOf height pre' = heightOf height pre

/-- All instructions of a piece of code flow. -/
def Flow (κ : Pool) (code : List Instr) (height floor : Nat) : List Instr → List Instr → Prop
  | _, [] => True
  | pre, i :: is => i.Flows κ code height floor pre ∧ Flow κ code height floor (pre ++ [i]) is

section
variable {κ : Pool} {code pre is js post : List Instr} {i : Instr} {height floor : Nat}

theorem Flow.append (h : Flow κ code height floor pre is) (k : Flow κ code height floor (pre ++ is) js) :
    Flow κ code height floor pre (is ++ js) := by
  induction is generalizing pre with
  | nil => rwa [List.append_nil] at k
  | cons i is ih =>
    refine ⟨h.1, ih h.2 ?_⟩
    rwa [List.append_assoc]

theorem Flow.mono {floor' : Nat} (hf : floor' ≤ floor) (h : Flow κ code height floor pre is) :
    Flow κ code height floor' pre is := by
  induction is generalizing pre with
  | nil => trivial
  | cons i is ih =>
    exact ⟨⟨h.1.refers, Nat.le_trans (Nat.add_le_add_right hf _) h.1.takes, h.1.target⟩, ih h.2⟩

theorem Flow.get (h : Flow κ code height floor pre (is ++ i :: js)) : i.Flows κ code height floor (pre ++ is) := by
  induction is generalizing pre with
  | nil => rw [List.append_nil]; exact h.1
  | cons j is ih =>
    have hi := ih h.2
    rwa [List.append_assoc] at hi

/-- An instruction that does not jump. -/
theorem Instr.Flows.plain (hr : i.Refers κ (heightOf height pre)) (ht : floor + i.takes ≤ heightOf height pre)
    (hn : i.target? (codeLength pre) = none) : i.Flows κ code height floor pre :=
  ⟨hr, ht, fun h => by rw [hn] at h; cases h⟩

end
end StackScript
