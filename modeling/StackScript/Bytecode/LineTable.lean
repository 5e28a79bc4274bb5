/-! The source line of every byte of code, kept as runs of equal neighbours. Looking a byte up finds
the first run that ends behind it; past the end the last line answers. -/
namespace StackScript

/-- A run of bytes from one line; `stop` counts the bytes up to its end. -/
structure LineRun where
  line : Nat
  stop : Nat
  deriving DecidableEq, Repr, Inhabited

structure LineTable where
  runs : Array LineRun := #[]
  deriving DecidableEq, Repr, Inhabited

namespace LineTable

/-- How many bytes the table covers. -/
def size (t : LineTable) : Nat :=
  match t.runs.back? with
  | some run => run.stop
  | none => 0

/-- Records the line of one more byte. -/
def push (t : LineTable) (line : Nat) : LineTable :=
  match t.runs.back? with
  | some run =>
    if run.line = line then ⟨t.runs.pop.push ⟨line, run.stop + 1⟩⟩
    else ⟨t.runs.push ⟨line, run.stop + 1⟩⟩
  | none => ⟨#[⟨line, 1⟩]⟩

@[simp] theorem size_push (t : LineTable) (line : Nat) : (t.push line).size = t.size + 1 := by
  cases h : t.runs.back? with
  | none => simp [push, size, h]
  | some run => by_cases hl : run.line = line <;> simp [push, size, h, hl]

/-- The line of the byte at an offset: the last line if it lies past the end, zero if nothing has
been recorded. -/
def lineAt (t : LineTable) (offset : Nat) : Nat :=
  match t.runs.find? (offset < ·.stop) with
  | some run => run.line
  | none => (t.runs.back?.map LineRun.line).getD 0

/-- Lines with the number of bytes from each, in order. -/
def toList (t : LineTable) : List (Nat × Nat) :=
  (t.runs.foldl (fun (acc, start) run => ((run.line, run.stop - start) :: acc, run.stop))
    (([], 0) : List (Nat × Nat) × Nat)).1.reverse

end LineTable
end StackScript
