import Mathlib.Data.List.Induction
import StackScript.Proofs.Code.Instr
import StackScript.Store.Basic

/-! The lines of compiled code. A line table gives back the line that each byte was written under, and in compiled
code all bytes of an instruction are written under one line. -/
namespace StackScript

namespace LineTable
variable {t : LineTable}

/-- No run ends behind the end of the table. -/
def Ends (t : LineTable) : Prop := ∀ run ∈ t.runs, run.stop ≤ t.size

/-- Adding a line makes the last run longer, or adds a run. -/
theorem push_cases (t : LineTable) (line : Nat) :
    (∃ before last, t.runs = Array.push before last ∧ last.stop = t.size ∧
      ((last.line = line ∧ (t.push line).runs = before.push ⟨line, t.size + 1⟩) ∨
        last.line ≠ line ∧ (t.push line).runs = t.runs.push ⟨line, t.size + 1⟩)) ∨
      t.runs = #[] ∧ t.size = 0 ∧ (t.push line).runs = #[⟨line, 1⟩] := by
  cases hlast : t.runs.back? with
  | none => exact .inr ⟨Array.back?_eq_none_iff.1 hlast, by simp [size, hlast], by simp [push, hlast]⟩
  | some last =>
    obtain ⟨before, hbefore⟩ := Array.back?_eq_some_iff.1 hlast
    refine .inl ⟨before, last, hbefore, by simp [size, hlast], ?_⟩
    by_cases hline : last.line = line
    · exact .inl ⟨hline, by simp [push, size, hline, hbefore]⟩
    · exact .inr ⟨hline, by simp [push, size, hline, hbefore]⟩

theorem Ends.push (h : t.Ends) (line : Nat) : (t.push line).Ends := by
  intro run hrun
  rw [size_push]
  obtain ⟨before, last, hruns, -, ⟨-, hpush⟩ | ⟨-, hpush⟩⟩ | ⟨-, -, hpush⟩ := push_cases t line
  · rw [hpush] at hrun
    obtain hrun | rfl := Array.mem_push.1 hrun
    · exact Nat.le_succ_of_le (h run (hruns ▸ Array.mem_push.2 (.inl hrun)))
    · exact Nat.le_refl _
  · rw [hpush] at hrun
    obtain hrun | rfl := Array.mem_push.1 hrun
    · exact Nat.le_succ_of_le (h run hrun)
    · exact Nat.le_refl _
  · rw [hpush] at hrun
    obtain rfl := Array.mem_singleton.1 hrun
    exact Nat.le_add_left _ _

/-- Behind the end nothing is found. -/
theorem Ends.find?_eq_none (h : t.Ends) {offset : Nat} (ho : ¬offset < t.size) :
    t.runs.find? (offset < ·.stop) = none :=
  Array.find?_eq_none.2 fun run hrun => by simpa using Nat.le_trans (h run hrun) (Nat.le_of_not_lt ho)

/-- One more byte is looked up under its own line, and so is what lies behind it; the others as before. -/
theorem lineAt_push (h : t.Ends) (line offset : Nat) :
    (t.push line).lineAt offset = if offset < t.size then t.lineAt offset else line := by
  by_cases ho : offset < t.size
  · rw [if_pos ho]
    obtain ⟨before, last, hruns, hstop, ⟨hline, hpush⟩ | ⟨-, hpush⟩⟩ | ⟨-, hsize, -⟩ := push_cases t line
    · rw [lineAt, lineAt, hpush, hruns, Array.find?_push, Array.find?_push, hstop]
      cases before.find? (offset < ·.stop) <;> simp [ho, Nat.lt_succ_of_lt ho, hline]
    · rw [lineAt, lineAt, hpush, Array.find?_push, hruns, Array.find?_push, hstop]
      cases before.find? (offset < ·.stop) <;> simp [ho]
    · omega
  · have hnone := h.find?_eq_none ho
    rw [if_neg ho]
    obtain ⟨before, last, hruns, hstop, ⟨hline, hpush⟩ | ⟨-, hpush⟩⟩ | ⟨-, -, hpush⟩ := push_cases t line
    · rw [hruns, Array.find?_push, Option.or_eq_none_iff] at hnone
      rw [lineAt, hpush, Array.find?_push, hnone.1]
      by_cases hlast : offset < t.size + 1 <;> simp [hlast]
    · rw [lineAt, hpush, Array.find?_push, hnone]
      by_cases hlast : offset < t.size + 1 <;> simp [hlast]
    · rw [lineAt, hpush]
      by_cases hlast : offset < 1 <;> simp [hlast]

/-- The table of bytes that have been written under these lines, one after another. -/
def ofLines (lines : List Nat) : LineTable := lines.foldl push {}

@[simp] theorem ofLines_append (lines more : List Nat) : ofLines (lines ++ more) = more.foldl push (ofLines lines) :=
  List.foldl_append

@[simp] theorem size_ofLines (lines : List Nat) : (ofLines lines).size = lines.length := by
  induction lines using List.reverseRecOn with
  | nil => rfl
  | append_singleton lines line ih => simp [ih]

theorem ends_ofLines (lines : List Nat) : (ofLines lines).Ends := by
  induction lines using List.reverseRecOn with
  | nil => exact fun run hrun => absurd hrun (Array.not_mem_empty run)
  | append_singleton lines line ih => simpa using ih.push line

/-- A byte is looked up under the line that it was written under. -/
theorem lineAt_ofLines {lines : List Nat} {offset line : Nat} (h : lines[offset]? = some line) :
    (ofLines lines).lineAt offset = line := by
  induction lines using List.reverseRecOn with
  | nil => simp at h
  | append_singleton lines last ih =>
    rw [ofLines_append, List.foldl_cons, List.foldl_nil, lineAt_push (ends_ofLines lines), size_ofLines]
    split
    · rw [List.getElem?_append_left ‹_›] at h
      exact ih h
    · rw [List.getElem?_append_right (Nat.le_of_not_lt ‹_›)] at h
      exact (List.mem_singleton.1 (List.mem_of_getElem? h)).symm

end LineTable

/-- The lines of the bytes of instructions, each of which comes with its line. -/
def byteLines (placed : List (Instr × Nat)) : List Nat := placed.flatMap fun p => List.replicate p.1.size p.2

@[simp] theorem byteLines_append (ps qs : List (Instr × Nat)) : byteLines (ps ++ qs) = byteLines ps ++ byteLines qs :=
  List.flatMap_append

@[simp] theorem length_byteLines (placed : List (Instr × Nat)) :
    (byteLines placed).length = codeLength (placed.map Prod.fst) := by
  induction placed with
  | nil => rfl
  | cons p ps ih => simpa [byteLines] using ih

theorem byteLines_same (is : List Instr) (line : Nat) :
    byteLines (is.map (·, line)) = List.replicate (codeLength is) line := by
  induction is with
  | nil => rfl
  | cons i is ih =>
    rw [codeLength_cons, ← List.replicate_append_replicate, ← ih]
    rfl

namespace Bytecode
variable {b c : Bytecode} {placed pre post : List (Instr × Nat)} {is : List Instr} {i : Instr} {line : Nat}

/-- The code consists of whole instructions, and each has been written under one line. -/
structure Lined (b : Bytecode) (placed : List (Instr × Nat)) : Prop where
  code : b.Consists (placed.map Prod.fst)
  lines : b.lines = .ofLines (byteLines placed)

/-- Every byte of an instruction is looked up under the line of the instruction. -/
theorem Lined.lineAt (h : b.Lined (pre ++ (i, line) :: post)) {k : Nat} (hk : k < i.size) :
    b.lineAt (codeLength (pre.map Prod.fst) + k) = line := by
  rw [Bytecode.lineAt, h.lines]
  refine LineTable.lineAt_ofLines ?_
  rw [byteLines_append, List.getElem?_append_right (by simp), length_byteLines, Nat.add_sub_cancel_left]
  change (List.replicate i.size line ++ byteLines post)[k]? = some line
  rw [List.getElem?_append_left (by simpa using hk), List.getElem?_replicate, if_pos hk]

/-- Instructions have been written under one line behind the others. -/
theorem Lined.append (h : b.Lined placed) (hc : c.Consists (placed.map Prod.fst ++ is))
    (hl : c.lines = (List.replicate (codeLength is) line).foldl LineTable.push b.lines) :
    c.Lined (placed ++ is.map (·, line)) := by
  refine ⟨?_, ?_⟩
  · rwa [List.map_append, List.map_map, show Prod.fst ∘ (·, line) = (id : Instr → Instr) from rfl, List.map_id]
  · rw [hl, h.lines, byteLines_append, byteLines_same, LineTable.ofLines_append]

/-- An operand has been replaced. -/
theorem Lined.replace (h : b.Lined (pre ++ (i, line) :: post)) {j : Instr} (hop : j.op = i.op)
    (hc : c.Consists (pre.map Prod.fst ++ j :: post.map Prod.fst)) (hl : c.lines = b.lines) :
    c.Lined (pre ++ (j, line) :: post) := by
  refine ⟨by simpa using hc, ?_⟩
  rw [hl, h.lines]
  simp [byteLines, Instr.size, hop]

/-- Whatever the code is, it is in lines. -/
def IsLined (b : Bytecode) : Prop := ∃ placed, b.Lined placed

theorem IsLined.of_eq (h : b.IsLined) (hcode : c.code = b.code) (hlines : c.lines = b.lines) : c.IsLined := by
  obtain ⟨placed, hplaced⟩ := h
  exact ⟨placed, ⟨by rw [hcode, hplaced.code.code], hplaced.code.fits⟩, hlines.trans hplaced.lines⟩

theorem isLined_empty : IsLined {} := ⟨[], ⟨rfl, by simp⟩, rfl⟩

end Bytecode

/-- The functions of the store are in lines. -/
def Store.IsLined (s : Store) : Prop := ∀ f ∈ s.functions, f.bytecode.IsLined

theorem Store.IsLined.addFunction {s : Store} (h : s.IsLined) {f : Function} (hf : f.bytecode.IsLined) :
    (s.addFunction f).2.IsLined := by
  intro g hg
  obtain hg | rfl := Array.mem_push.1 hg
  · exact h g hg
  · exact hf

end StackScript
