import StackScript.Proofs.Scanning.Joined

/-! The lines of a source. Calls of the scanner never go back to an earlier line, and the line on which a source ends is
one more than the number of its line breaks. -/
namespace StackScript

/-- How often a text goes to a new line. -/
def lineBreaks (text : String) : Nat := text.toList.count '\n'

/-- The line on which a token or a faulty piece ends. -/
def Lexeme.line : Lexeme → Nat
  | .token t => t.line
  | .fault _ line => line

namespace Cursor

/-- The line on which the text from a place on ends. -/
def finalLine (c : Cursor) : Nat := c.line + c.rest.count '\n'

variable {c : Cursor}

theorem line_le_drop (c : Cursor) (n : Nat) : c.line ≤ (c.drop n).line := Nat.le_add_right ..

theorem finalLine_drop (c : Cursor) (n : Nat) : (c.drop n).finalLine = c.finalLine := by
  rw [finalLine, finalLine, drop, Nat.add_assoc, ← List.count_append, List.take_append_drop]

theorem finalLine_skipBlank (c : Cursor) : c.skipBlank.finalLine = c.finalLine := c.finalLine_drop _

theorem finalLine_of_nil (h : c.skipBlank.rest = []) : c.finalLine = c.skipBlank.line := by
  rw [← finalLine_skipBlank, finalLine, h, List.count_nil, Nat.add_zero]

/-- A call reads up to a place and gives the line of that place. -/
theorem scan_line {first : Char} {rest : List Char} (h : c.skipBlank.rest = first :: rest) :
    c.line ≤ c.scan.1.line ∧ c.scan.2.line = c.scan.1.line ∧ c.scan.2.finalLine = c.finalLine := by
  have hline : c.line ≤ (c.skipBlank.drop (Scan.classify first rest).2).line :=
    Nat.le_trans (c.line_le_drop _) (c.skipBlank.line_le_drop _)
  rw [scan_cons h, take_eq, finalLine_drop, finalLine_skipBlank]
  cases (Scan.classify first rest).1 with
  | ok kind => exact ⟨hline, rfl, rfl⟩
  | error error => exact ⟨hline, rfl, rfl⟩

end Cursor

namespace TokenStream
variable {c : Cursor}

/-- The lines on which the tokens and faulty pieces of a source end, and the one on which the source ends. -/
def lines (stream : TokenStream) : List Nat := stream.lexemes.map Lexeme.line ++ [stream.lastLine]

theorem lastLine_readFrom (c : Cursor) : (readFrom [] c).lastLine = c.finalLine := by
  induction c using Cursor.scan_induction with
  | hend c h => rw [readFrom_nil h, Cursor.finalLine_of_nil h]
  | hscan c first rest h ih => rw [readFrom_cons h, ih, (Cursor.scan_line h).2.2]

theorem ascending_readFrom (c : Cursor) : (c.line :: (readFrom [] c).lines).Pairwise (· ≤ ·) := by
  induction c using Cursor.scan_induction with
  | hend c h =>
    rw [readFrom_nil h]
    exact List.pairwise_pair.2 (c.line_le_drop _)
  | hscan c first rest h ih =>
    obtain ⟨hle, heq, -⟩ := Cursor.scan_line h
    rw [heq] at ih
    rw [readFrom_cons h]
    refine List.pairwise_cons.2 ⟨fun n hn => ?_, ih⟩
    obtain rfl | hn := List.mem_cons.1 hn
    · exact hle
    · exact Nat.le_trans hle (List.rel_of_pairwise_cons ih hn)

theorem lastLine_ofSource (source : String) : (ofSource source).lastLine = 1 + lineBreaks source :=
  lastLine_readFrom _

/-- The lines of a source come in order, from the first one on. -/
theorem ascending_ofSource (source : String) : (1 :: (ofSource source).lines).Pairwise (· ≤ ·) :=
  ascending_readFrom (Cursor.ofSource source)

end TokenStream
end StackScript
