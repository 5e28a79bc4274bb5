import Mathlib.Data.List.Basic
import StackScript.Machine.Console

/-! Input as lines. What reading takes off it is its first line, so that what is left of it is always so many of its last
lines. -/
namespace StackScript.Console

/-- The lines of bytes: each ends with a newline, which the last one may lack. -/
def lines : List UInt8 → List (List UInt8)
  | [] => []
  | b :: rest =>
    if b = lineEnd then [b] :: lines rest
    else match lines rest with
      | [] => [[b]]
      | line :: more => (b :: line) :: more

/-- Bytes have been split after each newline. -/
structure IsSplit (bytes : List UInt8) (ls : List (List UInt8)) : Prop where
  whole : ls.flatten = bytes
  ne_nil : [] ∉ ls
  inside (line : List UInt8) (h : line ∈ ls) : lineEnd ∉ line.dropLast
  ended (line : List UInt8) (h : line ∈ ls.dropLast) : line.getLast? = some lineEnd

/-- A line without its marks: one newline at its end, if there is one, and then one carriage return. -/
def IsTrimmed (line body : List UInt8) : Prop :=
  ∃ mark newline, line = body ++ mark ++ newline ∧ (newline = [lineEnd] ∨ newline = [] ∧ line.getLast? ≠ some lineEnd) ∧
    (mark = [13] ∨ mark = [] ∧ body.getLast? ≠ some 13)

section
variable {b : UInt8} {bytes rest : List UInt8}

theorem splitLine_lineEnd (rest : List UInt8) : splitLine (lineEnd :: rest) = ([lineEnd], rest) := by
  simp [splitLine]

theorem splitLine_cons (h : b ≠ lineEnd) (rest : List UInt8) :
    splitLine (b :: rest) = (b :: (splitLine rest).1, (splitLine rest).2) := by
  simp only [splitLine, List.takeWhile_cons, List.dropWhile_cons, decide_eq_true h, if_true]
  split <;> simp_all

/-- The first line, and those behind it. -/
theorem lines_eq_cons (h : bytes ≠ []) : lines bytes = (splitLine bytes).1 :: lines (splitLine bytes).2 := by
  induction bytes with
  | nil => exact absurd rfl h
  | cons b rest ih =>
    rw [lines]
    split_ifs with hb
    · rw [hb, splitLine_lineEnd]
    · rw [splitLine_cons hb]
      by_cases hrest : rest = []
      · rw [hrest]
        rfl
      · rw [ih hrest]

@[simp] theorem flatten_lines (bytes : List UInt8) : (lines bytes).flatten = bytes := by
  induction bytes with
  | nil => rfl
  | cons b rest ih =>
    rw [lines]
    split_ifs with hb
    · rw [List.flatten_cons, ih, List.singleton_append]
    · cases hlines : lines rest with
      | nil =>
        rw [hlines] at ih
        rw [← ih]
        rfl
      | cons line more =>
        rw [hlines] at ih
        rw [← ih]
        rfl

theorem splitLine_eq (bytes : List UInt8) :
    splitLine bytes = ((lines bytes).head?.getD [], (lines bytes).tail.flatten) := by
  by_cases h : bytes = []
  · rw [h]
    rfl
  · rw [lines_eq_cons h, List.head?_cons, List.tail_cons, flatten_lines]
    rfl

/-- A newline in front is a line of its own. -/
theorem IsSplit.newline {ls : List (List UInt8)} (h : IsSplit rest ls) :
    IsSplit (lineEnd :: rest) ([lineEnd] :: ls) := by
  obtain ⟨hwhole, hne, hinside, hended⟩ := h
  refine ⟨by rw [List.flatten_cons, hwhole, List.singleton_append], by simpa using hne, fun line hline => ?_,
    fun line hline => ?_⟩
  · obtain rfl | hline := List.mem_cons.1 hline
    · exact List.not_mem_nil
    · exact hinside line hline
  · by_cases hls : ls = []
    · rw [hls] at hline
      exact absurd hline List.not_mem_nil
    rw [List.dropLast_cons_of_ne_nil hls] at hline
    obtain rfl | hline := List.mem_cons.1 hline
    · rfl
    · exact hended line hline

/-- The lines of what is behind some lines. -/
theorem lines_flatten_drop (bytes : List UInt8) (k : ℕ) :
    lines ((lines bytes).drop k).flatten = (lines bytes).drop k := by
  induction k generalizing bytes with
  | zero => rw [List.drop_zero, flatten_lines]
  | succ k ih =>
    by_cases h : bytes = []
    · rw [h]
      rfl
    · rw [lines_eq_cons h, List.drop_succ_cons, ih]

/-- What is taken off the last lines is the first one of these. -/
theorem splitLine_flatten_drop (bytes : List UInt8) (k : ℕ) : splitLine ((lines bytes).drop k).flatten =
    ((lines bytes)[k]?.getD [], ((lines bytes).drop (k + 1)).flatten) := by
  rw [splitLine_eq, lines_flatten_drop, List.head?_drop, List.tail_drop]

theorem isTrimmed_trimLineEnd (line : List UInt8) : IsTrimmed line (trimLineEnd line) := by
  obtain ⟨body, hbody⟩ : ∃ body, body = if line.getLast? = some lineEnd then line.dropLast else line := ⟨_, rfl⟩
  obtain ⟨newline, hline, hnewline⟩ : ∃ newline, line = body ++ newline ∧
      (newline = [lineEnd] ∨ newline = [] ∧ line.getLast? ≠ some lineEnd) := by
    split_ifs at hbody with hend
    · exact ⟨[lineEnd], hbody ▸ (List.dropLast_append_getLast? _ hend).symm, .inl rfl⟩
    · exact ⟨[], by rw [hbody, List.append_nil], .inr ⟨rfl, hend⟩⟩
  have htrim : trimLineEnd line = if body.getLast? = some 13 then body.dropLast else body := by
    rw [trimLineEnd, ← hbody]
  rw [htrim]
  split_ifs with hmark
  · exact ⟨[13], newline, by rw [List.dropLast_append_getLast? _ hmark, hline], hnewline, .inl rfl⟩
  · exact ⟨[], newline, by rw [List.append_nil]; exact hline, hnewline, .inr ⟨rfl, hmark⟩⟩

end
end StackScript.Console
