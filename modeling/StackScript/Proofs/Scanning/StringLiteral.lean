import StackScript.Proofs.Compiler.Action
import StackScript.Proofs.Scanning.Coverage

/-! String literals stand for every text. A text is written as a literal by a backslash before each quote and each
backslash of it; the scanner ends the literal where it was closed, and the compiler takes the same backslashes out
again. -/
namespace StackScript
namespace Quoted

/-- A text with a backslash before each quote and each backslash. -/
def escape (text : List Char) : List Char := text.flatMap fun c => if c = '"' ∨ c = '\\' then ['\\', c] else [c]

/-- The literal that stands for a text. -/
def literal (text : String) : String := String.ofList ('"' :: escape text.toList ++ ['"'])

theorem escape_special {c : Char} (h : c = '"' ∨ c = '\\') (text : List Char) :
    escape (c :: text) = '\\' :: c :: escape text := by
  rw [escape, List.flatMap_cons, if_pos h]
  rfl

theorem escape_other {c : Char} (h : ¬(c = '"' ∨ c = '\\')) (text : List Char) :
    escape (c :: text) = c :: escape text := by
  rw [escape, List.flatMap_cons, if_neg h]
  rfl

theorem unescapeFrom_other {c : Char} (h : c ≠ '\\') (done rest : List Char) :
    unescapeFrom done (c :: rest) = unescapeFrom (c :: done) rest := by
  rw [unescapeFrom] <;> simp [h]

theorem unescapeFrom_escape (done text : List Char) : unescapeFrom done (escape text) = done.reverse ++ text := by
  induction text generalizing done with
  | nil => simp [escape, unescapeFrom]
  | cons c text ih =>
    by_cases h : c = '"' ∨ c = '\\'
    · rw [escape_special h]
      rcases h with rfl | rfl <;> simp [unescapeFrom, ih]
    · rw [escape_other h, unescapeFrom_other (fun hc => h (.inr hc)), ih]
      simp

/-- Escaping is undone exactly. -/
theorem content_literal (text : String) : content (literal text).toList = text.toList := by
  rw [content, literal, String.toList_ofList, List.cons_append, List.tail_cons, List.dropLast_concat, unescape,
    unescapeFrom_escape]
  rfl

/-- No quote of an escaped text ends a literal, and no backslash of it takes the closing quote away. -/
theorem extent_escape (count : Nat) (text rest : List Char) :
    extent count (escape text ++ '"' :: rest) = (count + (escape text).length + 1, true) := by
  induction text generalizing count with
  | nil => rfl
  | cons c text ih =>
    by_cases h : c = '"' ∨ c = '\\'
    · rw [escape_special h, List.cons_append, List.cons_append, extent, ih, List.length_cons, List.length_cons]
      · congr 1
        omega
    · rw [escape_other h, List.cons_append, Scan.extent_other (fun hc => h (.inl hc)) (fun hc => h (.inr hc)), ih,
        List.length_cons]
      congr 1
      omega

theorem count_escape (text : List Char) : (escape text).count '\n' = text.count '\n' := by
  induction text with
  | nil => rfl
  | cons c text ih =>
    by_cases h : c = '"' ∨ c = '\\'
    · rw [escape_special h, List.count_cons_of_ne (by decide), List.count_cons, List.count_cons, ih]
    · rw [escape_other h, List.count_cons, List.count_cons, ih]

theorem count_literal (text : String) : (literal text).toList.count '\n' = text.toList.count '\n' := by
  rw [literal, String.toList_ofList, List.cons_append, List.count_cons_of_ne (by decide), List.count_append,
    count_escape]
  rfl

end Quoted

/-- The token of the literal of a text, where it ends on the given line. -/
def Token.ofText (text : String) (line : Nat) : Token := ⟨.string, Quoted.literal text, line⟩

/-- A literal is scanned up to the quote that closes it. -/
theorem scan_literal (text : String) (rest : List Char) (line : Nat) :
    Cursor.scan ⟨(Quoted.literal text).toList ++ rest, line⟩ =
      (.token (.ofText text (line + text.toList.count '\n')), ⟨rest, line + text.toList.count '\n'⟩) := by
  have hliteral : (Quoted.literal text).toList ++ rest = '"' :: (Quoted.escape text.toList ++ '"' :: rest) := by
    rw [Quoted.literal, String.toList_ofList, List.cons_append, List.cons_append, List.append_assoc]
    rfl
  have hlength : (Quoted.literal text).toList.length = 1 + (Quoted.escape text.toList).length + 1 := by
    rw [Quoted.literal, String.toList_ofList, List.length_append, List.length_cons, List.length_singleton]
    omega
  have hclassify : Scan.classify '"' (Quoted.escape text.toList ++ '"' :: rest) =
      (.ok .string, (Quoted.literal text).toList.length) := by
    rw [Scan.classify_quote, Quoted.extent_escape, hlength]
    rfl
  obtain ⟨c, hc⟩ : ∃ c : Cursor, ⟨(Quoted.literal text).toList ++ rest, line⟩ = c := ⟨_, rfl⟩
  have hrest : c.rest = (Quoted.literal text).toList ++ rest := by rw [← hc]
  have hblank : c.skipBlank = c := by
    rw [Cursor.skipBlank, hrest, hliteral]
    rfl
  have hafter : c.drop (Quoted.literal text).toList.length = ⟨rest, line + text.toList.count '\n'⟩ := by
    rw [Cursor.drop, hrest, List.drop_left, List.take_left, Quoted.count_literal, ← hc]
  rw [hc, Cursor.scan_cons (hblank ▸ hrest.trans hliteral), hblank, Cursor.take_eq, hclassify, hafter, hrest,
    List.take_left, String.ofList_toList]
  rfl

namespace Compiler

theorem run_intern (text : String) (s : State) :
    (intern text).run s = ((s.store.intern text).1, { s with store := (s.store.intern text).2 }) := rfl

/-- The operand that a literal is read as is the constant of its text. -/
theorem run_operand_ofText {parse : Level → Action Unit} {canAssign : Bool} {text : String} {line : Nat} {s : State}
    (h : s.previous = .ofText text line) :
    (operand parse canAssign .string).run s =
      (emitConstant (.string (s.store.intern text).1)).run { s with store := (s.store.intern text).2 } := by
  have hlength : 2 ≤ (Quoted.literal text).toList.length := by
    rw [Quoted.literal, String.toList_ofList, List.length_append, List.length_cons, List.length_singleton]
    omega
  have hlexeme : s.previous.lexeme = Quoted.literal text := by rw [h, Token.ofText]
  rw [operand, run_bind, run_previousToken]
  dsimp only
  rw [hlexeme, decide_eq_true hlength, run_bind, Quoted.content_literal, String.ofList_toList, run_bind]
  rfl

end Compiler

/-- Every text has a literal. Whatever follows it, the scanner takes the literal and nothing more; and wherever the
compiler reads its token, the constant that it makes is the interned text, if the function has room for one more. -/
theorem string_literal_round_trip (text rest : String) :
    let line := 1 + text.toList.count '\n'
    let token := Token.ofText text line
    (Cursor.ofSource (Quoted.literal text ++ rest)).scan = (.token token, ⟨rest.toList, line⟩) ∧
    (∃ scanner, ByteScanner.scan.run (.ofSource (Quoted.literal text ++ rest)) = some (.token token, scanner) ∧
      scanner.remaining = Scan.spread rest.toList) ∧
    ∀ (parse : Compiler.Level → Compiler.Action Unit) (canAssign : Bool) (s : Compiler.State),
      let read := ((Compiler.operand parse canAssign .string).run { s with previous := token }).2
      let symbol := (s.store.intern text).1
      read.store = (s.store.intern text).2 ∧ read.store.text? symbol = some text ∧
      if s.draft.bytecode.constants.size < Bytecode.maxConstants then
        read.draft.bytecode.constants = s.draft.bytecode.constants.push (.string symbol) ∧
        read.draft.bytecode.code =
          (s.draft.bytecode.code.push Opcode.constant.toByte).push s.draft.bytecode.constants.size.toUInt8 ∧
        read.errors = s.errors
      else read.draft.bytecode.constants = s.draft.bytecode.constants ∧ read.recovering = true := by
  intro line token
  have hscan := scan_literal text rest.toList 1
  rw [← String.toList_append] at hscan
  refine ⟨hscan, ?_, fun parse canAssign s => ?_⟩
  · obtain ⟨skipped, piece, scanner, hcall, hfollows⟩ :=
      (ByteScanner.follows_ofSource (Quoted.literal text ++ rest)).call
    have hrun := hcall.run
    have hremaining := hfollows.stands.remaining
    rw [Cursor.ofSource, hscan] at hrun hremaining
    exact ⟨scanner, hrun, hremaining⟩
  · intro read symbol
    have hread : read = ((Compiler.emitConstant (.string symbol)).run
        { s with previous := token, store := (s.store.intern text).2 }).2 :=
      congrArg Prod.snd (Compiler.run_operand_ofText rfl)
    have htext : (s.store.intern text).2.text? symbol = some text := Symbols.text?_intern _ _
    by_cases hroom : s.draft.bytecode.constants.size < Bytecode.maxConstants
    · have hread := hread.trans (Compiler.run_emitConstant_of_lt hroom)
      rw [hread, if_pos hroom]
      exact ⟨rfl, htext, rfl, rfl, rfl⟩
    · have hread := hread.trans (Compiler.run_emitConstant_of_not_lt hroom)
      rw [hread, if_neg hroom]
      refine ⟨?_, ?_, ?_, ?_⟩
      all_goals unfold Compiler.State.report; split
      all_goals first | rfl | exact htext | assumption

end StackScript
