import Mathlib.Data.List.Chain
import StackScript.Proofs.Code.Lines

/-! Code that is written byte by byte, with operands patched in between, whatever the lines are. It holds what was
written last at each place, and its line table is the run-length encoding of the lines, sorted by the ends of the runs,
so that a binary search finds the line of a byte. -/
namespace StackScript

namespace LineTable
variable {t : LineTable}

/-- The runs end one behind the other, and no run could have been part of the one before. -/
structure Tight (t : LineTable) : Prop where
  sorted : t.runs.toList.Pairwise (·.stop < ·.stop)
  merged : t.runs.toList.IsChain (·.line ≠ ·.line)

theorem Tight.push (h : t.Tight) (hends : t.Ends) (line : Nat) : (t.push line).Tight := by
  obtain ⟨before, last, hruns, hstop, ⟨hline, hpush⟩ | ⟨hline, hpush⟩⟩ | ⟨-, -, hpush⟩ := push_cases t line
  · -- The last run gets longer, and keeps its line.
    have hsorted := h.sorted
    have hmerged := h.merged
    rw [hruns, Array.toList_push] at hsorted hmerged
    obtain ⟨hbefore, -, hlast⟩ := List.pairwise_append.1 hsorted
    obtain ⟨hchain, -, hnext⟩ := List.isChain_append.1 hmerged
    constructor <;> rw [hpush, Array.toList_push]
    · refine List.pairwise_append.2 ⟨hbefore, List.pairwise_singleton _ _, fun run hrun next hmem => ?_⟩
      obtain rfl := List.mem_singleton.1 hmem
      have := hlast run hrun last (List.mem_singleton.2 rfl)
      exact Nat.lt_succ_of_lt (hstop ▸ this)
    · refine List.isChain_append.2 ⟨hchain, List.isChain_singleton _, fun run hrun next hmem => ?_⟩
      obtain rfl := Option.some.inj hmem
      exact hline ▸ hnext run hrun last rfl
  · constructor <;> rw [hpush, Array.toList_push]
    · refine List.pairwise_append.2 ⟨h.sorted, List.pairwise_singleton _ _, fun run hrun next hmem => ?_⟩
      obtain rfl := List.mem_singleton.1 hmem
      exact Nat.lt_succ_of_le (hends run (Array.mem_toList_iff.1 hrun))
    · refine List.isChain_append.2 ⟨h.merged, List.isChain_singleton _, fun run hrun next hmem => ?_⟩
      obtain rfl := Option.some.inj hmem
      rw [hruns, Array.toList_push, List.getLast?_concat] at hrun
      exact Option.some.inj hrun ▸ hline
  · constructor <;> rw [hpush]
    · exact List.pairwise_singleton _ _
    · exact List.isChain_singleton _

theorem tight_ofLines (lines : List Nat) : (ofLines lines).Tight := by
  induction lines using List.reverseRecOn with
  | nil => exact ⟨.nil, .nil⟩
  | append_singleton lines line ih => simpa using ih.push (ends_ofLines lines) line

/-- Behind the end the last line answers. -/
theorem lineAt_ofLines_of_le {lines : List Nat} {offset : Nat} (h : lines.length ≤ offset) :
    (ofLines lines).lineAt offset = lines.getLast?.getD 0 := by
  induction lines using List.reverseRecOn with
  | nil => rfl
  | append_singleton lines last _ =>
    rw [List.length_append] at h
    rw [ofLines_append, List.foldl_cons, List.foldl_nil, lineAt_push (ends_ofLines lines), size_ofLines,
      if_neg (by omega), List.getLast?_concat, Option.getD_some]

/-- Runs that are sorted are cut in two by an offset: those that end before it come first. What the table finds is the
first behind the cut, or the last if there is none. -/
theorem Tight.lineAt_eq (h : t.Tight) (offset : Nat) : ∃ k ≤ t.runs.size,
    (∀ i run, t.runs[i]? = some run → (run.stop ≤ offset ↔ i < k)) ∧
      t.lineAt offset = (((t.runs[k]?).or t.runs.back?).map LineRun.line).getD 0 := by
  obtain ⟨⟨runs⟩⟩ := t
  have hsorted : runs.Pairwise (·.stop < ·.stop) := h.sorted
  refine ⟨runs.findIdx (offset < ·.stop), List.findIdx_le_length, fun i run hrun => ?_, ?_⟩
  · rw [List.getElem?_toArray] at hrun
    obtain ⟨hi, rfl⟩ := List.getElem?_eq_some_iff.1 hrun
    rw [List.lt_findIdx_iff]
    constructor
    · refine fun hle => ⟨hi, fun j hj => ?_⟩
      have : runs[j].stop ≤ runs[i].stop := by
        rcases Nat.eq_or_lt_of_le hj with rfl | hlt
        · exact Nat.le_refl _
        · exact Nat.le_of_lt (List.pairwise_iff_getElem.1 hsorted j i _ hi hlt)
      simp; omega
    · exact fun ⟨_, hall⟩ => by simpa using hall i (Nat.le_refl i)
  · simp only [lineAt, List.find?_toArray, List.find?_eq_getElem?_findIdx, List.getElem?_toArray]
    cases runs[runs.findIdx (offset < ·.stop)]? <;> rfl

end LineTable

/-- What can be done to the bytes of code. -/
inductive Edit
  | write (byte : UInt8) (line : Nat)
  | patch (offset : Nat) (value : UInt16)

namespace Edit

/-- The byte that is added, with its line. -/
def written : Edit → List (UInt8 × Nat)
  | write byte line => [(byte, line)]
  | patch _ _ => []

/-- The number that is set, with its place. -/
def patched : Edit → List (Nat × UInt16)
  | write _ _ => []
  | patch offset value => [(offset, value)]

end Edit

/-- The bytes that are added, in order. -/
def writtenBytes (es : List Edit) : List UInt8 := (es.flatMap Edit.written).map Prod.fst

/-- The lines of the bytes that are added. -/
def writtenLines (es : List Edit) : List Nat := (es.flatMap Edit.written).map Prod.snd

/-- Bytes with a number of two bytes set at a place, high byte first. -/
def overwrite (bytes : List UInt8) (p : Nat × UInt16) : List UInt8 :=
  (bytes.set p.1 (p.2.toNat / 256).toUInt8).set (p.1 + 1) p.2.toNat.toUInt8

/-- Every number is set at two bytes that are there by then, if so many are there at first. -/
def PatchesFit : Nat → List Edit → Prop
  | _, [] => True
  | n, .write _ _ :: es => PatchesFit (n + 1) es
  | n, .patch offset _ :: es => offset + 1 < n ∧ PatchesFit n es

theorem length_overwrite (bytes : List UInt8) (p : Nat × UInt16) : (overwrite bytes p).length = bytes.length := by
  simp [overwrite]

theorem overwrite_append {bytes : List UInt8} {p : Nat × UInt16} (h : p.1 + 1 < bytes.length) (more : List UInt8) :
    overwrite (bytes ++ more) p = overwrite bytes p ++ more := by
  rw [overwrite, overwrite, List.set_append_left _ _ (by omega), List.set_append_left _ _ (by simpa using h)]

namespace Bytecode
variable {b c : Bytecode} {offset : Nat}

/-- Code with an edit; none if the bytes to set are not there. -/
def edit? (b : Bytecode) : Edit → Option Bytecode
  | .write byte line => some (b.write byte line)
  | .patch offset value => b.patch? offset value.toNat

/-- The code after some edits, made one after another to empty code. -/
def afterEdits? (es : List Edit) : Option Bytecode := es.foldlM edit? {}

theorem patch?_eq_some_iff {value : Nat} :
    b.patch? offset value = some c ↔ offset + 1 < b.size ∧ b.patch offset value = c := by
  rw [patch?]
  split <;> simp_all [size]

theorem toList_patch (b : Bytecode) (offset : Nat) (value : UInt16) :
    (b.patch offset value.toNat).code.toList = overwrite b.code.toList (offset, value) := by
  simp [patch, overwrite]

/-- The number that has been set is there. -/
theorem readPair?_patch (h : offset + 1 < b.size) (value : UInt16) :
    (b.patch offset value.toNat).readPair? offset = some value.toNat := by
  have hvalue : value.toNat < 65536 := value.toNat_lt
  rw [size] at h
  have hhigh : (b.patch offset value.toNat).code[offset]? = some (value.toNat / 256).toUInt8 := by
    simp [patch, Array.getElem?_setIfInBounds]; omega
  have hlow : (b.patch offset value.toNat).code[offset + 1]? = some value.toNat.toUInt8 := by
    simp [patch, Array.getElem?_setIfInBounds]; omega
  rw [readPair?, hhigh, hlow]
  simp
  omega

/-- The other bytes are as before. -/
theorem getElem?_patch {i : Nat} (h : i ≠ offset) (h' : i ≠ offset + 1) (value : Nat) :
    (b.patch offset value).code[i]? = b.code[i]? := by
  rw [patch, Array.getElem?_setIfInBounds_ne (Ne.symm h'), Array.getElem?_setIfInBounds_ne (Ne.symm h)]

/-- Setting numbers succeeds where the bytes are. -/
theorem isSome_edits_iff (b : Bytecode) (es : List Edit) : (es.foldlM edit? b).isSome ↔ PatchesFit b.size es := by
  induction es generalizing b with
  | nil => simp [PatchesFit]
  | cons e es ih =>
    rw [List.foldlM_cons]
    cases e with
    | write byte line => exact (ih _).trans (by rw [size_write, PatchesFit])
    | patch offset value =>
      rw [edit?, patch?, PatchesFit]
      by_cases hfits : offset + 1 < b.code.size
      · rw [if_pos hfits]
        exact (ih _).trans (by simp [size, patch, hfits])
      · simp [size, hfits]

/-- An edit adds a byte, or sets a number where there are bytes. -/
theorem edit?_cases {e : Edit} (h : b.edit? e = some c) :
    (∃ byte line, e = .write byte line ∧ c = b.write byte line) ∨
      ∃ offset value, e = .patch offset value ∧ offset + 1 < b.size ∧ c = b.patch offset value.toNat := by
  cases e with
  | write byte line => exact .inl ⟨byte, line, rfl, (Option.some.inj h).symm⟩
  | patch offset value =>
    obtain ⟨hfits, rfl⟩ := patch?_eq_some_iff.1 h
    exact .inr ⟨offset, value, rfl, hfits, rfl⟩

theorem edits_cons {e : Edit} {es : List Edit} (h : (e :: es).foldlM edit? b = some c) :
    ∃ d, b.edit? e = some d ∧ es.foldlM edit? d = some c := by
  rw [List.foldlM_cons] at h
  exact Option.bind_eq_some_iff.1 h

theorem lines_edits {es : List Edit} (h : es.foldlM edit? b = some c) :
    c.lines = (writtenLines es).foldl LineTable.push b.lines := by
  induction es generalizing b with
  | nil => rw [Option.some.inj h]; rfl
  | cons e es ih =>
    obtain ⟨d, hd, hes⟩ := edits_cons h
    rw [ih hes]
    obtain ⟨byte, line, rfl, rfl⟩ | ⟨offset, value, rfl, -, rfl⟩ := edit?_cases hd <;> rfl

/-- A number may be set as well after all the bytes have been written. -/
theorem toList_edits {es : List Edit} (h : es.foldlM edit? b = some c) :
    c.code.toList = (es.flatMap Edit.patched).foldl overwrite (b.code.toList ++ writtenBytes es) := by
  induction es generalizing b with
  | nil =>
    rw [← Option.some.inj h]
    exact (List.append_nil _).symm
  | cons e es ih =>
    obtain ⟨d, hd, hes⟩ := edits_cons h
    rw [ih hes]
    obtain ⟨byte, line, rfl, rfl⟩ | ⟨offset, value, rfl, hfits, rfl⟩ := edit?_cases hd
    · rw [code_write, Array.toList_push, List.append_assoc]
      rfl
    · rw [toList_patch, ← overwrite_append (by simpa [size] using hfits)]
      rfl

theorem foldl_overwrite_length (ps : List (Nat × UInt16)) (bytes : List UInt8) :
    (ps.foldl overwrite bytes).length = bytes.length := by
  induction ps generalizing bytes with
  | nil => rfl
  | cons p ps ih => rw [List.foldl_cons, ih, length_overwrite]

/-- Code that is written byte by byte, with numbers set in between where there are bytes, is what has been written with
the numbers set in order. The line of a byte is the one that it was written under; behind the end it is the last line,
and zero if there is none. The runs of lines end one behind the other, the last at the end, and neighbours differ; so
an offset cuts them in two, and its line is found at the cut. A number that is then set can be read back, and everything
else is as before. -/
theorem code_and_lines_afterEdits {es : List Edit} (h : PatchesFit 0 es) : ∃ b, afterEdits? es = some b ∧
    (b.code.toList = (es.flatMap Edit.patched).foldl overwrite (writtenBytes es) ∧ b.size = (writtenBytes es).length) ∧
    ((∀ i line, (writtenLines es)[i]? = some line → b.lineAt i = line) ∧
      ∀ i, b.size ≤ i → b.lineAt i = (writtenLines es).getLast?.getD 0) ∧
    (b.lines.runs.toList.Pairwise (·.stop < ·.stop) ∧ b.lines.runs.toList.IsChain (·.line ≠ ·.line) ∧
      (b.lines.runs.back?.map LineRun.stop).getD 0 = b.size) ∧
    (∀ offset, ∃ k ≤ b.lines.runs.size, (∀ i run, b.lines.runs[i]? = some run → (run.stop ≤ offset ↔ i < k)) ∧
      b.lineAt offset = (((b.lines.runs[k]?).or b.lines.runs.back?).map LineRun.line).getD 0) ∧
    ∀ offset (value : UInt16), offset + 1 < b.size → ∃ c, b.patch? offset value.toNat = some c ∧
      c.readPair? offset = some value.toNat ∧
      (∀ i, i ≠ offset → i ≠ offset + 1 → c.code[i]? = b.code[i]?) ∧ c.size = b.size ∧ ∀ i, c.lineAt i = b.lineAt i := by
  obtain ⟨b, hb⟩ := Option.isSome_iff_exists.1 ((isSome_edits_iff {} es).2 h)
  have hcode : b.code.toList = (es.flatMap Edit.patched).foldl overwrite (writtenBytes es) := toList_edits hb
  have hlines : b.lines = .ofLines (writtenLines es) := lines_edits hb
  have hlength : (writtenLines es).length = (writtenBytes es).length := by simp [writtenLines, writtenBytes]
  have hsize : b.size = (writtenBytes es).length := by
    rw [size, ← Array.length_toList, hcode, foldl_overwrite_length]
  have htight : b.lines.Tight := hlines ▸ LineTable.tight_ofLines _
  refine ⟨b, hb, ⟨hcode, hsize⟩, ⟨fun i line hi => ?_, fun i hi => ?_⟩, ⟨htight.sorted, htight.merged, ?_⟩,
    htight.lineAt_eq, fun offset value hfits => ?_⟩
  · rw [lineAt, hlines, LineTable.lineAt_ofLines hi]
  · rw [lineAt, hlines, LineTable.lineAt_ofLines_of_le (by omega)]
  · have : b.lines.size = b.size := by rw [hlines, LineTable.size_ofLines, hlength, hsize]
    rw [← this, LineTable.size]
    cases b.lines.runs.back? <;> rfl
  · exact ⟨_, patch?_eq_some_iff.2 ⟨hfits, rfl⟩, readPair?_patch hfits value, fun i hi hi' => getElem?_patch hi hi' _,
      size_patch .., fun i => rfl⟩

/-- Lines that come again and a number that is set in between. -/
theorem code_and_lines_of_repeated_lines :
    PatchesFit 0 [.write 1 3, .write 2 3, .patch 0 0x1234, .write 5 1, .write 6 3] ∧
      ∃ b, afterEdits? [.write 1 3, .write 2 3, .patch 0 0x1234, .write 5 1, .write 6 3] = some b ∧
        b.code.toList = [0x12, 0x34, 5, 6] ∧ b.lineAt 1 = 3 ∧ b.lineAt 2 = 1 ∧ b.lineAt 7 = 3 := by
  have hfits : PatchesFit 0 [.write 1 3, .write 2 3, .patch 0 0x1234, .write 5 1, .write 6 3] := by simp [PatchesFit]
  obtain ⟨b, hb, ⟨hcode, hsize⟩, ⟨hlines, hlast⟩, -⟩ := code_and_lines_afterEdits hfits
  have hfour : b.size = 4 := hsize
  exact ⟨hfits, b, hb, hcode, hlines 1 3 rfl, hlines 2 1 rfl, hlast 7 (by omega)⟩

end Bytecode
end StackScript
