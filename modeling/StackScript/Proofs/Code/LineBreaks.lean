import Mathlib.Algebra.GroupWithZero.Nat
import StackScript.Proofs.Code.New
import StackScript.Proofs.Code.Verified
import StackScript.Proofs.Scanning.Bytes
import StackScript.Proofs.Scanning.Lines
import StackScript.Proofs.Scanning.Rejoined

/-! The lines of a listing. Each instruction has one, in order, and nothing in it breaks the line but the text of a
string: of all values, only strings show line breaks as they are. -/
namespace StackScript
open Compiler (charByte)

@[simp] theorem lineBreaks_append (s t : String) : lineBreaks (s ++ t) = lineBreaks s + lineBreaks t := by
  simp [lineBreaks]

theorem lineBreaks_ofList {text : List Char} (h : ∀ c ∈ text, c ≠ '\n') : lineBreaks (String.ofList text) = 0 := by
  rw [lineBreaks, String.toList_ofList]
  exact List.count_eq_zero.2 fun hmem => h _ hmem rfl

@[simp] theorem lineBreaks_join (texts : List String) :
    lineBreaks (String.join texts) = (texts.map lineBreaks).sum := by
  induction texts with
  | nil => rfl
  | cons text texts ih => rw [String.join_cons, lineBreaks_append, ih, List.map_cons, List.sum_cons]

theorem lineBreaks_eq_zero {text : String} : lineBreaks text = 0 ↔ '\n' ∉ text.toList := List.count_eq_zero

/-! ### Numbers and columns -/

theorem ne_newline_of_digit {n : Nat} {c : Char} (h : c ∈ Nat.toDigits 10 n) : c ≠ '\n' := by
  rintro rfl
  cases Nat.isDigit_of_mem_toDigits (by decide) (by decide) h

@[simp] theorem lineBreaks_toString (n : Nat) : lineBreaks (toString n) = 0 := by
  rw [Nat.toString_eq_ofList_toDigits]
  exact lineBreaks_ofList fun c => ne_newline_of_digit

theorem lineBreaks_replicate (n : Nat) {c : Char} (h : c ≠ '\n') :
    lineBreaks (String.ofList (List.replicate n c)) = 0 :=
  lineBreaks_ofList fun _ hd => List.eq_of_mem_replicate hd ▸ h

namespace Double

theorem ne_newline_fractionText {digits : List Char} (h : ∀ c ∈ digits, c ≠ '\n') :
    ∀ c ∈ fractionText digits, c ≠ '\n' := by
  intro c hc
  unfold fractionText at hc
  split at hc
  · cases hc
  · rename_i d ds hds
    obtain rfl | hc := List.mem_cons.1 hc
    · decide
    · refine h c ?_
      rw [← hds, trimZeros, List.mem_reverse] at hc
      exact List.mem_reverse.1 ((List.dropWhile_sublist _).subset hc)

theorem ne_newline_exponentText (x : Int) : ∀ c ∈ exponentText x, c ≠ '\n' := by
  intro c hc
  simp only [exponentText, List.mem_cons] at hc
  obtain rfl | hc := hc
  · decide
  obtain rfl | hc := hc
  · split <;> decide
  split at hc
  · obtain rfl | hc := List.mem_cons.1 hc
    · decide
    · exact ne_newline_of_digit hc
  · exact ne_newline_of_digit hc

theorem ne_newline_positionText (decimals steps : Nat) : ∀ c ∈ positionText decimals steps, c ≠ '\n' := by
  have hdigits : ∀ c ∈ stepDigits decimals steps, c ≠ '\n' := by
    intro c hc
    obtain hc | hc := List.mem_append.1 hc
    · obtain rfl := List.eq_of_mem_replicate hc
      decide
    · exact ne_newline_of_digit hc
  intro c hc
  obtain hc | hc := List.mem_append.1 hc
  · exact hdigits c (List.mem_of_mem_take hc)
  · exact ne_newline_fractionText (fun d hd => hdigits d (List.mem_of_mem_drop hd)) c hc

theorem ne_newline_ratioText (num den : Nat) : ∀ c ∈ ratioText num den, c ≠ '\n' := by
  intro c hc
  simp only [ratioText] at hc
  split at hc
  · obtain hc | hc := List.mem_append.1 hc
    · exact ne_newline_positionText _ _ c hc
    · exact ne_newline_exponentText _ c hc
  · exact ne_newline_positionText _ _ c hc

/-- A number shows on one line. -/
theorem lineBreaks_text (x : Double) : lineBreaks x.text = 0 := by
  have hmagnitude : ∀ c ∈ x.magnitudeText, c ≠ '\n' := by
    unfold magnitudeText
    split
    · simp
    split
    · simp
    split
    · simp
    · exact ne_newline_ratioText _ _
  refine lineBreaks_ofList fun c hc => ?_
  split at hc
  · obtain rfl | hc := List.mem_cons.1 hc
    · decide
    · exact hmagnitude c hc
  · exact hmagnitude c hc

end Double

namespace Bytecode

@[simp] theorem lineBreaks_padLeft (width : Nat) {fill : Char} (h : fill ≠ '\n') (text : String) :
    lineBreaks (padLeft width fill text) = lineBreaks text := by
  rw [padLeft, lineBreaks_append, lineBreaks_replicate _ h, Nat.zero_add]

theorem lineBreaks_mnemonic (op : Opcode) : lineBreaks op.mnemonic = 0 := by cases op <;> decide

@[simp] theorem lineBreaks_operandText (op : Opcode) (n : Nat) : lineBreaks (operandText op n) = 0 := by
  rw [operandText, lineBreaks_append, lineBreaks_append, padRight, lineBreaks_append, lineBreaks_mnemonic,
    lineBreaks_replicate _ (by decide), lineBreaks_padLeft _ (by decide), lineBreaks_toString]
  rfl

@[simp] theorem lineBreaks_lineColumn (b : Bytecode) (offset : Nat) : lineBreaks (b.lineColumn offset) = 0 := by
  unfold lineColumn
  split
  · decide
  · rw [lineBreaks_append, lineBreaks_padLeft _ (by decide), lineBreaks_toString]
    decide

end Bytecode

/-! ### Values and instructions -/

/-- The line breaks in the string that an instruction puts on the stack. -/
def Pool.breaks (κ : Pool) (i : Instr) : Nat :=
  match i.op, κ.constants[i.operand]? with
  | .constant, some (.string a) => lineBreaks ((κ.store.text? a).getD "")
  | _, _ => 0

theorem Pool.breaks_of_ne {κ : Pool} {i : Instr} (h : i.op ≠ .constant) : κ.breaks i = 0 := by
  unfold breaks
  split
  · exact absurd ‹_› h
  · rfl

theorem Pool.breaks_eq_zero_iff {κ : Pool} {i : Instr} : κ.breaks i = 0 ↔ (i.op = .constant → ∀ a x,
    κ.constants[i.operand]? = some (.string a) → κ.store.text? a = some x → '\n' ∉ x.toList) := by
  by_cases hop : i.op = .constant
  · simp only [breaks, hop, forall_const]
    split
    · rename_i a _ ha
      refine ⟨fun hzero b x hb hx => ?_, fun hno => ?_⟩
      · obtain rfl := Value.string.inj (Option.some.inj (ha.symm.trans hb))
        rwa [hx, Option.getD_some, lineBreaks_eq_zero] at hzero
      · cases ht : κ.store.text? a with
        | none => rfl
        | some x => exact lineBreaks_eq_zero.2 (hno a x ha ht)
    · rename_i hne
      exact iff_of_true rfl fun a x ha _ => absurd ha (hne a rfl)
  · exact iff_of_true (breaks_of_ne hop) fun h => absurd h hop

/-- A constant that an instruction names can be shown, and breaks no line unless it is a string that the instruction
puts on the stack. -/
def Pool.Lists (κ : Pool) (i : Instr) : Prop := i.op.namesConstant = true →
  ∃ v text, κ.constants[i.operand]? = some v ∧ κ.store.escaped? v = some text ∧ lineBreaks text = κ.breaks i

/-- A single character breaks no line in a listing: a newline shows as it is written in a script. -/
theorem Store.escaped?_char (s : Store) (byte : UInt8) :
    ∃ text, s.escaped? (.char byte) = some text ∧ lineBreaks text = 0 := by
  unfold escaped?
  split
  · exact ⟨_, rfl, by decide⟩
  · exact ⟨_, rfl, by decide⟩
  · rename_i v hne _
    refine ⟨_, rfl, lineBreaks_eq_zero.2 fun hmem => hne ?_⟩
    rw [String.toList_singleton, List.mem_singleton] at hmem
    have hbyte := congrArg Char.toNat hmem
    rw [Scan.toNat_ofNat_byte] at hbyte
    rw [← UInt8.ofNat_toNat (x := byte), ← hbyte]
    rfl

/-- Identifiers are on one line. -/
theorem Word.IsWritten.lineBreaks_ident {x : String} (h : Word.IsWritten ⟨.ident, x⟩) : lineBreaks x = 0 := by
  obtain ⟨c, rest, htext, hclassify⟩ := h.classify
  have hspelling : x.toList = c :: rest := htext
  rw [lineBreaks_eq_zero, hspelling]
  intro hmem
  cases Scan.isIdentContinue_of_ident hclassify _ hmem

/-- What words stand for can be listed. -/
theorem Pool.ensures_lists (κ : Pool) {ws : List Word} (hw : ∀ w ∈ ws, w.IsWritten) : κ.Ensures ws κ.Lists where
  plain h hop := by simp [h] at hop
  literal {l i v} _ hi hv _ := by
    have hother (hne : ∀ a, v ≠ .string a) : κ.breaks ⟨.constant, i⟩ = 0 := by
      rw [breaks_eq_zero_iff]
      exact fun _ a _ ha => absurd (Option.some.inj (hi.symm.trans ha)) (hne a)
    cases l with
    | number text =>
      obtain ⟨n, -, rfl⟩ := hv
      exact ⟨_, _, hi, rfl, (Double.lineBreaks_text _).trans (hother nofun).symm⟩
    | string text =>
      obtain ⟨a, ha, rfl⟩ := hv
      exact ⟨_, _, hi, ha, by simp [breaks, hi, ha]⟩
    | char text =>
      obtain rfl := hv
      obtain ⟨shown, hshown, hbreaks⟩ := κ.store.escaped?_char (charByte text.toList)
      exact ⟨_, _, hi, hshown, hbreaks.trans (hother nofun).symm⟩
    | newLine =>
      obtain rfl := hv
      exact ⟨_, _, hi, rfl, (hother nofun).symm⟩
    | tab =>
      obtain rfl := hv
      exact ⟨_, _, hi, rfl, (hother nofun).symm⟩
    | true_ =>
      obtain rfl := hv
      exact ⟨_, _, hi, rfl, (hother nofun).symm⟩
    | false_ =>
      obtain rfl := hv
      exact ⟨_, _, hi, rfl, (hother nofun).symm⟩
  name _ hne hx hname _ := by
    obtain ⟨a, ha, hxa⟩ := hname
    exact ⟨_, _, ha, hxa, (hw _ hx).lineBreaks_ident.trans (breaks_of_ne hne).symm⟩
  function {x i r f} hx hi hf hnamed _ := by
    obtain ⟨a, ha, hxa⟩ := Option.bind_eq_some_iff.1 hnamed.bind_text
    refine ⟨_, "<fn " ++ x ++ ">", hi, ?_, ?_⟩
    · simp [Store.escaped?, Store.display?, hf, Store.functionText?, ha, hxa]
    · rw [lineBreaks_append, lineBreaks_append, (hw _ hx).lineBreaks_ident]
      refine (breaks_eq_zero_iff.2 fun _ b _ hb => ?_).symm
      cases hi.symm.trans hb

/-! ### Listings -/

/-- Instructions with their places in code, from a place on. -/
def places (n : Nat) : List Instr → List (Nat × Instr)
  | [] => []
  | i :: is => (n, i) :: places (n + i.size) is

namespace Bytecode
variable {b : Bytecode} {pre post is : List Instr} {i : Instr} {s : Store}

theorem Consists.operationText?_eq (h : b.Consists (pre ++ i :: post)) (hi : Pool.Lists ⟨b.constants, s⟩ i) :
    ∃ text, b.operationText? s (codeLength pre) i.op = some text ∧
      lineBreaks text = Pool.breaks ⟨b.constants, s⟩ i := by
  obtain ⟨op, operand⟩ := i
  have hconstant (hw : op.width = 1) (hop : op.namesConstant = true) :
      ∃ text, (do
        let i ← b.code[codeLength pre + 1]?
        let text ← s.escaped? (← b.constant? i)
        some (operandText op i.toNat ++ " '" ++ text ++ "'")) = some text ∧
        lineBreaks text = Pool.breaks ⟨b.constants, s⟩ ⟨op, operand⟩ := by
    obtain ⟨v, text, hv, htext, hbreaks⟩ := hi hop
    have hfits : operand < 256 ^ op.width := h.fits ⟨op, operand⟩ (by simp)
    rw [hw] at hfits
    have hnamed : b.constant? operand.toUInt8 = some v := by
      rwa [constant?, UInt8.toNat_ofNat_of_lt' hfits]
    refine ⟨operandText op operand.toUInt8.toNat ++ " '" ++ text ++ "'", by simp [h.operandByte hw, hnamed, htext], ?_⟩
    rw [lineBreaks_append, lineBreaks_append, lineBreaks_append, lineBreaks_operandText, hbreaks]
    exact Nat.zero_add _
  have hbyte (hw : op.width = 1) : ∃ text, (do
      let n ← b.code[codeLength pre + 1]?
      some (operandText op n.toNat)) = some text ∧ lineBreaks text = 0 :=
    ⟨operandText op operand.toUInt8.toNat, by simp [h.operandByte hw], lineBreaks_operandText _ _⟩
  have hjump (hw : op.width = 2) : ∃ text, (do
      let distance ← b.readPair? (codeLength pre + 1)
      some (operandText op (codeLength pre) ++ " -> " ++ toString (jumpTarget op (codeLength pre) distance))) =
        some text ∧
        lineBreaks text = 0 := by
    refine ⟨operandText op (codeLength pre) ++ " -> " ++ toString (jumpTarget op (codeLength pre) operand),
      by simp [h.readPair? hw], ?_⟩
    rw [lineBreaks_append, lineBreaks_append, lineBreaks_operandText, lineBreaks_toString]
    rfl
  cases op
  case constant => exact hconstant rfl rfl
  case getGlobal => exact hconstant rfl rfl
  case setGlobal => exact hconstant rfl rfl
  case defineGlobal => exact hconstant rfl rfl
  case getLocal => exact hbyte rfl
  case setLocal => exact hbyte rfl
  case call => exact hbyte rfl
  case jump => exact hjump rfl
  case jumpIfFalse => exact hjump rfl
  case jumpIfTrue => exact hjump rfl
  case loop => exact hjump rfl
  all_goals exact ⟨_, rfl, lineBreaks_mnemonic _⟩

theorem Consists.instructionText?_eq (h : b.Consists (pre ++ i :: post)) (hi : Pool.Lists ⟨b.constants, s⟩ i) :
    ∃ text, b.instructionText? s (codeLength pre) = some text ∧
      lineBreaks text = Pool.breaks ⟨b.constants, s⟩ i + 1 := by
  obtain ⟨text, htext, hbreaks⟩ := h.operationText?_eq hi
  refine ⟨padLeft 4 '0' (toString (codeLength pre)) ++ " " ++ b.lineColumn (codeLength pre) ++ text ++ "\n",
    by simp [instructionText?, h.opByte, htext], ?_⟩
  rw [lineBreaks_append, lineBreaks_append, lineBreaks_append, lineBreaks_append, lineBreaks_padLeft _ (by decide),
    lineBreaks_toString, lineBreaks_lineColumn, hbreaks, (by decide : lineBreaks " " = 0),
    (by decide : lineBreaks "\n" = 1)]
  simp

/-- The listing from an instruction on has a text for each instruction in order. -/
theorem Consists.listingFrom?_eq (pre : List Instr) (h : b.Consists (pre ++ is))
    (hl : ∀ i ∈ is, Pool.Lists ⟨b.constants, s⟩ i) (text : String) : ∃ texts,
    b.listingFrom? s text (codeLength pre) = some (text ++ String.join texts) ∧
      List.Forall₂ (fun p line => b.instructionText? s p.1 = some line ∧
        lineBreaks line = Pool.breaks ⟨b.constants, s⟩ p.2 + 1) (places (codeLength pre) is) texts := by
  induction is generalizing pre text with
  | nil =>
    refine ⟨[], ?_, .nil⟩
    rw [listingFrom?, if_neg]
    · simp
    · rw [h.size]
      simp
  | cons i is ih =>
    obtain ⟨hi, hl⟩ := List.forall_mem_cons.1 hl
    obtain ⟨line, hline, hbreaks⟩ := h.instructionText?_eq hi
    obtain ⟨texts, htexts, hrest⟩ := ih (pre ++ [i]) (by simpa using h) hl (text ++ line)
    have hlt : codeLength pre < b.code.size := by
      have := i.size_pos
      rw [h.size, codeLength_append, codeLength_cons]
      omega
    refine ⟨line :: texts, ?_, .cons ⟨hline, hbreaks⟩ (by simpa using hrest)⟩
    rw [listingFrom?, if_pos hlt, hline, h.nextOffset, String.join_cons, ← String.append_assoc]
    exact htexts

end Bytecode

theorem sum_lineBreaks {b : Bytecode} {s : Store} {is : List Instr} {n : Nat} {texts : List String}
    (h : List.Forall₂ (fun p line => b.instructionText? s p.1 = some line ∧
      lineBreaks line = Pool.breaks ⟨b.constants, s⟩ p.2 + 1) (places n is) texts) :
    (texts.map lineBreaks).sum = is.length + (is.map (Pool.breaks ⟨b.constants, s⟩)).sum := by
  induction is generalizing n texts with
  | nil =>
    cases h
    rfl
  | cons i is ih =>
    cases h with
    | cons hline hrest =>
      simp only [List.map_cons, List.sum_cons, List.length_cons, hline.2, ih hrest]
      omega

/-! ### Functions -/

/-- The tree is made of these words, among others. -/
structure FunctionTree.Within (t : FunctionTree) (ws : List Word) : Prop where
  name : ∀ {x}, t.name = some x → ⟨.ident, x⟩ ∈ ws
  body : Decl.listWords t.body ⊆ ws

namespace FunctionTree.Within
variable {t : FunctionTree} {us ws : List Word}

theorem mono (h : t.Within us) (hs : us ⊆ ws) : t.Within ws := ⟨fun hx => hs (h.name hx), List.Subset.trans h.body hs⟩

end FunctionTree.Within

namespace Decl

mutual

/-- Each function that is declared is compiled from a tree within the declaration. -/
theorem Code.declares {κ : Pool} {σ : Scope} {first : Nat} (d : Decl) {is : List Instr} (h : d.Code κ σ first is)
    {k : Nat} (hf : first ≤ k) (hk : k < first + d.functionCount) :
    ∃ f t, κ.store.function? ⟨k⟩ = some f ∧ FunctionTree.IsCompiled t κ.store f ∧ t.Within d.words := by
  cases d with
  | if_ condition body =>
    obtain ⟨ic, ib, -, hb, -⟩ := h
    obtain ⟨f, t, hfun, ht, hwithin⟩ := ListCode.declares body hb hf hk
    exact ⟨f, t, hfun, ht, hwithin.mono words_subset_if.2⟩
  | ifElse condition body alternative =>
    obtain ⟨ic, ib, ia, -, hb, ha, -⟩ := h
    by_cases hlt : k < first + listFunctionCount body
    · obtain ⟨f, t, hfun, ht, hwithin⟩ := ListCode.declares body hb hf hlt
      exact ⟨f, t, hfun, ht, hwithin.mono words_subset_ifElse.2.1⟩
    · obtain ⟨f, t, hfun, ht, hwithin⟩ :=
        ListCode.declares alternative ha (Nat.le_of_not_lt hlt) (by rwa [Nat.add_assoc])
      exact ⟨f, t, hfun, ht, hwithin.mono words_subset_ifElse.2.2⟩
  | until_ condition body =>
    obtain ⟨ic, ib, -, hb, -⟩ := h
    obtain ⟨f, t, hfun, ht, hwithin⟩ := ListCode.declares body hb hf hk
    exact ⟨f, t, hfun, ht, hwithin.mono words_subset_until.2⟩
  | block mark body =>
    obtain ⟨ib, hb, -⟩ := h
    obtain ⟨f, t, hfun, ht, hwithin⟩ := ListCode.declares body hb hf hk
    exact ⟨f, t, hfun, ht, hwithin.mono words_subset_block⟩
  | fun_ x parameters body =>
    obtain ⟨i, g, ib, js, -, hg, hcompiles, hb, -, -⟩ := h
    by_cases hlt : k < first + listFunctionCount body
    · obtain ⟨f, t, hfun, ht, hwithin⟩ := ListCode.declares body hb hf hlt
      exact ⟨f, t, hfun, ht, hwithin.mono words_subset_fun⟩
    · obtain rfl : k = first + listFunctionCount body := by
        rw [functionCount] at hk
        omega
      refine ⟨g, ⟨some x, parameters, body, first, by simp⟩, hg, ⟨ib, hcompiles, hb⟩, fun hx => ?_, words_subset_fun⟩
      obtain rfl := Option.some.inj hx
      simp [words]
  | _ => exact absurd hk (Nat.not_lt_of_le hf)

theorem ListCode.declares {κ : Pool} {σ : Scope} {first : Nat} (ds : List Decl) {is : List Instr}
    (h : ListCode κ σ first ds is) {k : Nat} (hf : first ≤ k) (hk : k < first + listFunctionCount ds) :
    ∃ f t, κ.store.function? ⟨k⟩ = some f ∧ FunctionTree.IsCompiled t κ.store f ∧ t.Within (listWords ds) := by
  cases ds with
  | nil => exact absurd hk (Nat.not_lt_of_le hf)
  | cons d ds =>
    obtain ⟨id, js, hd, hs, -⟩ := h
    by_cases hlt : k < first + d.functionCount
    · obtain ⟨f, t, hfun, ht, hwithin⟩ := Code.declares d hd hf hlt
      exact ⟨f, t, hfun, ht, hwithin.mono words_subset_list.1⟩
    · obtain ⟨f, t, hfun, ht, hwithin⟩ := ListCode.declares ds hs (Nat.le_of_not_lt hlt) (by rwa [Nat.add_assoc])
      exact ⟨f, t, hfun, ht, hwithin.mono words_subset_list.2⟩

end
end Decl

section Compile
variable {source : String} {store : Store} {printCode : Bool} {ds : List Decl} {r g : FunctionRef}

/-- The functions of an accepted source are compiled from trees within the source. -/
theorem Store.Contains.tree (h : (TokenStream.ofSource source).Reads ds)
    (hgains : store.Gains ds r (compile source store printCode).store)
    (hg : (compile source store printCode).store.Contains r g) :
    ∃ f t, (compile source store printCode).store.function? g = some f ∧
      FunctionTree.IsCompiled t (compile source store printCode).store f ∧ t.Within (Decl.listWords ds) := by
  obtain ⟨f, hf, hcompiled, -⟩ := hgains.compiled
  have hbound : g.index < store.functions.size + Decl.listFunctionCount ds + 1 := by
    cases hg.sound hgains.sound with
    | function hfun =>
      rw [← hgains.size]
      exact (Array.getElem?_eq_some_iff.1 hfun).1
  obtain rfl := hgains.ref
  have hle := hg.isNew h
  by_cases hlast : g.index < store.functions.size + Decl.listFunctionCount ds
  · obtain ⟨ib, -, hcode⟩ := hcompiled
    exact Decl.ListCode.declares ds hcode hle hlast
  · obtain rfl : g = ⟨store.functions.size + Decl.listFunctionCount ds⟩ :=
      congrArg FunctionRef.mk (Nat.le_antisymm (Nat.le_of_lt_succ hbound) (Nat.le_of_not_lt hlast))
    exact ⟨f, scriptTree store ds, hf, hcompiled, ⟨nofun, List.Subset.refl _⟩⟩

theorem isWritten_words (source : String) : ∀ w ∈ (TokenStream.ofSource source).words, w.IsWritten := by
  rw [TokenStream.words_eq]
  intro w hw
  obtain ⟨t, ht, rfl⟩ := List.mem_map.1 hw
  exact (isClassified_ofSource source t (mem_tokens ht)).isWritten

theorem FunctionTree.IsCompiled.lists {t : FunctionTree} {s : Store} {f : Function} (h : t.IsCompiled s f)
    {ws : List Word} (hwithin : t.Within ws) (hw : ∀ w ∈ ws, w.IsWritten) :
    ∃ is, f.bytecode.Consists is ∧ ∀ i ∈ is, Pool.Lists ⟨f.bytecode.constants, s⟩ i := by
  obtain ⟨ib, hcompiles, hcode⟩ := h
  have hensures := Pool.ensures_lists ⟨f.bytecode.constants, s⟩ fun w hmem => hw w (hwithin.body hmem)
  exact ⟨ib ++ returnCode, hcompiles.code, List.forall_mem_append.2 ⟨hcode.all _ _ _ _ hensures, hensures.returns⟩⟩

theorem FunctionTree.IsCompiled.title {t : FunctionTree} {s : Store} {f : Function} (h : t.IsCompiled s f)
    {ws : List Word} (hwithin : t.Within ws) (hw : ∀ w ∈ ws, w.IsWritten) :
    ∃ title, Compiler.listing? s f = f.bytecode.listing? s title ∧ '\n' ∉ title.toList := by
  obtain ⟨ib, hcompiles, -⟩ := h
  have hname := hcompiles.named.bind_text
  unfold Compiler.listing?
  cases hfn : f.name with
  | none => exact ⟨"<script>", rfl, by decide⟩
  | some a =>
    have hnamed := hcompiles.named
    rw [hfn, Option.bind_some] at hname
    cases ht : t.name with
    | none => simp [Store.Names, hfn, ht] at hnamed
    | some x =>
      rw [ht] at hname
      refine ⟨x, by simp [hname], lineBreaks_eq_zero.1 (hw _ (hwithin.name ht)).lineBreaks_ident⟩

/-- A function of a tree is listed in a header and a text for each instruction. -/
theorem FunctionTree.IsCompiled.listing {t : FunctionTree} {s : Store} {f : Function} (h : t.IsCompiled s f)
    {ws : List Word} (hwithin : t.Within ws) (hw : ∀ w ∈ ws, w.IsWritten) :
    ∃ is title texts, f.bytecode.Decodes 0 is ∧ '\n' ∉ title.toList ∧
      Compiler.listing? s f = some ("== " ++ title ++ " ==\n" ++ String.join texts) ∧
      List.Forall₂ (fun p text => f.bytecode.instructionText? s p.1 = some text ∧
        lineBreaks text = Pool.breaks ⟨f.bytecode.constants, s⟩ p.2 + 1) (places 0 is) texts ∧
      lineBreaks ("== " ++ title ++ " ==\n" ++ String.join texts) =
        1 + is.length + (is.map (Pool.breaks ⟨f.bytecode.constants, s⟩)).sum := by
  obtain ⟨is, hconsists, hlists⟩ := h.lists hwithin hw
  obtain ⟨title, hlisting, htitle⟩ := h.title hwithin hw
  obtain ⟨texts, htexts, hlines⟩ := Bytecode.Consists.listingFrom?_eq [] hconsists hlists ("== " ++ title ++ " ==\n")
  refine ⟨is, title, texts, hconsists.decodes, htitle, hlisting.trans htexts, hlines, ?_⟩
  rw [lineBreaks_append, lineBreaks_join, sum_lineBreaks hlines, lineBreaks_append, lineBreaks_append,
    lineBreaks_eq_zero.2 htitle, (by decide : lineBreaks "== " = 0), (by decide : lineBreaks " ==\n" = 1)]
  omega

/-- The listing of a function of an accepted source has a header, and then a text for each instruction in order. The
header is one line, and so is each text, unless it shows a string in which there are line breaks: these make as many
lines more. -/
theorem listing_line_breaks (h : (compile source store printCode).result = .ok r)
    (hg : (compile source store printCode).store.Contains r g) :
    ∃ f is title texts listing, (compile source store printCode).store.function? g = some f ∧
      f.bytecode.Decodes 0 is ∧
      Compiler.listing? (compile source store printCode).store f = some listing ∧
      listing = "== " ++ title ++ " ==\n" ++ String.join texts ∧ '\n' ∉ title.toList ∧
      List.Forall₂ (fun p text =>
        f.bytecode.instructionText? (compile source store printCode).store p.1 = some text ∧
          lineBreaks text = Pool.breaks ⟨f.bytecode.constants, (compile source store printCode).store⟩ p.2 + 1)
        (places 0 is) texts ∧
      lineBreaks listing = 1 + is.length +
        (is.map (Pool.breaks ⟨f.bytecode.constants, (compile source store printCode).store⟩)).sum ∧
      (lineBreaks listing = 1 + is.length ↔ ∀ i ∈ is, i.op = .constant → ∀ a x,
        f.bytecode.constants[i.operand]? = some (.string a) →
          (compile source store printCode).store.text? a = some x → '\n' ∉ x.toList) := by
  obtain ⟨ds, hreads⟩ := reads_of_ok h
  obtain ⟨r', hr', -, hgains⟩ := compile_of_reads hreads store printCode
  obtain rfl := Except.ok.inj (h.symm.trans hr')
  obtain ⟨f, t, hf, hcompiled, hwithin⟩ := hg.tree hreads hgains
  obtain ⟨is, title, texts, hdecodes, htitle, hlisting, hlines, hcount⟩ :=
    hcompiled.listing hwithin (hreads.words ▸ isWritten_words source)
  refine ⟨f, is, title, texts, _, hf, hdecodes, hlisting, rfl, htitle, hlines, hcount, ?_⟩
  rw [hcount, Nat.add_eq_left, List.sum_eq_zero_iff_forall_eq_nat]
  simp only [List.forall_mem_map, Pool.breaks_eq_zero_iff]

/-- The text of a function that shows a newline as `~n`. -/
theorem listing_line_breaks_of_newline :
    (compile "fwun f() [: ouo ~n, \"a\" >> :] f()" {} false).result = .ok ⟨1⟩ ∧
      (compile "fwun f() [: ouo ~n, \"a\" >> :] f()" {} false).store.Contains ⟨1⟩ ⟨1⟩ ∧
      ∃ f is listing, (compile "fwun f() [: ouo ~n, \"a\" >> :] f()" {} false).store.function? ⟨1⟩ = some f ∧
        f.bytecode.Decodes 0 is ∧
        Compiler.listing? (compile "fwun f() [: ouo ~n, \"a\" >> :] f()" {} false).store f = some listing ∧
        lineBreaks listing = 1 + is.length + (is.map (Pool.breaks ⟨f.bytecode.constants,
          (compile "fwun f() [: ouo ~n, \"a\" >> :] f()" {} false).store⟩)).sum := by
  have hok : (compile "fwun f() [: ouo ~n, \"a\" >> :] f()" {} false).result = .ok ⟨1⟩ := by decide +kernel
  obtain ⟨f, is, title, texts, listing, hf, hdecodes, hlisting, -, -, -, hcount, -⟩ := listing_line_breaks hok .self
  exact ⟨hok, .self, f, is, listing, hf, hdecodes, hlisting, hcount⟩

/-- A string of two lines is listed on two lines. -/
theorem string_literal_breaks_line :
    (compile "ouo \"a\nb\" >>" {} false).result = .ok ⟨0⟩ ∧
      ∃ f is listing, (compile "ouo \"a\nb\" >>" {} false).store.function? ⟨0⟩ = some f ∧ f.bytecode.Decodes 0 is ∧
        Compiler.listing? (compile "ouo \"a\nb\" >>" {} false).store f = some listing ∧
        lineBreaks listing ≠ 1 + is.length := by
  have hok : (compile "ouo \"a\nb\" >>" {} false).result = .ok ⟨0⟩ := by decide +kernel
  obtain ⟨ds, hreads⟩ := reads_of_ok hok
  obtain ⟨r', hr', -, hgains⟩ := compile_of_reads hreads {} false
  obtain rfl := Except.ok.inj (hok.symm.trans hr')
  obtain ⟨f, t, hf, hcompiled, hwithin⟩ := Store.Contains.self.tree hreads hgains
  obtain ⟨is, title, texts, hdecodes, -, hlisting, -, hcount⟩ :=
    hcompiled.listing hwithin (hreads.words ▸ isWritten_words _)
  refine ⟨hok, f, is, _, hf, hdecodes, hlisting, fun heq => ?_⟩
  rw [hcount, Nat.add_eq_left, List.sum_eq_zero_iff_forall_eq_nat, List.forall_mem_map] at heq
  have hfun : (compile "ouo \"a\nb\" >>" {} false).store.function? ⟨0⟩ =
      some ⟨none, 0, ⟨#[0, 0, 22, 1, 31], #[.string ⟨0⟩], ⟨#[⟨2, 5⟩]⟩⟩⟩ := by decide +kernel
  obtain rfl := Option.some.inj (hf.symm.trans hfun)
  -- The first instruction takes the string of two lines.
  cases is with
  | nil => cases hdecodes
  | cons i is =>
    obtain ⟨op, operand⟩ := i
    obtain ⟨hop, hoperand, -⟩ := hdecodes
    obtain rfl : Opcode.constant = op := Option.some.inj hop
    obtain rfl : 0 = operand := Option.some.inj hoperand
    have hbreaks := heq _ List.mem_cons_self
    have htext : (compile "ouo \"a\nb\" >>" {} false).store.text? ⟨0⟩ = some "a\nb" := by decide +kernel
    rw [Pool.breaks_eq_zero_iff] at hbreaks
    exact hbreaks rfl ⟨0⟩ "a\nb" rfl htext (by decide)

end Compile
end StackScript
