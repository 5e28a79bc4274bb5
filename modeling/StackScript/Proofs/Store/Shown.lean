import StackScript.Bytecode.Listing
import StackScript.Proofs.Store.Alike

/-! Values and code that are alike cannot be told apart by what is shown of them. -/
namespace StackScript.Pairing
variable {p : Pairing} {s t : Store}

theorem text?_eq {a b : Symbol} (h : SameText s t a b) : s.text? a = t.text? b := by
  obtain ⟨x, ha, hb⟩ := h
  rw [ha, hb]

theorem functionText?_eq {f g : Function} (h : p.AlikeFunctions s t f g) : s.functionText? f = t.functionText? g := by
  have hname := h.name
  unfold Store.functionText?
  generalize f.name = x at hname
  generalize g.name = y at hname
  cases hname with
  | some hab => simp only [text?_eq hab]
  | none => rfl

theorem AlikeStores.display?_eq (h : p.AlikeStores s t) {v w : Value} (hv : p.Alike s t v w) :
    s.display? v = t.display? w := by
  cases hv with
  | string hab => exact text?_eq hab
  | @function f g hfg =>
    have hfunctions := h.functions hfg
    change (s.function? f).bind s.functionText? = (t.function? g).bind t.functionText?
    generalize s.function? f = x at hfunctions
    generalize t.function? g = y at hfunctions
    cases hfunctions with
    | some hxy => exact functionText?_eq hxy
    | none => rfl
  | native r => simp only [Store.display?, Store.native?, h.natives]
  | _ => rfl

theorem AlikeStores.escaped?_eq (h : p.AlikeStores s t) {v w : Value} (hv : p.Alike s t v w) :
    s.escaped? v = t.escaped? w := by
  have hdisplay := h.display?_eq hv
  cases hv with
  | char byte =>
    unfold Store.escaped?
    split
    · rfl
    · rfl
    · exact hdisplay
  | _ => exact hdisplay

theorem AlikeStores.bytes?_eq (h : p.AlikeStores s t) {v w : Value} (hv : p.Alike s t v w) :
    s.bytes? v = t.bytes? w := by
  have hdisplay := h.display?_eq hv
  cases hv with
  | char byte => rfl
  | _ => exact congrArg (Option.map String.toUTF8) hdisplay

theorem Alike.isFalsey_eq {v w : Value} (h : p.Alike s t v w) : v.isFalsey = w.isFalsey := by cases h <;> rfl

theorem Alike.isTextual_eq {v w : Value} (h : p.Alike s t v w) : v.isTextual = w.isTextual := by cases h <;> rfl

/-- What takes each other's place is equal to what takes each other's place. -/
theorem Alike.equals_eq {v w v' w' : Value} (h : p.Alike s t v w) (h' : p.Alike s t v' w') :
    v.equals v' = w.equals w' := by
  cases h <;> cases h' <;> try rfl
  case string.string _ _ hab _ _ hcd => simp only [Value.equals, Value.same, Value.string.injEq, hab.eq_iff hcd]
  case function.function _ _ hfg _ _ hfg' =>
    simp only [Value.equals, Value.same, Value.function.injEq, p.unique hfg hfg']

/-! ### Code -/

theorem rel_getElem? {α β : Type} {R : α → β → Prop} {xs : List α} {ys : List β} (h : List.Forall₂ R xs ys) (i : Nat) :
    Option.Rel R xs[i]? ys[i]? := by
  induction h generalizing i with
  | nil => exact .none
  | cons hxy _ ih =>
    cases i with
    | zero => exact .some hxy
    | succ i => exact ih i

theorem AlikeCode.constant? {b c : Bytecode} (h : p.AlikeCode s t b c) (i : UInt8) :
    Option.Rel (p.Alike s t) (b.constant? i) (c.constant? i) := by
  have hrel := rel_getElem? h.constants i.toNat
  rwa [Array.getElem?_toList, Array.getElem?_toList] at hrel

theorem AlikeCode.operationText?_eq {b c : Bytecode} (h : p.AlikeCode s t b c) (hs : p.AlikeStores s t) (offset : Nat)
    (op : Opcode) : b.operationText? s offset op = c.operationText? t offset op := by
  have hconstant (i : UInt8) : (b.constant? i).bind s.escaped? = (c.constant? i).bind t.escaped? := by
    have hrel := h.constant? i
    generalize b.constant? i = x at hrel
    generalize c.constant? i = y at hrel
    cases hrel with
    | some hv => exact hs.escaped?_eq hv
    | none => rfl
  have hnamed : (do
      let i ← b.code[offset + 1]?
      let text ← s.escaped? (← b.constant? i)
      some (Bytecode.operandText op i.toNat ++ " '" ++ text ++ "'")) = (do
      let i ← c.code[offset + 1]?
      let text ← t.escaped? (← c.constant? i)
      some (Bytecode.operandText op i.toNat ++ " '" ++ text ++ "'")) := by
    simp only [Option.bind_eq_bind, ← Option.bind_assoc, h.code, hconstant]
  unfold Bytecode.operationText?
  cases op
  case constant => exact hnamed
  case getGlobal => exact hnamed
  case setGlobal => exact hnamed
  case defineGlobal => exact hnamed
  all_goals simp only [Bytecode.readPair?, h.code]

theorem AlikeCode.instructionText?_eq (hp : p.lines) {b c : Bytecode} (h : p.AlikeCode s t b c) (hs : p.AlikeStores s t)
    (offset : Nat) : b.instructionText? s offset = c.instructionText? t offset := by
  have hoperation := h.operationText?_eq hs offset
  obtain ⟨code, constants, lines⟩ := b
  obtain ⟨code', constants', lines'⟩ := c
  obtain rfl : code = code' := h.code
  obtain rfl : lines = lines' := h.lines hp
  simp only [Bytecode.instructionText?, Bytecode.lineColumn, Bytecode.lineAt, hoperation]
  rfl

end StackScript.Pairing
