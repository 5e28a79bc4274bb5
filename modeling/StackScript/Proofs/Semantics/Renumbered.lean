import StackScript.Proofs.Semantics.Host

/-! Values of two walks that know the same functions under different numbers. What the operators and the functions of the
host make of them is the same again, and it is shown as the same text. -/
namespace StackScript

/-- Functions that are numbered one after another take each other's place. -/
def Pairing.PairsFrom (p : Pairing) (first first' count : Nat) : Prop := ∀ k < count, p.pairs ⟨first + k⟩ ⟨first' + k⟩

namespace Pairing.PairsFrom
variable {p : Pairing} {first first' m n : Nat}

theorem left (h : p.PairsFrom first first' (m + n)) : p.PairsFrom first first' m :=
  fun k hk => h k (Nat.lt_add_right n hk)

theorem right (h : p.PairsFrom first first' (m + n)) : p.PairsFrom (first + m) (first' + m) n := by
  intro k hk
  rw [Nat.add_assoc, Nat.add_assoc]
  exact h (m + k) (Nat.add_lt_add_left hk m)

end Pairing.PairsFrom

/-- Trees that are the same, the functions in which take each other's place. -/
structure FunctionTree.Renumbered (p : Pairing) (t t' : FunctionTree) : Prop where
  name : t.name = t'.name
  parameters : t.parameters = t'.parameters
  body : t.body = t'.body
  functions : p.PairsFrom t.first t'.first (Decl.listFunctionCount t.body)

namespace Datum

/-- Values that are the same but for the numbers of functions. -/
inductive Renumbered (p : Pairing) : Datum → Datum → Prop
  | null : Renumbered p .null .null
  | bool (b : Bool) : Renumbered p (.bool b) (.bool b)
  | number (x : Double) : Renumbered p (.number x) (.number x)
  | char (byte : UInt8) : Renumbered p (.char byte) (.char byte)
  | string (text : String) : Renumbered p (.string text) (.string text)
  | function {r r' : FunctionRef} {t t' : FunctionTree} (hr : p.pairs r r') (ht : t.Renumbered p t') :
      Renumbered p (.function r t) (.function r' t')
  | native (r : NativeRef) : Renumbered p (.native r) (.native r)

/-- What two operations come to: such values, or the same error. -/
def SameResult (p : Pairing) : Except RuntimeError Datum → Except RuntimeError Datum → Prop
  | .ok d, .ok e => d.Renumbered p e
  | .error e, .error e' => e = e'
  | _, _ => False

namespace Renumbered
variable {p : Pairing} {d d' e e' : Datum}

theorem isFalsey_eq (h : d.Renumbered p d') : d.isFalsey = d'.isFalsey := by cases h <;> rfl

theorem isTextual_eq (h : d.Renumbered p d') : d.isTextual = d'.isTextual := by cases h <;> rfl

theorem text_eq (h : d.Renumbered p d') : d.text = d'.text := by
  cases h with
  | function _ ht =>
    rw [Datum.text, Datum.text, FunctionTree.text, FunctionTree.text, ht.name]
  | _ => rfl

theorem bytes_eq (h : d.Renumbered p d') : d.bytes = d'.bytes := by
  have htext := h.text_eq
  cases h with
  | function _ _ => exact congrArg String.toUTF8 htext
  | _ => rfl

theorem equals_eq (hd : d.Renumbered p d') (he : e.Renumbered p e') : d.equals e = d'.equals e' := by
  cases hd <;> cases he <;> try rfl
  case function.function hr _ _ _ _ _ hr' _ => exact decide_eq_decide.2 (p.unique hr hr')

/-! ### Operators -/

theorem add (hd : d.Renumbered p d') (he : e.Renumbered p e') : SameResult p (d.add e) (d'.add e') := by
  have hjoin (hnumbers : ∀ x y, ¬(d = .number x ∧ e = .number y)) (hnumbers' : ∀ x y,
    ¬(d' = .number x ∧ e' = .number y)) :
      SameResult p (d.add e) (d'.add e') := by
    rw [Datum.add, Datum.add, hd.isTextual_eq, he.isTextual_eq, hd.bytes_eq, he.bytes_eq]
    · split
      · exact .string _
      · rfl
    · exact fun x y hx hy => hnumbers' x y ⟨hx, hy⟩
    · exact fun x y hx hy => hnumbers x y ⟨hx, hy⟩
  cases hd with
  | number x =>
    cases he with
    | number y => exact .number _
    | _ => exact hjoin (by simp) (by simp)
  | _ => exact hjoin (by simp) (by simp)

theorem combine {f : Double → Double → Datum} (hf : ∀ x y, (f x y).Renumbered p (f x y)) (hd : d.Renumbered p d')
    (he : e.Renumbered p e') : SameResult p (d.combine f e) (d'.combine f e') := by
  cases hd with
  | number x =>
    cases he with
    | number y => exact hf x y
    | _ => rfl
  | _ => rfl

theorem unary (op : Unary) (h : d.Renumbered p d') : SameResult p (op.apply d) (op.apply d') := by
  cases op with
  | negate =>
    cases h with
    | number x => exact .number _
    | _ => rfl
  | not =>
    rw [Unary.apply, Unary.apply, h.isFalsey_eq]
    exact .bool _

theorem binary (op : Binary) (hd : d.Renumbered p d') (he : e.Renumbered p e') :
    SameResult p (op.apply d e) (op.apply d' e') := by
  cases op with
  | add => exact add hd he
  | equal =>
    change Renumbered p (.bool (d.equals e)) (.bool (d'.equals e'))
    rw [hd.equals_eq he]
    exact .bool _
  | notEqual =>
    change Renumbered p (.bool !(d.equals e)) (.bool !(d'.equals e'))
    rw [hd.equals_eq he]
    exact .bool _
  | subtract | multiply | divide => exact combine (fun _ _ => .number _) hd he
  | greater | greaterEqual | less | lessEqual => exact combine (fun _ _ => .bool _) hd he

theorem literal (p : Pairing) (l : Literal) : l.datum.Renumbered p l.datum := by
  cases l with
  | number text =>
    rw [Literal.datum]
    cases Numeral.leading? text.toList with
    | none => exact .null
    | some n => exact .number _
  | string text => exact .string _
  | char text => exact .char _
  | newLine | tab => exact .char _
  | true_ | false_ => exact .bool _

theorem input (p : Pairing) (line : List UInt8) (form : InputForm) :
    (form.datum line).Renumbered p (form.datum line) := by
  cases form with
  | string => exact .string _
  | number => exact .number _
  | char => exact .char _

/-! ### Functions of the host -/

theorem isFunction_eq {r r' : FunctionRef} (hr : p.pairs r r') (h : d.Renumbered p d') :
    d.isFunction r = d'.isFunction r' := by
  cases h with
  | function hs _ => exact decide_eq_decide.2 (p.unique hs hr)
  | _ => rfl

/-- Functions that take each other's place are found in the same place. -/
theorem find? {r r' : FunctionRef} (hr : p.pairs r r') {ds ds' : List Datum} (h : List.Forall₂ (Renumbered p) ds ds') :
    ((ds.find? (isFunction r)).getD .null).Renumbered p ((ds'.find? (isFunction r')).getD .null) := by
  induction h with
  | nil => exact .null
  | @cons d d' ds ds' hd _ ih =>
    rw [List.find?_cons, List.find?_cons, isFunction_eq hr hd]
    cases d'.isFunction r' with
    | true => exact hd
    | false => exact ih

theorem spells {s t : Store} {v w : Value} (h : d.Renumbered p d') (hv : Spells s v d) (hw : Spells t w d') :
    p.Alike s t v w := by
  cases h with
  | function hr ht =>
    cases hv
    cases hw
    exact .function hr
  | _ => exact hv.alike hw fun _ _ hne => Datum.noConfusion hne

theorem spells_all {s t : Store} {vs ws : List Value} {ds ds' : List Datum} (h : List.Forall₂ (Renumbered p) ds ds')
    (hv : List.Forall₂ (Spells s) vs ds) (hw : List.Forall₂ (Spells t) ws ds') : List.Forall₂ (p.Alike s t) vs ws := by
  induction h generalizing vs ws with
  | nil =>
    cases hv
    cases hw
    exact .nil
  | cons hd _ ih =>
    cases hv with
    | cons hv hvs =>
      cases hw with
      | cons hw hws => exact .cons (hd.spells hv hw) (ih hvs hws)

theorem ofValue {s t : Store} {v w : Value} (h : p.Alike s t v w) {ds ds' : List Datum}
    (hds : List.Forall₂ (Renumbered p) ds ds') : (Datum.ofValue s ds v).Renumbered p (Datum.ofValue t ds' w) := by
  cases h with
  | null => exact .null
  | bool b => exact .bool b
  | number x => exact .number x
  | char byte => exact .char byte
  | string hab =>
    obtain ⟨x, ha, hb⟩ := hab
    rw [Datum.ofValue, Datum.ofValue, ha, hb]
    exact .string x
  | function hr => exact find? hr hds
  | native r => exact .native r

/-- A function of the host that does not look at references does not tell numbers apart. -/
theorem call {n : Native} (uniform : IsUniform n.call) {ds ds' : List Datum} (h : List.Forall₂ (Renumbered p) ds ds') :
    (n.host.call ds).Renumbered p (n.host.call ds') :=
  ofValue (uniform p _ _ _ _ (spells_all h (spells_toValues {} ds) (spells_toValues {} ds'))) h

end Renumbered
end Datum

end StackScript
