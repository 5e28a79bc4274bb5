import StackScript.Proofs.Code.Shape
import StackScript.Bytecode.Listing

/-! Code of a tree can be listed: the constants that it names are in the pool, and the store knows what
they are. -/
namespace StackScript

/-- Whether the operand of an operation is the number of a constant. -/
def Opcode.namesConstant : Opcode → Bool
  | .constant | .getGlobal | .setGlobal | .defineGlobal => Bool.true
  | _ => Bool.false

/-- If the operand is the number of a constant, there is one. -/
def Instr.Known (i : Instr) (constants : Array Value) : Prop :=
  i.op.namesConstant = true → i.operand < constants.size

theorem lt_size_of_getElem? {xs : Array Value} {i : Nat} {v : Value} (h : xs[i]? = some v) :
    i < xs.size := (Array.getElem?_eq_some_iff.1 h).1

/-- A property of all instructions but those with a constant that is nothing that these words can stand for. -/
structure Pool.Ensures (κ : Pool) (ws : List Word) (Q : Instr → Prop) : Prop where
  plain : ∀ {i : Instr}, i.op.namesConstant = false → Q i
  literal : ∀ {l : Literal} {i : Nat} {v : Value}, l.word ∈ ws → κ.constants[i]? = some v → l.Means κ.store v →
    Q ⟨.constant, i⟩
  name : ∀ {op : Opcode} {x : String} {i : Nat}, op.namesConstant = true → op ≠ .constant → ⟨.ident, x⟩ ∈ ws →
    κ.IsName i x → Q ⟨op, i⟩
  function : ∀ {x : String} {i : Nat} {r : FunctionRef} {f : Function}, ⟨.ident, x⟩ ∈ ws →
    κ.constants[i]? = some (.function r) → κ.store.function? r = some f → κ.store.Names f (some x) → Q ⟨.constant, i⟩

section Ensures
variable {κ : Pool} {names : List String} {Q : Instr → Prop} {ws : List Word}

namespace Pool.Ensures

theorem of_subset {us : List Word} (h : κ.Ensures ws Q) (hs : us ⊆ ws) : κ.Ensures us Q :=
  ⟨h.plain, fun hl => h.literal (hs hl), fun hop hne hx => h.name hop hne (hs hx), fun hx => h.function (hs hx)⟩

theorem pops (h : κ.Ensures ws Q) (n : Nat) : ∀ i ∈ Decl.pops n, Q i := by
  intro i hi
  rw [List.eq_of_mem_replicate hi]
  exact h.plain rfl

theorem home (h : κ.Ensures ws Q) {x : String} {p : Home} (hx : ⟨.ident, x⟩ ∈ ws) (hp : κ.Finds names x p) :
    Q p.get ∧ Q p.set := by
  cases p with
  | slot i => exact ⟨h.plain rfl, h.plain rfl⟩
  | global i => exact ⟨h.name rfl nofun hx hp.2, h.name rfl nofun hx hp.2⟩

theorem settles (h : κ.Ensures ws Q) {isLocal : Bool} {x : String} {is : List Instr} (hx : ⟨.ident, x⟩ ∈ ws)
    (hi : κ.Settles isLocal x is) : ∀ i ∈ is, Q i := by
  cases isLocal with
  | true =>
    obtain rfl : is = [] := hi
    exact List.forall_mem_nil _
  | false =>
    obtain ⟨i, hname, rfl⟩ := hi
    exact List.forall_mem_singleton.2 (h.name rfl nofun hx hname)

theorem returns (h : κ.Ensures ws Q) : ∀ i ∈ returnCode, Q i := by
  rintro i (_ | ⟨_, _ | ⟨_, ⟨⟩⟩⟩) <;> exact h.plain rfl

end Pool.Ensures

theorem Literal.Code.all {l : Literal} {is : List Instr} (h : l.Code κ is) (hq : κ.Ensures [l.word] Q) :
    ∀ i ∈ is, Q i := by
  cases l with
  | true_ =>
    obtain rfl := h
    exact List.forall_mem_singleton.2 (hq.plain rfl)
  | false_ =>
    obtain rfl := h
    exact List.forall_mem_singleton.2 (hq.plain rfl)
  | _ =>
    obtain ⟨i, v, hi, hv, rfl⟩ := h
    exact List.forall_mem_singleton.2 (hq.literal (List.mem_singleton.2 rfl) hi hv)

namespace Expr

mutual

/-- All instructions of an expression have the property. -/
theorem Code.all (e : Expr) (is : List Instr) (h : e.Code κ names is) (hq : κ.Ensures e.words Q) : ∀ i ∈ is, Q i := by
  cases e with
  | literal l => exact Literal.Code.all h hq
  | name x =>
    obtain ⟨p, hp, rfl⟩ := h
    exact List.forall_mem_singleton.2 (hq.home (List.mem_singleton.2 rfl) hp).1
  | group e => exact Code.all e is h (hq.of_subset words_subset_group)
  | assign x value =>
    obtain ⟨p, iv, hp, hv, rfl⟩ := h
    simpa [or_imp, forall_and] using ⟨Code.all value iv hv (hq.of_subset words_subset_assign),
      (hq.home List.mem_cons_self hp).2⟩
  | unary op e =>
    obtain ⟨ie, he, rfl⟩ := h
    simpa [or_imp, forall_and] using ⟨Code.all e ie he (hq.of_subset words_subset_unary),
      hq.plain (by cases op <;> rfl)⟩
  | binary op left right =>
    obtain ⟨il, ir, hl, hr, rfl⟩ := h
    simpa [or_imp, forall_and] using ⟨Code.all left il hl (hq.of_subset words_subset_binary.1),
      Code.all right ir hr (hq.of_subset words_subset_binary.2), hq.plain (by cases op <;> rfl)⟩
  | and left right =>
    obtain ⟨il, ir, hl, hr, rfl⟩ := h
    simpa [or_imp, forall_and] using ⟨Code.all left il hl (hq.of_subset words_subset_and.1),
      hq.plain rfl, hq.plain rfl, Code.all right ir hr (hq.of_subset words_subset_and.2)⟩
  | or left right =>
    obtain ⟨il, ir, hl, hr, rfl⟩ := h
    simpa [or_imp, forall_and] using ⟨Code.all left il hl (hq.of_subset words_subset_or.1),
      hq.plain rfl, hq.plain rfl, Code.all right ir hr (hq.of_subset words_subset_or.2)⟩
  | call callee arguments =>
    obtain ⟨ic, ia, hc, ha, rfl⟩ := h
    simpa [or_imp, forall_and] using ⟨Code.all callee ic hc (hq.of_subset words_subset_call.1),
      AllCode.all arguments ia ha (hq.of_subset words_subset_call.2), hq.plain rfl⟩

theorem AllCode.all (es : List Expr) (is : List Instr) (h : AllCode κ names es is)
    (hq : κ.Ensures (argumentWords es) Q) : ∀ i ∈ is, Q i := by
  cases es with
  | nil =>
    obtain rfl := h
    exact List.forall_mem_nil _
  | cons e es =>
    obtain ⟨ie, js, he, hs, rfl⟩ := h
    simpa [or_imp, forall_and] using ⟨Code.all e ie he (hq.of_subset words_subset_arguments.1),
      AllCode.all es js hs (hq.of_subset words_subset_arguments.2)⟩

end

theorem ItemsCode.all (es : List Expr) (is : List Instr) (h : ItemsCode κ names es is)
    (hq : κ.Ensures (itemWords es) Q) : ∀ i ∈ is, Q i := by
  induction es generalizing is with
  | nil =>
    obtain rfl := h
    exact List.forall_mem_nil _
  | cons e es ih =>
    obtain ⟨ie, js, he, hs, rfl⟩ := h
    simpa [or_imp, forall_and] using ⟨he.all _ _ (hq.of_subset words_subset_items.1), hq.plain rfl,
      ih js hs (hq.of_subset words_subset_items.2)⟩

end Expr

namespace Decl

mutual

/-- All instructions of a declaration have the property. The functions in it have instructions of their own. -/
theorem Code.all (σ : Scope) (first : Nat) (d : Decl) (is : List Instr) (h : d.Code κ σ first is)
    (hq : κ.Ensures d.words Q) : ∀ i ∈ is, Q i := by
  cases d with
  | expression e =>
    obtain ⟨ie, he, rfl⟩ := h
    simpa [or_imp, forall_and] using ⟨he.all _ _ hq, hq.plain rfl⟩
  | print e es =>
    obtain ⟨ie, js, he, hs, rfl⟩ := h
    simpa [or_imp, forall_and] using ⟨he.all _ _ (hq.of_subset words_subset_print.1), hq.plain rfl,
      hs.all _ _ (hq.of_subset words_subset_print.2)⟩
  | read form x =>
    obtain ⟨p, hp, rfl⟩ := h
    simpa [or_imp, forall_and] using ⟨hq.plain (by cases form <;> rfl), (hq.home (by simp [words]) hp).2, hq.plain rfl⟩
  | if_ condition body =>
    obtain ⟨ic, ib, hc, hb, rfl⟩ := h
    simpa [or_imp, forall_and] using ⟨hc.all _ _ (hq.of_subset words_subset_if.1), hq.plain rfl,
      hq.plain rfl, ListCode.all _ _ body ib hb (hq.of_subset words_subset_if.2),
      hq.pops _, hq.plain rfl, hq.plain rfl⟩
  | ifElse condition body alternative =>
    obtain ⟨ic, ib, ia, hc, hb, ha, rfl⟩ := h
    simpa [or_imp, forall_and] using ⟨hc.all _ _ (hq.of_subset words_subset_ifElse.1), hq.plain rfl,
      hq.plain rfl, ListCode.all _ _ body ib hb (hq.of_subset words_subset_ifElse.2.1),
      hq.pops _, hq.plain rfl, hq.plain rfl,
      ListCode.all _ _ alternative ia ha (hq.of_subset words_subset_ifElse.2.2), hq.pops _⟩
  | until_ condition body =>
    obtain ⟨ic, ib, hc, hb, rfl⟩ := h
    simpa [or_imp, forall_and] using ⟨hc.all _ _ (hq.of_subset words_subset_until.1), hq.plain rfl,
      hq.plain rfl, ListCode.all _ _ body ib hb (hq.of_subset words_subset_until.2),
      hq.pops _, hq.plain rfl, hq.plain rfl⟩
  | out value =>
    cases value with
    | none =>
      obtain rfl := h
      exact hq.returns
    | some e =>
      obtain ⟨ie, he, rfl⟩ := h
      simpa [or_imp, forall_and] using ⟨he.all _ _ (hq.of_subset words_subset_out), hq.plain rfl⟩
  | block mark body =>
    obtain ⟨ib, hb, rfl⟩ := h
    simpa [or_imp, forall_and] using
      ⟨ListCode.all _ _ body ib hb (hq.of_subset words_subset_block), hq.pops _⟩
  | var x initial =>
    cases initial with
    | none =>
      obtain ⟨js, hj, rfl⟩ := h
      simpa [or_imp, forall_and] using ⟨hq.plain rfl, hq.settles (by simp [words]) hj⟩
    | some e =>
      obtain ⟨ie, js, he, hj, rfl⟩ := h
      simpa [or_imp, forall_and] using ⟨he.all _ _ (hq.of_subset words_subset_var),
        hq.settles (by simp [words]) hj⟩
  | fun_ x parameters body =>
    obtain ⟨i, f, ib, js, hi, hf, hcompiles, -, hj, rfl⟩ := h
    simpa [or_imp, forall_and] using ⟨hq.function (by simp [words]) hi hf hcompiles.named,
      hq.settles (by simp [words]) hj⟩

theorem ListCode.all (σ : Scope) (first : Nat) (ds : List Decl) (is : List Instr)
    (h : ListCode κ σ first ds is) (hq : κ.Ensures (listWords ds) Q) : ∀ i ∈ is, Q i := by
  cases ds with
  | nil =>
    obtain rfl := h
    exact List.forall_mem_nil _
  | cons d ds =>
    obtain ⟨id, js, hd, hs, rfl⟩ := h
    simpa [or_imp, forall_and] using ⟨Code.all σ first d id hd (hq.of_subset words_subset_list.1),
      ListCode.all _ _ ds js hs (hq.of_subset words_subset_list.2)⟩

end

end Decl

end Ensures

/-! ### Constants that are there -/

/-- Each instruction names a constant that is there. -/
def AllKnown (constants : Array Value) (is : List Instr) : Prop := ∀ i ∈ is, i.Known constants

theorem Instr.known_of_not {i : Instr} {constants : Array Value} (h : i.op.namesConstant = false) :
    i.Known constants := fun hi => by simp [h] at hi

namespace AllKnown
variable {constants : Array Value} {i : Instr} {is js : List Instr}

@[simp] theorem nil : AllKnown constants [] := List.forall_mem_nil _

theorem singleton {op : Opcode} (h : op.namesConstant = false) (n : Nat) : AllKnown constants [⟨op, n⟩] :=
  List.forall_mem_singleton.2 (Instr.known_of_not h)

@[simp] theorem cons_iff : AllKnown constants (i :: is) ↔ i.Known constants ∧ AllKnown constants is :=
  List.forall_mem_cons

@[simp] theorem append_iff : AllKnown constants (is ++ js) ↔ AllKnown constants is ∧ AllKnown constants js :=
  List.forall_mem_append

end AllKnown

theorem Pool.ensures_known (κ : Pool) (ws : List Word) : κ.Ensures ws (·.Known κ.constants) where
  plain h := Instr.known_of_not h
  literal _ hi _ _ := lt_size_of_getElem? hi
  name _ _ _ hi _ := by
    obtain ⟨a, ha, -⟩ := hi
    exact lt_size_of_getElem? ha
  function _ hi _ _ _ := lt_size_of_getElem? hi

theorem Decl.known_returnCode {constants : Array Value} : AllKnown constants returnCode := by
  rintro i (_ | ⟨_, _ | ⟨_, ⟨⟩⟩⟩) <;> exact nofun

theorem Decl.ListCode.known {κ : Pool} {σ : Scope} {first : Nat} {ds : List Decl} {is : List Instr}
    (h : ListCode κ σ first ds is) : AllKnown κ.constants is := h.all _ _ _ _ (κ.ensures_known _)

/-! ### Listings -/

namespace Store
variable {s : Store}

theorem Names.isSome_functionText {f : Function} {name : Option String} (h : s.Names f name) :
    (s.functionText? f).isSome := by
  obtain ⟨n, a, b⟩ := f
  cases n <;> cases name <;> simp_all [Names, functionText?]

/-- A value that can be shown. -/
def Shows (s : Store) (v : Value) : Prop := (s.display? v).isSome

theorem Shows.mono {t : Store} (hs : s.Extends t) {v : Value} (h : s.Shows v) : t.Shows v := by
  unfold Shows at h ⊢
  cases v with
  | string a => exact hs.isSome_text h
  | native r => simpa [display?] using hs.isSome_native (by simpa [display?] using h)
  | function r =>
    obtain ⟨text, h⟩ := Option.isSome_iff_exists.1 h
    obtain ⟨f, hf, hn⟩ := Option.bind_eq_some_iff.1 h
    simp only [display?, hs.function hf, Option.bind_some]
    unfold functionText? at hn ⊢
    cases hname : f.name with
    | none => rfl
    | some a =>
      simp only [hname, Option.map_eq_some_iff] at hn
      obtain ⟨x, hx, -⟩ := hn
      simp [hs.text hx]
  | _ => rfl

theorem Sound.shows {v : Value} (h : s.Sound v) : s.Shows v := by
  cases h with
  | string h => exact h
  | native h => simpa [Shows, display?] using h
  | function hr ht _ =>
    obtain ⟨ib, hc, -⟩ := ht
    simpa [Shows, display?, hr] using hc.named.isSome_functionText
  | _ => rfl

theorem Shows.isSome_escaped {v : Value} (h : s.Shows v) : (s.escaped? v).isSome := by
  unfold escaped?
  split
  · rfl
  · rfl
  · exact h

end Store

namespace Bytecode
variable {b : Bytecode} {pre post is : List Instr} {i : Instr} {s : Store}

theorem Consists.isSome_operationText (h : b.Consists (pre ++ i :: post)) (hi : i.Known b.constants)
    (hs : ∀ v ∈ b.constants, s.Shows v) : (b.operationText? s (codeLength pre) i.op).isSome := by
  obtain ⟨op, operand⟩ := i
  have hfits : operand < 256 ^ op.width := h.fits ⟨op, operand⟩ (by simp)
  have hconst : ∀ hw : op.width = 1, op.namesConstant = true →
      ∃ v t, b.constant? operand.toUInt8 = some v ∧ s.escaped? v = some t := by
    intro hw hop
    rw [hw] at hfits
    have hlt : operand < b.constants.size := hi hop
    obtain ⟨t, ht⟩ := Option.isSome_iff_exists.1 (hs _ (Array.getElem_mem hlt)).isSome_escaped
    refine ⟨_, t, ?_, ht⟩
    rw [Bytecode.constant?, UInt8.toNat_ofNat_of_lt' hfits, Array.getElem?_eq_getElem hlt]
  cases op
  case constant =>
    obtain ⟨v, t, hv, ht⟩ := hconst rfl rfl
    simp [operationText?, h.operandByte rfl, hv, ht]
  case getGlobal =>
    obtain ⟨v, t, hv, ht⟩ := hconst rfl rfl
    simp [operationText?, h.operandByte rfl, hv, ht]
  case setGlobal =>
    obtain ⟨v, t, hv, ht⟩ := hconst rfl rfl
    simp [operationText?, h.operandByte rfl, hv, ht]
  case defineGlobal =>
    obtain ⟨v, t, hv, ht⟩ := hconst rfl rfl
    simp [operationText?, h.operandByte rfl, hv, ht]
  case getLocal => simp [operationText?, h.operandByte rfl]
  case setLocal => simp [operationText?, h.operandByte rfl]
  case call => simp [operationText?, h.operandByte rfl]
  case jump => simp [operationText?, h.readPair? rfl]
  case jumpIfFalse => simp [operationText?, h.readPair? rfl]
  case jumpIfTrue => simp [operationText?, h.readPair? rfl]
  case loop => simp [operationText?, h.readPair? rfl]
  all_goals rfl

/-- An instruction has a line in a listing. -/
theorem Consists.isSome_instructionText (h : b.Consists (pre ++ i :: post)) (hi : i.Known b.constants)
    (hs : ∀ v ∈ b.constants, s.Shows v) : (b.instructionText? s (codeLength pre)).isSome := by
  obtain ⟨t, ht⟩ := Option.isSome_iff_exists.1 (h.isSome_operationText hi hs)
  simp [instructionText?, h.opByte, ht]

theorem Consists.isSome_listingFrom (pre : List Instr) (h : b.Consists (pre ++ is)) (hk : AllKnown b.constants is)
    (hs : ∀ v ∈ b.constants, s.Shows v) (text : String) :
    (b.listingFrom? s text (codeLength pre)).isSome := by
  induction is generalizing pre text with
  | nil =>
    rw [listingFrom?, if_neg]
    · rfl
    · rw [h.size]
      simp
  | cons i is ih =>
    obtain ⟨hi, hk⟩ := AllKnown.cons_iff.1 hk
    obtain ⟨line, hline⟩ := Option.isSome_iff_exists.1 (h.isSome_instructionText hi hs)
    have hlt : codeLength pre < b.code.size := by
      have := i.size_pos
      rw [h.size, codeLength_append, codeLength_cons]
      omega
    rw [listingFrom?, if_pos hlt, hline, h.nextOffset]
    exact ih (pre ++ [i]) (by simpa using h) hk _

/-- Code all of whose constants are known has a listing. -/
theorem Consists.isSome_listing (h : b.Consists is) (hk : AllKnown b.constants is)
    (hs : ∀ v ∈ b.constants, s.Shows v) (title : String) : (b.listing? s title).isSome :=
  Consists.isSome_listingFrom [] h hk hs _

end Bytecode
end StackScript
