import StackScript.Proofs.Code.Verified

/-! What is read goes to the variable that a read statement names: in the code of a function each instruction that reads is
followed by those of one of its read statements, which set the variable and drop the value. -/
namespace StackScript

/-- A read statement, with the names in scope where it stands, newest first. -/
structure ReadStatement where
  form : InputForm
  target : String
  names : List String

namespace Decl

mutual

/-- The read statements of a declaration, apart from those in functions that are declared in it. -/
def readStatements (σ : Scope) : Decl → List ReadStatement
  | read form x => [⟨form, x, σ.names⟩]
  | if_ _ body => listReadStatements σ.enter body
  | ifElse _ body alternative => listReadStatements σ.enter body ++ listReadStatements σ.enter alternative
  | until_ _ body => listReadStatements σ.enter body
  | block _ body => listReadStatements σ.enter body
  | _ => []

def listReadStatements (σ : Scope) : List Decl → List ReadStatement
  | [] => []
  | d :: ds => d.readStatements σ ++ listReadStatements (σ.after d) ds

end

end Decl

/-- The slot of a name is that of the newest variable of the name, with the older ones below it. -/
theorem exists_of_slot? {x : String} {names : List String} {i : Nat} (h : slot? x names = some i) :
    ∃ newer older, names = newer ++ x :: older ∧ x ∉ newer ∧ i = older.length := by
  induction names with
  | nil => cases h
  | cons y names ih =>
    rw [slot?] at h
    split at h
    · subst y
      exact ⟨[], names, rfl, List.not_mem_nil, (Option.some.inj h).symm⟩
    · rename_i hne
      obtain ⟨newer, older, rfl, hnewer, hi⟩ := ih h
      exact ⟨y :: newer, older, rfl, List.not_mem_cons_of_ne_of_not_mem (Ne.symm hne) hnewer, hi⟩

/-- An operation that reads a line. -/
def Opcode.readsLine : Opcode → Bool
  | .readString | .readNumber | .readChar => Bool.true
  | _ => Bool.false

/-- Each instruction that reads is that of one of some statements: the variables in scope are on the stack, and the value
goes to the one of that statement. -/
def Delivers (κ : Pool) (height : Nat) (sites : List ReadStatement) (is : List Instr) : Prop :=
  ∀ pre i post, is = pre ++ i :: post → i.op.readsLine = true →
    ∃ r ∈ sites, i.op = r.form.opcode ∧ heightOf height pre = r.names.length ∧
      ∃ p post', κ.Finds r.names r.target p ∧ post = p.set :: ⟨.pop, 0⟩ :: post'

section
variable {κ : Pool} {height : Nat} {sites sites' : List ReadStatement} {is js : List Instr}

theorem Delivers.of_forall (h : ∀ i ∈ is, i.op.readsLine = false) : Delivers κ height sites is := by
  rintro pre i post rfl hi
  rw [h i (by simp)] at hi
  cases hi

theorem Delivers.mono (h : Delivers κ height sites is) (hsub : sites ⊆ sites') : Delivers κ height sites' is := by
  intro pre i post heq hi
  obtain ⟨r, hr, hrest⟩ := h pre i post heq hi
  exact ⟨r, hsub hr, hrest⟩

theorem Delivers.append (h : Delivers κ height sites is) (k : Delivers κ (heightOf height is) sites js) :
    Delivers κ height sites (is ++ js) := by
  intro pre i post heq hi
  obtain ⟨more, rfl, hjs⟩ | ⟨more, rfl, hpost⟩ := List.append_eq_append_iff.1 heq
  · rw [heightOf_append]
    exact k more i post hjs hi
  · obtain _ | ⟨i', more⟩ := more
    · rw [List.append_nil] at k
      exact k [] i post hpost.symm hi
    obtain ⟨rfl, rfl⟩ := List.cons.inj hpost
    obtain ⟨r, hr, hop, hheight, p, post', hp, rfl⟩ := h pre i more rfl hi
    exact ⟨r, hr, hop, hheight, p, post' ++ js, hp, rfl⟩

theorem Delivers.cons {i : Instr} (hi : i.op.readsLine = false) (h : Delivers κ (i.next height) sites is) :
    Delivers κ height sites (i :: is) := by
  have hfirst : Delivers κ height sites [i] := .of_forall fun j hj => by rw [List.mem_singleton.1 hj, hi]
  exact hfirst.append h

end

/-! ### Expressions -/

namespace Literal

theorem Code.not_reads {κ : Pool} {l : Literal} {is : List Instr} (h : l.Code κ is) :
    ∀ i ∈ is, i.op.readsLine = false := by
  cases l with
  | true_ =>
    obtain rfl := h
    simp [Opcode.readsLine]
  | false_ =>
    obtain rfl := h
    simp [Opcode.readsLine]
  | _ =>
    obtain ⟨k, v, -, -, rfl⟩ := h
    simp [Opcode.readsLine]

end Literal

theorem Home.readsLine_get (p : Home) : p.get.op.readsLine = false := by cases p <;> rfl

theorem Home.readsLine_set (p : Home) : p.set.op.readsLine = false := by cases p <;> rfl

namespace Expr
variable {κ : Pool} {names : List String}

mutual

theorem Code.not_reads (e : Expr) (is : List Instr) (h : e.Code κ names is) : ∀ i ∈ is, i.op.readsLine = false := by
  cases e with
  | literal l => exact Literal.Code.not_reads h
  | name x =>
    obtain ⟨p, -, rfl⟩ := h
    simpa using p.readsLine_get
  | group e => exact Code.not_reads e is h
  | assign x value =>
    obtain ⟨p, iv, -, hv, rfl⟩ := h
    simpa [or_imp, forall_and] using ⟨Code.not_reads value iv hv, p.readsLine_set⟩
  | unary op e =>
    obtain ⟨ie, he, rfl⟩ := h
    simp only [List.mem_append, List.mem_singleton, or_imp, forall_and, forall_eq]
    exact ⟨Code.not_reads e ie he, by cases op <;> rfl⟩
  | binary op left right =>
    obtain ⟨il, ir, hl, hr, rfl⟩ := h
    simp only [List.mem_append, List.mem_singleton, or_imp, forall_and, forall_eq]
    exact ⟨Code.not_reads left il hl, Code.not_reads right ir hr, by cases op <;> rfl⟩
  | and left right =>
    obtain ⟨il, ir, hl, hr, rfl⟩ := h
    simp only [List.mem_append, List.mem_cons, or_imp, forall_and, forall_eq]
    exact ⟨Code.not_reads left il hl, rfl, rfl, Code.not_reads right ir hr⟩
  | or left right =>
    obtain ⟨il, ir, hl, hr, rfl⟩ := h
    simp only [List.mem_append, List.mem_cons, or_imp, forall_and, forall_eq]
    exact ⟨Code.not_reads left il hl, rfl, rfl, Code.not_reads right ir hr⟩
  | call callee arguments =>
    obtain ⟨ic, ia, hc, ha, rfl⟩ := h
    simp only [List.mem_append, List.mem_singleton, or_imp, forall_and, forall_eq]
    exact ⟨Code.not_reads callee ic hc, AllCode.not_reads arguments ia ha, rfl⟩

theorem AllCode.not_reads (es : List Expr) (is : List Instr) (h : AllCode κ names es is) :
    ∀ i ∈ is, i.op.readsLine = false := by
  cases es with
  | nil =>
    obtain rfl := h
    simp
  | cons e es =>
    obtain ⟨ie, js, he, hs, rfl⟩ := h
    simp only [List.mem_append, or_imp, forall_and]
    exact ⟨Code.not_reads e ie he, AllCode.not_reads es js hs⟩

end

theorem ItemsCode.not_reads (es : List Expr) (is : List Instr) (h : ItemsCode κ names es is) :
    ∀ i ∈ is, i.op.readsLine = false := by
  induction es generalizing is with
  | nil =>
    obtain rfl := h
    simp
  | cons e es ih =>
    obtain ⟨ie, js, he, hs, rfl⟩ := h
    simp only [List.mem_append, List.mem_cons, or_imp, forall_and, forall_eq]
    exact ⟨Code.not_reads e ie he, rfl, ih js hs⟩

end Expr

/-! ### Declarations -/

namespace Decl
variable {κ : Pool}

theorem not_reads_pops (n : Nat) : ∀ i ∈ pops n, i.op.readsLine = false := by
  intro i hi
  rw [(List.mem_replicate.1 hi).2]
  rfl

theorem not_reads_settles {isLocal : Bool} {x : String} {js : List Instr} (h : κ.Settles isLocal x js) :
    ∀ i ∈ js, i.op.readsLine = false := by
  cases isLocal with
  | true =>
    obtain rfl : js = [] := h
    simp
  | false =>
    obtain ⟨k, -, rfl⟩ := h
    simp [Opcode.readsLine]

mutual

theorem Code.delivers (σ : Scope) (first : Nat) (d : Decl) (is : List Instr) (h : d.Code κ σ first is) :
    Delivers κ σ.live (d.readStatements σ) is := by
  cases d with
  | expression e =>
    obtain ⟨ie, he, rfl⟩ := h
    exact (Delivers.of_forall (he.not_reads e ie)).append (.of_forall (by simp [Opcode.readsLine]))
  | print e es =>
    obtain ⟨ie, js, he, hs, rfl⟩ := h
    exact (Delivers.of_forall (he.not_reads e ie)).append (.cons rfl (.of_forall (hs.not_reads es js)))
  | read form x =>
    obtain ⟨p, hp, rfl⟩ := h
    rintro pre i post heq hi
    obtain _ | ⟨i', pre⟩ := pre
    · obtain ⟨rfl, rfl⟩ := List.cons.inj heq
      exact ⟨⟨form, x, σ.names⟩, List.mem_singleton_self _, rfl, rfl, p, [], hp, rfl⟩
    · have hnot : ∀ j ∈ [p.set, ⟨.pop, 0⟩], j.op.readsLine = false := by
        rw [List.forall_mem_cons, List.forall_mem_singleton]
        exact ⟨p.readsLine_set, rfl⟩
      rw [hnot i (by rw [(List.cons.inj heq).2]; simp)] at hi
      cases hi
  | if_ condition body =>
    obtain ⟨ic, ib, hc, hb, rfl⟩ := h
    have hbody := ListCode.delivers _ _ body ib hb
    refine (Delivers.of_forall (hc.not_reads condition ic)).append ?_
    rw [hc.height]
    refine .cons rfl (.cons rfl ((Delivers.append hbody (.of_forall (not_reads_pops _))).append (.of_forall ?_)))
    simp [Opcode.readsLine]
  | ifElse condition body alternative =>
    obtain ⟨ic, ib, ia, hc, hb, ha, rfl⟩ := h
    have hbody := (ListCode.delivers _ _ body ib hb).mono
      (List.subset_append_left _ (listReadStatements σ.enter alternative))
    have hother := (ListCode.delivers _ _ alternative ia ha).mono
      (List.subset_append_right (listReadStatements σ.enter body) _)
    refine (Delivers.of_forall (hc.not_reads condition ic)).append ?_
    rw [hc.height]
    refine .cons rfl (.cons rfl ((Delivers.append hbody (.of_forall (not_reads_pops _))).append ?_))
    have hheight : heightOf σ.live (ib ++ pops (listDeclared body).length) = σ.live :=
      height_block (hb.height _ _ body ib _)
    change Delivers κ (heightOf σ.live (ib ++ pops (listDeclared body).length)) _ _
    rw [hheight]
    exact .cons rfl (.cons rfl (Delivers.append hother (.of_forall (not_reads_pops _))))
  | until_ condition body =>
    obtain ⟨ic, ib, hc, hb, rfl⟩ := h
    have hbody := ListCode.delivers _ _ body ib hb
    refine (Delivers.of_forall (hc.not_reads condition ic)).append ?_
    rw [hc.height]
    refine .cons rfl (.cons rfl ((Delivers.append hbody (.of_forall (not_reads_pops _))).append (.of_forall ?_)))
    simp [Opcode.readsLine]
  | out value =>
    cases value with
    | none =>
      obtain rfl := h
      exact .of_forall (by simp [returnCode, Opcode.readsLine])
    | some e =>
      obtain ⟨ie, he, rfl⟩ := h
      exact (Delivers.of_forall (he.not_reads e ie)).append (.of_forall (by simp [Opcode.readsLine]))
  | block mark body =>
    obtain ⟨ib, hb, rfl⟩ := h
    exact Delivers.append (ListCode.delivers _ _ body ib hb) (.of_forall (not_reads_pops _))
  | var x initial =>
    cases initial with
    | none =>
      obtain ⟨js, hj, rfl⟩ := h
      exact .cons rfl (.of_forall (not_reads_settles hj))
    | some e =>
      obtain ⟨ie, js, he, hj, rfl⟩ := h
      exact (Delivers.of_forall (he.not_reads e ie)).append (.of_forall (not_reads_settles hj))
  | fun_ x parameters body =>
    obtain ⟨i, f, ib, js, -, -, -, -, hj, rfl⟩ := h
    exact .cons rfl (.of_forall (not_reads_settles hj))

theorem ListCode.delivers (σ : Scope) (first : Nat) (ds : List Decl) (is : List Instr) (h : ListCode κ σ first ds is) :
    Delivers κ σ.live (listReadStatements σ ds) is := by
  cases ds with
  | nil =>
    obtain rfl := h
    exact .of_forall (by simp)
  | cons d ds =>
    obtain ⟨id, js, hd, hs, rfl⟩ := h
    refine ((Code.delivers σ first d id hd).mono (List.subset_append_left _ _)).append ?_
    rw [hd.height, ← Scope.live_after]
    exact (ListCode.delivers _ _ ds js hs).mono (List.subset_append_right _ _)

end

end Decl

/-- The read statements of a function, apart from those in functions that are declared in it. -/
def FunctionTree.readStatements (t : FunctionTree) : List ReadStatement := Decl.listReadStatements t.scope t.body

theorem FunctionTree.IsCompiled.delivers {s : Store} {f : Function} {t : FunctionTree} (h : t.IsCompiled s f)
    {is : List Instr} (hcode : f.bytecode.Consists is) :
    Delivers ⟨f.bytecode.constants, s⟩ (f.arity.toNat + 1) t.readStatements is := by
  obtain ⟨ib, hcompiles, hbody⟩ := h
  rw [hcode.unique hcompiles.code, ← FunctionTree.live_scope hcompiles.arity]
  exact (Decl.ListCode.delivers _ _ t.body ib hbody).append (.of_forall (by simp [returnCode, Opcode.readsLine]))

end StackScript
