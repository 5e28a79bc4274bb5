import StackScript.Proofs.Code.New
import StackScript.Proofs.Code.Verified

/-! What a compilation has come to before and after each declaration, at any depth: the stack is then as high
as there are local variables in scope. -/
namespace StackScript
open Compiler

namespace Decl

/-- Writes a statement up to the first declaration of the block behind its condition. -/
def writeGuard (condition : Expr) (op : Opcode) : Action Unit := do
  advance
  condition.write
  let _ ← openJump op
  emit .pop
  advance
  enterScope

/-- Writes a conditional statement up to the first declaration of its other block. -/
def writeFirstBlock (condition : Expr) (body : List Decl) : Action Unit := do
  advance
  condition.write
  let thenJump ← openJump .jumpIfFalse
  emit .pop
  advance
  writeBlock (writeList body)
  let _ ← openJump .jump
  closeJump thenJump
  emit .pop
  advance
  advance
  enterScope

/-- Writes a function up to the first declaration of its body. -/
def writeOpening (name : String) (parameters : List String) : Action Unit := do
  advance
  let _ ← writeNewName name
  bringInScope
  let _ ← writeHead name parameters

mutual

/-- The relation holds of each function in a declaration with the states before and after each declaration in
that function. Writing the given declaration, which is in a function `r`, begins in the state `s`; the functions
in it are numbered from `first` on. -/
def Stages (P : FunctionRef → State → State → Prop) (r : FunctionRef) (first : Nat) (s : State) : Decl → Prop
  | if_ condition body => ListStages P r first ((writeGuard condition .jumpIfFalse).run s).2 body
  | ifElse condition body alternative =>
    ListStages P r first ((writeGuard condition .jumpIfFalse).run s).2 body ∧
      ListStages P r (first + listFunctionCount body) ((writeFirstBlock condition body).run s).2 alternative
  | until_ condition body => ListStages P r first ((writeGuard condition .jumpIfTrue).run s).2 body
  | block _ body => ListStages P r first (enterScope.run s.advance).2 body
  | fun_ x parameters body =>
    ListStages P ⟨first + listFunctionCount body⟩ first ((writeOpening x parameters).run s).2 body
  | _ => True

/-- As `Stages`, for declarations one after another, the end of which counts as a declaration of nothing. -/
def ListStages (P : FunctionRef → State → State → Prop) (r : FunctionRef) (first : Nat) (s : State) : List Decl → Prop
  | [] => P r s s
  | d :: ds => P r s (d.write.run s).2 ∧ Stages P r first s d ∧
    ListStages P r (first + d.functionCount) (d.write.run s).2 ds

end

section
variable {P : FunctionRef → State → State → Prop}

/-- There is a stage of the function that declarations are in. -/
theorem ListStages.ends {r : FunctionRef} {first : Nat} {s : State} {ds : List Decl} (h : ListStages P r first s ds) :
    ∃ t, P r t t := by
  induction ds generalizing first s with
  | nil => exact ⟨s, h⟩
  | cons d ds ih => exact ih h.2.2

mutual

/-- Each function that is declared has stages. -/
theorem Stages.onto {r : FunctionRef} {first : Nat} {s : State} (d : Decl) (h : Stages P r first s d) {k : Nat}
    (hf : first ≤ k) (hk : k < first + d.functionCount) : ∃ t, P ⟨k⟩ t t := by
  cases d with
  | if_ condition body => exact ListStages.onto body h hf hk
  | ifElse condition body alternative =>
    by_cases hb : k < first + listFunctionCount body
    · exact ListStages.onto body h.1 hf hb
    · refine ListStages.onto alternative h.2 (Nat.le_of_not_lt hb) ?_
      rwa [Nat.add_assoc]
  | until_ condition body => exact ListStages.onto body h hf hk
  | block mark body => exact ListStages.onto body h hf hk
  | fun_ x parameters body =>
    by_cases hb : k < first + listFunctionCount body
    · exact ListStages.onto body h hf hb
    · obtain rfl : k = first + listFunctionCount body := by
        rw [functionCount] at hk
        omega
      exact ListStages.ends h
  | _ => exact absurd hk (Nat.not_lt_of_le hf)

theorem ListStages.onto {r : FunctionRef} {first : Nat} {s : State} (ds : List Decl) (h : ListStages P r first s ds)
    {k : Nat} (hf : first ≤ k) (hk : k < first + listFunctionCount ds) : ∃ t, P ⟨k⟩ t t := by
  cases ds with
  | nil => exact absurd hk (Nat.not_lt_of_le hf)
  | cons d ds =>
    by_cases hb : k < first + d.functionCount
    · exact Stages.onto d h.2.1 hf hb
    · refine ListStages.onto ds h.2.2 (Nat.le_of_not_lt hb) ?_
      rwa [Nat.add_assoc]

end
end
end Decl

/-- The code of a function agrees with what its compilation had come to before and after a declaration: the
stack is as high as there are variables in scope, and the code between leaves the variables alone that were in
scope before. -/
structure Function.Agrees (f : Function) (is : List Instr) (s t : State) : Prop where
  before : f.height is s.draft.bytecode.size = s.draft.locals.length
  after : f.height is t.draft.bytecode.size = t.draft.locals.length
  between : ∀ {pre i post}, is = pre ++ i :: post → s.draft.bytecode.size ≤ codeLength pre →
    codeLength pre < t.draft.bytecode.size → s.draft.locals.length + i.takes ≤ f.height is (codeLength pre)

namespace Compiler
set_option synthInstance.maxSize 4096
variable {c : Context} {s : State}

theorem effect_writeGuard {e : Expr} (hw : AllSpelled e.words) (op : Opcode) (hop : op.width = 2)
    (hp : c.pending = none) (h : Describes c s) : Effect (e.Admitted c) (Decl.writeGuard e op) s fun _ t =>
      Describes (e.after c).enter t ∧ t.draft.bytecode.size = s.draft.bytecode.size + e.size + 4 := by
  refine (effect_advance h).andThen fun _ t ht => (effect_write_expr e hw ht.describes).bindTrue ?_
  rintro _ u ⟨ic, hu, he⟩
  refine (effect_openJump hu.describes hop).andThen ?_
  rintro _ v ⟨-, hv⟩
  refine (effect_emit hv.describes rfl).andThen fun _ w hw => (effect_advance hw.describes).andThen
    fun _ x hx => (effect_enterScope hx.describes hp).mono fun _ y _ hy => ⟨hy.describes, ?_⟩
  rw [(ht.trans (hu.trans (hv.trans (hw.trans (hx.trans hy))))).wrote.size]
  simp only [List.append_nil, List.nil_append, codeLength_append, he.size, codeLength_cons, codeLength_nil,
    Instr.size, hop]
  rfl

theorem effect_writeFirstBlock {e : Expr} {ds : List Decl} (hw : AllSpelled e.words) (hds : Writes (e.after c).enter ds)
    (hp : c.pending = none) (h : Describes c s) :
    Effect (e.Admitted c ∧ Decl.ListAdmitted (e.after c).enter ds ∧ Decl.blockSize ds + 4 ≤ maxDistance)
      (Decl.writeFirstBlock e ds) s fun _ t => Describes ((e.after c).afterBlock ds).enter t ∧
        t.draft.bytecode.size = s.draft.bytecode.size + e.size + Decl.blockSize ds + 8 := by
  refine (effect_advance h).andThen fun _ t ht => (effect_write_expr e hw ht.describes).bind ?_
  rintro _ u ⟨ic, hu, he⟩
  refine Effect.congr (P := _ ∧ _ ∧ True) ?_ (by rw [and_true])
  refine effect_thenBlock hds hp hu.describes fun {v is pre} hcode hpre hv => ?_
  refine (effect_advance hv.describes).andThen fun _ w hw => (effect_advance hw.describes).andThen
    fun _ x hx => (effect_enterScope hx.describes rfl).mono fun _ y _ hy => ⟨hy.describes, ?_⟩
  rw [(ht.trans (hu.trans (hv.trans (hw.trans (hx.trans hy))))).wrote.size, hpre]
  simp only [List.append_nil, List.nil_append, codeLength_append, he.size, codeLength_cons, codeLength_nil, hcode.size,
    Instr.size, Opcode.width]
  omega

theorem effect_writeOpening {x : String} {xs : List String} (hp : c.pending = none) (h : Describes c s) :
    Effect ((c.scope.Admits x ∧ c.Room (Decl.nameNeeds c.scope x)) ∧ xs.Nodup ∧ xs.length ≤ 255)
      (Decl.writeOpening x xs) s fun _ t => Describes (c.inside xs) t ∧ t.draft.bytecode.size = 0 := by
  refine (effect_advance h).andThen fun _ t ht => (effect_writeNewName ht.describes hp x).bind ?_
  rintro i u ⟨hu, -⟩
  refine (effect_bringInScope hu.describes (x := x) rfl).andThen fun _ v hv =>
    (effect_writeHead hv.describes x xs).bindTrue ?_
  rintro _ w ⟨-, hw⟩
  refine .pure hw.describes.not_failed ⟨hw.describes, ?_⟩
  rw [Bytecode.size, ← Array.length_toList, hw.code]
  rfl

/-! ### The code of a function and the compilation of its declarations -/

/-- A stage of a function is told by the code that the function has in the end. -/
def Tells (store : Store) (r : FunctionRef) (s t : State) : Prop :=
  ∃ f is, store.function? r = some f ∧ f.Verified store is ∧ f.Agrees is s t

/-- Where the code of declarations stands in a function, and that it is written next. -/
structure Placed (store : Store) (r : FunctionRef) (f : Function) (code pre is post : List Instr) (σ : Scope)
    (s : State) : Prop where
  function : store.function? r = some f
  verified : f.Verified store code
  code : code = pre ++ (is ++ post)
  post : post ≠ []
  size : s.draft.bytecode.size = codeLength pre
  height : heightOf (f.arity.toNat + 1) pre = σ.live

/-- An instruction in a piece of code is one of those that the piece is made of. -/
theorem split_of_codeLength {pre is post pre' post' : List Instr} {i : Instr}
    (h : pre ++ (is ++ post) = pre' ++ i :: post') (hle : codeLength pre ≤ codeLength pre')
    (hlt : codeLength pre' < codeLength pre + codeLength is) :
    ∃ before after, is = before ++ i :: after ∧ pre' = pre ++ before := by
  have hinside : ∀ as, is ++ post = as ++ i :: post' → codeLength as < codeLength is →
      ∃ after, is = as ++ i :: after := by
    intro as heq hlt
    rcases List.append_eq_append_iff.1 heq with ⟨bs, rfl, -⟩ | ⟨cs, rfl, hcs⟩
    · rw [codeLength_append] at hlt
      omega
    · cases cs with
      | nil => simp at hlt
      | cons j cs =>
        obtain rfl : i = j := (List.cons.inj hcs).1
        exact ⟨cs, rfl⟩
  rcases List.append_eq_append_iff.1 h with ⟨as, rfl, heq⟩ | ⟨bs, rfl, heq⟩
  · obtain ⟨after, hafter⟩ := hinside as heq (by rw [codeLength_append] at hlt; omega)
    exact ⟨as, after, hafter, rfl⟩
  · cases bs with
    | nil =>
      rw [List.append_nil] at hlt
      obtain ⟨after, hafter⟩ := hinside [] heq.symm (by rw [codeLength_nil]; omega)
      exact ⟨[], after, hafter, by simp⟩
    | cons j bs =>
      have hj := j.size_pos
      rw [codeLength_append, codeLength_cons] at hle
      omega

section
variable {store : Store} {r : FunctionRef} {f : Function} {code pre is post : List Instr}

theorem Describes.length_locals (h : Describes c s) (hp : c.pending = none) : s.draft.locals.length = c.scope.live := by
  rw [h.locals, Context.locals, hp]
  exact Scope.length_locals c.scope

theorem Placed.height_eq (hpl : Placed store r f code pre is post c.scope s) (h : Describes c s)
    (hp : c.pending = none) :
    f.height code s.draft.bytecode.size = s.draft.locals.length := by
  rw [Function.height, hpl.size, hpl.code, heightAt_append, hpl.height, h.length_locals hp]

/-- At a place between declarations. -/
theorem Placed.tells (hpl : Placed store r f code pre is post c.scope s) (h : Describes c s) (hp : c.pending = none) :
    Tells store r s s :=
  ⟨f, code, hpl.function, hpl.verified, hpl.height_eq h hp, hpl.height_eq h hp,
    fun _ hle hlt => absurd hlt (Nat.not_lt_of_le hle)⟩

/-- In a block, which may have code before and behind it in its statement. -/
theorem Placed.inner {ib : List Instr} {σ : Scope} {t : State} (hpl : Placed store r f code pre is post σ s)
    (pre' post' : List Instr) (heq : is = pre' ++ (ib ++ post'))
    (hsize : t.draft.bytecode.size = s.draft.bytecode.size + codeLength pre')
    (hheight : heightOf σ.live pre' = σ.live) :
    Placed store r f code (pre ++ pre') ib (post' ++ post) σ.enter t where
  function := hpl.function
  verified := hpl.verified
  code := by rw [hpl.code, heq]; simp
  post := by simp [hpl.post]
  size := by rw [hsize, hpl.size, codeLength_append]
  height := by rw [heightOf_append, hpl.height, hheight, Scope.live_enter]

/-- Behind a declaration, the next one is written next. -/
theorem Placed.after {d : Decl} {js : List Instr} (hpl : Placed store r f code pre (is ++ js) post c.scope s)
    (hd : d.Code ⟨f.bytecode.constants, store⟩ c.scope c.functions is) {t : State}
    (hsize : t.draft.bytecode.size = s.draft.bytecode.size + codeLength is) :
    Placed store r f code (pre ++ is) js post (c.scope.after d) t where
  function := hpl.function
  verified := hpl.verified
  code := by rw [hpl.code, List.append_assoc, List.append_assoc]
  post := hpl.post
  size := by rw [hsize, hpl.size, codeLength_append]
  height := by rw [heightOf_append, hpl.height, hd.height, Scope.live_after]

/-- The code of a declaration agrees with the states before and after it. -/
theorem Placed.tells_write {d : Decl} (hpl : Placed store r f code pre is post c.scope s) (h : Describes c s)
    (hp : c.pending = none) (hd : d.Code ⟨f.bytecode.constants, store⟩ c.scope c.functions is) {t : State}
    (ht : Describes (d.after c) t) (hsize : t.draft.bytecode.size = s.draft.bytecode.size + codeLength is) :
    Tells store r s t := by
  have hpl' : Placed store r f code pre (is ++ []) post c.scope s := by rwa [List.append_nil]
  refine ⟨f, code, hpl.function, hpl.verified, hpl.height_eq h hp, (hpl'.after hd hsize).height_eq ht rfl, ?_⟩
  intro pre' i post' heq hle hlt
  rw [hsize, hpl.size] at hlt
  rw [hpl.size] at hle
  obtain ⟨before, rest, rfl, rfl⟩ := split_of_codeLength (hpl.code.symm.trans heq) hle hlt
  have hflow : Flow _ code (f.arity.toNat + 1) c.scope.live pre (before ++ i :: rest) :=
    hd.flow _ _ _ _ post hpl.code hpl.post hpl.height
  rw [h.length_locals hp, Function.height, heq, heightAt_append]
  exact hflow.get.takes

end

section
variable {store : Store}

mutual

theorem stages_write (d : Decl) (hw : AllSpelled d.words) {c : Context} {s : State} (hp : c.pending = none)
    (h : Describes c s) (ha : d.Admitted c) {r : FunctionRef} {f : Function} {code pre is post : List Instr}
    (hd : d.Code ⟨f.bytecode.constants, store⟩ c.scope c.functions is)
    (hpl : Placed store r f code pre is post c.scope s) : d.Stages (Tells store) r c.functions s := by
  cases d with
  | if_ e ds =>
    obtain ⟨ic, ib, hc, hb, rfl⟩ := hd
    obtain ⟨hae, hal, -⟩ := (Decl.admitted_if hp).1 ha
    have hwe : AllSpelled e.words := hw.of_subset Decl.words_subset_if.1
    obtain ⟨hg, hsize⟩ := (effect_writeGuard hwe .jumpIfFalse rfl hp h).result hae
    refine stages_writeList ds (hw.of_subset Decl.words_subset_if.2) (c := (e.after c).enter)
      hp hg (fun _ => List.nodup_nil) hal hb
      (hpl.inner (ic ++ [⟨.jumpIfFalse, Decl.blockSize ds + 4⟩, ⟨.pop, 0⟩])
        (Decl.pops (Decl.listDeclared ds).length ++ [⟨.jump, 1⟩, ⟨.pop, 0⟩]) ?_ ?_ ?_)
    · simp
    · rw [hsize]
      simp [hc.size, Instr.size, Opcode.width, Nat.add_assoc]
    · rw [heightOf_append, hc.height]
      rfl
  | ifElse e ds es =>
    obtain ⟨ic, ib, ia, hc, hb, hi, rfl⟩ := hd
    obtain ⟨hae, hads, hle, haes, -⟩ := (Decl.admitted_ifElse hp).1 ha
    have hwe : AllSpelled e.words := hw.of_subset Decl.words_subset_ifElse.1
    have hwd : AllSpelled (Decl.listWords ds) := hw.of_subset Decl.words_subset_ifElse.2.1
    have hds : Writes (e.after c).enter ds := writes_enter (c := e.after c) hwd hp
    have hblock := Decl.height_block (hb.height _ _ _ _ c.scope.live)
    constructor
    · obtain ⟨hg, hsize⟩ := (effect_writeGuard hwe .jumpIfFalse rfl hp h).result hae
      refine stages_writeList ds hwd (c := (e.after c).enter) hp hg (fun _ => List.nodup_nil) hads hb
        (hpl.inner (ic ++ [⟨.jumpIfFalse, Decl.blockSize ds + 4⟩, ⟨.pop, 0⟩])
          (Decl.pops (Decl.listDeclared ds).length ++ ⟨.jump, Decl.blockSize es + 1⟩ :: ⟨.pop, 0⟩ ::
            (ia ++ Decl.pops (Decl.listDeclared es).length)) ?_ ?_ ?_)
      · simp
      · rw [hsize]
        simp [hc.size, Instr.size, Opcode.width, Nat.add_assoc]
      · rw [heightOf_append, hc.height]
        rfl
    · obtain ⟨hg, hsize⟩ := (effect_writeFirstBlock hwe hds hp h).result ⟨hae, hads, hle⟩
      refine stages_writeList es (hw.of_subset Decl.words_subset_ifElse.2.2)
        (c := ((e.after c).afterBlock ds).enter) rfl hg (fun _ => List.nodup_nil) haes hi
        (hpl.inner (ic ++ ⟨.jumpIfFalse, Decl.blockSize ds + 4⟩ :: ⟨.pop, 0⟩ ::
            (ib ++ Decl.pops (Decl.listDeclared ds).length) ++ [⟨.jump, Decl.blockSize es + 1⟩, ⟨.pop, 0⟩])
          (Decl.pops (Decl.listDeclared es).length) ?_ ?_ ?_)
      · simp
      · rw [hsize]
        simp only [codeLength_append, codeLength_cons, codeLength_nil, hc.size, hb.size, Decl.codeLength_pops,
          Instr.size, Opcode.width, Decl.blockSize, Scope.isLocal_enter]
        omega
      · rw [heightOf_append, heightOf_append, hc.height]
        change heightOf (heightOf c.scope.live (ib ++ Decl.pops (Decl.listDeclared ds).length)) _ = _
        rw [hblock]
        rfl
  | until_ e ds =>
    obtain ⟨ic, ib, hc, hb, rfl⟩ := hd
    obtain ⟨hae, hal, -⟩ := (Decl.admitted_until hp).1 ha
    have hwe : AllSpelled e.words := hw.of_subset Decl.words_subset_until.1
    obtain ⟨hg, hsize⟩ := (effect_writeGuard hwe .jumpIfTrue rfl hp h).result hae
    refine stages_writeList ds (hw.of_subset Decl.words_subset_until.2) (c := (e.after c).enter)
      hp hg (fun _ => List.nodup_nil) hal hb
      (hpl.inner (ic ++ [⟨.jumpIfTrue, Decl.blockSize ds + 4⟩, ⟨.pop, 0⟩])
        (Decl.pops (Decl.listDeclared ds).length ++ [⟨.loop, e.size + Decl.blockSize ds + 7⟩, ⟨.pop, 0⟩]) ?_ ?_ ?_)
    · simp
    · rw [hsize]
      simp [hc.size, Instr.size, Opcode.width, Nat.add_assoc]
    · rw [heightOf_append, hc.height]
      rfl
  | block mark ds =>
    obtain ⟨ib, hb, rfl⟩ := hd
    have ht := (effect_advance h).result trivial
    have hg := (effect_enterScope ht.describes hp).result trivial
    refine stages_writeList ds (hw.of_subset Decl.words_subset_block) (c := c.enter)
      hp hg.describes (fun _ => List.nodup_nil) (Decl.admitted_block.1 ha) hb
      (hpl.inner ([]) (Decl.pops (Decl.listDeclared ds).length) rfl ?_ rfl)
    exact (ht.trans hg).wrote.size
  | fun_ x xs ds =>
    obtain ⟨i, g, ib, js, -, hg, hcompiles, hb, -, rfl⟩ := hd
    obtain ⟨hname, hxs, hads, -⟩ := (Decl.admitted_fun h.live_le).1 ha
    obtain ⟨hd, hsize⟩ := (effect_writeOpening hp h).result ⟨hname, hxs⟩
    have hverified := FunctionTree.verified (t := ⟨some x, xs, ds, c.functions, by simp⟩) hcompiles hb
    have hplaced : Placed store ⟨c.functions + Decl.listFunctionCount ds⟩ g (ib ++ returnCode) [] ib returnCode
        (.function xs) ((Decl.writeOpening x xs).run s).2 := by
      refine ⟨hg, hverified, rfl, by simp [returnCode], hsize, ?_⟩
      rw [heightOf_nil, hcompiles.arity]
      exact (Scope.live_function xs).symm
    exact stages_writeList ds (hw.of_subset Decl.words_subset_fun) (c := c.inside xs) rfl
      hd (fun _ => List.nodup_reverse.2 hxs.1) hads hb hplaced
  | _ => trivial

theorem stages_writeList (ds : List Decl) (hw : AllSpelled (Decl.listWords ds)) {c : Context} {s : State}
    (hp : c.pending = none) (h : Describes c s) (hn : c.scope.isLocal = true → c.scope.inner.Nodup)
    (ha : Decl.ListAdmitted c ds) {r : FunctionRef} {f : Function} {code pre is post : List Instr}
    (hds : Decl.ListCode ⟨f.bytecode.constants, store⟩ c.scope c.functions ds is)
    (hpl : Placed store r f code pre is post c.scope s) : Decl.ListStages (Tells store) r c.functions s ds := by
  cases ds with
  | nil => exact hpl.tells h hp
  | cons d ds =>
    obtain ⟨id, js, hd, hs, rfl⟩ := hds
    obtain ⟨had, has⟩ := Decl.listAdmitted_cons.1 ha
    have hwd : AllSpelled d.words := hw.of_subset Decl.words_subset_list.1
    obtain ⟨ks, ht, hk⟩ := (effect_write d hwd hp h).result had
    have hsize : (d.write.run s).2.draft.bytecode.size = s.draft.bytecode.size + codeLength id := by
      rw [ht.wrote.size, hk.size, hd.size]
    have hhead : Placed store r f code pre id (js ++ post) c.scope s :=
      ⟨hpl.function, hpl.verified, by rw [hpl.code, List.append_assoc], by simp [hpl.post], hpl.size, hpl.height⟩
    refine ⟨hhead.tells_write h hp hd ht.describes hsize, stages_write d hwd hp h had hd hhead, ?_⟩
    exact stages_writeList ds (hw.of_subset Decl.words_subset_list.2) (c := d.after c) rfl ht.describes
      (had.nodup_after hn) has hs (hpl.after hd hsize)

end
end

end Compiler

/-! ### What is accepted -/

section Compile
variable {source : String} {store : Store} {printCode : Bool} {r : FunctionRef}

end Compile
end StackScript
