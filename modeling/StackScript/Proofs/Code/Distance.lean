import StackScript.Proofs.Code.Jumps

/-! Jumps that go too far. Of a program that breaks no other rule, the first mistake is that of the first jump that goes
farther than two bytes can say. -/
namespace StackScript
namespace Compiler
set_option synthInstance.maxSize 4096
variable {α β : Type} {a : Action α} {f : α → Action β} {js ks : List Jump} {c : Context} {s : State} {P : Prop}
  {Q : α → State → Prop} {r : FunctionRef}

/-- The first mistake is that of the first jump that goes too far. -/
def Blames (js : List Jump) (s : State) : Prop := s.errors[0]? = (js.find? (·.IsFar)).map Jump.error

theorem Blames.not_failed (h : Blames js s) : ¬Failed s ↔ ∀ j ∈ js, ¬j.IsFar := by
  rw [failed_iff, not_not, h, Option.map_eq_none_iff, List.find?_eq_none]
  simp only [decide_eq_true_eq]

/-- An action after another comes to its own jumps if there has been no mistake. -/
theorem Blames.bind [∀ x, Enduring (f x)] (ha : Blames js (a.run s).2)
    (hf : ¬Failed (a.run s).2 → Blames ks ((f (a.run s).1).run (a.run s).2).2) :
    Blames (js ++ ks) ((a >>= f).run s).2 := by
  rw [Blames, run_bind, List.find?_append]
  cases hfirst : js.find? (·.IsFar) with
  | none =>
    refine hf fun hfailed => failed_iff.1 hfailed ?_
    rw [ha, hfirst]
    rfl
  | some j =>
    have hsome : (a.run s).2.errors[0]? = some j.error := by rw [ha, hfirst]; rfl
    have hfailed : Failed (a.run s).2 := failed_iff.2 (by simp [hsome])
    exact (Enduring.keeps.first hfailed).trans hsome

/-- An action after one that closes a jump. -/
theorem Blames.cons {j : Jump} [∀ x, Enduring (f x)] (ha : Blames [j] (a.run s).2)
    (hf : ¬Failed (a.run s).2 → Blames ks ((f (a.run s).1).run (a.run s).2).2) : Blames (j :: ks) ((a >>= f).run s).2 :=
  ha.bind hf

/-- An action after one that makes no mistake. -/
theorem Effect.blames [∀ x, Enduring (f x)] (h : Effect P a s Q) (hp : P)
    (hf : Q (a.run s).1 (a.run s).2 → Blames ks ((f (a.run s).1).run (a.run s).2).2) : Blames ks ((a >>= f).run s).2 :=
  hf (h.result hp)

/-- An action that makes no mistake. -/
theorem Effect.blames_nil (h : Effect P a s Q) (hp : P) : Blames [] (a.run s).2 :=
  not_not.1 (mt failed_iff.2 (h.succeeds.2 hp))

/-- What is done behind all jumps makes no mistake. -/
theorem Blames.last [∀ x, Enduring (f x)] (ha : Blames js (a.run s).2)
    (hf : ¬Failed (a.run s).2 → Blames [] ((f (a.run s).1).run (a.run s).2).2) : Blames js ((a >>= f).run s).2 := by
  have h := ha.bind hf
  rwa [List.append_nil] at h

/-- Where nothing has been closed there is no mistake. -/
theorem Describes.blames (h : Describes c s) : Blames [] s := by
  rw [Blames, h.ready.errors]
  rfl

theorem Describes.emits_advance (h : Describes c s) : Emits c [] s s.advance := (effect_advance h).result trivial

/-- Reading a token is no mistake. -/
theorem Describes.blames_advance {f : Unit → Action β} (h : Describes c s)
    (hf : Emits c [] s s.advance → Blames ks ((f ()).run s.advance).2) : Blames ks ((advance >>= f).run s).2 :=
  hf h.emits_advance

theorem exists_ensure (b : Bool) (d : Defect) (s : State) :
    ∃ defect, ((ensure b d).run s).2 = { s with defect } := by
  unfold ensure
  split
  · exact ⟨s.defect, rfl⟩
  · exact ⟨s.defect <|> some d, rfl⟩

/-! ### Closing a jump -/

theorem first_mistake (h : Ready s) (m : Mistake) :
    ((mistake m).run s).2.errors[0]? = some ⟨s.previous.line, .ofToken s.previous, m⟩ := by
  change (s.report _ _ _).errors[0]? = _
  simp [State.report, h.recovering, h.errors]

theorem blames_singleton {j : Jump} {t : State} (hnear : ¬j.IsFar → t.errors = #[])
    (hfar : j.IsFar → t.errors[0]? = some j.error) : Blames [j] t := by
  by_cases h : j.IsFar
  · simp [Blames, h, hfar h]
  · simp [Blames, h, hnear h]

theorem blames_closeJump (h : Describes c s) (r : FunctionRef) (place : Nat) :
    Blames [.forward r place s] ((closeJump (place + 1)).run s).2 := by
  obtain ⟨defect, hensure⟩ := exists_ensure (place + 1 + 2 ≤ s.draft.bytecode.size) .jumpInCode s
  have hdistance : s.draft.bytecode.size - (place + 1) - 2 = (Jump.forward r place s).distance := by
    simp only [Jump.distance, Jump.forward, Bool.false_eq_true, if_false]
    omega
  rw [closeJump, run_bind, run_codeSize, run_bind, hensure, run_bind, run_codeSize]
  dsimp only
  rw [hdistance]
  refine blames_singleton (fun hnear => ?_) fun hfar => ?_
  · rw [if_pos (Nat.not_lt.1 hnear)]
    exact h.ready.errors
  · rw [if_neg (Nat.not_le.2 hfar)]
    exact first_mistake (s := { s with defect }) ⟨h.ready.recovering, h.ready.errors⟩ .jumpTooLarge

theorem blames_emitBackJump (h : Describes c s) (r : FunctionRef) (start : Nat) :
    Blames [.backward r start s] ((emitBackJump start).run s).2 := by
  obtain ⟨defect, hensure⟩ := exists_ensure (start ≤ s.draft.bytecode.size + 1) .loopInCode
    (s.emitByte Opcode.loop.toByte)
  have hsize : (s.emitByte Opcode.loop.toByte).draft.bytecode.size = s.draft.bytecode.size + 1 := by
    simp [State.emitByte]
  have hfar : (Jump.backward r start s).IsFar ↔ maxDistance < s.draft.bytecode.size + 1 - start + 2 := by
    simp only [Jump.IsFar, Jump.distance, Jump.backward, if_true, maxDistance]
    omega
  rw [emitBackJump, run_bind, run_emit, run_bind, run_codeSize, run_bind, hsize, hensure, run_bind, run_codeSize]
  dsimp only
  rw [hsize, run_bind]
  refine blames_singleton (fun hnear => ?_) fun hfar' => ?_
  · rw [hfar] at hnear
    rw [loopDistance, if_pos (Nat.not_lt.1 hnear)]
    exact h.ready.errors
  · rw [hfar] at hfar'
    rw [loopDistance, if_neg (Nat.not_le.2 hfar')]
    exact first_mistake (s := { s.emitByte Opcode.loop.toByte with defect }) ⟨h.ready.recovering, h.ready.errors⟩
      .loopTooLarge

/-! ### Expressions -/

theorem blames_shortCircuit {d : Context} {shape : Pool → List Instr → Prop} {op : Opcode} {right : Action Unit}
    {jumps : State → List Jump} [Enduring right] (h : Describes c s) (hop : op.width = 2)
    (hright : ∀ {t}, Describes c t → Effect P right t fun _ u => Yields d shape t u)
    (hjumps : ∀ {t}, Describes c t → Blames (jumps t) (right.run t).2) :
    Blames (jumpsAcross r op right jumps s)
      ((openJump op >>= fun skip => emit .pop >>= fun _ => right >>= fun _ => closeJump skip).run s).2 := by
  refine (effect_openJump h hop).blames trivial fun ⟨hplace, ht⟩ =>
    (effect_emit ht.describes rfl).blames trivial fun hu => ?_
  refine (hjumps hu.describes).bind fun hn => ?_
  obtain ⟨ir, hv, -⟩ := (hright hu.describes).of_not_failed hn
  rw [hplace]
  exact blames_closeJump hv.describes r _

mutual

theorem blames_write_expr (e : Expr) (hw : AllSpelled e.words) {c : Context} {s : State} (h : Describes c s)
    (ha : e.Admitted c False) : Blames (e.jumps r s) (e.write.run s).2 := by
  cases e with
  | literal l =>
    exact (effect_write_expr (.literal l) hw h).blames_nil (Expr.admitted_literal.2 (Expr.admitted_literal.1 ha))
  | name x => exact (effect_write_expr (.name x) hw h).blames_nil (Expr.admitted_name.2 (Expr.admitted_name.1 ha))
  | group e =>
    have hwe : AllSpelled e.words := hw.of_subset Expr.words_subset_group
    refine h.blames_advance fun ht =>
      (blames_write_expr e hwe ht.describes (Expr.admitted_group.1 ha)).last fun hn => ?_
    have hu := (effect_write_expr e hwe ht.describes).of_not_failed hn
    exact (effect_advance hu.describes).blames_nil trivial
  | assign x value =>
    have hwv : AllSpelled value.words := hw.of_subset Expr.words_subset_assign
    obtain ⟨hname, hav⟩ := Expr.admitted_assign.1 ha
    refine h.blames_advance fun ht => (effect_accessTo ht.describes x).blames hname fun ⟨hu, p, hp⟩ =>
      hu.describes.blames_advance fun hv => (blames_write_expr value hwv hv.describes hav).last fun hn => ?_
    have hend := (effect_write_expr value hwv hv.describes).of_not_failed hn
    exact (effect_emitWith hend.describes hp.width.2 _).blames_nil trivial
  | unary op e =>
    have hwe : AllSpelled e.words := hw.of_subset Expr.words_subset_unary
    refine h.blames_advance fun ht =>
      (blames_write_expr e hwe ht.describes (Expr.admitted_unary.1 ha)).last fun hn => ?_
    have hu := (effect_write_expr e hwe ht.describes).of_not_failed hn
    exact (effect_emit hu.describes (by cases op <;> rfl)).blames_nil trivial
  | binary op left right =>
    have hwl : AllSpelled left.words := hw.of_subset Expr.words_subset_binary.1
    have hwr : AllSpelled right.words := hw.of_subset Expr.words_subset_binary.2
    obtain ⟨hal, har⟩ := Expr.admitted_binary.1 ha
    refine (blames_write_expr left hwl h hal).bind fun hn => ?_
    have ht := (effect_write_expr left hwl h).of_not_failed hn
    refine ht.describes.blames_advance fun hu => (blames_write_expr right hwr hu.describes har).last fun hn => ?_
    have hv := (effect_write_expr right hwr hu.describes).of_not_failed hn
    exact (effect_emit hv.describes (by cases op <;> rfl)).blames_nil trivial
  | and left right =>
    have hwl : AllSpelled left.words := hw.of_subset Expr.words_subset_and.1
    have hwr : AllSpelled right.words := hw.of_subset Expr.words_subset_and.2
    obtain ⟨hal, har, -⟩ := Expr.admits_and.1 ha
    refine (blames_write_expr left hwl h hal).bind fun hn => ?_
    have ht := (effect_write_expr left hwl h).of_not_failed hn
    refine ht.describes.blames_advance fun hu => ?_
    exact blames_shortCircuit hu.describes rfl (fun hd => effect_write_expr right hwr hd)
      fun hd => blames_write_expr right hwr hd har
  | or left right =>
    have hwl : AllSpelled left.words := hw.of_subset Expr.words_subset_or.1
    have hwr : AllSpelled right.words := hw.of_subset Expr.words_subset_or.2
    obtain ⟨hal, har, -⟩ := Expr.admits_or.1 ha
    refine (blames_write_expr left hwl h hal).bind fun hn => ?_
    have ht := (effect_write_expr left hwl h).of_not_failed hn
    refine ht.describes.blames_advance fun hu => ?_
    exact blames_shortCircuit hu.describes rfl (fun hd => effect_write_expr right hwr hd)
      fun hd => blames_write_expr right hwr hd har
  | call callee arguments =>
    have hwc : AllSpelled callee.words := hw.of_subset Expr.words_subset_call.1
    have hwa : AllSpelled (Expr.argumentWords arguments) := hw.of_subset Expr.words_subset_call.2
    obtain ⟨hac, haa, hcount⟩ := Expr.admitted_call.1 ha
    refine (blames_write_expr callee hwc h hac).bind fun hn => ?_
    have ht := (effect_write_expr callee hwc h).of_not_failed hn
    refine ht.describes.blames_advance fun hu =>
      (blames_writeArguments arguments hwa hu.describes haa 0 hcount).last fun hn => ?_
    obtain ⟨-, -, hv⟩ := (effect_writeArguments arguments hwa hu.describes 0 (by decide)).of_not_failed hn
    refine hv.describes.blames_advance fun hw => ?_
    exact (effect_emitWith hw.describes rfl _).blames_nil trivial

theorem blames_writeArguments (es : List Expr) (hw : AllSpelled (Expr.argumentWords es)) {c : Context} {s : State}
    (h : Describes c s) (ha : Expr.AllAdmitted c es False) (count : Nat) (hcount : count + es.length ≤ 255) :
    Blames (Expr.argumentJumps r count s es) ((Expr.writeArguments count es).run s).2 := by
  cases es with
  | nil => exact h.blames
  | cons e es =>
    have hwe : AllSpelled e.words := hw.of_subset Expr.words_subset_arguments.1
    obtain ⟨hae, haes⟩ := Expr.allAdmitted_cons.1 ha
    rw [List.length_cons] at hcount
    refine (blames_write_expr e hwe h hae).bind fun hn => ?_
    have ht := (effect_write_expr e hwe h).of_not_failed hn
    refine (effect_countArgument ht.describes count (by omega)).blames (by omega) fun ⟨hnext, _, hu⟩ =>
      (effect_readComma hu.describes es).blames trivial fun hv => ?_
    exact blames_writeArguments es (hw.of_subset Expr.words_subset_arguments.2) hv.describes haes _
      (le_of_eq_of_le (congrArg (· + es.length) hnext) (by omega))

end

theorem blames_writeItems (es : List Expr) (hw : AllSpelled (itemWords es)) (h : Describes c s)
    (ha : Expr.AllAdmitted c es False) : Blames (Expr.itemJumps r s es) ((Expr.writeItems es).run s).2 := by
  induction es generalizing c s with
  | nil => exact h.blames
  | cons e es ih =>
    have hwe : AllSpelled e.words := hw.of_subset words_subset_items.1
    have hws : AllSpelled (itemWords es) := hw.of_subset words_subset_items.2
    obtain ⟨hae, haes⟩ := Expr.allAdmitted_cons.1 ha
    refine h.blames_advance fun ht => (blames_write_expr e hwe ht.describes hae).bind fun hn => ?_
    have hu := (effect_write_expr e hwe ht.describes).of_not_failed hn
    exact (effect_emit hu.describes rfl).blames trivial fun hv => ih hws hv.describes haes

/-! ### Blocks -/

/-- The first mistake of writing declarations is that of their first jump that goes too far. -/
def Blaming (c : Context) (ds : List Decl) : Prop := ∀ {r : FunctionRef} {s : State}, Describes c s →
  Blames (Decl.listJumps r c.functions s ds) ((Decl.writeList ds).run s).2

theorem blames_writeBlock {ds : List Decl} (hb : Blaming c.enter ds) (hds : Writes c.enter ds) (hp : c.pending = none)
    (h : Describes c s) : Blames (Decl.listJumps r c.functions (enterScope.run s).2 ds)
      ((Decl.writeBlock (Decl.writeList ds)).run s).2 := by
  refine (effect_enterScope h hp).blames trivial fun ht => (hb ht.describes).last fun hn => ?_
  have hu := (hds ht.describes).of_not_failed hn
  refine hu.describes.blames_advance fun hv => ?_
  exact (effect_leaveScope hv.describes (Decl.listDeclared ds).reverse (σ := c.scope) rfl
    (c.scope.afterAll_enter ds)).blames_nil trivial

variable {ds es : List Decl}

theorem run_writeGuarded (op : Opcode) (ds : List Decl) (s : State) : (Decl.writeGuarded op ds).run s =
    (((openJump op).run s).1,
      ((Decl.writeBlock (Decl.writeList ds)).run ((emit .pop).run ((openJump op).run s).2).2.advance).2) := rfl

theorem run_enterGuarded (op : Opcode) (s : State) : (Decl.enterGuarded op).run s =
    enterScope.run ((emit .pop).run ((openJump op).run s).2).2.advance := rfl

theorem blames_thenBlock (hb : Blaming c.enter ds) (hds : Writes c.enter ds) (hp : c.pending = none) (h : Describes c s)
    {k : Nat → Action Unit} [∀ n, Enduring (k n)] {p : Nat × State}
    (hwrite : (Decl.writeGuarded .jumpIfFalse ds).run s = p)
    {u v : State} (hjump : ((openJump .jump).run p.2).2 = u)
    (hclose : ((do closeJump p.1; emit .pop : Action Unit).run u).2 = v)
    (hk : Describes (c.afterBlock ds) v → Blames ks ((k (p.2.draft.bytecode.size + 1)).run v).2) :
    Blames (Decl.listJumps r c.functions ((Decl.enterGuarded .jumpIfFalse).run s).2 ds ++
        .forward r s.draft.bytecode.size u :: ks)
      ((openJump .jumpIfFalse >>= fun thenJump => emit .pop >>= fun _ => advance >>= fun _ =>
        Decl.writeBlock (Decl.writeList ds) >>= fun _ => openJump .jump >>= fun elseJump =>
          closeJump thenJump >>= fun _ => emit .pop >>= fun _ => k elseJump).run s).2 := by
  rw [run_writeGuarded] at hwrite
  rw [run_bind] at hclose
  rw [run_enterGuarded]
  subst hwrite hjump hclose
  refine (effect_openJump h rfl).blames trivial fun ⟨hplace, hv⟩ =>
    (effect_emit hv.describes rfl).blames trivial fun hw =>
    hw.describes.blames_advance fun hx => ?_
  refine (blames_writeBlock hb hds hp hx.describes).bind fun hn => ?_
  obtain ⟨ib, hy, -⟩ := (effect_writeBlock hds hp hx.describes).of_not_failed hn
  refine (effect_openJump hy.describes rfl).blames trivial fun ⟨hplace', hz⟩ => ?_
  have hjump := hv.trans (hw.trans (hx.trans (hy.trans hz)))
  simp only [List.cons_append, List.nil_append] at hjump
  have hfirst := blames_closeJump hz.describes r s.draft.bytecode.size
  rw [← hplace] at hfirst
  refine hfirst.cons fun hn => ?_
  obtain ⟨hclosed, -⟩ := (effect_closeJump [] _ rfl hjump hplace).of_not_failed hn
  rw [hplace']
  exact (effect_emit hclosed.describes rfl).blames trivial fun hpop => hk hpop.describes

theorem blames_until {ic : List Instr} {t : State} (hb : Blaming c.enter ds) (hds : Writes c.enter ds)
    (hp : c.pending = none) (h : Emits c ic s t) {p : Nat × State}
    (hwrite : (Decl.writeGuarded .jumpIfTrue ds).run t = p) :
    Blames (Decl.listJumps r c.functions ((Decl.enterGuarded .jumpIfTrue).run t).2 ds ++
        [.backward r s.draft.bytecode.size p.2,
          .forward r t.draft.bytecode.size ((emitBackJump s.draft.bytecode.size).run p.2).2])
      ((openJump .jumpIfTrue >>= fun exit => emit .pop >>= fun _ => advance >>= fun _ =>
        Decl.writeBlock (Decl.writeList ds) >>= fun _ => emitBackJump s.draft.bytecode.size >>=
          fun _ => closeJump exit >>= fun _ => emit .pop).run t).2 := by
  rw [run_writeGuarded] at hwrite
  rw [run_enterGuarded]
  subst hwrite
  refine (effect_openJump h.describes rfl).blames trivial fun ⟨hplace, hv⟩ =>
    (effect_emit hv.describes rfl).blames trivial fun hw => hw.describes.blames_advance fun hx => ?_
  refine (blames_writeBlock hb hds hp hx.describes).bind fun hn => ?_
  obtain ⟨ib, hy, -⟩ := (effect_writeBlock hds hp hx.describes).of_not_failed hn
  have hall := h.trans (hv.trans (hw.trans (hx.trans hy)))
  refine (blames_emitBackJump hy.describes r _).cons fun hn => ?_
  have hz := (effect_emitBackJump hall).of_not_failed hn
  have hlast := blames_closeJump hz.describes r t.draft.bytecode.size
  rw [← hplace] at hlast
  refine hlast.last fun hn => ?_
  have hjump := hall.trans hz
  simp only [List.append_assoc, List.cons_append, List.nil_append] at hjump
  obtain ⟨hend, -⟩ := (effect_closeJump ic _ rfl hjump (by rw [hplace, h.wrote.size])).of_not_failed hn
  exact (effect_emit hend.describes rfl).blames_nil trivial

/-! ### Declarations -/

mutual

theorem blames_write (d : Decl) (hw : AllSpelled d.words) {c : Context} {s : State} (hp : c.pending = none)
    (h : Describes c s) (ha : d.Admitted c False) {r : FunctionRef} :
    Blames (d.jumps r c.functions s) (d.write.run s).2 := by
  have hsame : (d.Admitted c False → d.Admitted c) → Blames [] (d.write.run s).2 := fun hd =>
    (effect_write d hw hp h).blames_nil (hd ha)
  cases d with
  | expression e =>
    refine (blames_write_expr e hw h ((Decl.admitted_expression hp).1 ha)).last fun hn => ?_
    have ht := (effect_write_expr e hw h).of_not_failed hn
    exact (effect_emit ht.describes rfl).blames_nil trivial
  | print e es =>
    have hwe : AllSpelled e.words := hw.of_subset Decl.words_subset_print.1
    have hws : AllSpelled (itemWords es) := hw.of_subset Decl.words_subset_print.2
    obtain ⟨hae, haes⟩ := (Decl.admitted_print hp).1 ha
    refine h.blames_advance fun ht => (blames_write_expr e hwe ht.describes hae).bind fun hn => ?_
    have hu := (effect_write_expr e hwe ht.describes).of_not_failed hn
    refine (effect_emit hu.describes rfl).blames trivial fun hv =>
      (blames_writeItems es hws hv.describes haes).last fun hn => ?_
    obtain ⟨js, hx, -⟩ := (effect_writeItems es hws hv.describes).of_not_failed hn
    exact (effect_advance hx.describes).blames_nil trivial
  | read form x => exact hsame fun ha => (Decl.admitted_read hp).2 ((Decl.admitted_read hp).1 ha)
  | if_ e ds =>
    have hwe : AllSpelled e.words := hw.of_subset Decl.words_subset_if.1
    have hwd : AllSpelled (Decl.listWords ds) := hw.of_subset Decl.words_subset_if.2
    obtain ⟨hae, hads, -⟩ := (Decl.admits_if hp).1 ha
    refine h.blames_advance fun ht => (blames_write_expr e hwe ht.describes hae).bind fun hn => ?_
    have hu := (effect_write_expr e hwe ht.describes).of_not_failed hn
    have hds : Writes (e.after c).enter ds := writes_enter (c := e.after c) hwd hp
    have hb : Blaming (e.after c).enter ds := fun hd =>
      blames_writeList ds (c := (e.after c).enter) hwd hp (fun _ => List.nodup_nil) hd hads
    refine blames_thenBlock (c := e.after c) hb hds hp hu.describes rfl rfl rfl fun hv => ?_
    exact blames_closeJump hv r _
  | ifElse e ds es =>
    have hwe : AllSpelled e.words := hw.of_subset Decl.words_subset_ifElse.1
    have hwd : AllSpelled (Decl.listWords ds) := hw.of_subset Decl.words_subset_ifElse.2.1
    have hws : AllSpelled (Decl.listWords es) := hw.of_subset Decl.words_subset_ifElse.2.2
    obtain ⟨hae, hads, -, haes, -⟩ := (Decl.admits_ifElse hp).1 ha
    have hds : Writes (e.after c).enter ds := writes_enter (c := e.after c) hwd hp
    have hb : Blaming (e.after c).enter ds := fun hd =>
      blames_writeList ds (c := (e.after c).enter) hwd hp (fun _ => List.nodup_nil) hd hads
    have hes : Writes ((e.after c).afterBlock ds).enter es := writes_enter (c := (e.after c).afterBlock ds) hws rfl
    have hbs : Blaming ((e.after c).afterBlock ds).enter es := fun hd =>
      blames_writeList es (c := ((e.after c).afterBlock ds).enter) hws rfl (fun _ => List.nodup_nil) hd haes
    refine h.blames_advance fun ht => (blames_write_expr e hwe ht.describes hae).bind fun hn => ?_
    have hu := (effect_write_expr e hwe ht.describes).of_not_failed hn
    refine blames_thenBlock (c := e.after c) hb hds hp hu.describes rfl rfl rfl fun hv => ?_
    refine hv.blames_advance fun hx => hx.describes.blames_advance fun hy => ?_
    refine (blames_writeBlock (c := (e.after c).afterBlock ds) hbs hes rfl hy.describes).bind fun hn => ?_
    have hz := (effect_writeBlock hes rfl hy.describes).of_not_failed hn
    exact blames_closeJump hz.describes r _
  | until_ e ds =>
    have hwe : AllSpelled e.words := hw.of_subset Decl.words_subset_until.1
    have hwd : AllSpelled (Decl.listWords ds) := hw.of_subset Decl.words_subset_until.2
    obtain ⟨hae, hads, -⟩ := (Decl.admits_until hp).1 ha
    refine h.blames_advance fun ht => (effect_codeSize ht.describes).blames trivial fun _ =>
      (blames_write_expr e hwe ht.describes hae).bind fun hn => ?_
    obtain ⟨ic, hu, -⟩ := (effect_write_expr e hwe ht.describes).of_not_failed hn
    have hds : Writes (e.after c).enter ds := writes_enter (c := e.after c) hwd hp
    have hb : Blaming (e.after c).enter ds := fun hd =>
      blames_writeList ds (c := (e.after c).enter) hwd hp (fun _ => List.nodup_nil) hd hads
    exact blames_until (c := e.after c) hb hds hp hu rfl
  | out value =>
    cases value with
    | none =>
      exact hsame fun ha =>
        (Decl.admitted_out_none (room_zero h)).2 ((Decl.admitted_out_none (room_zero h)).1 ha)
    | some e =>
      have hwe : AllSpelled e.words := hw.of_subset Decl.words_subset_out
      obtain ⟨hin, hae⟩ := (Decl.admitted_out_some hp).1 ha
      refine h.blames_advance fun ht => (effect_checkInFunction ht.describes).blames hin fun hsame => ?_
      have hu : Describes c (checkInFunction.run s.advance).2 := by
        rw [hsame]
        exact ht.describes
      refine (blames_write_expr e hwe hu hae).last fun hn => ?_
      have hv := (effect_write_expr e hwe hu).of_not_failed hn
      exact hv.describes.blames_advance fun hw => (effect_emit hw.describes rfl).blames_nil trivial
  | block mark ds =>
    have hwd : AllSpelled (Decl.listWords ds) := hw.of_subset Decl.words_subset_block
    have hds : Writes c.enter ds := writes_enter hwd hp
    have hb : Blaming c.enter ds := fun hd =>
      blames_writeList ds (c := c.enter) hwd hp (fun _ => List.nodup_nil) hd (Decl.admitted_block.1 ha)
    exact h.blames_advance fun ht => blames_writeBlock hb hds hp ht.describes
  | var x initial =>
    cases initial with
    | none => exact hsame fun ha => (Decl.admitted_var_none h.live_le).2 ((Decl.admitted_var_none h.live_le).1 ha)
    | some e =>
      have hwe : AllSpelled e.words := hw.of_subset Decl.words_subset_var
      obtain ⟨hname, hae⟩ := (Decl.admitted_var_some h.live_le).1 ha
      refine h.blames_advance fun ht => (effect_writeNewName ht.describes hp x).blames hname fun ⟨hu, hi⟩ =>
        hu.describes.blames_advance fun hv => (blames_write_expr e hwe hv.describes hae).last fun hn => ?_
      obtain ⟨ie, hw, -⟩ := (effect_write_expr e hwe hv.describes).of_not_failed hn
      exact (effect_settleVariable hw.describes (effect_bringInScope hw.describes (x := x) rfl) fun hl =>
        (hi hl).mono (hv.wrote.pool.trans hw.wrote.pool)).blames_nil trivial
  | fun_ x xs ds =>
    have hwd : AllSpelled (Decl.listWords ds) := hw.of_subset Decl.words_subset_fun
    obtain ⟨hname, hxs, hads, hroom⟩ := (Decl.admitted_fun h.live_le).1 ha
    have hnodup : (c.inside xs).scope.isLocal = true → (c.inside xs).scope.inner.Nodup := fun _ =>
      List.nodup_reverse.2 hxs.1
    rw [Decl.jumps, Decl.writeOpening, run_advance_bind, run_bind, run_bind, run_bind, run_pure]
    refine h.blames_advance fun ht => (effect_writeNewName ht.describes hp x).blames hname fun ⟨hu, _⟩ =>
      (effect_bringInScope hu.describes (x := x) rfl).blames trivial fun hv => ?_
    rw [Decl.writeFunction, run_assoc]
    refine (effect_writeHead hv.describes x xs).blames hxs fun ⟨_, hb⟩ => ?_
    rw [run_assoc]
    refine (blames_writeList ds hwd (c := c.inside xs) rfl hnodup hb.describes hads).last fun hn => ?_
    have hlist := (effect_writeList ds hwd (c := c.inside xs) rfl hnodup hb.describes).succeeds.1 hn
    -- the body is written without a mistake, so the function as a whole is
    have hend := hsame fun _ => (Decl.admitted_fun h.live_le).2 ⟨hname, hxs, hlist, hroom⟩
    rw [Decl.write, run_advance_bind, run_bind, run_bind, Decl.writeFunction, run_assoc, run_bind, run_assoc,
      run_bind] at hend
    exact hend

theorem blames_writeList (ds : List Decl) (hw : AllSpelled (Decl.listWords ds)) {c : Context} {s : State}
    (hp : c.pending = none) (hn : c.scope.isLocal = true → c.scope.inner.Nodup) (h : Describes c s)
    (ha : Decl.ListAdmitted c ds False) {r : FunctionRef} :
    Blames (Decl.listJumps r c.functions s ds) ((Decl.writeList ds).run s).2 := by
  cases ds with
  | nil => exact h.blames
  | cons d ds =>
    have hwd : AllSpelled d.words := hw.of_subset Decl.words_subset_list.1
    have hws : AllSpelled (Decl.listWords ds) := hw.of_subset Decl.words_subset_list.2
    obtain ⟨had, has⟩ := Decl.listAdmitted_cons.1 ha
    refine (blames_write d hwd hp h had).bind fun hf => ?_
    have hd := effect_write d hwd hp h
    have ht := hd.of_not_failed hf
    exact blames_writeList ds hws (c := d.after c) rfl ((hd.succeeds.1 hf).nodup_after hn) ht.describes has

end

/-! ### Programs -/

/-- The jumps that are closed while a program is compiled. -/
def programJumps (source : TokenStream) (store : Store) (printCode : Bool) (ds : List Decl) : List Jump :=
  Decl.listJumps ⟨store.functions.size + Decl.listFunctionCount ds⟩ store.functions.size
    (State.start source store printCode).advance ds

theorem blames_writeProgram {source : TokenStream} (store : Store) (printCode : Bool) (hf : source.IsFaultless)
    (hw : AllSpelled (Decl.listWords ds)) (hl : IsLegalButJumps ds) :
    Blames (programJumps source store printCode ds) ((Decl.writeProgram ds).run (.start source store printCode)).2 := by
  have hnodup : Scope.script.isLocal = true → Scope.script.inner.Nodup := fun _ => List.nodup_singleton _
  have hstart : Describes { scope := .script, functions := store.functions.size } (.start source store printCode) :=
    describes_start hf
  refine hstart.blames_advance fun hs => ?_
  refine (blames_writeList ds hw rfl hnodup hs.describes ((listAdmitted_judged store ds).2
    ⟨hl.judged, hl.fewScriptConstants⟩)).last fun hn => ?_
  have hlegal := (listAdmitted_script store ds).1 ((effect_writeList ds hw rfl hnodup hs.describes).succeeds.1 hn)
  have hend := (effect_writeProgram store printCode hf hw).blames_nil hlegal
  rw [Decl.writeProgram, run_advance_bind, run_bind] at hend
  exact hend

end Compiler

variable {source : String} {store : Store} {printCode : Bool} {ds : List Decl}

/-- A program that breaks no other rule is accepted exactly if none of its jumps goes too far, and otherwise the first
that does is the first mistake. -/
theorem compile_of_legalButJumps (hfault : (TokenStream.ofSource source).IsFaultless)
    (hwords : (TokenStream.ofSource source).words = Decl.listWords ds) (hp : IsProgram ds) (hl : IsLegalButJumps ds) :
    ((∃ es, (compile source store printCode).result = .error es) ↔
      ∃ j ∈ Compiler.programJumps (TokenStream.ofSource source) store printCode ds, j.IsFar) ∧
    ∀ j, (Compiler.programJumps (TokenStream.ofSource source) store printCode ds).find? (·.IsFar) = some j →
      ∃ es, (compile source store printCode).result = .error (j.error :: es) := by
  have hrun : Compiler.UpToMistake
      ((Compiler.wholeScript (TokenStream.ofSource source).lexemes.length).run
        (.start (.ofSource source) store printCode))
      ((Decl.writeProgram ds).run (.start (.ofSource source) store printCode)) :=
    Compiler.follows_wholeScript (kind_ne_eof source) hfault hwords hp
  have hblames := Compiler.blames_writeProgram store printCode hfault (hwords ▸ allSpelled_words source) hl
  have hfirst := hrun.first.trans hblames
  have herror : ∀ {j}, (Compiler.programJumps (TokenStream.ofSource source) store printCode ds).find?
    (·.IsFar) = some j →
      ∃ es, (compile source store printCode).result = .error (j.error :: es) := by
    intro j hj
    rw [hj, Option.map_some, ← Array.getElem?_toList, ← List.head?_eq_getElem?] at hfirst
    obtain ⟨es, hes⟩ := List.head?_eq_some_iff.1 hfirst
    exact ⟨es, result_eq_error.2 ⟨fun hempty => by simp [hempty] at hes, hes⟩⟩
  refine ⟨⟨fun ⟨es, hes⟩ => ?_, fun ⟨j, hj, hfar⟩ => ?_⟩, fun j => herror⟩
  · by_contra hnone
    have hnear := hblames.not_failed.2 fun j hj hfar => hnone ⟨j, hj, hfar⟩
    exact hnear (hrun.failed_iff.1 (result_eq_error.1 hes).1)
  · have hsome : ((Compiler.programJumps (TokenStream.ofSource source) store printCode ds).find? (·.IsFar)).isSome :=
      List.find?_isSome.2 ⟨j, hj, by simpa using hfar⟩
    obtain ⟨first, hfirst⟩ := Option.isSome_iff_exists.1 hsome
    obtain ⟨es, hes⟩ := herror hfirst
    exact ⟨_, hes⟩

end StackScript
