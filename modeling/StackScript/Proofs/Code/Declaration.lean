import StackScript.Proofs.Code.Function

/-! Writing declarations and statements makes no mistake exactly if what is asked of them holds, and then
their code has been written. -/
namespace StackScript
namespace Compiler
set_option synthInstance.maxSize 4096
variable {c : Context} {s : State}

/-- The effect of writing declarations. -/
def Writes (c : Context) (ds : List Decl) : Prop :=
  ∀ {s : State}, Describes c s → Effect (Decl.ListAdmitted c ds) (Decl.writeList ds) s fun _ t =>
    Yields (Decl.listAfter c ds) (fun κ is => Decl.ListCode κ c.scope c.functions ds is) s t

/-! ### Blocks -/

/-- The code of a block. -/
def BlockCode (c : Context) (ds : List Decl) (κ : Pool) (is : List Instr) : Prop :=
  ∃ ib, Decl.ListCode κ c.scope.enter c.functions ds ib ∧
    is = ib ++ Decl.pops (Decl.listDeclared ds).length

theorem BlockCode.mono {ds : List Decl} {κ κ' : Pool} {is : List Instr} (hk : κ.Extends κ')
    (h : BlockCode c ds κ is) : BlockCode c ds κ' is := h.imp fun _ ⟨hb, he⟩ => ⟨hb.mono hk, he⟩

theorem BlockCode.size {ds : List Decl} {κ : Pool} {is : List Instr} (h : BlockCode c ds κ is) :
    codeLength is = Decl.blockSize ds := by
  obtain ⟨ib, hb, rfl⟩ := h
  rw [codeLength_append, hb.size, Decl.codeLength_pops, Decl.blockSize, Scope.isLocal_enter]

theorem effect_writeBlock {ds : List Decl} (hds : Writes c.enter ds) (hp : c.pending = none)
    (h : Describes c s) :
    Effect (Decl.ListAdmitted c.enter ds) (Decl.writeBlock (Decl.writeList ds)) s fun _ t =>
      Yields (c.afterBlock ds) (BlockCode c ds) s t := by
  refine (effect_enterScope h hp).andThen fun _ t ht => (hds ht.describes).bindTrue
    fun _ u ⟨is, hu, hcode⟩ => (effect_advance hu.describes).andThen fun _ v hv =>
      (effect_leaveScope hv.describes (Decl.listDeclared ds).reverse (σ := c.scope) rfl ?_).mono
        fun _ w _ hw => ?_
  · exact c.scope.afterAll_enter ds
  · have hend := ht.trans (hu.trans (hv.trans hw))
    rw [List.length_reverse] at hend
    exact ⟨_, hend, is, hcode.mono (hv.wrote.pool.trans hw.wrote.pool), rfl⟩

/-! ### Conditions and loops -/

/-- A block that is skipped if the value on the stack is falsy, and a jump over what stands in for it. -/
theorem effect_thenBlock {ds : List Decl} (hds : Writes c.enter ds) (hp : c.pending = none)
    (h : Describes c s) {k : Nat → Action Unit} [∀ n, Enduring (k n)] {P : Prop} {R : Unit → State → Prop}
    (hk : ∀ {t is pre}, BlockCode c ds t.pool is →
      pre = ⟨.jumpIfFalse, Decl.blockSize ds + 4⟩ :: ⟨.pop, 0⟩ :: is →
      Emits (c.afterBlock ds) (pre ++ [⟨.jump, maxDistance⟩, ⟨.pop, 0⟩]) s t →
      Effect P (k (s.draft.bytecode.size + codeLength pre + 1)) t R) :
    Effect (Decl.ListAdmitted c.enter ds ∧ Decl.blockSize ds + 4 ≤ maxDistance ∧ P)
      (openJump .jumpIfFalse >>= fun thenJump => emit .pop >>= fun _ => advance >>= fun _ =>
        Decl.writeBlock (Decl.writeList ds) >>= fun _ => openJump .jump >>= fun elseJump =>
          closeJump thenJump >>= fun _ => emit .pop >>= fun _ => k elseJump) s R := by
  refine (effect_openJump h rfl).andThen ?_
  rintro _ t ⟨rfl, ht⟩
  refine (effect_emit ht.describes rfl).andThen fun _ u hu => (effect_advance hu.describes).andThen
    fun _ v hv => (effect_writeBlock hds hp hv.describes).bind fun _ w ⟨is, hw, hcode⟩ => ?_
  have hwrote := ht.trans (hu.trans (hv.trans hw))
  refine (effect_openJump hw.describes rfl).andThen ?_
  rintro _ x ⟨rfl, hx⟩
  have hjump := hwrote.trans hx
  simp only [List.cons_append, List.nil_append] at hjump
  have hlen : codeLength (⟨.pop, 0⟩ :: (is ++ [⟨.jump, maxDistance⟩])) = Decl.blockSize ds + 4 := by
    simp [hcode.size, Instr.size, Opcode.width]
    omega
  have hclose := effect_closeJump [] (s.draft.bytecode.size + 1) rfl hjump rfl
  rw [hlen] at hclose
  refine hclose.bind fun _ y ⟨hy, hpool⟩ => (effect_emit hy.describes rfl).andThen fun _ z hz => ?_
  have hxpool := hx.wrote.pool
  rw [← hpool] at hxpool
  have hoffset : w.draft.bytecode.size + 1 = s.draft.bytecode.size +
      codeLength (⟨.jumpIfFalse, Decl.blockSize ds + 4⟩ :: ⟨.pop, 0⟩ :: is) + 1 := by
    rw [hwrote.wrote.size]
    simp [Instr.size]
  rw [hoffset]
  refine hk (hcode.mono (hxpool.trans hz.wrote.pool)) rfl ?_
  simpa using hy.trans hz

theorem effect_if {ds : List Decl} (hds : Writes c.enter ds) (hp : c.pending = none)
    (h : Describes c s) :
    Effect (Decl.ListAdmitted c.enter ds ∧ Decl.blockSize ds + 4 ≤ maxDistance)
      (openJump .jumpIfFalse >>= fun thenJump => emit .pop >>= fun _ => advance >>= fun _ =>
        Decl.writeBlock (Decl.writeList ds) >>= fun _ => openJump .jump >>= fun elseJump =>
          closeJump thenJump >>= fun _ => emit .pop >>= fun _ => closeJump elseJump) s fun _ t =>
      Yields (c.afterBlock ds) (fun κ is => ∃ ib, BlockCode c ds κ ib ∧
        is = ⟨.jumpIfFalse, Decl.blockSize ds + 4⟩ :: ⟨.pop, 0⟩ :: (ib ++ [⟨.jump, 1⟩, ⟨.pop, 0⟩])) s t := by
  refine (effect_thenBlock (P := True) hds hp h fun {t is pre} hcode hpre ht => ?_).congr
    (by rw [and_true])
  refine ((effect_closeJump _ _ rfl ht rfl).mono fun _ u _ ⟨hu, hpool⟩ => ?_).congr
    (iff_of_true (by decide) trivial)
  rw [hpre] at hu
  exact ⟨_, hu, is, hpool ▸ hcode, rfl⟩

theorem effect_ifElse {ds es : List Decl} (hds : Writes c.enter ds)
    (hes : Writes (c.afterBlock ds).enter es) (hp : c.pending = none) (h : Describes c s) :
    Effect (Decl.ListAdmitted c.enter ds ∧ Decl.blockSize ds + 4 ≤ maxDistance ∧
        Decl.ListAdmitted (c.afterBlock ds).enter es ∧ Decl.blockSize es + 1 ≤ maxDistance)
      (openJump .jumpIfFalse >>= fun thenJump => emit .pop >>= fun _ => advance >>= fun _ =>
        Decl.writeBlock (Decl.writeList ds) >>= fun _ => openJump .jump >>= fun elseJump =>
          closeJump thenJump >>= fun _ => emit .pop >>= fun _ => advance >>= fun _ => advance >>=
            fun _ => Decl.writeBlock (Decl.writeList es) >>= fun _ => closeJump elseJump) s fun _ t =>
      Yields ((c.afterBlock ds).afterBlock es) (fun κ is => ∃ ib ia, BlockCode c ds κ ib ∧
        BlockCode (c.afterBlock ds) es κ ia ∧
        is = ⟨.jumpIfFalse, Decl.blockSize ds + 4⟩ :: ⟨.pop, 0⟩ ::
          (ib ++ ⟨.jump, Decl.blockSize es + 1⟩ :: ⟨.pop, 0⟩ :: ia)) s t := by
  refine effect_thenBlock hds hp h fun {t is pre} hcode hpre ht => ?_
  refine (effect_advance ht.describes).andThen fun _ u hu => (effect_advance hu.describes).andThen
    fun _ v hv => (effect_writeBlock hes rfl hv.describes).bind fun _ w ⟨ia, hw, hcode'⟩ => ?_
  have hall := ht.trans (hu.trans (hv.trans hw))
  simp only [List.append_assoc, List.cons_append, List.nil_append] at hall
  have hlen : codeLength (⟨.pop, 0⟩ :: ia) = Decl.blockSize es + 1 := by
    rw [codeLength_cons, hcode'.size, Nat.add_comm]
    rfl
  have hclose := effect_closeJump _ _ rfl hall rfl
  rw [hlen] at hclose
  refine hclose.mono fun _ x _ ⟨hx, hpool⟩ => ?_
  have hwpool := hu.wrote.pool.trans (hv.wrote.pool.trans hw.wrote.pool)
  rw [hpre] at hx
  rw [← hpool] at hwpool hcode'
  exact ⟨_, hx, is, ia, hcode.mono hwpool, hcode', rfl⟩

/-- A block that is run until the value of a condition is truthy. -/
theorem effect_until {ds : List Decl} {ic : List Instr} {t : State}
    (hds : Writes c.enter ds) (hp : c.pending = none) (h : Emits c ic s t) :
    Effect (Decl.ListAdmitted c.enter ds ∧ codeLength ic + Decl.blockSize ds + 7 ≤ maxDistance)
      (openJump .jumpIfTrue >>= fun exit => emit .pop >>= fun _ => advance >>= fun _ =>
        Decl.writeBlock (Decl.writeList ds) >>= fun _ => emitBackJump s.draft.bytecode.size >>=
          fun _ => closeJump exit >>= fun _ => emit .pop) t fun _ u =>
      ∃ ib, Emits (c.afterBlock ds) (ic ++ ⟨.jumpIfTrue, Decl.blockSize ds + 4⟩ :: ⟨.pop, 0⟩ ::
        (ib ++ [⟨.loop, codeLength ic + Decl.blockSize ds + 7⟩, ⟨.pop, 0⟩])) s u ∧
        BlockCode c ds u.pool ib ∧ t.pool.Extends u.pool := by
  have hiff : Decl.ListAdmitted c.enter ds ∧ codeLength ic + Decl.blockSize ds + 7 ≤ maxDistance ∧
      Decl.blockSize ds + 4 ≤ maxDistance ↔
        Decl.ListAdmitted c.enter ds ∧ codeLength ic + Decl.blockSize ds + 7 ≤ maxDistance :=
    and_congr_right fun _ => and_iff_left_of_imp fun hle => by omega
  refine Effect.congr ?_ hiff
  refine (effect_openJump h.describes rfl).andThen ?_
  rintro _ u ⟨rfl, hu⟩
  refine (effect_emit hu.describes rfl).andThen fun _ v hv => (effect_advance hv.describes).andThen
    fun _ w hw => (effect_writeBlock hds hp hw.describes).bind fun _ x ⟨ib, hx, hcode⟩ => ?_
  have hall := h.trans (hu.trans (hv.trans (hw.trans hx)))
  simp only [List.cons_append, List.nil_append] at hall
  have hlen : codeLength (ic ++ ⟨.jumpIfTrue, maxDistance⟩ :: ⟨.pop, 0⟩ :: ib) + 3 =
      codeLength ic + Decl.blockSize ds + 7 := by
    simp [hcode.size, Instr.size, Opcode.width]
    omega
  have hback := effect_emitBackJump hall
  rw [hlen] at hback
  refine hback.bind fun _ y hy => ?_
  have hall' := hall.trans hy
  simp only [List.append_assoc, List.cons_append] at hall'
  have hlen' : codeLength (⟨.pop, 0⟩ :: (ib ++ [⟨.loop, codeLength ic + Decl.blockSize ds + 7⟩])) =
      Decl.blockSize ds + 4 := by
    simp [hcode.size, Instr.size, Opcode.width]
    omega
  have hclose := effect_closeJump _ (t.draft.bytecode.size + 1) rfl hall' (by rw [h.wrote.size])
  rw [hlen'] at hclose
  refine hclose.bindTrue fun _ z ⟨hz, hpool⟩ => (effect_emit hz.describes rfl).mono fun _ z' _ hz' => ?_
  have hypool := hy.wrote.pool
  rw [← hpool] at hypool
  have hend := hypool.trans hz'.wrote.pool
  refine ⟨ib, by simpa using hz.trans hz', hcode.mono hend, ?_⟩
  exact hu.wrote.pool.trans (hv.wrote.pool.trans (hw.wrote.pool.trans (hx.wrote.pool.trans hend)))

/-! ### Statements -/

theorem effect_writeItems (es : List Expr) (hw : AllSpelled (itemWords es)) (h : Describes c s) :
    Effect (Expr.AllAdmitted c es) (Expr.writeItems es) s fun _ t =>
      Yields (Expr.allAfter c es) (fun κ is => Expr.ItemsCode κ c.scope.names es is) s t := by
  induction es generalizing c s with
  | nil =>
    have hafter : Expr.allAfter c [] = c := c.add_zero
    rw [hafter]
    exact (Effect.pure h.not_failed ⟨[], ⟨h, .refl s⟩, rfl⟩).congr
      (iff_of_true trivial (Expr.allAdmitted_nil (room_zero h)))
  | cons e es ih =>
    refine Effect.congr ?_ Expr.allAdmitted_cons.symm
    refine (effect_advance h).andThen fun _ t ht =>
      (effect_write_expr e (hw.of_subset words_subset_items.1) ht.describes).bind
        fun _ u ⟨ie, hu, he⟩ => (effect_emit hu.describes rfl).andThen fun _ v hv =>
          (ih (hw.of_subset words_subset_items.2) hv.describes).mono
            fun _ w _ ⟨js, hw, hs⟩ => ?_
    have hend := ht.trans (hu.trans (hv.trans hw))
    rw [Expr.after, Expr.allAfter_add] at hend
    exact ⟨_, hend, ie, js, he.mono (hv.wrote.pool.trans hw.wrote.pool), hs, rfl⟩

theorem effect_checkInFunction (h : Describes c s) :
    Effect (c.scope.inFunction = true) checkInFunction s fun _ t => t = s := by
  have hs := h.isScript
  cases hf : c.scope.inFunction with
  | true =>
    rw [hf] at hs
    refine (Effect.of_run (x := ()) ?_ h.not_failed rfl).congr (iff_of_true trivial rfl)
    simp only [checkInFunction, run_bind, run_get, hs, Bool.not_true, Bool.false_eq_true, if_false, run_pure]
  | false =>
    rw [hf] at hs
    have hfail : Failed ((mistake .outOutsideFunction).run s).2 := failed_mistake (.inl h.ready) _
    refine ⟨iff_of_false (fun hn => hn ?_) Bool.false_ne_true, fun k => absurd k Bool.false_ne_true⟩
    simp only [checkInFunction, run_bind, run_get, hs, Bool.not_false, if_true]
    exact hfail

theorem effect_codeSize (h : Describes c s) :
    Effect True codeSize s fun n t => n = s.draft.bytecode.size ∧ t = s :=
  .of_run (run_codeSize s) h.not_failed ⟨rfl, rfl⟩

mutual

theorem effect_write (d : Decl) (hw : AllSpelled d.words) {c : Context} {s : State} (hp : c.pending = none)
    (h : Describes c s) :
    Effect (d.Admitted c) d.write s fun _ t =>
      Yields (d.after c) (fun κ is => d.Code κ c.scope c.functions is) s t := by
  have hc : ∀ n : Needs, c.add n = ⟨c.scope, none, c.needs + n, c.functions⟩ := fun n => by
    rw [Context.add, ← hp]
  cases d with
  | expression e =>
    refine Effect.congr ?_ (Decl.admitted_expression hp).symm
    refine (effect_write_expr e hw h).bindTrue fun _ t ⟨ie, ht, he⟩ =>
      (effect_emit ht.describes rfl).mono fun _ u _ hu => ?_
    rw [Expr.after, hc] at hu
    exact ⟨_, ht.trans hu, ie, he.mono hu.wrote.pool, rfl⟩
  | print e es =>
    refine Effect.congr ?_ (Decl.admitted_print hp).symm
    refine (effect_advance h).andThen fun _ t ht =>
      (effect_write_expr e (hw.of_subset Decl.words_subset_print.1) ht.describes).bind fun _ u ⟨ie, hu, he⟩ =>
        (effect_emit hu.describes rfl).andThen fun _ v hv =>
          (effect_writeItems es (hw.of_subset Decl.words_subset_print.2) hv.describes).bindTrue
            fun _ w ⟨js, hw, hs⟩ => (effect_advance hw.describes).mono fun _ x _ hx => ?_
    have hend := ht.trans (hu.trans (hv.trans (hw.trans hx)))
    rw [Expr.after, Expr.allAfter_add, List.append_nil, hc] at hend
    exact ⟨_, hend, ie, js, he.mono (hv.wrote.pool.trans (hw.wrote.pool.trans hx.wrote.pool)),
      hs.mono hx.wrote.pool, rfl⟩
  | read form x =>
    refine Effect.congr ?_ (Decl.admitted_read hp).symm
    refine (effect_advance h).andThen fun _ t ht => (effect_advance ht.describes).andThen fun _ t' ht' =>
      (effect_emit ht'.describes (by cases form <;> rfl)).andThen fun _ u hu =>
        (effect_advance hu.describes).andThen fun _ u' hu' => (effect_accessTo hu'.describes x).bindTrue
          fun a v ⟨hv, q, hq⟩ => (effect_emitWith hv.describes hq.width.2 a.operand).andThen fun _ w hw =>
            (effect_emit hw.describes rfl).andThen fun _ x hx => (effect_advance hx.describes).mono
              fun _ y _ hy => ?_
    have hend := ht.trans (ht'.trans (hu.trans (hu'.trans (hv.trans (hw.trans (hx.trans hy))))))
    rw [hc, ← hq.set] at hend
    exact ⟨_, hend, q, hq.finds.mono (hw.wrote.pool.trans (hx.wrote.pool.trans hy.wrote.pool)), rfl⟩
  | if_ e ds =>
    have hds : Writes (e.after c).enter ds := effect_writeList ds (c := (e.after c).enter)
      (hw.of_subset Decl.words_subset_if.2) hp fun _ => List.nodup_nil
    refine Effect.congr ?_ (Decl.admitted_if hp).symm
    refine (effect_advance h).andThen fun _ t ht =>
      (effect_write_expr e (hw.of_subset Decl.words_subset_if.1) ht.describes).bind fun _ u ⟨ic, hu, he⟩ =>
        (effect_if hds hp hu.describes).mono fun _ v _ ⟨is, hv, _, ⟨ib, hb, rfl⟩, his⟩ => ?_
    rw [Decl.after_if]
    refine ⟨_, ht.trans (hu.trans hv), ic, ib, he.mono hv.wrote.pool, hb, ?_⟩
    rw [his]
    rfl
  | ifElse e ds es =>
    have hds : Writes (e.after c).enter ds := effect_writeList ds (c := (e.after c).enter)
      (hw.of_subset Decl.words_subset_ifElse.2.1) hp fun _ => List.nodup_nil
    have hes : Writes ((e.after c).afterBlock ds).enter es := effect_writeList es
      (c := ((e.after c).afterBlock ds).enter)
      (hw.of_subset Decl.words_subset_ifElse.2.2) rfl fun _ => List.nodup_nil
    refine Effect.congr ?_ (Decl.admitted_ifElse hp).symm
    refine (effect_advance h).andThen fun _ t ht =>
      (effect_write_expr e (hw.of_subset Decl.words_subset_ifElse.1) ht.describes).bind
        fun _ u ⟨ic, hu, he⟩ => (effect_ifElse hds hes hp hu.describes).mono
          fun _ v _ ⟨is, hv, _, _, ⟨ib, hb, rfl⟩, ⟨ia, ha, rfl⟩, his⟩ => ?_
    rw [Decl.after_ifElse]
    refine ⟨_, ht.trans (hu.trans hv), ic, ib, ia, he.mono hv.wrote.pool, hb, ha, ?_⟩
    rw [his]
    rfl
  | until_ e ds =>
    have hds : Writes (e.after c).enter ds := effect_writeList ds (c := (e.after c).enter)
      (hw.of_subset Decl.words_subset_until.2) hp fun _ => List.nodup_nil
    refine Effect.congr ?_ (Decl.admitted_until hp).symm
    refine (effect_advance h).andThen fun _ t ht => (effect_codeSize ht.describes).andThen ?_
    rintro _ _ ⟨rfl, rfl⟩
    refine (effect_write_expr e (hw.of_subset Decl.words_subset_until.1) ht.describes).bind
      fun _ u ⟨ic, hu, he⟩ => ?_
    have huntil := effect_until hds hp hu
    rw [he.size] at huntil
    refine huntil.mono fun _ v _ ⟨_, hv, ⟨ib, hb, hib⟩, hpool⟩ => ?_
    rw [hib] at hv
    rw [Decl.after_until]
    exact ⟨_, ht.trans hv, ic, ib, he.mono hpool, hb, rfl⟩
  | out value =>
    cases value with
    | none =>
      refine Effect.congr ?_ (Decl.admitted_out_none (room_zero h)).symm
      refine (effect_advance h).andThen fun _ t ht => (effect_checkInFunction ht.describes).bindTrue ?_
      rintro _ _ rfl
      refine (effect_advance ht.describes).andThen fun _ u hu => (effect_emitReturn hu.describes).mono
        fun _ v _ ⟨hv, _⟩ => ?_
      rw [Decl.after_out_none hp]
      exact ⟨_, ht.trans (hu.trans hv), rfl⟩
    | some e =>
      refine Effect.congr ?_ (Decl.admitted_out_some hp).symm
      refine (effect_advance h).andThen fun _ t ht => (effect_checkInFunction ht.describes).bind ?_
      rintro _ _ rfl
      refine (effect_write_expr e (hw.of_subset Decl.words_subset_out) ht.describes).bindTrue
        fun _ u ⟨ie, hu, he⟩ => (effect_advance hu.describes).andThen fun _ v hv =>
          (effect_emit hv.describes rfl).mono fun _ w _ hw => ?_
      have hend := ht.trans (hu.trans (hv.trans hw))
      rw [Expr.after, hc] at hend
      exact ⟨_, hend, ie, he.mono (hv.wrote.pool.trans hw.wrote.pool), rfl⟩
  | block mark ds =>
    have hds : Writes c.enter ds := effect_writeList ds (c := c.enter)
      (hw.of_subset Decl.words_subset_block) hp fun _ => List.nodup_nil
    refine Effect.congr ?_ Decl.admitted_block.symm
    exact (effect_advance h).andThen fun _ t ht => (effect_writeBlock hds hp ht.describes).mono
      fun _ u _ ⟨is, hu, hb⟩ => ⟨is, ht.trans hu, hb⟩
  | var x initial =>
    cases initial with
    | none =>
      refine Effect.congr ?_ (Decl.admitted_var_none h.live_le).symm
      refine (effect_advance h).andThen fun _ t ht => (effect_writeNewName ht.describes hp x).bindTrue
        fun i u ⟨hu, hi⟩ => (effect_emit hu.describes rfl).andThen fun _ v hv =>
          (effect_settleVariable hv.describes (effect_bringInScope hv.describes (x := x) rfl) fun hl =>
            (hi hl).mono hv.wrote.pool).mono fun _ w _ ⟨js, hw, hj⟩ => ?_
      exact ⟨_, ht.trans (hu.trans (hv.trans hw)), js, hj, rfl⟩
    | some e =>
      refine Effect.congr ?_ (Decl.admitted_var_some h.live_le).symm
      refine (effect_advance h).andThen fun _ t ht => (effect_writeNewName ht.describes hp x).bind
        fun i u ⟨hu, hi⟩ => (effect_advance hu.describes).andThen fun _ u' hu' =>
          (effect_write_expr e (hw.of_subset Decl.words_subset_var)
            hu'.describes).bindTrue fun _ v ⟨ie, hv, he⟩ =>
              (effect_settleVariable hv.describes (effect_bringInScope hv.describes (x := x) rfl) fun hl =>
                (hi hl).mono (hu'.wrote.pool.trans hv.wrote.pool)).mono fun _ w _ ⟨js, hw, hj⟩ => ?_
      have hend := ht.trans (hu.trans (hu'.trans (hv.trans hw)))
      rw [Expr.after_add] at hend
      exact ⟨_, hend, ie, js, he.mono hw.wrote.pool, hj, rfl⟩
  | fun_ x xs ds =>
    have hds : xs.Nodup → Writes (c.inside xs) ds := fun hn => effect_writeList ds (c := c.inside xs)
      (hw.of_subset Decl.words_subset_fun) rfl fun _ =>
        List.nodup_reverse.2 hn
    refine Effect.congr ?_ (Decl.admitted_fun h.live_le).symm
    refine (effect_advance h).andThen fun _ t ht => (effect_writeNewName ht.describes hp x).bind
      fun i u ⟨hu, hi⟩ => (effect_bringInScope hu.describes (x := x) rfl).andThen fun _ v hv =>
        (effect_writeFunction hv.describes (d := Decl.listAfter (c.inside xs) ds) rfl
          fun hn hd => hds hn hd).bindTrue
          fun _ w ⟨is, hw, k, f, ib, hk, hf, hcompiles, hb, his⟩ => ?_
    have hagain := effect_bringInScope_again hw.describes (σ := c.scope) (x := x) rfl rfl
    refine (effect_settleVariable (x := x) hw.describes hagain fun hl => ?_).mono fun _ z _ ⟨js, hz, hj⟩ => ?_
    · refine (hi ?_).mono (hv.wrote.pool.trans hw.wrote.pool)
      rw [← c.scope.isLocal_declare x]
      exact hl
    · have hzs := hz.wrote.pool
      have hend := ht.trans (hu.trans (hv.trans (hw.trans hz)))
      rw [his] at hend
      rw [Decl.after_fun]
      refine ⟨_, hend, k, f, ib, js, hzs.constants hk, hzs.store.function hf, hcompiles.mono hzs.store,
        hb.mono (.of_store _ hzs.store), ?_, rfl⟩
      rwa [← c.scope.isLocal_declare x]

theorem effect_writeList (ds : List Decl) (hw : AllSpelled (Decl.listWords ds)) {c : Context}
    (hp : c.pending = none) (hn : c.scope.isLocal = true → c.scope.inner.Nodup) {s : State}
    (h : Describes c s) :
    Effect (Decl.ListAdmitted c ds) (Decl.writeList ds) s fun _ t =>
      Yields (Decl.listAfter c ds) (fun κ is => Decl.ListCode κ c.scope c.functions ds is) s t := by
  cases ds with
  | nil =>
    have hafter : Decl.listAfter c [] = c := by
      rw [Decl.listAfter, Decl.listNeeds, Needs.add_zero, ← hp]
      rfl
    rw [hafter]
    exact (Effect.pure h.not_failed ⟨[], ⟨h, .refl s⟩, rfl⟩).congr
      (iff_of_true trivial ⟨trivial, hn, room_zero h⟩)
  | cons d ds =>
    refine Effect.congr ?_ Decl.listAdmitted_cons.symm
    refine ((effect_write d (hw.of_subset Decl.words_subset_list.1) hp h).mono
      fun _ _ ha hq => And.intro ha hq).bind fun _ t ⟨ha, id, ht, hd⟩ => ?_
    refine (effect_writeList ds (c := d.after c) (hw.of_subset Decl.words_subset_list.2) rfl
      (ha.nodup_after hn) ht.describes).mono fun _ u _ ⟨js, hu, hs⟩ => ?_
    rw [Decl.listAfter_cons] at hu
    exact ⟨_, ht.trans hu, id, js, hd.mono hu.wrote.pool, hs, rfl⟩

end

theorem writes_enter {ds : List Decl} (hw : AllSpelled (Decl.listWords ds)) (hp : c.pending = none) :
    Writes c.enter ds :=
  effect_writeList ds (c := c.enter) hw hp fun _ => List.nodup_nil

end Compiler
end StackScript
