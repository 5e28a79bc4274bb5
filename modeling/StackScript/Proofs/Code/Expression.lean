import StackScript.Proofs.Code.Variables
import StackScript.Proofs.Scanning.Spelling
import StackScript.Proofs.Syntax.Limits

/-! Writing an expression makes no mistake exactly if the conditions of the language hold in it, and then
its code has been written. -/
namespace StackScript
namespace Compiler

/-- What is asked of an expression: conditions of the language in it, that it does not mention a variable
that it initializes, and room for its constants. -/
def Context.Admits (c : Context) (everywhere : Prop) (mentions : List String) (n : Needs) : Prop :=
  everywhere ∧ (∀ x, c.pending = some x → x ∉ mentions) ∧ c.Room n

theorem Context.admits_append {c : Context} {p q : Prop} {ms ms' : List String} {n n' : Needs} :
    c.Admits p ms n ∧ (c.add n).Admits q ms' n' ↔ c.Admits (p ∧ q) (ms ++ ms') (n + n') := by
  rw [Admits, Admits, Admits, ← room_add]
  simp only [pending_add, List.mem_append, not_or]
  constructor
  · rintro ⟨⟨hp, hm, hn⟩, hq, hm', hn'⟩
    exact ⟨⟨hp, hq⟩, fun x hx => ⟨hm x hx, hm' x hx⟩, hn, hn'⟩
  · rintro ⟨⟨hp, hq⟩, hm, hn, hn'⟩
    exact ⟨⟨hp, fun x hx => (hm x hx).1, hn⟩, hq, fun x hx => (hm x hx).2, hn'⟩

theorem Context.admits_congr {c : Context} {p q : Prop} {ms : List String} {n : Needs} (h : p ↔ q) :
    c.Admits p ms n ↔ c.Admits q ms n := and_congr_left fun _ => h

/-- A name can be used unless it is that of a variable that is being initialized. -/
theorem Context.admits_name {c : Context} {x : String} {n : Needs} :
    c.pending ≠ some x ∧ c.Room n ↔ c.Admits True [x] n := by
  rw [Admits, true_and]
  refine and_congr_left fun _ => ⟨fun h y hy => ?_, fun h hx => h x hx List.mem_cons_self⟩
  rw [List.mem_singleton]
  rintro rfl
  exact h hy

end Compiler

namespace Expr
open Compiler
variable {c : Context} {strict : Prop}

/-- What is asked of an expression at a place, with the conditions on jumps or without. -/
def Admitted (c : Context) (e : Expr) (strict : Prop := True) : Prop :=
  c.Admits (e.Everywhere (Expr.Judged strict)) e.mentions (e.needs c.scope.names)

def AllAdmitted (c : Context) (es : List Expr) (strict : Prop := True) : Prop :=
  c.Admits (AllEverywhere (Expr.Judged strict) es) (allMentions es) (allNeeds c.scope.names es)

/-- Behind an expression. -/
def after (c : Context) (e : Expr) : Context := c.add (e.needs c.scope.names)

def allAfter (c : Context) (es : List Expr) : Context := c.add (allNeeds c.scope.names es)

/-! ### What is asked of each form -/

attribute [local simp] Everywhere Judged FewArguments ShortJumps

theorem admitted_literal {l : Literal} : (literal l).Admitted c strict ↔ c.Room l.needs := by
  simp [Admitted, Context.Admits, mentions, needs]

theorem admitted_name {x : String} :
    (name x).Admitted c strict ↔ c.pending ≠ some x ∧ c.Room (.name c.scope.names x) := by
  rw [Context.admits_name, Admitted]
  exact Context.admits_congr (by simp)

theorem admitted_group {e : Expr} : (group e).Admitted c strict ↔ e.Admitted c strict :=
  Context.admits_congr (by simp)

theorem admitted_assign {x : String} {value : Expr} :
    (assign x value).Admitted c strict ↔ (c.pending ≠ some x ∧ c.Room (.name c.scope.names x)) ∧
      value.Admitted (c.add (.name c.scope.names x)) strict := by
  rw [Context.admits_name, Admitted, Admitted, Context.scope_add, Context.admits_append]
  exact Context.admits_congr (by simp)

theorem admitted_unary {op : Unary} {e : Expr} : (unary op e).Admitted c strict ↔ e.Admitted c strict :=
  Context.admits_congr (by simp)

theorem admitted_binary {op : Binary} {left right : Expr} :
    (binary op left right).Admitted c strict ↔ left.Admitted c strict ∧ right.Admitted (left.after c) strict := by
  rw [Admitted, Admitted, Admitted, after, Context.scope_add, Context.admits_append]
  exact Context.admits_congr (by simp)

theorem admits_shortCircuit {left right : Expr} {p : Prop} (hp : p ↔ (strict → right.size + 1 ≤ maxDistance) ∧
      left.Everywhere (Expr.Judged strict) ∧ right.Everywhere (Expr.Judged strict)) :
    c.Admits p (left.mentions ++ right.mentions) (left.needs c.scope.names + right.needs c.scope.names) ↔
      left.Admitted c strict ∧ right.Admitted (left.after c) strict ∧ (strict → right.size + 1 ≤ maxDistance) := by
  rw [← and_assoc, Admitted, Admitted, after, Context.scope_add, Context.admits_append]
  simp only [Context.Admits, hp]
  tauto

theorem admits_and {left right : Expr} : (and left right).Admitted c strict ↔ left.Admitted c strict ∧
    right.Admitted (left.after c) strict ∧ (strict → right.size + 1 ≤ maxDistance) :=
  admits_shortCircuit (by simp)

theorem admits_or {left right : Expr} : (or left right).Admitted c strict ↔ left.Admitted c strict ∧
    right.Admitted (left.after c) strict ∧ (strict → right.size + 1 ≤ maxDistance) :=
  admits_shortCircuit (by simp)

theorem admitted_and {left right : Expr} : (and left right).Admitted c ↔
    left.Admitted c ∧ right.Admitted (left.after c) ∧ right.size + 1 ≤ maxDistance := by
  rw [admits_and, true_imp_iff]

theorem admitted_or {left right : Expr} : (or left right).Admitted c ↔
    left.Admitted c ∧ right.Admitted (left.after c) ∧ right.size + 1 ≤ maxDistance := by
  rw [admits_or, true_imp_iff]

theorem admitted_call {callee : Expr} {arguments : List Expr} : (call callee arguments).Admitted c strict ↔
    callee.Admitted c strict ∧ AllAdmitted (callee.after c) arguments strict ∧ 0 + arguments.length ≤ 255 := by
  rw [← and_assoc, Admitted, Admitted, AllAdmitted, after, Context.scope_add, Context.admits_append]
  simp only [Context.Admits, Everywhere, Judged, FewArguments, ShortJumps, mentions, needs, Nat.zero_add]
  tauto

theorem allAdmitted_nil (hc : c.Room 0) : AllAdmitted c [] strict := ⟨trivial, by simp [allMentions], hc⟩

theorem allAdmitted_cons {e : Expr} {es : List Expr} :
    AllAdmitted c (e :: es) strict ↔ e.Admitted c strict ∧ AllAdmitted (e.after c) es strict := by
  rw [Admitted, AllAdmitted, AllAdmitted, after, Context.scope_add, Context.admits_append]
  rfl

theorem after_add {m : Needs} {e : Expr} :
    e.after (c.add m) = c.add (m + e.needs c.scope.names) := by
  rw [after, Context.scope_add, Context.add_add]

theorem after_after {left right : Expr} :
    right.after (left.after c) = c.add (left.needs c.scope.names + right.needs c.scope.names) := after_add

theorem allAfter_add {m : Needs} {es : List Expr} :
    allAfter (c.add m) es = c.add (m + allNeeds c.scope.names es) := by
  rw [allAfter, Context.scope_add, Context.add_add]

end Expr

namespace Compiler

/-- The words are spelled as the scanner spells them. -/
def AllSpelled (ws : List Word) : Prop := ∀ w ∈ ws, w.Spelled

theorem AllSpelled.of_subset {us ws : List Word} (h : AllSpelled ws) (hs : us ⊆ ws) : AllSpelled us :=
  fun w hw => h w (hs hw)

section Effects
variable {c : Context} {s : State}

theorem room_zero (h : Describes c s) : c.Room 0 := by
  rw [Context.Room, Needs.add_zero]
  exact h.pooled.room

theorem effect_literal (h : Describes c s) (l : Literal) (hl : l.word.Spelled) :
    Effect (c.Room l.needs) l.write s fun _ t =>
      Yields (c.add l.needs) (fun κ is => l.Code κ is) s t := by
  have hroom := room_zero h
  have hchar : ∀ {byte : UInt8}, Effect (c.Room .one) (emitConstant (.char byte)) s fun _ t =>
      Yields (c.add .one) (fun κ is => ∃ i v, κ.constants[i]? = some v ∧ v = .char byte ∧
        is = [⟨.constant, i⟩]) s t := by
    intro byte
    refine (effect_emitConstant h (.char _)).mono ?_
    rintro _ t - ⟨is, ht, i, hi, he⟩
    exact ⟨is, ht, i, _, hi, rfl, he⟩
  cases l with
  | number text =>
    obtain ⟨n, hn⟩ : ∃ n, Numeral.leading? text.toList = some n := Option.isSome_iff_exists.1 hl
    refine .of_run_eq (t := s) (b := emitConstant (.number n.value)) (by simp only [Literal.write, hn]) <|
      (effect_emitConstant h (.number _)).mono ?_
    rintro _ t - ⟨is, ht, i, hi, he⟩
    exact ⟨is, ht, i, _, hi, ⟨n, hn, rfl⟩, he⟩
  | string text =>
    have hlen : 2 ≤ text.toList.length := hl
    refine .of_run_eq (t := s) (b := intern (String.ofList (Quoted.content text.toList)) >>= fun a =>
      emitConstant (.string a)) ?_ ?_
    · rw [Literal.write, run_bind, run_ensure (decide_eq_true hlen)]
    · refine (effect_intern h _).andThen ?_
      rintro a t ⟨ht, ha, -⟩
      refine (effect_emitConstant ht.describes (.string (by rw [ha]; rfl))).mono ?_
      rintro _ u - ⟨is, hu, i, hi, he⟩
      exact ⟨is, ht.trans hu, i, _, hi, ⟨a, hu.wrote.pool.store.text ha, rfl⟩, he⟩
  | char text =>
    have hlen : 2 ≤ text.toList.length := hl
    refine .of_run_eq (t := s) (b := emitConstant (.char (charByte text.toList))) ?_ hchar
    rw [Literal.write, run_bind, run_ensure (decide_eq_true hlen)]
  | newLine => exact hchar
  | tab => exact hchar
  | true_ =>
    rw [Literal.needs, Context.add_zero]
    exact ((effect_emit h rfl).mono fun _ t _ ht => ⟨_, ht, rfl⟩).congr (iff_of_true trivial hroom)
  | false_ =>
    rw [Literal.needs, Context.add_zero]
    exact ((effect_emit h rfl).mono fun _ t _ ht => ⟨_, ht, rfl⟩).congr (iff_of_true trivial hroom)

theorem effect_countArgument (h : Describes c s) (count : Nat)
    (hle : count ≤ 255) : Effect (count ≠ 255) (countArgument count) s fun n t =>
      n = count + 1 ∧ count + 1 ≤ 255 ∧ Emits c [] s t := by
  by_cases hc : count = 255
  · have hf : Failed ((mistake .tooManyArguments).run s).2 := failed_mistake (.inl h.ready) _
    refine ⟨iff_of_false (fun hn => hn ?_) (· hc), fun k => absurd hc k⟩
    rw [countArgument, if_pos hc]
    exact hf
  · rw [countArgument, if_neg hc]
    exact (Effect.pure h.not_failed ⟨rfl, by omega, h, .refl s⟩).congr (iff_of_true trivial hc)

theorem effect_readComma (h : Describes c s) {α : Type} (xs : List α) :
    Effect True (readComma xs) s fun _ t => Emits c [] s t := by
  cases xs with
  | nil => exact .pure h.not_failed ⟨h, .refl s⟩
  | cons x xs => exact effect_advance h

/-- The right side of a short circuit is jumped over. -/
theorem effect_shortCircuit {d : Context} {P : Prop} {size : Nat} {op : Opcode} {right : Action Unit}
    {shape : Pool → List Instr → Prop} [Enduring right] (h : Describes c s) (hop : op.width = 2)
    (hsize : ∀ {κ is}, shape κ is → codeLength is = size)
    (hright : ∀ {t}, Describes c t → Effect P right t fun _ u => Yields d shape t u) :
    Effect (P ∧ size + 1 ≤ maxDistance)
      (openJump op >>= fun skip => emit .pop >>= fun _ => right >>= fun _ => closeJump skip) s fun _ t =>
        Yields d (fun κ is => ∃ ir, shape κ ir ∧ is = ⟨op, size + 1⟩ :: ⟨.pop, 0⟩ :: ir) s t := by
  refine (effect_openJump h hop).andThen ?_
  rintro _ t ⟨rfl, ht⟩
  refine (effect_emit ht.describes rfl).andThen fun _ u hu => (hright hu.describes).bind
    fun _ v ⟨ir, hv, hr⟩ => ?_
  have hlen : codeLength (⟨.pop, 0⟩ :: ir) = size + 1 := by
    rw [codeLength_cons, hsize hr, Nat.add_comm]
    rfl
  rw [← hlen]
  refine (effect_closeJump [] _ hop (ht.trans (hu.trans hv)) rfl).mono fun _ w _ ⟨hw, hpool⟩ => ?_
  exact ⟨_, hw, ir, hpool ▸ hr, rfl⟩

mutual

theorem effect_write_expr (e : Expr) (hw : AllSpelled e.words) {c : Context} {s : State}
    (h : Describes c s) :
    Effect (e.Admitted c) e.write s fun _ t =>
      Yields (e.after c) (fun κ is => e.Code κ c.scope.names is) s t := by
  cases e with
  | literal l =>
    refine Effect.congr ?_ Expr.admitted_literal.symm
    exact (effect_advance h).andThen fun _ t ht =>
      (effect_literal ht.describes l (hw _ (by simp [Expr.words]))).mono fun _ u _ ⟨is, hu, hl⟩ =>
        ⟨is, ht.trans hu, hl⟩
  | name x =>
    refine Effect.congr ?_ Expr.admitted_name.symm
    exact (effect_advance h).andThen fun _ t ht => (effect_accessTo ht.describes x).bindTrue
      fun a u ⟨hu, p, hp⟩ => (effect_emitWith hu.describes hp.width.1 a.operand).mono fun _ v _ hv =>
        ⟨_, ht.trans (hu.trans hv), p, hp.finds.mono hv.wrote.pool, by rw [hp.get]; rfl⟩
  | group e =>
    refine Effect.congr ?_ Expr.admitted_group.symm
    refine (effect_advance h).andThen fun _ t ht =>
      (effect_write_expr e (hw.of_subset Expr.words_subset_group) ht.describes).bindTrue
        fun _ u ⟨is, hu, he⟩ => (effect_advance hu.describes).mono fun _ v _ hv => ?_
    have hend := ht.trans (hu.trans hv)
    rw [List.append_nil, List.nil_append] at hend
    exact ⟨is, hend, he.mono hv.wrote.pool⟩
  | assign x value =>
    refine Effect.congr ?_ Expr.admitted_assign.symm
    refine (effect_advance h).andThen fun _ t ht => (effect_accessTo ht.describes x).bind
      fun a u ⟨hu, p, hp⟩ => (effect_advance hu.describes).andThen fun _ u' hu' =>
        (effect_write_expr value (hw.of_subset Expr.words_subset_assign) hu'.describes).bindTrue
          fun _ v ⟨iv, hv, hcode⟩ => (effect_emitWith hv.describes hp.width.2 a.operand).mono
            fun _ w _ hw => ?_
    rw [Expr.after_add] at hw
    refine ⟨iv ++ [p.set], ?_, p, iv, ?_, hcode.mono hw.wrote.pool, rfl⟩
    · rw [hp.set]
      exact ht.trans (hu.trans (hu'.trans (hv.trans hw)))
    · exact hp.finds.mono (hu'.wrote.pool.trans (hv.wrote.pool.trans hw.wrote.pool))
  | unary op e =>
    refine Effect.congr ?_ Expr.admitted_unary.symm
    exact (effect_advance h).andThen fun _ t ht =>
      (effect_write_expr e (hw.of_subset Expr.words_subset_unary) ht.describes).bindTrue
        fun _ u ⟨is, hu, he⟩ => (effect_emit hu.describes (by cases op <;> rfl)).mono fun _ v _ hv =>
          ⟨_, ht.trans (hu.trans hv), is, he.mono hv.wrote.pool, rfl⟩
  | binary op left right =>
    refine Effect.congr ?_ Expr.admitted_binary.symm
    refine (effect_write_expr left (hw.of_subset Expr.words_subset_binary.1) h).bind
      fun _ t ⟨il, ht, hl⟩ => (effect_advance ht.describes).andThen fun _ t' ht' =>
        (effect_write_expr right (hw.of_subset Expr.words_subset_binary.2) ht'.describes).bindTrue
          fun _ u ⟨ir, hu, hr⟩ => (effect_emit hu.describes (by cases op <;> rfl)).mono
            fun _ v _ hv => ?_
    have hend := ht.trans (ht'.trans (hu.trans hv))
    rw [Expr.after_after] at hend
    exact ⟨_, hend, il, ir, hl.mono (ht'.wrote.pool.trans (hu.wrote.pool.trans hv.wrote.pool)),
      hr.mono hv.wrote.pool, rfl⟩
  | and left right =>
    refine Effect.congr ?_ Expr.admitted_and.symm
    refine (effect_write_expr left (hw.of_subset Expr.words_subset_and.1) h).bind
      fun _ t ⟨il, ht, hl⟩ => (effect_advance ht.describes).andThen fun _ t' ht' =>
        (effect_shortCircuit ht'.describes rfl (fun hr => hr.size) fun hd =>
          effect_write_expr right (hw.of_subset Expr.words_subset_and.2) hd).mono
            fun _ v _ ⟨is, hv, ir, hr, he⟩ => ?_
    have hend := ht.trans (ht'.trans hv)
    rw [Expr.after_after] at hend
    exact ⟨il ++ is, hend, il, ir, hl.mono (ht'.wrote.pool.trans hv.wrote.pool), hr, by rw [he]⟩
  | or left right =>
    refine Effect.congr ?_ Expr.admitted_or.symm
    refine (effect_write_expr left (hw.of_subset Expr.words_subset_or.1) h).bind
      fun _ t ⟨il, ht, hl⟩ => (effect_advance ht.describes).andThen fun _ t' ht' =>
        (effect_shortCircuit ht'.describes rfl (fun hr => hr.size) fun hd =>
          effect_write_expr right (hw.of_subset Expr.words_subset_or.2) hd).mono
            fun _ v _ ⟨is, hv, ir, hr, he⟩ => ?_
    have hend := ht.trans (ht'.trans hv)
    rw [Expr.after_after] at hend
    exact ⟨il ++ is, hend, il, ir, hl.mono (ht'.wrote.pool.trans hv.wrote.pool), hr, by rw [he]⟩
  | call callee arguments =>
    refine Effect.congr ?_ Expr.admitted_call.symm
    refine (effect_write_expr callee (hw.of_subset Expr.words_subset_call.1) h).bind
      fun _ t ⟨ic, ht, hcallee⟩ => (effect_advance ht.describes).andThen fun _ t' ht' =>
        (effect_writeArguments arguments (hw.of_subset Expr.words_subset_call.2) ht'.describes 0
          (by decide)).bindTrue fun count u ⟨hcount, hle, ia, hu, ha⟩ =>
            (effect_advance hu.describes).andThen fun _ u' hu' =>
              (effect_emitWith hu'.describes rfl (min count 255).toUInt8).mono fun _ v _ hv => ?_
    have hend := ht.trans (ht'.trans (hu.trans (hu'.trans hv)))
    have hoperand : (min count 255).toUInt8.toNat = arguments.length := by
      rw [Nat.zero_add] at hcount
      rw [Nat.min_eq_left hle, hcount]
      exact UInt8.toNat_ofNat_of_lt' (hcount ▸ Nat.lt_succ_of_le hle)
    rw [Expr.after, Expr.allAfter_add, hoperand] at hend
    exact ⟨_, hend, ic, ia, hcallee.mono (ht'.wrote.pool.trans (hu.wrote.pool.trans
      (hu'.wrote.pool.trans hv.wrote.pool))), ha.mono (hu'.wrote.pool.trans hv.wrote.pool), rfl⟩

theorem effect_writeArguments (es : List Expr) (hw : AllSpelled (Expr.argumentWords es)) {c : Context}
    {s : State} (h : Describes c s) (count : Nat) (hc : count ≤ 255) :
    Effect (Expr.AllAdmitted c es ∧ count + es.length ≤ 255) (Expr.writeArguments count es) s fun n t =>
      n = count + es.length ∧ n ≤ 255 ∧
        Yields (Expr.allAfter c es) (fun κ is => Expr.AllCode κ c.scope.names es is) s t := by
  cases es with
  | nil =>
    have hafter : Expr.allAfter c [] = c := c.add_zero
    rw [hafter]
    exact (Effect.pure h.not_failed ⟨rfl, hc, [], ⟨h, .refl s⟩, rfl⟩).congr
      (iff_of_true trivial ⟨Expr.allAdmitted_nil (room_zero h), hc⟩)
  | cons e es =>
    have hiff : e.Admitted c ∧ count ≠ 255 ∧ Expr.AllAdmitted (e.after c) es ∧
        count + 1 + es.length ≤ 255 ↔ Expr.AllAdmitted c (e :: es) ∧ count + (es.length + 1) ≤ 255 := by
      rw [Expr.allAdmitted_cons]
      constructor
      · exact fun ⟨he, _, hes, hle⟩ => ⟨⟨he, hes⟩, by omega⟩
      · exact fun ⟨⟨he, hes⟩, hle⟩ => ⟨he, by omega, hes, by omega⟩
    refine Effect.congr ?_ hiff
    refine (effect_write_expr e (hw.of_subset Expr.words_subset_arguments.1) h).bind
      fun _ t ⟨ie, ht, he⟩ => (effect_countArgument ht.describes count hc).bind ?_
    rintro _ u ⟨rfl, hle, hu⟩
    refine (effect_readComma hu.describes es).andThen fun _ v hv =>
      (effect_writeArguments es (hw.of_subset Expr.words_subset_arguments.2) hv.describes (count + 1)
        hle).mono fun n w _ ⟨hn, hn', is, hw, hs⟩ => ?_
    have hend := ht.trans (hu.trans (hv.trans hw))
    rw [Expr.after, Expr.allAfter_add] at hend
    refine ⟨by rw [hn, List.length_cons]; omega, hn', _, hend, ie, is, ?_, hs, rfl⟩
    exact he.mono (hu.wrote.pool.trans (hv.wrote.pool.trans hw.wrote.pool))

end

end Effects

end Compiler
end StackScript
