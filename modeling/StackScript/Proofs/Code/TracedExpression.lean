import StackScript.Proofs.Code.Function
import StackScript.Proofs.Code.Tracing

/-! Writing a tree does what the events of the tree say. A tree that breaks no rule but that on the number of constants
makes no mistake but that there are too many of them. -/
namespace StackScript
open Compiler

namespace Expr

/-- An expression breaks no rule but that on the number of constants, where this variable is being initialized. -/
def Suits (pending : Option String) (e : Expr) : Prop :=
  e.Everywhere Expr.Allowed ∧ ∀ x, pending = some x → x ∉ e.mentions

def AllSuit (pending : Option String) (es : List Expr) : Prop :=
  AllEverywhere Expr.Allowed es ∧ ∀ x, pending = some x → x ∉ allMentions es

section Suits
variable {pending : Option String} {x : String} {e value left right callee : Expr} {es arguments : List Expr}

attribute [local simp] Suits AllSuit Everywhere AllEverywhere Expr.Allowed FewArguments ShortJumps mentions allMentions

theorem Suits.name (h : (name x).Suits pending) : pending ≠ some x := by
  rintro rfl
  simp at h

theorem Suits.group (h : (group e).Suits pending) : e.Suits pending := by simpa using h

theorem Suits.assign (h : (assign x value).Suits pending) : pending ≠ some x ∧ value.Suits pending := by
  obtain ⟨⟨-, he⟩, hm⟩ := h
  exact ⟨fun hx => hm x hx (by simp), he, fun y hy hmem => hm y hy (by simp [hmem])⟩

theorem Suits.unary {op : Unary} (h : (unary op e).Suits pending) : e.Suits pending := by simpa using h

theorem Suits.binary {op : Binary} (h : (binary op left right).Suits pending) :
    left.Suits pending ∧ right.Suits pending := by
  obtain ⟨⟨-, hl, hr⟩, hm⟩ := h
  exact ⟨⟨hl, fun y hy hmem => hm y hy (by simp [hmem])⟩, hr, fun y hy hmem => hm y hy (by simp [hmem])⟩

theorem Suits.and (h : (and left right).Suits pending) :
    left.Suits pending ∧ right.Suits pending ∧ right.size + 1 ≤ maxDistance := by
  obtain ⟨⟨⟨-, hs⟩, hl, hr⟩, hm⟩ := h
  exact ⟨⟨hl, fun y hy hmem => hm y hy (by simp [hmem])⟩, ⟨hr, fun y hy hmem => hm y hy (by simp [hmem])⟩, hs⟩

theorem Suits.or (h : (or left right).Suits pending) :
    left.Suits pending ∧ right.Suits pending ∧ right.size + 1 ≤ maxDistance := Suits.and h

theorem Suits.call (h : (call callee arguments).Suits pending) :
    callee.Suits pending ∧ AllSuit pending arguments ∧ arguments.length ≤ 255 := by
  obtain ⟨⟨⟨hn, -⟩, hc, ha⟩, hm⟩ := h
  exact ⟨⟨hc, fun y hy hmem => hm y hy (by simp [hmem])⟩, ⟨ha, fun y hy hmem => hm y hy (by simp [hmem])⟩, hn⟩

theorem AllSuit.cons (h : AllSuit pending (e :: es)) : e.Suits pending ∧ AllSuit pending es := by
  obtain ⟨⟨he, hes⟩, hm⟩ := h
  exact ⟨⟨he, fun y hy hmem => hm y hy (by simp [hmem])⟩, hes, fun y hy hmem => hm y hy (by simp [hmem])⟩

end Suits

end Expr

namespace Decl

/-- A declaration breaks no rule but that on the number of constants. -/
def Suits (σ : Scope) (d : Decl) : Prop :=
  d.Everywhere Regular Expr.Allowed σ ∧ (σ.isLocal = true → ∀ x ∈ d.declared, x ∉ σ.inner)

def ListSuits (σ : Scope) (ds : List Decl) : Prop :=
  ListEverywhere Regular Expr.Allowed σ ds ∧ (σ.isLocal = true → (listDeclared ds ++ σ.inner).Nodup)

section Suits
variable {σ : Scope} {x : String} {e : Expr} {es : List Expr} {d : Decl} {ds alternative : List Decl}

attribute [local simp] Suits ListSuits Everywhere ListEverywhere Regular OutInFunction DistinctNames OwnNameUnread
  FewParameters FewSlots ShortJumps declared

theorem suits_of_everywhere (h : e.Everywhere Expr.Allowed) : e.Suits none := ⟨h, fun _ hx => nomatch hx⟩

theorem listSuits_enter (he : ListEverywhere Regular Expr.Allowed σ.enter ds) (hn : (listDeclared ds).Nodup) :
    ListSuits σ.enter ds := ⟨he, fun _ => by simpa [Scope.enter] using hn⟩

theorem Suits.expression (h : (expression e).Suits σ) : e.Suits none := suits_of_everywhere h.1.2

theorem Suits.print (h : (print e es).Suits σ) : e.Suits none ∧ Expr.AllSuit none es :=
  ⟨suits_of_everywhere h.1.2.1, h.1.2.2, fun _ hx => nomatch hx⟩

theorem Suits.if_ (h : (if_ e ds).Suits σ) :
    e.Suits none ∧ ListSuits σ.enter ds ∧ blockSize ds + 4 ≤ maxDistance := by
  obtain ⟨⟨⟨-, hn, -, -, -, hs⟩, he, hds⟩, -⟩ := h
  exact ⟨suits_of_everywhere he, listSuits_enter hds hn, hs⟩

theorem Suits.until_ (h : (until_ e ds).Suits σ) :
    e.Suits none ∧ ListSuits σ.enter ds ∧ e.size + blockSize ds + 7 ≤ maxDistance := by
  obtain ⟨⟨⟨-, hn, -, -, -, hs⟩, he, hds⟩, -⟩ := h
  exact ⟨suits_of_everywhere he, listSuits_enter hds hn, hs⟩

theorem Suits.ifElse (h : (ifElse e ds alternative).Suits σ) : e.Suits none ∧
    (ListSuits σ.enter ds ∧ blockSize ds + 4 ≤ maxDistance) ∧
      ListSuits σ.enter alternative ∧ blockSize alternative + 1 ≤ maxDistance := by
  obtain ⟨⟨⟨-, ⟨hn, hn'⟩, -, -, -, hs, hs'⟩, he, hds, hds'⟩, -⟩ := h
  exact ⟨suits_of_everywhere he, ⟨listSuits_enter hds hn, hs⟩, listSuits_enter hds' hn', hs'⟩

theorem Suits.out_none (h : (out none).Suits σ) : σ.inFunction = true := h.1.1

theorem Suits.out_some (h : (out (some e)).Suits σ) : σ.inFunction = true ∧ e.Suits none :=
  ⟨h.1.1.1, suits_of_everywhere h.1.2⟩

theorem Suits.block {mark : BlockMark} (h : (block mark ds).Suits σ) : ListSuits σ.enter ds := by
  obtain ⟨⟨⟨-, hn, -⟩, hds⟩, -⟩ := h
  exact listSuits_enter hds hn

section Names
variable (hlive : σ.live ≤ maxLocals)
include hlive

theorem Suits.var_none (h : (var x none).Suits σ) : σ.Admits x := by
  obtain ⟨⟨-, -, -, -, hslots, -⟩, hfresh⟩ := h
  exact (admits_iff hlive).2 ⟨hslots, fun hl => hfresh hl x (by simp)⟩

theorem Suits.var_some (h : (var x (some e)).Suits σ) :
    σ.Admits x ∧ e.Suits (if σ.isLocal then some x else none) := by
  obtain ⟨⟨⟨-, -, hunread, -, hslots, -⟩, he⟩, hfresh⟩ := h
  refine ⟨(admits_iff hlive).2 ⟨hslots, fun hl => hfresh hl x (by simp)⟩, he, fun y hy => ?_⟩
  cases hl : σ.isLocal with
  | true =>
    rw [hl, if_pos rfl] at hy
    exact Option.some.inj hy ▸ hunread hl
  | false =>
    rw [hl, if_neg Bool.false_ne_true] at hy
    cases hy

theorem Suits.fun_ {xs : List String} (h : (fun_ x xs ds).Suits σ) :
    σ.Admits x ∧ (xs.Nodup ∧ xs.length ≤ 255) ∧ ListSuits (.function xs) ds := by
  obtain ⟨⟨⟨-, hn, -, hfew, ⟨hslots, -⟩, -⟩, hds⟩, hfresh⟩ := h
  have hnodup : (xs ++ listDeclared ds).Nodup := hn
  refine ⟨(admits_iff hlive).2 ⟨hslots, fun hl => hfresh hl x (by simp)⟩, ⟨(List.nodup_append.1 hnodup).1, hfew⟩, hds,
    fun _ => ?_⟩
  exact (((List.reverse_perm xs).append_left _).nodup_iff).2 (List.nodup_append_comm.1 hnodup)

end Names

theorem ListSuits.cons (h : ListSuits σ (d :: ds)) : d.Suits σ ∧ ListSuits (σ.after d) ds := by
  obtain ⟨⟨hd, hds⟩, hn⟩ := h
  refine ⟨⟨hd, fun hl => ((nodup_after hl d _).1 (hn hl)).1⟩, hds, fun hl => ?_⟩
  rw [Scope.isLocal_after] at hl
  exact ((nodup_after hl d _).1 (hn hl)).2

end Suits

end Decl

namespace Compiler
variable {line : Nat → Nat} {c d : Context} {p : Progress} {s t : State}

/-! ### Expressions -/

theorem tries_ensure {β : Type} {b : Bool} (hb : b = true) (defect : Defect) {f : Unit → Action β}
    {Q : β → State → Prop} (h : Tries (f ()) s Q) : Tries (ensure b defect >>= f) s Q :=
  .of_run_eq (t := s) (by rw [run_bind, run_ensure hb]) h

theorem tries_literal (h : Stands line c p s) (l : Literal) (hl : l.word.Spelled) :
    Tries l.write s fun _ t => Traces line (c.add l.needs) p [l.event] s t := by
  cases l with
  | number text =>
    obtain ⟨n, hn⟩ : ∃ n, Numeral.leading? text.toList = some n := Option.isSome_iff_exists.1 hl
    refine .of_run_eq (t := s) (b := emitConstant (.number n.value)) (by simp only [Literal.write, hn]) ?_
    exact (tries_emitConstant h (e := .literal (.number text)) ⟨n, hn, rfl⟩ rfl (.number _)).mono fun _ _ ht =>
      ht.literal
  | string text =>
    refine tries_ensure (decide_eq_true (show 2 ≤ text.toList.length from hl)) _ ?_
    refine (h.tries_quiet (quiet_intern _) (effect_intern h.describes _) trivial fun _ _ hx => hx.1.describes).bind ?_
    rintro a t ⟨⟨-, ha, -⟩, ht⟩
    exact (tries_emitConstant ht.stands (e := .literal (.string text)) ⟨a, ha, rfl⟩ rfl
      (.string (by rw [ha]; rfl))).mono fun _ _ hu => ht.trans hu.literal
  | char text =>
    refine tries_ensure (decide_eq_true (show 2 ≤ text.toList.length from hl)) _ ?_
    exact (tries_emitConstant h (e := .literal (.char text)) rfl rfl (.char _)).mono fun _ _ ht => ht.literal
  | newLine => exact (tries_emitConstant h (e := .literal .newLine) rfl rfl (.char _)).mono fun _ _ ht => ht.literal
  | tab => exact (tries_emitConstant h (e := .literal .tab) rfl rfl (.char _)).mono fun _ _ ht => ht.literal
  | true_ | false_ =>
    rw [Literal.needs, Context.add_zero]
    exact tries_emit h rfl

/-- The right side of a short circuit is jumped over. -/
theorem tries_shortCircuit {op : Opcode} {k : TokenKind} {left right : Expr} {es : List Event}
    (h : Traces line (left.after c) p es s t) (hop : op.width = 2) (hle : right.size + 1 ≤ maxDistance)
    (hright : ∀ {p t}, Stands line (left.after c) p t →
      Tries right.write t fun _ u => Traces line (right.after (left.after c)) p (right.events c.scope.names) t u) :
    Tries (advance >>= fun _ => openJump op >>= fun skip => emit .pop >>= fun _ => right.write >>=
      fun _ => closeJump skip) t
      fun _ u => Traces line (c.add (left.needs c.scope.names + right.needs c.scope.names)) p
        (es ++ k.event :: .emit ⟨op, right.size + 1⟩ :: Opcode.pop.event :: right.events c.scope.names) s u := by
  refine (tries_advance h.stands k.mark).bind fun _ u hu => (tries_openJump hu.stands hop).bind ?_
  rintro _ v ⟨rfl, hv⟩
  refine (tries_emit hv.stands rfl).bind fun _ w hw => (hright hw.stands).bind fun _ x hx => ?_
  have hsize : Event.allSize (Opcode.pop.event :: right.events c.scope.names) = right.size + 1 := by
    rw [Event.allSize, Expr.size_events, Nat.add_comm]
    rfl
  refine (tries_closeJump [] _ hop (hv.trans (hw.trans hx)) rfl hsize hle).mono fun _ y hy => ?_
  have hend := h.trans (hu.trans hy)
  rwa [Expr.after_after] at hend

mutual

theorem tries_write_expr (e : Expr) (hw : AllSpelled e.words) {c : Context} {p : Progress} {s : State}
    (h : Stands line c p s) (hs : e.Suits c.pending) :
    Tries e.write s fun _ t => Traces line (e.after c) p (e.events c.scope.names) s t := by
  cases e with
  | literal l =>
    exact (tries_advance h _).bind fun _ t ht =>
      (tries_literal ht.stands l (hw _ (by simp [Expr.words]))).mono fun _ u hu => ht.trans hu
  | name x =>
    refine (tries_advance h ⟨.ident, x⟩).bind fun _ t ht => (tries_accessTo ht.stands hs.name).bind ?_
    rintro a u ⟨hu, ha⟩
    exact (tries_access hu.stands ha).1.mono fun _ v hv => ht.trans (hu.trans hv)
  | group e =>
    exact (tries_advance h _).bind fun _ t ht =>
      (tries_write_expr e (hw.of_subset Expr.words_subset_group) ht.stands hs.group).bind fun _ u hu =>
        (tries_advance hu.stands _).mono fun _ v hv => ht.trans (hu.trans hv)
  | assign x value =>
    obtain ⟨hx, hvalue⟩ := hs.assign
    refine (tries_advance h ⟨.ident, x⟩).bind fun _ t ht => (tries_accessTo ht.stands hx).bind ?_
    rintro a u ⟨hu, ha⟩
    refine (tries_advance hu.stands TokenKind.assign.mark).bind fun _ u' hu' =>
      (tries_write_expr value (hw.of_subset Expr.words_subset_assign) hu'.stands hvalue).bind fun _ v hv =>
        (tries_access hv.stands ((ha.after _).after _)).2.mono fun _ w hw => ?_
    have hend := ht.trans (hu.trans (hu'.trans (hv.trans hw)))
    rwa [Expr.after_add] at hend
  | unary op e =>
    exact (tries_advance h op.kind.mark).bind fun _ t ht =>
      (tries_write_expr e (hw.of_subset Expr.words_subset_unary) ht.stands hs.unary).bind fun _ u hu =>
        (tries_emit hu.stands (by cases op <;> rfl)).mono fun _ v hv => ht.trans (hu.trans hv)
  | binary op left right =>
    obtain ⟨hl, hr⟩ := hs.binary
    refine (tries_write_expr left (hw.of_subset Expr.words_subset_binary.1) h hl).bind fun _ t ht =>
      (tries_advance ht.stands op.kind.mark).bind fun _ t' ht' =>
        (tries_write_expr right (hw.of_subset Expr.words_subset_binary.2) ht'.stands hr).bind fun _ u hu =>
          (tries_emit hu.stands (by cases op <;> rfl)).mono fun _ v hv => ?_
    have hend := ht.trans (ht'.trans (hu.trans hv))
    rwa [Expr.after_after] at hend
  | and left right =>
    obtain ⟨hl, hr, hle⟩ := hs.and
    exact (tries_write_expr left (hw.of_subset Expr.words_subset_and.1) h hl).bind fun _ t ht =>
      tries_shortCircuit ht rfl hle fun hu =>
        tries_write_expr right (hw.of_subset Expr.words_subset_and.2) (c := left.after c) hu hr
  | or left right =>
    obtain ⟨hl, hr, hle⟩ := hs.or
    exact (tries_write_expr left (hw.of_subset Expr.words_subset_or.1) h hl).bind fun _ t ht =>
      tries_shortCircuit ht rfl hle fun hu =>
        tries_write_expr right (hw.of_subset Expr.words_subset_or.2) (c := left.after c) hu hr
  | call callee arguments =>
    obtain ⟨hc, ha, hle⟩ := hs.call
    refine (tries_write_expr callee (hw.of_subset Expr.words_subset_call.1) h hc).bind fun _ t ht =>
      (tries_advance ht.stands TokenKind.leftParen.mark).bind fun _ t' ht' =>
        (tries_writeArguments arguments (hw.of_subset Expr.words_subset_call.2) (c := callee.after c)
          ht'.stands ha 0 (by rwa [Nat.zero_add])).bind ?_
    rintro count u ⟨rfl, hu⟩
    rw [Nat.zero_add]
    have hbyte : (min arguments.length 255).toUInt8.toNat = arguments.length := by
      rw [Nat.min_eq_left hle]
      exact UInt8.toNat_ofNat_of_lt' (Nat.lt_succ_of_le hle)
    refine (tries_advance hu.stands TokenKind.rightParen.mark).bind fun _ u' hu' =>
      (tries_emitWith hu'.stands (e := .emit ⟨.call, arguments.length⟩) rfl (by rw [hbyte]; rfl) rfl (fun _ => rfl)
        (by simp)).mono
        fun _ v hv => ?_
    have hend := ht.trans (ht'.trans (hu.trans (hu'.trans hv)))
    rwa [Expr.after, Expr.allAfter_add] at hend

theorem tries_writeArguments (es : List Expr) (hw : AllSpelled (Expr.argumentWords es)) {c : Context} {p : Progress}
    {s : State} (h : Stands line c p s) (hs : Expr.AllSuit c.pending es) (count : Nat) (hle : count + es.length ≤ 255) :
    Tries (Expr.writeArguments count es) s fun n t => n = count + es.length ∧
      Traces line (Expr.allAfter c es) p (Expr.argumentEvents c.scope.names es) s t := by
  cases es with
  | nil =>
    have hafter : Expr.allAfter c [] = c := c.add_zero
    rw [hafter]
    exact .pure h.describes.not_failed ⟨rfl, h.refl⟩
  | cons e es =>
    obtain ⟨he, hes⟩ := hs.cons
    rw [List.length_cons] at hle
    refine (tries_write_expr e (hw.of_subset Expr.words_subset_arguments.1) h he).bind fun _ t ht =>
      (ht.stands.tries_quiet (quiet_countArgument count) (effect_countArgument ht.stands.describes count (by omega))
        (by omega) fun _ _ hx => hx.2.2.describes).bind ?_
    rintro _ u ⟨⟨rfl, -, -⟩, hu⟩
    refine (tries_readComma hu.stands es).bind fun _ v hv =>
      (tries_writeArguments es (hw.of_subset Expr.words_subset_arguments.2) (c := e.after c) hv.stands hes (count + 1)
        (by omega)).mono ?_
    rintro n w ⟨rfl, hw⟩
    have hend := ht.trans (hu.trans (hv.trans hw))
    rw [Expr.after, Expr.allAfter_add] at hend
    exact ⟨by rw [List.length_cons]; omega, hend⟩

end

end Compiler
end StackScript
