import StackScript.Proofs.Parsing.Source

/-! The words of a program determine how it is compiled: trees that are written with the same words, each
expression taking the longest run of them that it can, are compiled by the same steps. -/
namespace StackScript
open Compiler

/-! ### Actions that do the same -/

namespace Compiler

/-- The actions do the same where the words come first. -/
def Same (ws : List Word) (a b : Action α) : Prop := ∀ s, Stream s ws → a.run s = b.run s

namespace Same
variable {α β : Type} {a a' : Action α} {f f' : α → Action β} {us vs ws : List Word} {w : Word}

theorem refl (ws : List Word) (a : Action α) : Same ws a a := fun _ _ => rfl

theorem bind (ha : Reads us a) (h : Same (us ++ vs) a a') (hf : ∀ x, Same vs (f x) (f' x)) :
    Same (us ++ vs) (a >>= f) (a' >>= f') := by
  intro s hs
  rw [run_bind, run_bind, ← h s hs]
  exact hf _ _ (ha s vs hs)

/-- The same action comes first. -/
theorem after (ha : Reads us a) (hf : ∀ x, Same vs (f x) (f' x)) :
    Same (us ++ vs) (a >>= f) (a >>= f') := bind ha (refl _ a) hf

/-- The same action, which takes no word, comes first. -/
theorem still (ha : Keeps SameTokens a) (hf : ∀ x, Same ws (f x) (f' x)) :
    Same ws (a >>= f) (a >>= f') := after (.of_keeps ha) hf

theorem advance {f f' : Unit → Action β} (hf : ∀ x, Same ws (f x) (f' x)) :
    Same (w :: ws) (advance >>= f) (advance >>= f') := after (Reads.advance w) hf

/-- The same action comes last. -/
theorem before (h : Same ws a a') : Same ws (a >>= f) (a' >>= f) := by
  intro s hs
  rw [run_bind, run_bind, h s hs]

theorem block {body body' : Action Unit} (h : Same ws body body') :
    Same ws (Decl.writeBlock body) (Decl.writeBlock body') :=
  still keeps_enterScope fun _ => before h

/-- A block between its marks, with an action behind it. -/
theorem enclosed {body body' : Action Unit} {f f' : Unit → Action β} (mark : BlockMark) (hr : Reads us body)
    (h : Same (us ++ TokenKind.blockEnd.mark :: vs) body body') (hf : ∀ x, Same vs (f x) (f' x)) :
    Same (mark.enclosed us ++ vs) (Compiler.advance >>= fun _ => Decl.writeBlock body >>= f)
      (Compiler.advance >>= fun _ => Decl.writeBlock body' >>= f') := by
  simp only [BlockMark.enclosed, List.cons_append]
  refine advance fun _ => bind (reads_writeBlock hr) ?_ hf
  rw [List.append_assoc]
  exact h.block

end Same
end Compiler

/-! ### Expressions -/

variable {e e' : Expr} {rest rest' : List Word}

/-- The longest expressions at the beginning of the same words are written with the same words. -/
theorem words_eq_of_longest (hw : e.WellFormed) (hw' : e'.WellFormed) (hl : e.Longest rest)
    (hl' : e'.Longest rest') (h : e.words ++ rest = e'.words ++ rest') :
    e.words = e'.words ∧ rest = rest' :=
  List.append_inj h (Nat.le_antisymm (hl' e hw rest h) (hl e' hw' rest' h.symm))

/-- Expressions that are written with the same words are compiled by the same steps. -/
theorem same_expr (hw : e.WellFormed) (hw' : e'.WellFormed) (h : e.words = e'.words)
    (hstop : Stops .assignment rest) : Same (e.words ++ rest) e.write e'.write := by
  intro s hs
  have hrun := run_expression hw hs (Nat.le_refl _) hstop
  rw [h] at hs hrun
  rw [run_unit e.write, run_unit e'.write, ← run_expression hw' hs (Nat.le_refl _) hstop, hrun]

theorem same_items (es es' : List Expr) (hw : Expr.AllWellFormed es) (hw' : Expr.AllWellFormed es')
    (hl : Expr.EachItem Expr.Longest es (TokenKind.outEnd.mark :: rest))
    (hl' : Expr.EachItem Expr.Longest es' (TokenKind.outEnd.mark :: rest'))
    (h : itemWords es ++ TokenKind.outEnd.mark :: rest = itemWords es' ++ TokenKind.outEnd.mark :: rest') :
    rest = rest' ∧
      Same (itemWords es ++ TokenKind.outEnd.mark :: rest) (Expr.writeItems es) (Expr.writeItems es') := by
  induction es generalizing es' with
  | nil =>
    cases es' with
    | nil => exact ⟨(List.cons.inj h).2, .refl _ _⟩
    | cons e' es' => cases (List.cons.inj h).1
  | cons e es ih =>
    cases es' with
    | nil => cases (List.cons.inj h).1
    | cons e' es' =>
      simp only [itemWords, List.cons_append, List.append_assoc] at h ⊢
      obtain ⟨hwords, hrest⟩ := words_eq_of_longest hw.1 hw'.1 hl.1 hl'.1 (List.cons.inj h).2
      obtain ⟨rfl, hsame⟩ := ih es' hw.2 hw'.2 hl.2 hl'.2 hrest
      refine ⟨rfl, .advance fun _ => ?_⟩
      exact .bind (reads_write_expr e) (same_expr hw.1 hw'.1 hwords (stopped_items (e :: es)).1)
        fun _ => .still (keeps_emit _) fun _ => hsame

/-! ### Declarations -/

theorem nameWords_inj {xs ys : List String} {ws ws' : List Word}
    (h : nameWords xs ++ TokenKind.rightParen.mark :: ws = nameWords ys ++ TokenKind.rightParen.mark :: ws') :
    xs = ys ∧ ws = ws' := by
  induction xs generalizing ys with
  | nil =>
    cases ys with
    | nil => exact ⟨rfl, (List.cons.inj h).2⟩
    | cons y ys => cases (List.cons.inj h).1
  | cons x xs ih =>
    cases ys with
    | nil => cases (List.cons.inj h).1
    | cons y ys =>
      simp only [nameWords, List.cons_append, List.append_assoc, List.cons.injEq, Word.mk.injEq, true_and] at h
      obtain ⟨rfl, h⟩ := h
      cases xs with
      | nil =>
        cases ys with
        | nil => exact ⟨rfl, (List.cons.inj h).2⟩
        | cons y ys => cases (List.cons.inj h).1
      | cons x' xs =>
        cases ys with
        | nil => cases (List.cons.inj h).1
        | cons y ys =>
          obtain ⟨hxs, hws⟩ := ih (List.cons.inj h).2
          exact ⟨congrArg _ hxs, hws⟩

/-- What the kind of the first word of a declaration says of its form. -/
def formOf (k : TokenKind) : TokenKind :=
  if (operand? k).isSome then .eof else if k = .leftBracket then .blockStart else k

/-- The form of a declaration, as its first word says it. -/
def Decl.form : Decl → TokenKind
  | expression _ => .eof
  | print _ _ => .print
  | read _ _ => .read
  | if_ _ _ | ifElse _ _ _ => .if_
  | until_ _ _ => .loop
  | out _ => .out
  | block _ _ => .blockStart
  | var _ _ => .var
  | fun_ _ _ _ => .fun_

theorem formOf_headKind (d : Decl) (ws : List Word) : formOf (headKind (d.words ++ ws)) = d.form := by
  cases d with
  | expression e =>
    obtain ⟨o, ho⟩ := operand?_headKind e ws
    rw [formOf, Decl.words, ho]
    rfl
  | out value => cases value <;> rfl
  | block mark body => cases mark <;> rfl
  | var x initial => cases initial <;> rfl
  | _ => rfl

/-- Declarations at the beginning of the same words have the same form. -/
theorem form_eq {d d' : Decl} {rest rest' : List Word} (h : d.words ++ rest = d'.words ++ rest') :
    d.form = d'.form := by
  rw [← formOf_headKind d rest, h, formOf_headKind]

/-- What holds of two lists that begin the same words in front of a closing mark, holds of them between their marks. -/
theorem of_enclosed {mark mark' : BlockMark} {us us' : List Word} {p : Prop}
    (h : mark.enclosed us ++ rest = mark'.enclosed us' ++ rest')
    (hinner : AtEnd (TokenKind.blockEnd.mark :: rest) → AtEnd (TokenKind.blockEnd.mark :: rest') →
      us ++ TokenKind.blockEnd.mark :: rest = us' ++ TokenKind.blockEnd.mark :: rest' →
        TokenKind.blockEnd.mark :: rest = TokenKind.blockEnd.mark :: rest' ∧ p) : rest = rest' ∧ p := by
  simp only [BlockMark.enclosed, List.cons_append, List.append_assoc] at h
  obtain ⟨hend, hp⟩ := hinner (atEnd_blockEnd _) (atEnd_blockEnd _) (List.cons.inj h).2
  exact ⟨(List.cons.inj hend).2, hp⟩

theorem same_function {x : String} {xs : List String} {body body' : Action Unit} {ws : List Word}
    (h : Same ws body body') :
    Same (TokenKind.leftParen.mark :: (nameWords xs ++ TokenKind.rightParen.mark :: TokenKind.blockStart.mark :: ws))
      (Decl.writeFunction x xs body) (Decl.writeFunction x xs body') := by
  have hhead : TokenKind.leftParen.mark ::
      (nameWords xs ++ TokenKind.rightParen.mark :: TokenKind.blockStart.mark :: ws) =
      TokenKind.leftParen.mark :: nameWords xs ++ [TokenKind.rightParen.mark, TokenKind.blockStart.mark] ++ ws := by
    simp
  rw [hhead]
  exact .after (reads_writeHead x xs) fun _ => h.before

mutual

theorem same_decl (d d' : Decl) (rest rest' : List Word) (hw : d.WellFormed) (hw' : d'.WellFormed)
    (hl : d.Each Expr.Longest rest) (hl' : d'.Each Expr.Longest rest') (hs : d.Each Stopped rest)
    (hb : Behind rest) (hb' : Behind rest') (h : d.words ++ rest = d'.words ++ rest') :
    rest = rest' ∧ Same (d.words ++ rest) d.write d'.write := by
  have hform := form_eq h
  cases d with
  | expression e =>
    cases d' with
    | expression e' =>
      obtain ⟨hwords, rfl⟩ := words_eq_of_longest hw hw' hl hl' h
      exact ⟨rfl, .before (same_expr hw hw' hwords hs)⟩
    | _ => cases hform
  | print e es =>
    cases d' with
    | print e' es' =>
      simp only [Decl.words, List.cons_append, List.append_assoc, List.cons.injEq, true_and] at h ⊢
      obtain ⟨hwords, hrest⟩ := words_eq_of_longest hw.1 hw'.1 hl.1 hl'.1 h
      obtain ⟨rfl, hitems⟩ := same_items es es' hw.2 hw'.2 hl.2 hl'.2 hrest
      exact ⟨rfl, .advance fun _ => .bind (reads_write_expr e) (same_expr hw.1 hw'.1 hwords hs.1) fun _ =>
        .still (keeps_emit _) fun _ => .before hitems⟩
    | _ => cases hform
  | read form x =>
    cases d' with
    | read form' x' =>
      simp only [Decl.words, List.cons_append, List.nil_append, List.cons.injEq, true_and, Word.mk.injEq] at h
      obtain ⟨hf, rfl, rfl⟩ := h
      obtain rfl : form = form' := by cases form <;> cases form' <;> first | rfl | cases hf
      exact ⟨rfl, .refl _ _⟩
    | _ => cases hform
  | if_ condition body =>
    cases d' with
    | if_ condition' body' =>
      simp only [Decl.words, List.cons_append, List.append_assoc, List.cons.injEq, true_and] at h ⊢
      obtain ⟨hwords, hrest⟩ := words_eq_of_longest hw.1 hw'.1 hl.1 hl'.1 h
      obtain ⟨rfl, hbody⟩ := of_enclosed hrest (same_list body body' _ _ hw.2 hw'.2 hl.2 hl'.2 hs.2)
      exact ⟨rfl, .advance fun _ => .bind (reads_write_expr condition) (same_expr hw.1 hw'.1 hwords hs.1)
        fun _ => .still (keeps_openJump _) fun _ => .still (keeps_emit _) fun _ =>
          .enclosed .colon (reads_writeList body) hbody fun _ => .refl _ _⟩
    | ifElse condition' body' alternative' =>
      simp only [Decl.words, List.cons_append, List.append_assoc, List.cons.injEq, true_and] at h
      obtain ⟨-, hrest⟩ := words_eq_of_longest hw.1 hw'.1 hl.1 (by simpa using hl'.1) h
      obtain ⟨rfl, -⟩ := of_enclosed hrest (same_list body body' _ _ hw.2 hw'.2.1 hl.2 hl'.2.1 hs.2)
      exact absurd rfl (hb.ne (k := .else_) rfl (by decide))
    | _ => cases hform
  | ifElse condition body alternative =>
    cases d' with
    | if_ condition' body' =>
      simp only [Decl.words, List.cons_append, List.append_assoc, List.cons.injEq, true_and] at h
      obtain ⟨-, hrest⟩ := words_eq_of_longest hw.1 hw'.1 (by simpa using hl.1) hl'.1 h
      obtain ⟨rfl, -⟩ := of_enclosed hrest (same_list body body' _ _ hw.2.1 hw'.2 hl.2.1 hl'.2 hs.2.1)
      exact absurd rfl (hb'.ne (k := .else_) rfl (by decide))
    | ifElse condition' body' alternative' =>
      simp only [Decl.words, List.cons_append, List.append_assoc, List.cons.injEq, true_and] at h ⊢
      obtain ⟨hwords, hrest⟩ := words_eq_of_longest hw.1 hw'.1 (by simpa using hl.1) (by simpa using hl'.1) h
      obtain ⟨helse, hbody⟩ := of_enclosed hrest (same_list body body' _ _ hw.2.1 hw'.2.1 hl.2.1 hl'.2.1 hs.2.1)
      obtain ⟨rfl, halternative⟩ := of_enclosed (List.cons.inj helse).2
        (same_list alternative alternative' _ _ hw.2.2 hw'.2.2 hl.2.2 hl'.2.2 hs.2.2)
      refine ⟨rfl, .advance fun _ => .bind (reads_write_expr condition)
        (same_expr hw.1 hw'.1 hwords (by simpa [Stopped] using hs.1)) fun _ => ?_⟩
      exact .still (keeps_openJump _) fun _ => .still (keeps_emit _) fun _ =>
        .enclosed .colon (reads_writeList body) hbody fun _ => .still (keeps_openJump _) fun _ =>
          .still (keeps_closeJump _) fun _ => .still (keeps_emit _) fun _ => .advance fun _ =>
            .enclosed .colon (reads_writeList alternative) halternative fun _ => .refl _ _
    | _ => cases hform
  | until_ condition body =>
    cases d' with
    | until_ condition' body' =>
      simp only [Decl.words, List.cons_append, List.append_assoc, List.cons.injEq, true_and] at h ⊢
      obtain ⟨hwords, hrest⟩ := words_eq_of_longest hw.1 hw'.1 hl.1 hl'.1 h
      obtain ⟨rfl, hbody⟩ := of_enclosed hrest (same_list body body' _ _ hw.2 hw'.2 hl.2 hl'.2 hs.2)
      exact ⟨rfl, .advance fun _ => .still keeps_codeSize fun _ => .bind (reads_write_expr condition)
        (same_expr hw.1 hw'.1 hwords hs.1) fun _ => .still (keeps_openJump _) fun _ =>
          .still (keeps_emit _) fun _ => .enclosed .colon (reads_writeList body) hbody fun _ => .refl _ _⟩
    | _ => cases hform
  | out value =>
    cases d' with
    | out value' =>
      cases value with
      | none =>
        cases value' with
        | none => exact ⟨(List.cons.inj (List.cons.inj h).2).2, .refl _ _⟩
        | some e' =>
          simp only [Decl.words, List.cons_append, List.append_assoc, List.cons.injEq, true_and] at h
          exact absurd (congrArg headKind h).symm (headKind_words_ne rfl e' _)
      | some e =>
        cases value' with
        | none =>
          simp only [Decl.words, List.cons_append, List.append_assoc, List.cons.injEq, true_and] at h
          exact absurd (congrArg headKind h) (headKind_words_ne rfl e _)
        | some e' =>
          simp only [Decl.words, List.cons_append, List.append_assoc, List.cons.injEq, true_and] at h ⊢
          obtain ⟨hwords, hrest⟩ := words_eq_of_longest hw hw' hl hl' h
          obtain ⟨-, rfl⟩ := List.cons.inj hrest
          exact ⟨rfl, .advance fun _ => .still keeps_checkInFunction fun _ =>
            .before (same_expr hw hw' hwords hs)⟩
    | _ => cases hform
  | block mark body =>
    cases d' with
    | block mark' body' =>
      obtain ⟨rfl, hbody⟩ := of_enclosed h (same_list body body' _ _ hw hw' hl hl' hs)
      refine ⟨rfl, ?_⟩
      simp only [Decl.words, BlockMark.enclosed, List.cons_append, List.append_assoc]
      exact .advance fun _ => hbody.block
    | _ => cases hform
  | var x initial =>
    cases d' with
    | var x' initial' =>
      cases initial with
      | none =>
        cases initial' with
        | none =>
          simp only [Decl.words, List.cons_append, List.nil_append, List.cons.injEq, Word.mk.injEq, true_and] at h
          obtain ⟨rfl, rfl⟩ := h
          exact ⟨rfl, .refl _ _⟩
        | some e' =>
          simp only [Decl.words, List.cons_append, List.nil_append, List.cons.injEq, true_and] at h
          exact absurd (congrArg headKind h.2) (hb.ne (k := .assign) rfl (by decide))
      | some e =>
        cases initial' with
        | none =>
          simp only [Decl.words, List.cons_append, List.nil_append, List.cons.injEq, true_and] at h
          exact absurd (congrArg headKind h.2).symm (hb'.ne (k := .assign) rfl (by decide))
        | some e' =>
          simp only [Decl.words, List.cons_append, List.cons.injEq, Word.mk.injEq, true_and] at h ⊢
          obtain ⟨rfl, h⟩ := h
          obtain ⟨hwords, rfl⟩ := words_eq_of_longest hw hw' hl hl' h
          exact ⟨rfl, .advance fun _ => .after (reads_writeNewName x) fun _ => .advance fun _ =>
            .before (same_expr hw hw' hwords hs)⟩
    | _ => cases hform
  | fun_ x parameters body =>
    cases d' with
    | fun_ x' parameters' body' =>
      simp only [Decl.words, List.cons_append, List.append_assoc, List.cons.injEq, Word.mk.injEq, true_and] at h
      obtain ⟨rfl, h⟩ := h
      obtain ⟨rfl, hrest⟩ := nameWords_inj h
      obtain ⟨rfl, hbody⟩ := of_enclosed hrest (same_list body body' _ _ hw hw' hl hl' hs)
      refine ⟨rfl, ?_⟩
      simp only [Decl.words, BlockMark.enclosed, List.cons_append, List.append_assoc, List.nil_append]
      exact .advance fun _ => .after (reads_writeNewName x) fun _ => .still keeps_bringInScope fun _ =>
        .before (same_function hbody)
    | _ => cases hform

theorem same_list (ds ds' : List Decl) (rest rest' : List Word) (hw : Decl.ListWellFormed ds)
    (hw' : Decl.ListWellFormed ds') (hl : Decl.ListEach Expr.Longest ds rest)
    (hl' : Decl.ListEach Expr.Longest ds' rest') (hs : Decl.ListEach Stopped ds rest) (hend : AtEnd rest)
    (hend' : AtEnd rest') (h : Decl.listWords ds ++ rest = Decl.listWords ds' ++ rest') :
    rest = rest' ∧ Same (Decl.listWords ds ++ rest) (Decl.writeList ds) (Decl.writeList ds') := by
  cases ds with
  | nil =>
    cases ds' with
    | nil => exact ⟨h, .refl _ _⟩
    | cons d' ds' =>
      rw [Decl.listWords, Decl.listWords, List.append_assoc, List.nil_append] at h
      exact absurd (h ▸ hend) (not_atEnd_words d' _)
  | cons d ds =>
    cases ds' with
    | nil =>
      rw [Decl.listWords, Decl.listWords, List.append_assoc, List.nil_append] at h
      exact absurd (h ▸ hend') (not_atEnd_words d _)
    | cons d' ds' =>
      rw [Decl.listWords, Decl.listWords, List.append_assoc, List.append_assoc] at h
      obtain ⟨hrest, hd⟩ := same_decl d d' _ _ hw.1 hw'.1 hl.1 hl'.1 hs.1 (behind_listWords ds hend)
        (behind_listWords ds' hend') h
      obtain ⟨rfl, hds⟩ := same_list ds ds' rest rest' hw.2 hw'.2 hl.2 hl'.2 hs.2 hend hend' hrest
      refine ⟨rfl, ?_⟩
      rw [Decl.listWords, List.append_assoc]
      exact .bind (reads_write d) hd fun _ => hds

end

/-! ### Programs -/

namespace Compiler
variable {source : TokenStream} {store : Store} {printCode : Bool} {ds ds' : List Decl}

/-- Programs of the same words are compiled by the same steps. -/
theorem run_writeProgram_eq (hp : IsProgram ds) (hp' : IsProgram ds') (h : Decl.listWords ds = Decl.listWords ds')
    (he : ∀ t, .token t ∈ source.lexemes → t.kind ≠ .eof) (hf : source.IsFaultless)
    (hw : source.words = Decl.listWords ds) :
    (Decl.writeProgram ds).run (.start source store printCode) =
      (Decl.writeProgram ds').run (.start source store printCode) := by
  have hs := stream_start store printCode hf he
  rw [hw, ← List.append_nil (Decl.listWords ds)] at hs
  have hsame := (same_list ds ds' [] [] hp.wellFormed hp'.wellFormed hp.greedy hp'.greedy
    (listStopped_of_greedy ds [] hp.wellFormed (.inr rfl) hp.greedy) (.inr rfl) (.inr rfl)
    (congrArg (· ++ []) h)).2 _ hs
  simp only [Decl.writeProgram, run_bind, run_advance, hsame]

end Compiler
end StackScript
