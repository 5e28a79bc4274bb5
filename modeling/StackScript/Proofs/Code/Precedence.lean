import StackScript.Proofs.Code.Bare
import StackScript.Proofs.Code.New
import StackScript.Proofs.Parsing.Unambiguous
import StackScript.Proofs.Scanning.Spaced

/-! Precedence: a program that is written with only the parentheses that the levels of its operators require is
compiled to the code of its trees, and so is every other way to write the same trees. -/
namespace StackScript
open Compiler

/-! ### The words of a tree in parentheses -/

def Word.isParenthesis (w : Word) : Bool := w = TokenKind.leftParen.mark || w = TokenKind.rightParen.mark

/-- The words that are no parentheses. -/
def unparenthesized (ws : List Word) : List Word := ws.filter (!·.isParenthesis)

@[simp] theorem unparenthesized_append (us vs : List Word) :
    unparenthesized (us ++ vs) = unparenthesized us ++ unparenthesized vs := List.filter_append ..

theorem unparenthesized_cons (w : Word) (ws : List Word) :
    unparenthesized (w :: ws) = if w.isParenthesis then unparenthesized ws else w :: unparenthesized ws := by
  cases h : w.isParenthesis <;> simp [unparenthesized, h]

namespace Expr

mutual

theorem unparenthesized_bare (e : Expr) : unparenthesized e.bare.words = unparenthesized e.words := by
  cases e with
  | literal l => rfl
  | name x => rfl
  | group e =>
    rw [bare, unparenthesized_bare e]
    simp [words, Word.isParenthesis, unparenthesized]
  | assign x value => simp [bare, words, unparenthesized_cons, unparenthesized_bare value]
  | unary op e => simp [bare, words, unparenthesized_cons, unparenthesized_bare e]
  | binary op left right =>
    simp [bare, words, unparenthesized_cons, unparenthesized_bare left, unparenthesized_bare right]
  | and left right =>
    simp [bare, words, unparenthesized_cons, unparenthesized_bare left, unparenthesized_bare right]
  | or left right =>
    simp [bare, words, unparenthesized_cons, unparenthesized_bare left, unparenthesized_bare right]
  | call callee arguments =>
    simp [bare, words, unparenthesized_cons, unparenthesized_bare callee, unparenthesized_allBare arguments]

theorem unparenthesized_allBare (es : List Expr) :
    unparenthesized (argumentWords (allBare es)) = unparenthesized (argumentWords es) := by
  cases es with
  | nil => rfl
  | cons e es =>
    have hcomma : commaBefore (allBare es) = commaBefore es := by cases es <;> rfl
    simp [allBare, argumentWords, hcomma, unparenthesized_bare e, unparenthesized_allBare es]

end

theorem unparenthesized_items (es : List Expr) :
    unparenthesized (itemWords (es.map bare)) = unparenthesized (itemWords es) := by
  induction es with
  | nil => rfl
  | cons e es ih => simp [itemWords, unparenthesized_cons, unparenthesized_bare e, ih]

end Expr

namespace Decl

mutual

theorem unparenthesized_respell (d : Decl) :
    unparenthesized (d.respell Expr.bare).words = unparenthesized d.words := by
  cases d with
  | expression e => exact e.unparenthesized_bare
  | print e es => simp [respell, words, unparenthesized_cons, e.unparenthesized_bare, Expr.unparenthesized_items]
  | read form x => rfl
  | if_ condition body =>
    simp [respell, words, BlockMark.enclosed, unparenthesized_cons, condition.unparenthesized_bare,
      unparenthesized_listRespell body]
  | ifElse condition body alternative =>
    simp [respell, words, BlockMark.enclosed, unparenthesized_cons, condition.unparenthesized_bare,
      unparenthesized_listRespell body, unparenthesized_listRespell alternative]
  | until_ condition body =>
    simp [respell, words, BlockMark.enclosed, unparenthesized_cons, condition.unparenthesized_bare,
      unparenthesized_listRespell body]
  | out value =>
    cases value with
    | none => rfl
    | some e => simp [respell, words, unparenthesized_cons, e.unparenthesized_bare]
  | block mark body =>
    simp [respell, words, BlockMark.enclosed, unparenthesized_cons, unparenthesized_listRespell body]
  | var x initial =>
    cases initial with
    | none => rfl
    | some e => simp [respell, words, unparenthesized_cons, e.unparenthesized_bare]
  | fun_ x parameters body =>
    simp [respell, words, BlockMark.enclosed, unparenthesized_cons, unparenthesized_listRespell body]

theorem unparenthesized_listRespell (ds : List Decl) :
    unparenthesized (listWords (listRespell Expr.bare ds)) = unparenthesized (listWords ds) := by
  cases ds with
  | nil => rfl
  | cons d ds => simp [listRespell, listWords, unparenthesized_respell d, unparenthesized_listRespell ds]

end

/-- A program is written if its names and literals are: parentheses always are. -/
theorem isWritten_of_listBare {ds ds' : List Decl} (h : listBare ds' = listBare ds)
    (hw : ∀ w ∈ listWords (listBare ds), w.IsWritten) : ∀ w ∈ listWords ds', w.IsWritten := by
  intro w hmem
  by_cases hparen : w.isParenthesis
  · rcases Bool.or_eq_true_iff.1 hparen with hparen | hparen
    · exact of_decide_eq_true hparen ▸ Word.isWritten_mark rfl (by decide)
    · exact of_decide_eq_true hparen ▸ Word.isWritten_mark rfl (by decide)
  · have hin : w ∈ unparenthesized (listWords ds') := List.mem_filter.2 ⟨hmem, by simpa using hparen⟩
    rw [← unparenthesized_listRespell, ← listBare, h] at hin
    exact hw w (List.mem_filter.1 hin).1

end Decl

/-- In a written program expressions are longest if what stands behind them does not go on with them. -/
theorem greedy_of_written {ds : List Decl} (hwf : Decl.ListWellFormed ds) (hw : ∀ w ∈ Decl.listWords ds, w.IsWritten)
    (h : Decl.ListEach Stopped ds []) : Decl.ListEach Expr.Longest ds [] := by
  obtain ⟨hfault, hwords⟩ := words_ofSource_spaced hw
  have hstream := stream_start {} false hfault (kind_ne_eof _)
  rw [hwords, ← List.append_nil (Decl.listWords ds)] at hstream
  exact listGreedy_of_stopped ds [] hwf ⟨_, hstream⟩ h

/-! ### Ways to write the same trees -/

/-- The functions of two stores have the same code. -/
def SameCode (s t : Store) : Prop :=
  ∀ f, (s.function? f).map (·.bytecode.code) = (t.function? f).map (·.bytecode.code)

section Compile
variable {store : Store} {printCode : Bool} {ds ds' : List Decl} {r : FunctionRef}

theorem sameCode_of_parallel {a b c : FunctionRef × State}
    (ha : Parallel (.from_ store.functions.size) (fun _ _ => (Pairing.from_ store.functions.size).pairs) a c)
    (hb : Parallel (.from_ store.functions.size) (fun _ _ => (Pairing.from_ store.functions.size).pairs) b c)
    (hea : store.Extends a.2.store) (heb : store.Extends b.2.store) : a.1 = b.1 ∧ SameCode a.2.store b.2.store := by
  refine ⟨ha.2.1.trans hb.2.1.symm, fun f => ?_⟩
  by_cases hf : f.index < store.functions.size
  · have hold : store.function? f = some store.functions[f.index] := Array.getElem?_eq_getElem hf
    rw [hea.function hold, heb.function hold]
  · have hpair : (Pairing.from_ store.functions.size).pairs f f := ⟨rfl, Nat.le_of_not_lt hf⟩
    have hac := ha.1.store.functions hpair
    have hbc := hb.1.store.functions hpair
    revert hac hbc
    generalize a.2.store.function? f = u
    generalize b.2.store.function? f = v
    generalize c.2.store.function? f = w
    intro hac hbc
    cases hac with
    | none => cases hbc; rfl
    | some hac =>
      cases hbc with
      | some hbc => exact congrArg some (hac.bytecode.code.trans hbc.bytecode.code.symm)

/-- A program that is written in some way and accepted is read as it was meant. -/
theorem reads_spaced (hp : IsProgram ds) (hw : ∀ w ∈ Decl.listWords ds, w.IsWritten)
    (h : (compile (spaced (Decl.listWords ds)) store printCode).result = .ok r) :
    (TokenStream.ofSource (spaced (Decl.listWords ds))).Reads ds :=
  reads_of_words (words_ofSource_spaced hw).2 hp h

/-- All ways to write the same trees come to the same. -/
theorem compile_spelling (hp : IsProgram ds) (hp' : IsProgram ds') (hbare : Decl.listBare ds' = Decl.listBare ds)
    (hw : ∀ w ∈ Decl.listWords (Decl.listBare ds), w.IsWritten)
    (h : (compile (spaced (Decl.listWords ds)) store printCode).result = .ok r) :
    (compile (spaced (Decl.listWords ds')) store printCode).result = .ok r ∧
      SameCode (compile (spaced (Decl.listWords ds)) store printCode).store
        (compile (spaced (Decl.listWords ds')) store printCode).store := by
  have hreads := reads_spaced hp (Decl.isWritten_of_listBare rfl hw) h
  obtain ⟨hfault', hwords'⟩ := words_ofSource_spaced (Decl.isWritten_of_listBare hbare hw)
  obtain ⟨hf, hr⟩ := result_eq_ok.1 h
  have hstart := alikeStates_start store printCode hreads.faultless hfault'
  have hstart' := alikeStates_start store printCode hfault' hfault'
  have ha := parallel_writeProgram not_false hstart ds
  have hb := parallel_writeProgram not_false hstart' ds'
  rw [hbare] at hb
  have hlegal := (effect_writeProgram store printCode hreads.faultless (hreads.words ▸ allSpelled_words _)).succeeds.2
    hreads.legal
  have hrun := run_wholeScript (kind_ne_eof _) hreads.faultless hreads.words hp hlegal
  have hf' := mt (hb.1.failed.1 ·) (mt ha.1.failed.2 hlegal)
  have hrun' := run_wholeScript (kind_ne_eof _) hfault' hwords' hp' hf'
  rw [← hrun] at ha
  rw [← hrun'] at hb hf'
  obtain ⟨hxy, hcode⟩ := sameCode_of_parallel ha hb (compile_extends _ _ _) (compile_extends _ _ _)
  exact ⟨result_eq_ok.2 ⟨hf', hxy.symm.trans hr⟩, hcode⟩

/-- A program that is written with only the parentheses that its operators require, and accepted, is compiled to
the code of its trees; so is every other way to write these trees, the one with all parentheses among them. -/
theorem compile_minimal (hw : ∀ w ∈ Decl.listWords (Decl.listBare ds), w.IsWritten)
    (hlongest : Decl.ListEach Expr.Longest (Decl.listMinimal ds) [])
    (h : (compile (spaced (Decl.listWords (Decl.listMinimal ds))) store printCode).result = .ok r) :
    store.Gains (Decl.listBare ds) r (compile (spaced (Decl.listWords (Decl.listMinimal ds))) store printCode).store ∧
      (∀ ds', IsProgram ds' → Decl.listBare ds' = Decl.listBare ds →
        (compile (spaced (Decl.listWords ds')) store printCode).result = .ok r ∧
          SameCode (compile (spaced (Decl.listWords (Decl.listMinimal ds))) store printCode).store
            (compile (spaced (Decl.listWords ds')) store printCode).store) ∧
      (Decl.ListEach Expr.Longest (Decl.listFull ds) [] →
        (compile (spaced (Decl.listWords (Decl.listFull ds))) store printCode).result = .ok r ∧
          SameCode (compile (spaced (Decl.listWords (Decl.listMinimal ds))) store printCode).store
            (compile (spaced (Decl.listWords (Decl.listFull ds))) store printCode).store) := by
  have hbare := Decl.listBare_listMinimal ds
  have hp : IsProgram (Decl.listMinimal ds) := ⟨Decl.listWellFormed_listMinimal ds, hlongest⟩
  have hspelling (ds' : List Decl) (hp' : IsProgram ds') (hds' : Decl.listBare ds' = Decl.listBare ds) :=
    compile_spelling hp hp' (hds'.trans hbare.symm) (hbare.symm ▸ hw) h
  refine ⟨?_, hspelling, fun hfull => ?_⟩
  · obtain ⟨r', hr', -, hgains⟩ := compile_of_reads (reads_spaced hp (Decl.isWritten_of_listBare hbare hw) h) store printCode
    obtain rfl := Except.ok.inj (h.symm.trans hr')
    have hbares := Store.gains_listBare hgains
    rwa [hbare] at hbares
  · exact hspelling _ ⟨Decl.listWellFormed_listFull ds, hfull⟩ (Decl.listBare_listFull ds)

/-- In `ouo 1 - ( 2 - - x ) * 3 >>` the parentheses are required. -/
theorem compile_minimal_difference : ∃ ds : List Decl,
    spaced (Decl.listWords (Decl.listMinimal ds)) = "ouo 1 - ( 2 - - x ) * 3 >>" ∧
      (compile "ouo 1 - ( 2 - - x ) * 3 >>" {} false).result = .ok ⟨0⟩ ∧
      Store.Gains {} (Decl.listBare ds) ⟨0⟩ (compile "ouo 1 - ( 2 - - x ) * 3 >>" {} false).store := by
  let ds : List Decl := [.print (.binary .subtract (.literal (.number "1")) (.binary .multiply
    (.binary .subtract (.literal (.number "2")) (.unary .negate (.name "x"))) (.literal (.number "3")))) []]
  have hspelled : spaced (Decl.listWords (Decl.listMinimal ds)) = "ouo 1 - ( 2 - - x ) * 3 >>" := by decide +kernel
  have hlongest : Decl.ListEach Expr.Longest (Decl.listMinimal ds) [] :=
    greedy_of_written (Decl.listWellFormed_listMinimal ds) (by decide +kernel)
      ⟨⟨⟨closes_of_none rfl, by decide⟩, trivial⟩, trivial⟩
  have hok : (compile "ouo 1 - ( 2 - - x ) * 3 >>" {} false).result = .ok ⟨0⟩ := by decide +kernel
  have hgains : Store.Gains {} (Decl.listBare ds) ⟨0⟩
      (compile (spaced (Decl.listWords (Decl.listMinimal ds))) {} false).store :=
    (compile_minimal (by decide +kernel) hlongest (hspelled.symm ▸ hok)).1
  exact ⟨ds, hspelled, hok, hspelled ▸ hgains⟩

end Compile
end StackScript
