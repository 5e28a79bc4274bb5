import StackScript.Proofs.Code.Declaration
import StackScript.Proofs.Parsing.Unambiguous

/-! Compiling a whole source: what is accepted is the language, and the store gains the functions of the
program. -/
namespace StackScript
open Compiler

/-- The source is made of the words of a program that the language allows. -/
structure TokenStream.Reads (source : TokenStream) (ds : List Decl) : Prop where
  faultless : source.IsFaultless
  words : source.words = Decl.listWords ds
  program : IsProgram ds
  legal : IsLegal ds

/-- A script as a function; the functions in it get the next places in the store. -/
def scriptTree (s : Store) (ds : List Decl) : FunctionTree := ⟨none, [], ds, s.functions.size, FunctionTree.plain_script⟩

/-- A store has gained a script and the functions in it. -/
structure Store.Gains (s : Store) (ds : List Decl) (r : FunctionRef) (t : Store) : Prop where
  grown : s.Extends t
  ref : r = ⟨s.functions.size + Decl.listFunctionCount ds⟩
  size : t.functions.size = s.functions.size + Decl.listFunctionCount ds + 1
  compiled : ∃ f, t.function? r = some f ∧ (scriptTree s ds).IsCompiled t f ∧
    ∀ v ∈ f.bytecode.constants, t.Sound v

theorem Store.Gains.sound {s t : Store} {ds : List Decl} {r : FunctionRef} (h : s.Gains ds r t) :
    t.Sound (.function r) := by
  obtain ⟨f, hf, hc, hs⟩ := h.compiled
  exact .function hf hc hs

namespace Compiler
variable {source : TokenStream} {store : Store} {printCode : Bool} {ds : List Decl}

theorem describes_start (hf : source.IsFaultless) :
    Describes { scope := .script, functions := store.functions.size } (.start source store printCode) where
  ready := ready_start source store printCode
  faultless l hl := by
    cases l with
    | token t => exact ⟨t, rfl⟩
    | fault e line => exact absurd hl (hf e line)
  defect := rfl
  locals := rfl
  depth := rfl
  isScript := rfl
  live := show 1 ≤ 256 by decide
  pooled := ⟨rfl, Nat.zero_le _, by simp [State.start], by simp [State.start], by simp [State.start]⟩
  functions := rfl

theorem listAdmitted_judged (store : Store) (ds : List Decl) {strict : Prop} :
    Decl.ListAdmitted { scope := .script, functions := store.functions.size } ds strict ↔
      Throughout ds (Decl.Judged strict) (Expr.Judged strict) ∧
        (Decl.listNeeds .script ds).count ≤ Bytecode.maxConstants := by
  refine ⟨fun ⟨he, _, hr⟩ => ⟨he, ?_⟩, fun ⟨he, hr⟩ => ⟨he, nofun, ?_⟩⟩
  · rwa [Context.Room, Needs.zero_add] at hr
  · rwa [Context.Room, Needs.zero_add]

theorem listAdmitted_script (store : Store) (ds : List Decl) :
    Decl.ListAdmitted { scope := .script, functions := store.functions.size } ds ↔ IsLegal ds := by
  rw [listAdmitted_judged, Decl.judged_true, Expr.judged_true, isLegal_iff]

/-- Writing a program makes no mistake exactly if the language allows it. -/
theorem effect_writeProgram (store : Store) (printCode : Bool) (hf : source.IsFaultless)
    (hw : AllSpelled (Decl.listWords ds)) :
    Effect (IsLegal ds) (Decl.writeProgram ds) (.start source store printCode) fun r t =>
      t.defect = none ∧ store.Gains ds r t.store := by
  refine Effect.congr ?_ (listAdmitted_script store ds)
  refine (effect_advance (describes_start hf)).andThen fun _ s hs => ?_
  refine (effect_writeList ds hw rfl (fun _ => List.nodup_singleton _) hs.describes).bindTrue fun _ t ⟨is, ht, hcode⟩ =>
    (effect_advance ht.describes).andThen fun _ u hu => ?_
  have hwrote := hs.wrote.trans (ht.wrote.trans hu.wrote)
  rw [List.append_nil, List.nil_append] at hwrote
  have hcode' := hcode.mono hu.wrote.pool
  have hnamed : u.store.Names u.draft.toFunction none := by
    simp [Store.Names, Draft.toFunction, hwrote.name, State.start]
  refine (effect_finishFunction hu.describes hwrote.code hwrote.fits hcode'.known hnamed
    (show u.draft.arity.toNat = [].length by rw [hwrote.arity]; rfl)).mono ?_
  rintro _ v - ⟨f, rfl, hfun, hcompiles, hconstants, hext, hv⟩
  refine ⟨hv.defect, hwrote.pool.store.trans hext, rfl, hv.functions, f, hfun, ⟨is, hcompiles, ?_⟩, fun c hc => ?_⟩
  · rw [hconstants]
    exact hcode'.mono (.of_store _ hext)
  · rw [hconstants] at hc
    exact (hu.describes.pooled.sound c hc).mono hext

end Compiler

/-! ### What compiling gives -/

section Compile
variable {source : String} {store : Store} {printCode : Bool} {ds : List Decl} {r : FunctionRef}

theorem kind_ne_eof (source : String) (t : Token) (ht : .token t ∈ (TokenStream.ofSource source).lexemes) :
    t.kind ≠ .eof := by
  intro hk
  have h := spells_ofSource source t ht
  rw [hk] at h
  exact h

theorem spelled_word {t : Token} (h : t.kind.Spells t.lexeme.toList) : t.word.Spelled := by
  obtain ⟨kind, lexeme, line⟩ := t
  cases kind <;> exact h

theorem allSpelled_words (source : String) : AllSpelled (TokenStream.ofSource source).words := by
  intro w hw
  obtain ⟨l, hl, hlw⟩ := List.mem_filterMap.1 hw
  cases l with
  | token t =>
    obtain rfl := Option.some.inj hlw
    exact spelled_word (spells_ofSource source t hl)
  | fault e line => cases hlw

/-- Whether it is accepted or not, compiling a source takes nothing from the store. -/
theorem compile_extends (source : String) (store : Store) (printCode : Bool) :
    store.Extends (compile source store printCode).store := by
  have h := (Keeps.modify (r := Grows) Lasting.advance).seq
    ((keeps_script (TokenStream.ofSource source).lexemes.length).seq keeps_finishFunction)
  exact h (.start (TokenStream.ofSource source) store printCode)

/-- No source brings in functions of the host. -/
theorem natives_compile (source : String) (store : Store) (printCode : Bool) :
    (compile source store printCode).store.natives = store.natives := by
  have h := (Keeps.modify (r := SameNatives) Lasting.advance).seq
    ((keeps_script (TokenStream.ofSource source).lexemes.length).seq keeps_finishFunction)
  exact h (.start (TokenStream.ofSource source) store printCode)

theorem result_eq_ok : (compile source store printCode).result = .ok r ↔
    ¬Failed ((wholeScript (TokenStream.ofSource source).lexemes.length).run
      (.start (TokenStream.ofSource source) store printCode)).2 ∧
    ((wholeScript (TokenStream.ofSource source).lexemes.length).run
      (.start (TokenStream.ofSource source) store printCode)).1 = r := by
  generalize hrun : (wholeScript (TokenStream.ofSource source).lexemes.length).run
    (.start (TokenStream.ofSource source) store printCode) = p
  obtain ⟨script, s⟩ := p
  simp only [compile, hrun, Failed, not_not, Array.isEmpty_iff]
  by_cases he : s.errors = #[] <;> simp [he]

theorem result_eq_error {es : List CompileError} : (compile source store printCode).result = .error es ↔
    Failed ((wholeScript (TokenStream.ofSource source).lexemes.length).run
      (.start (TokenStream.ofSource source) store printCode)).2 ∧
    ((wholeScript (TokenStream.ofSource source).lexemes.length).run
      (.start (TokenStream.ofSource source) store printCode)).2.errors.toList = es := by
  generalize hrun : (wholeScript (TokenStream.ofSource source).lexemes.length).run
    (.start (TokenStream.ofSource source) store printCode) = p
  obtain ⟨script, s⟩ := p
  simp only [compile, hrun, Failed, Array.isEmpty_iff]
  by_cases he : s.errors = #[] <;> simp [he]

/-- What is accepted is in the language. -/
theorem reads_of_ok (h : (compile source store printCode).result = .ok r) :
    ∃ ds, (TokenStream.ofSource source).Reads ds := by
  obtain ⟨hf, -⟩ := result_eq_ok.1 h
  obtain ⟨hfault, ds, hw, hp, hrun⟩ := wholeScript_inv (kind_ne_eof source) hf
  rw [hrun] at hf
  exact ⟨ds, hfault, hw, hp, (effect_writeProgram store printCode hfault (hw ▸ allSpelled_words source)).succeeds.1 hf⟩

/-- What is accepted is read as the program of its words. -/
theorem reads_of_words (hw : (TokenStream.ofSource source).words = Decl.listWords ds) (hp : IsProgram ds)
    (h : (compile source store printCode).result = .ok r) : (TokenStream.ofSource source).Reads ds := by
  obtain ⟨hf, -⟩ := result_eq_ok.1 h
  obtain ⟨hfault, ds₀, hw₀, hp₀, hrun⟩ := wholeScript_inv (kind_ne_eof source) hf
  rw [hrun, run_writeProgram_eq hp₀ hp (hw₀.symm.trans hw) (kind_ne_eof source) hfault hw₀] at hf
  refine ⟨hfault, hw, hp, (effect_writeProgram store printCode hfault ?_).succeeds.1 hf⟩
  exact hw ▸ allSpelled_words source

/-- What is in the language is accepted, and its functions are in the store. -/
theorem compile_of_reads (h : (TokenStream.ofSource source).Reads ds) (store : Store) (printCode : Bool) :
    ∃ r, (compile source store printCode).result = .ok r ∧
      (compile source store printCode).defect = none ∧
      store.Gains ds r (compile source store printCode).store := by
  have heffect := effect_writeProgram store printCode h.faultless (h.words ▸ allSpelled_words source)
  have hf := heffect.succeeds.2 h.legal
  have hrun := run_wholeScript (kind_ne_eof source) h.faultless h.words h.program hf
  refine ⟨_, result_eq_ok.2 ⟨hrun ▸ hf, rfl⟩, ?_⟩
  have hresult := heffect.result h.legal
  rw [← hrun] at hresult
  exact hresult

/-- Exactly the sources of the language are accepted, whatever the store has in it, and then nothing was
wrongly taken for granted. -/
theorem compile_ok_iff (source : String) (store : Store) (printCode : Bool) :
    ((∃ r, (compile source store printCode).result = .ok r) ↔
        ∃ ds, (TokenStream.ofSource source).Reads ds) ∧
      ∀ r, (compile source store printCode).result = .ok r →
        (compile source store printCode).defect = none := by
  refine ⟨⟨fun ⟨r, h⟩ => reads_of_ok h, fun ⟨ds, h⟩ => ?_⟩, fun r h => ?_⟩
  · obtain ⟨r, hr, -⟩ := compile_of_reads h store printCode
    exact ⟨r, hr⟩
  · obtain ⟨ds, hreads⟩ := reads_of_ok h
    obtain ⟨-, -, hdefect, -⟩ := compile_of_reads hreads store printCode
    exact hdefect

end Compile
end StackScript
