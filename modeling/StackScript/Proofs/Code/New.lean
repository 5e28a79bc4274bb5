import StackScript.Proofs.Code.Program
import StackScript.Proofs.Compiler.Respelled

/-! What a compilation does not depend on: the functions that the store had before. The functions that it adds
refer to none of them. -/
namespace StackScript
open Compiler

/-- The functions that are added to a store correspond to themselves. -/
def Pairing.from_ (n : Nat) : Pairing where
  pairs f g := f = g ∧ n ≤ f.index
  unique := by
    rintro f _ f' _ ⟨rfl, -⟩ ⟨rfl, -⟩
    exact Iff.rfl
  lines := False

theorem alikeStates_start {source source' : TokenStream} (store : Store) (printCode : Bool)
    (hs : source.IsFaultless) (ht : source'.IsFaultless) :
    AlikeStates (.from_ store.functions.size) (.start source store printCode) (.start source' store printCode) where
  source := False.elim
  faultless _ := ⟨(describes_start hs).faultless, (describes_start ht).faultless⟩
  recovering := rfl
  failed := Iff.rfl
  draft := ⟨.none, rfl, ⟨rfl, .nil, False.elim⟩, rfl, rfl, .nil⟩
  store := by
    refine ⟨rfl, ?_, fun i => ⟨rfl, Nat.le_add_right _ _⟩⟩
    rintro f _ ⟨rfl, hf⟩
    have hnone : store.function? f = none := Array.getElem?_eq_none hf
    show Option.Rel _ (store.function? f) (store.function? f)
    rw [hnone]
    exact .none

theorem exists_of_forall₂ {α β : Type} {R : α → β → Prop} {xs : List α} {ys : List β} (h : List.Forall₂ R xs ys)
    {x : α} (hx : x ∈ xs) : ∃ y, R x y := by
  induction h with
  | nil => cases hx
  | @cons a b _ _ hab _ ih =>
    rcases List.mem_cons.1 hx with rfl | hx
    · exact ⟨b, hab⟩
    · exact ih hx

/-- New functions refer to new functions. -/
theorem Pairing.AlikeStores.le_of_constant {n : Nat} {s t : Store} (h : (Pairing.from_ n).AlikeStores s t)
    {g c : FunctionRef} {f : Function} (hg : n ≤ g.index) (hf : s.function? g = some f)
    (hc : .function c ∈ f.bytecode.constants) : n ≤ c.index := by
  have hpair := h.functions (f := g) ⟨rfl, hg⟩
  rw [hf] at hpair
  generalize t.function? g = u at hpair
  cases hpair with
  | some halike =>
    obtain ⟨v, hv⟩ := exists_of_forall₂ halike.bytecode.constants (Array.mem_toList_iff.2 hc)
    cases hv with
    | function hpair => exact hpair.2

section Compile
variable {source : String} {store : Store} {printCode : Bool} {ds : List Decl} {r g : FunctionRef}

/-- The compilation of a source of the language follows its trees. -/
theorem run_of_reads (h : (TokenStream.ofSource source).Reads ds) (store : Store) (printCode : Bool) :
    (wholeScript (TokenStream.ofSource source).lexemes.length).run
      (.start (TokenStream.ofSource source) store printCode) =
      (Decl.writeProgram ds).run (.start (TokenStream.ofSource source) store printCode) :=
  run_wholeScript (kind_ne_eof source) h.faultless h.words h.program
    ((effect_writeProgram store printCode h.faultless (h.words ▸ allSpelled_words source)).succeeds.2 h.legal)

/-- The script and the functions among its constants, at any depth, have been added to the store. -/
theorem Store.Contains.isNew (h : (TokenStream.ofSource source).Reads ds)
    (hg : (compile source store printCode).store.Contains ⟨store.functions.size + Decl.listFunctionCount ds⟩ g) :
    store.functions.size ≤ g.index := by
  have hstart := alikeStates_start store printCode h.faultless h.faultless
  have halike := (parallel_writeProgram not_false hstart ds).1.store
  rw [← run_of_reads h] at halike
  induction hg with
  | self => exact Nat.le_add_right _ _
  | constant _ hf hc ih => exact halike.le_of_constant ih hf hc

end Compile
end StackScript
