import StackScript.Proofs.Compiler.Alike

/-! Listings change nothing. Whether functions are listed while they are compiled makes no difference to the code, to
the store or to the mistakes that are found. -/
namespace StackScript
namespace Compiler
variable {α β : Type} {s t : State}

/-- A state without its listings. -/
def State.unlisted (s : State) : State := { s with printCode := false, listing := "", defect := none }

theorem unlisted_eq (h : s.unlisted = t.unlisted) :
    t = { s with printCode := t.printCode, listing := t.listing, defect := t.defect } := by
  cases s
  cases t
  simp only [State.unlisted, State.mk.injEq] at h
  simp [h]

/-- What is listed makes no difference to what an action comes to. -/
def Unlisted (a : Action α) : Prop :=
  ∀ s t : State, s.unlisted = t.unlisted → (a.run s).1 = (a.run t).1 ∧ (a.run s).2.unlisted = (a.run t).2.unlisted

namespace Unlisted

/-- It is enough to look at states that only differ in what is listed. -/
theorem of_forall {a : Action α} (h : ∀ (s : State) (p : Bool) (l : String) (d : Option Defect),
    (a.run s).1 = (a.run { s with printCode := p, listing := l, defect := d }).1 ∧
      (a.run s).2.unlisted = (a.run { s with printCode := p, listing := l, defect := d }).2.unlisted) : Unlisted a := by
  intro s t hst
  rw [unlisted_eq hst]
  exact h s t.printCode t.listing t.defect

theorem pure (x : α) : Unlisted (Pure.pure x : Action α) := fun _ _ h => ⟨rfl, h⟩

theorem bind {a : Action α} {f : α → Action β} (ha : Unlisted a) (hf : ∀ x, Unlisted (f x)) : Unlisted (a >>= f) := by
  intro s t hst
  obtain ⟨hresult, hstate⟩ := ha s t hst
  rw [run_bind, run_bind, hresult]
  exact hf _ _ _ hstate

theorem report (s : State) (p : Bool) (l : String) (d : Option Defect) (line : Nat) (place : Place) (m : Mistake) :
    (s.report line place m).unlisted =
      (State.report { s with printCode := p, listing := l, defect := d } line place m).unlisted := by
  unfold State.report
  split <;> rfl

theorem fetch (ls : List Lexeme) (h : s.unlisted = t.unlisted) :
    (State.fetch ls s).unlisted = (State.fetch ls t).unlisted := by
  induction ls generalizing s t with
  | nil =>
    rw [unlisted_eq h]
    rfl
  | cons lexeme ls ih =>
    cases lexeme with
    | token token =>
      rw [unlisted_eq h]
      rfl
    | fault e line =>
      refine ih ?_
      rw [unlisted_eq h]
      exact report s _ _ _ _ _ _

end Unlisted

instance : ClosedActions fun _ => Unlisted where
  pure := .pure
  bind := .bind
  mistake m := .of_forall fun s p l d => ⟨rfl, Unlisted.report s p l d _ _ m⟩
  mistakeAhead m := .of_forall fun s p l d => ⟨rfl, Unlisted.report s p l d _ _ m⟩
  currentKind := .of_forall fun _ _ _ _ => ⟨rfl, rfl⟩
  advance := .of_forall fun s _ _ _ => ⟨rfl, Unlisted.fetch s.upcoming rfl⟩
  previousToken := .of_forall fun _ _ _ _ => ⟨rfl, rfl⟩
  look hd hf := fun s t hst => by
    have hdraft : s.draft = t.draft := show s.unlisted.draft = t.unlisted.draft by rw [hst]
    rw [run_bind, run_bind, run_get, run_get]
    dsimp only
    rw [← hd hdraft]
    exact hf s s t hst
  draft f := .of_forall fun _ _ _ _ => ⟨rfl, rfl⟩
  ensure b defect := by
    unfold ensure
    split
    · exact .pure _
    · exact .of_forall fun _ _ _ _ => ⟨rfl, rfl⟩
  intern text := .of_forall fun _ _ _ _ => ⟨rfl, rfl⟩
  listFunction := .of_forall fun s p l d => by
    obtain ⟨l', x, hs⟩ := run_listFunction s
    obtain ⟨l'', y, ht⟩ := run_listFunction { s with printCode := p, listing := l, defect := d }
    rw [hs, ht]
    exact ⟨rfl, rfl⟩
  addFunction := .of_forall fun _ _ _ _ => ⟨rfl, rfl⟩
  resume ha := .of_forall fun s p l d => by
    rw [run_bind, run_bind, run_get, run_get]
    dsimp only
    split
    · exact ha _ _ rfl
    · exact ⟨rfl, rfl⟩

end Compiler

/-- What a source is compiled to does not depend on whether it is listed. -/
theorem compile_unlisted (source : String) (store : Store) (p q : Bool) :
    (compile source store p).result = (compile source store q).result ∧
      (compile source store p).store = (compile source store q).store := by
  obtain ⟨hscript, hstate⟩ := Compiler.closed_wholeScript (fun _ => Compiler.Unlisted)
    (TokenStream.ofSource source).lexemes.length (.start (.ofSource source) store p)
      (.start (.ofSource source) store q) rfl
  have herrors := congrArg Compiler.State.errors hstate
  have hstore := congrArg Compiler.State.store hstate
  generalize hx : (Compiler.wholeScript (TokenStream.ofSource source).lexemes.length).run
    (.start (.ofSource source) store p) = x at hscript herrors hstore
  generalize hy : (Compiler.wholeScript (TokenStream.ofSource source).lexemes.length).run
    (.start (.ofSource source) store q) = y at hscript herrors hstore
  obtain ⟨script, s⟩ := x
  obtain ⟨script', t⟩ := y
  obtain rfl : script = script' := hscript
  replace herrors : s.errors = t.errors := herrors
  simp only [compile, hx, hy, herrors]
  exact ⟨trivial, hstore⟩

end StackScript
