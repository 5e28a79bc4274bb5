import Mathlib.Order.Defs.Unbundled
import StackScript.Compiler.Program
import StackScript.Proofs.Store.Extends

/-! Runs of compilation actions. A relation between the states before and after is kept by an action if
every run of it relates them; relations that are kept step by step are kept by the whole. -/
namespace StackScript.Compiler
variable {α β : Type} {r : State → State → Prop}

theorem run_bind (a : Action α) (f : α → Action β) (s : State) :
    (a >>= f).run s = (f (a.run s).1).run (a.run s).2 := rfl

theorem run_assoc {γ : Type} (a : Action α) (f : α → Action β) (g : β → Action γ) (s : State) :
    ((a >>= f) >>= g).run s = (a >>= fun x => f x >>= g).run s := rfl

theorem run_unit (a : Action Unit) (s : State) : a.run s = ((), (a.run s).2) := rfl

theorem run_pure (x : α) (s : State) : (pure x : Action α).run s = (x, s) := rfl

theorem run_get (s : State) : (get : Action State).run s = (s, s) := rfl

theorem run_modify (f : State → State) (s : State) : (modify f : Action Unit).run s = ((), f s) := rfl

theorem run_advance (s : State) : advance.run s = ((), s.advance) := rfl

theorem run_advance_bind (f : Unit → Action β) (s : State) : (advance >>= f).run s = (f ()).run s.advance := rfl

theorem run_currentKind (s : State) : currentKind.run s = (s.current.kind, s) := rfl

theorem run_previousToken (s : State) : previousToken.run s = (s.previous, s) := rfl

theorem run_codeSize (s : State) : codeSize.run s = (s.draft.bytecode.size, s) := rfl

theorem run_emit (op : Opcode) (s : State) : (emit op).run s = ((), s.emitByte op.toByte) := rfl

theorem run_check (k : TokenKind) (s : State) : (check k).run s = (decide (s.current.kind = k), s) :=
  rfl

theorem run_accept_of_eq {k : TokenKind} {s : State} (h : s.current.kind = k) :
    (accept k).run s = (true, s.advance) := by
  simp only [accept, run_bind, run_check, h, decide_true, if_true, run_advance, run_pure]

theorem run_accept_of_ne {k : TokenKind} {s : State} (h : s.current.kind ≠ k) :
    (accept k).run s = (false, s) := by
  simp only [accept, run_bind, run_check, h, decide_false, Bool.false_eq_true, if_false, run_pure]

theorem run_listFunction (s : State) : ∃ l x, listFunction.run s = ((), { s with listing := l, defect := x }) := by
  rw [listFunction, run_bind, run_get]
  dsimp only
  by_cases hc : s.printCode ∧ s.errors.isEmpty
  · rw [if_pos hc, run_bind, ensure]
    cases (listing? s.store s.draft.toFunction).isSome <;> exact ⟨_, _, rfl⟩
  · rw [if_neg hc]
    exact ⟨_, _, rfl⟩

theorem run_emitConstant_of_lt {v : Value} {s : State} (h : s.draft.bytecode.constants.size < Bytecode.maxConstants) :
    ((emitConstant v).run s).2 =
      ((({ s with draft := { s.draft with bytecode :=
        { s.draft.bytecode with constants := s.draft.bytecode.constants.push v } } } : State).emitByte
          Opcode.constant.toByte).emitByte s.draft.bytecode.constants.size.toUInt8) := by
  have hadd : s.draft.bytecode.addConstant? v = some (s.draft.bytecode.constants.size.toUInt8,
      { s.draft.bytecode with constants := s.draft.bytecode.constants.push v }) := by
    rw [Bytecode.addConstant?, if_pos h]
  rw [emitConstant, run_bind, poolConstant, run_bind, run_get]
  dsimp only
  rw [hadd]
  rfl

theorem run_emitConstant_of_not_lt {v : Value} {s : State}
    (h : ¬s.draft.bytecode.constants.size < Bytecode.maxConstants) :
    ((emitConstant v).run s).2 =
      ((s.report s.previous.line (.ofToken s.previous) .tooManyConstants).emitByte
        Opcode.constant.toByte).emitByte 0 := by
  have hadd : s.draft.bytecode.addConstant? v = none := by rw [Bytecode.addConstant?, if_neg h]
  rw [emitConstant, run_bind, poolConstant, run_bind, run_get]
  dsimp only
  rw [hadd]
  rfl

/-- Every run of the action relates the states before and after. -/
def Keeps (r : State → State → Prop) (a : Action α) : Prop := ∀ s, r s (a.run s).2

namespace Keeps

theorem pure [Std.Refl r] (x : α) : Keeps r (Pure.pure x : Action α) := fun s => Std.Refl.refl s

theorem get [Std.Refl r] : Keeps r (MonadState.get : Action State) := fun s => Std.Refl.refl s

theorem bind [IsTrans State r] {a : Action α} {f : α → Action β} (ha : Keeps r a)
    (hf : ∀ x, Keeps r (f x)) : Keeps r (a >>= f) := fun s =>
  IsTrans.trans _ _ _ (ha s) (hf _ _)

theorem seq [IsTrans State r] {a : Action α} {b : Action β} (ha : Keeps r a) (hb : Keeps r b) :
    Keeps r (a >>= fun _ => b) := ha.bind fun _ => hb

theorem ite {a b : Action α} (c : Prop) [Decidable c] (ha : Keeps r a) (hb : Keeps r b) :
    Keeps r (if c then a else b) := by
  split
  · exact ha
  · exact hb

/-- An action that is left out in one case, with what is done after it in both. -/
theorem branch [IsTrans State r] {a : Action Unit} {k : Unit → Action β} (c : Prop) [Decidable c]
    (ha : Keeps r a) (hk : ∀ x, Keeps r (k x)) : Keeps r (if c then a >>= k else k ()) :=
  .ite c (ha.bind hk) (hk ())

theorem modify {f : State → State} (h : ∀ s, r s (f s)) : Keeps r (modify f : Action Unit) := h

theorem modifyGet {f : State → α × State} (h : ∀ s, r s (f s).2) :
    Keeps r (MonadStateOf.modifyGet f : Action α) := h

end Keeps

/-- Relations that do not look at the function being compiled nor at the listings, and that hold if the
store grows by what programs create. -/
class Tame (r : State → State → Prop) : Prop extends Std.Refl r, IsTrans State r where
  report : ∀ s line place m, r s (s.report line place m)
  rest : ∀ s draft {store} listing defect, s.store.Extends store → store.natives = s.store.natives →
    r s { s with draft, store, listing, defect }

/-- Tame relations that reading a token and going on after a mistake keep as well. -/
class Lasting (r : State → State → Prop) : Prop extends Tame r where
  advance : ∀ s, r s s.advance
  resume : ∀ s, r s { s with recovering := false }

/-! ### Tokens stay where they are -/

/-- No token is read between the states. -/
structure SameTokens (s t : State) : Prop where
  current : t.current = s.current
  upcoming : t.upcoming = s.upcoming
  previous : t.previous = s.previous
  lastLine : t.lastLine = s.lastLine

instance : Tame SameTokens where
  refl _ := ⟨rfl, rfl, rfl, rfl⟩
  trans _ _ _ h k := ⟨k.1.trans h.1, k.2.trans h.2, k.3.trans h.3, k.4.trans h.4⟩
  report s line place m := by unfold State.report; split <;> exact ⟨rfl, rfl, rfl, rfl⟩
  rest _ _ _ _ _ _ _ := ⟨rfl, rfl, rfl, rfl⟩

/-! ### Mistakes stay -/

/-- A mistake has been reported. -/
def Failed (s : State) : Prop := s.errors ≠ #[]

/-- No mistake has been reported, and the next one will be. -/
structure Ready (s : State) : Prop where
  recovering : s.recovering = false
  errors : s.errors = #[]

/-- A faulty piece of source is still to be met. -/
def Faulty (s : State) : Prop := ∃ error line, .fault error line ∈ s.upcoming

theorem failed_iff {s : State} : Failed s ↔ s.errors[0]? ≠ none := by
  rw [Failed, ne_eq, ne_eq, Array.getElem?_eq_none_iff, Nat.le_zero, Array.size_eq_zero_iff]

/-- The first mistake stays the first, and a state without a mistake gets one or goes on as it is; a faulty
piece ahead stays ahead until it is met, which is a mistake. -/
structure Evolves (s t : State) : Prop where
  first : Failed s → t.errors[0]? = s.errors[0]?
  ready : Ready s → (Ready t ∧ (Faulty s → Faulty t)) ∨ Failed t

/-- Mistakes stay. -/
theorem Evolves.failed {s t : State} (h : Evolves s t) (hs : Failed s) : Failed t := by
  rw [failed_iff, h.first hs]
  exact failed_iff.1 hs

theorem Evolves.trans {s t u : State} (h : Evolves s t) (k : Evolves t u) : Evolves s u := by
  refine ⟨fun hs => (k.first (h.failed hs)).trans (h.first hs), fun hs => ?_⟩
  rcases h.ready hs with ⟨ht, hf⟩ | hf
  · rcases k.ready ht with ⟨hu, hg⟩ | hg
    · exact .inl ⟨hu, hg ∘ hf⟩
    · exact .inr hg
  · exact .inr (k.failed hf)

theorem Evolves.of_not_failed {s t : State} (h : Evolves s t) (hs : Ready s) (ht : ¬Failed t) :
    Ready t ∧ (Faulty s → Faulty t) := (h.ready hs).resolve_right ht

theorem failed_report {s : State} (h : Ready s) (line : Nat) (place : Place) (m : Mistake) :
    Failed (s.report line place m) := by
  simp [State.report, h.recovering, Failed]

theorem evolves_report (s : State) (line : Nat) (place : Place) (m : Mistake) :
    Evolves s (s.report line place m) := by
  refine ⟨fun h => ?_, fun h => .inr (failed_report h line place m)⟩
  unfold State.report
  split
  · rfl
  · exact Array.getElem?_push_lt (Array.size_pos_iff.2 h) |>.trans (Array.getElem?_eq_getElem _).symm

theorem first_fetch (ls : List Lexeme) (s : State) (h : Failed s) :
    (State.fetch ls s).errors[0]? = s.errors[0]? := by
  induction ls generalizing s with
  | nil => rfl
  | cons l ls ih =>
    cases l with
    | token t => rfl
    | fault e line =>
      have hr := evolves_report s line .unknown (.scan e)
      exact (ih _ (hr.failed h)).trans (hr.first h)

theorem failed_fetch (ls : List Lexeme) (s : State) (h : Failed s) : Failed (State.fetch ls s) := by
  rw [failed_iff, first_fetch ls s h]
  exact failed_iff.1 h

/-- Reading over a faulty piece is a mistake. -/
theorem ready_fetch (ls : List Lexeme) (s : State) (h : Ready s) :
    (Ready (State.fetch ls s) ∧
      ((∃ e line, .fault e line ∈ ls) → Faulty (State.fetch ls s))) ∨ Failed (State.fetch ls s) := by
  cases ls with
  | nil => exact .inl ⟨⟨h.1, h.2⟩, by simp⟩
  | cons l ls =>
    cases l with
    | token t => exact .inl ⟨⟨h.1, h.2⟩, by simp [State.fetch, Faulty]⟩
    | fault e line => exact .inr (failed_fetch ls _ (failed_report h _ _ _))

theorem evolves_advance (s : State) : Evolves s s.advance :=
  ⟨fun h => first_fetch _ _ h, fun h => ready_fetch _ _ ⟨h.1, h.2⟩⟩

instance : Lasting Evolves where
  refl _ := ⟨fun _ => rfl, fun h => .inl ⟨h, id⟩⟩
  trans _ _ _ := Evolves.trans
  report := evolves_report
  rest _ _ _ _ _ _ _ := ⟨fun _ => rfl, fun h => .inl ⟨⟨h.1, h.2⟩, id⟩⟩
  advance := evolves_advance
  resume _ := ⟨fun _ => rfl, fun h => .inl ⟨⟨rfl, h.2⟩, id⟩⟩

theorem Keeps.not_failed {a : Action α} {s : State} (ha : Keeps Evolves a)
    (h : ¬Failed (a.run s).2) : ¬Failed s := fun hs => h ((ha s).failed hs)

theorem Keeps.first {a : Action α} {s : State} (ha : Keeps Evolves a) (h : Failed s) :
    (a.run s).2.errors[0]? = s.errors[0]? := (ha s).first h

theorem Keeps.ready {a : Action α} {s : State} (ha : Keeps Evolves a) (hs : Ready s)
    (h : ¬Failed (a.run s).2) : Ready (a.run s).2 := ((ha s).of_not_failed hs h).1

/-- A mistake is reported unless one has been reported before. -/
theorem failed_mistakeAt {s : State} (h : Ready s ∨ Failed s) (t : Token) (m : Mistake) :
    Failed ((mistakeAt t m).run s).2 := by
  rcases h with h | h
  · exact failed_report h _ _ _
  · exact (evolves_report _ _ _ _).failed h

theorem failed_mistake {s : State} (h : Ready s ∨ Failed s) (m : Mistake) :
    Failed ((mistake m).run s).2 := failed_mistakeAt h s.previous m

theorem failed_mistakeAhead {s : State} (h : Ready s ∨ Failed s) (m : Mistake) :
    Failed ((mistakeAhead m).run s).2 := failed_mistakeAt h s.current m

theorem Ready.evolves {s t : State} (hs : Ready s) (h : Evolves s t) : Ready t ∨ Failed t :=
  (h.ready hs).imp_left And.left

/-! ### Stores grow -/

/-- Between the states the store has grown. -/
def Grows (s t : State) : Prop := s.store.Extends t.store

theorem store_report (s : State) (line : Nat) (place : Place) (m : Mistake) :
    (s.report line place m).store = s.store := by
  unfold State.report
  split <;> rfl

theorem store_fetch (ls : List Lexeme) (s : State) : (State.fetch ls s).store = s.store := by
  induction ls generalizing s with
  | nil => rfl
  | cons l ls ih =>
    cases l with
    | token t => rfl
    | fault e line => rw [State.fetch, ih, store_report]

instance : Lasting Grows where
  refl _ := .refl _
  trans _ _ _ := .trans
  report s line place m := by
    rw [Grows, store_report]
    exact .refl _
  rest _ _ _ _ _ h _ := h
  advance s := by
    rw [Grows, State.advance, store_fetch]
    exact .refl _
  resume _ := .refl _

/-- Between the states no function of the host has come in. -/
def SameNatives (s t : State) : Prop := t.store.natives = s.store.natives

instance : Lasting SameNatives where
  refl _ := rfl
  trans _ _ _ h k := k.trans h
  report s line place m := by rw [SameNatives, store_report]
  rest _ _ _ _ _ _ h := h
  advance s := by rw [SameNatives, State.advance, store_fetch]
  resume _ := rfl

/-! ### What actions do not see -/

/-- States of which the action sees the same go on alike, as far as it sees them. -/
def Blind (view : State → State) (a : Action α) : Prop :=
  ∀ s t, view s = view t → (a.run s).1 = (a.run t).1 ∧ view (a.run s).2 = view (a.run t).2

namespace Blind
variable {view : State → State}

/-- What can be read off from what is seen is the same in states of which the same is seen. -/
theorem eq_of_seen {γ : Type} (view : State → State) (q : State → γ) (hq : ∀ s, q (view s) = q s) {s t : State}
    (h : view s = view t) : q s = q t := (hq s).symm.trans ((congrArg q h).trans (hq t))

/-- It is enough that what comes of a state, as far as it is seen, is told by what is seen of the state. -/
theorem of_seen {a : Action α} (g : State → α × State) (h : ∀ s, ((a.run s).1, view (a.run s).2) = g (view s)) :
    Blind view a := fun s t hst => Prod.mk.inj ((h s).trans ((congrArg g hst).trans (h t).symm))

theorem modify {f : State → State} (g : State → State) (h : ∀ s, view (f s) = g (view s)) :
    Blind view (MonadState.modifyGet fun s => ((), f s) : Action Unit) :=
  of_seen (fun s => ((), g s)) fun s => Prod.ext rfl (h s)

theorem pure (x : α) : Blind view (Pure.pure x : Action α) := fun _ _ h => ⟨rfl, h⟩

theorem bind {a : Action α} {f : α → Action β} (ha : Blind view a) (hf : ∀ x, Blind view (f x)) :
    Blind view (a >>= f) := by
  intro s t hst
  obtain ⟨hresult, hstate⟩ := ha s t hst
  rw [run_bind, run_bind, hresult]
  exact hf _ _ _ hstate

/-- What is looked up decides what is done, if all of it is seen. -/
theorem get {f : State → Action α} (hf : ∀ {s t}, view s = view t → f s = f t) (h : ∀ s, Blind view (f s)) :
    Blind view (MonadState.get >>= f) := by
  intro s t hst
  rw [run_bind, run_bind, run_get, run_get, hf hst]
  exact h t s t hst

end Blind

end StackScript.Compiler
