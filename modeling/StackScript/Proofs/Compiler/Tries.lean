import StackScript.Proofs.Compiler.Effect

/-! Actions that can fail in one way only: their first mistake is that a function has too many constants. What holds
behind them is put together as the actions are. -/
namespace StackScript.Compiler
variable {α β : Type} {a : Action α} {f : α → Action β} {s : State} {P : Prop} {Q Q' : α → State → Prop}
  {R : β → State → Prop}

/-- If there is a mistake at all, the first one is that a function has too many constants. -/
def Crowded (s : State) : Prop := ∀ e, s.errors[0]? = some e → e.mistake = .tooManyConstants

theorem crowded_of_not_failed (h : ¬Failed s) : Crowded s := by
  intro e he
  rw [Classical.not_not.1 (mt failed_iff.2 h)] at he
  cases he

theorem Crowded.report (h : Crowded s) (line : Nat) (place : Place) :
    Crowded (s.report line place .tooManyConstants) := by
  by_cases hf : Failed s
  · intro e he
    rw [(evolves_report s line place _).first hf] at he
    exact h e he
  · intro e he
    rw [State.report] at he
    split at he
    · exact h e he
    · rw [Failed, Classical.not_not] at hf
      simp only [hf, List.push_toArray, List.nil_append, List.getElem?_toArray, List.getElem?_cons_zero] at he
      exact Option.some.inj he ▸ rfl

/-- From the state the action makes no mistake but that there are too many constants, and if it does not make that one
either, `Q` holds of its result and of the state behind it. -/
structure Tries (a : Action α) (s : State) (Q : α → State → Prop) : Prop where
  crowded : Crowded (a.run s).2
  result : ¬Failed (a.run s).2 → Q (a.run s).1 (a.run s).2

namespace Tries

theorem mono (h : Tries a s Q) (hq : ∀ x t, Q x t → Q' x t) : Tries a s Q' :=
  ⟨h.crowded, fun hn => hq _ _ (h.result hn)⟩

/-- An action after another is tried if the other one has made no mistake. -/
theorem bind [∀ x, Enduring (f x)] (ha : Tries a s Q) (hf : ∀ x t, Q x t → Tries (f x) t R) : Tries (a >>= f) s R := by
  by_cases hfail : Failed (a.run s).2
  · refine ⟨fun e he => ?_, fun hn => absurd hfail (Enduring.keeps.not_failed hn)⟩
    rw [run_bind, Enduring.keeps.first hfail] at he
    exact ha.crowded e he
  · exact ⟨(hf _ _ (ha.result hfail)).crowded, (hf _ _ (ha.result hfail)).result⟩

theorem pure {x : α} (h : ¬Failed s) (hq : Q x s) : Tries (Pure.pure x : Action α) s Q :=
  ⟨crowded_of_not_failed h, fun _ => hq⟩

/-- What an action does is known if it is run. -/
theorem of_run {x : α} {t : State} (h : a.run s = (x, t)) (ht : ¬Failed t) (hq : Q x t) : Tries a s Q := by
  refine ⟨?_, fun _ => ?_⟩
  · rw [h]
    exact crowded_of_not_failed ht
  · rwa [h]

/-- Actions that do the same can be tried alike. -/
theorem of_run_eq {b : Action α} {t : State} (h : a.run s = b.run t) (hb : Tries b t Q) : Tries a s Q := by
  refine ⟨?_, fun hn => ?_⟩
  · rw [h]
    exact hb.crowded
  · rw [h] at hn ⊢
    exact hb.result hn

end Tries

/-- An action that makes no mistake can be tried. -/
theorem Effect.tries (h : Effect P a s Q) (hp : P) : Tries a s Q :=
  ⟨crowded_of_not_failed (h.succeeds.2 hp), fun _ => h.result hp⟩

/-- What is known of an action that is tried holds as well if it makes no mistake. -/
theorem Tries.also (h : Tries a s Q) (he : Effect P a s Q') : Tries a s fun x t => Q x t ∧ Q' x t :=
  ⟨h.crowded, fun hn => ⟨h.result hn, he.of_not_failed hn⟩⟩

end StackScript.Compiler
