import StackScript.Proofs.Machine.History

/-! Code that has been compiled never leaves a machine without a rule. Whatever a machine has been through, every step of
every run goes on, ends the script or fails with an error of the language. -/
namespace StackScript
namespace Machine
variable {m a b : Machine}

/-- What a run comes to after its last step: a machine with a rule for the step tells of an error of the language, or of
none. -/
theorem conclude_cases (ha : a.Running) {halt : Halt} (h : cycle.run a = .error halt b) {outcome : Outcome}
    (hend : b.conclude halt = (outcome, m)) :
    outcome = .ok ∨ ∃ e trace, outcome = .failure (.failed e trace) ∧ ∀ byte, e ≠ .unknownOpcode byte := by
  obtain ⟨rfl, -⟩ | ⟨e, rfl, -, hknown, -⟩ := ha.last h
  · simp only [conclude] at hend
    split at hend
    · exact .inl (Prod.mk.inj hend).1.symm
    · exact .inr ⟨_, _, (Prod.mk.inj hend).1.symm, fun _ => RuntimeError.noConfusion⟩
  · exact .inr ⟨e, _, (Prod.mk.inj hend).1.symm, hknown⟩

/-- No source brings a machine to a step that it has no rule for, or to a byte that is no operation, whatever sources
have been given to it before and however they have ended. When a run fails, its active functions have names that are
known, so that there is a trace. -/
theorem never_stuck (hm : m.Idle) (source : String) :
    (compile source m.store m.config.printCode).defect = none ∧
    (∀ reason m', m.start source ≠ .error (.stuck reason, m')) ∧
    (∀ a halt a', m.Reaches source a → cycle.run a = .error halt a' →
      (∀ reason, halt ≠ .stuck reason) ∧ (∀ byte, halt ≠ .failed (.unknownOpcode byte)) ∧
        ∀ f ∈ a'.frames, ∀ name, f.function.name = some name → (a'.store.text? name).isSome) ∧
    ∀ steps outcome m', m.interpret steps source = some (outcome, m') →
      (∀ reason, outcome ≠ .stuck reason) ∧
        ∀ byte trace, outcome ≠ .failure (.failed (.unknownOpcode byte) trace) := by
  refine ⟨defect_compile _ _ _, fun reason m' h => ?_, fun a halt a' ha h => ?_, fun steps outcome m' h => ?_⟩
  · have hstarts := starts_start hm.resting source
    rw [h] at hstarts
    cases hstarts
  · obtain ⟨rfl, hrest⟩ | ⟨e, rfl, -, hknown, hnamed⟩ := (hm.reaches ha).1.last h
    · exact ⟨fun _ => Halt.noConfusion, fun _ => Halt.noConfusion, fun f hf => by
        rw [hrest.frames] at hf
        exact absurd hf List.not_mem_nil⟩
    · exact ⟨fun _ => Halt.noConfusion, fun byte he => hknown byte (Halt.failed.inj he), hnamed⟩
  · obtain ⟨-, ⟨errors, rfl⟩ | ⟨rfl, -⟩⟩ | ⟨a, halt, b, -, hrunning, hlast, hend⟩ := hm.resting.interpret_cases h
    · exact ⟨fun _ => Outcome.noConfusion, fun _ _ hout => Failure.noConfusion (Outcome.failure.inj hout)⟩
    · refine ⟨fun _ => Outcome.noConfusion, fun _ _ hout => ?_⟩
      exact RuntimeError.noConfusion (Failure.failed.inj (Outcome.failure.inj hout)).1
    · obtain rfl | ⟨e, trace, rfl, hknown⟩ := conclude_cases hrunning hlast hend
      · exact ⟨fun _ => Outcome.noConfusion, fun _ _ => Outcome.noConfusion⟩
      · exact ⟨fun _ => Outcome.noConfusion, fun byte _ hout =>
          hknown byte (Failure.failed.inj (Outcome.failure.inj hout)).1⟩

/-- A machine that has been given a source with a mistake in it, and then one that fails. -/
theorem never_stuck_behind_failures :
    ∃ m₁ m₂ m₃, (Machine.new {} {}).interpret 9 ")" =
        some (.failure (.rejected [⟨1, .lexeme ")", .expectedExpression⟩]), m₁) ∧
      m₁.interpret 9 "ouo x >>" = some (.failure (.failed (.undefinedVariable "x") [⟨1, none⟩]), m₂) ∧
      m₂.interpret 99 "fwun f(n) [: out n >> :] ouo f(\"a\") >>" = some (.ok, m₃) ∧
      ∀ a halt a', m₂.Reaches "fwun f(n) [: out n >> :] ouo f(\"a\") >>" a → cycle.run a = .error halt a' →
        ∀ reason, halt ≠ .stuck reason := by
  have hruns : (((Machine.new {} {}).interpret 9 ")").bind fun p => (p.2.interpret 9 "ouo x >>").bind fun q =>
      (q.2.interpret 99 "fwun f(n) [: out n >> :] ouo f(\"a\") >>").map fun r => (p.1, q.1, r.1)) =
      some (.failure (.rejected [⟨1, .lexeme ")", .expectedExpression⟩]),
        .failure (.failed (.undefinedVariable "x") [⟨1, none⟩]), .ok) := by decide +kernel
  obtain ⟨⟨o₁, m₁⟩, h₁, hruns⟩ := Option.bind_eq_some_iff.1 hruns
  obtain ⟨⟨o₂, m₂⟩, h₂, hruns⟩ := Option.bind_eq_some_iff.1 hruns
  obtain ⟨⟨o₃, m₃⟩, h₃, hview⟩ := Option.map_eq_some_iff.1 hruns
  simp only [Prod.mk.injEq] at hview
  obtain ⟨rfl, rfl, rfl⟩ := hview
  obtain ⟨-, -, hsteps, -⟩ := never_stuck (((Idle.new {} {}).interpret h₁).interpret h₂)
    "fwun f(n) [: out n >> :] ouo f(\"a\") >>"
  exact ⟨m₁, m₂, m₃, h₁, h₂, h₃, fun a halt a' ha h => (hsteps a halt a' ha h).1⟩

end Machine
end StackScript
