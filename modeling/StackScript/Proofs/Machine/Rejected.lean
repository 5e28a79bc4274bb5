import StackScript.Proofs.Machine.Replay

/-! Sources that are rejected leave nothing behind that can be seen: a session with such sources goes like the same
session without them. -/
namespace StackScript

/-- What is rejected, by some compilation at least. -/
def Rejected (source : String) : Prop :=
  ∃ errors store printCode, (compile source store printCode).result = .error errors

/-- No store makes up for the mistakes in a source. -/
theorem Rejected.result {source : String} (h : Rejected source) (store : Store) (printCode : Bool) :
    ∃ errors, (compile source store printCode).result = .error errors := by
  obtain ⟨errors, store', printCode', herror⟩ := h
  cases hresult : (compile source store printCode).result with
  | error errors => exact ⟨errors, rfl⟩
  | ok r =>
    obtain ⟨ds, hreads⟩ := reads_of_ok hresult
    obtain ⟨r', hok, -⟩ := compile_of_reads hreads store' printCode'
    rw [hok] at herror
    cases herror

/-- What can be seen of a machine from outside: its console, but for listings and traces, and its global variables as they
are displayed. -/
structure View where
  console : Console
  globals : String → Option (Option String)

/-- A source for a machine to run, and whether it has been put in between others. -/
structure Request where
  source : String
  extra : Bool

namespace Machine
variable {p : Pairing} {m n : Machine}

def view (m : Machine) : View := ⟨m.console.visible, fun x => (m.global? x).map m.store.display?⟩

/-- What is seen while a machine runs sources one after another: the outcome of each run with the view behind it, extra
sources left out. At the end, and where a run is not over after a number of steps, there is a view without an outcome. -/
def session (steps : Nat) : List Request → Machine → List (Option Outcome × View)
  | [], m => [(none, m.view)]
  | r :: rest, m =>
    match m.interpret steps r.source with
    | some (outcome, m') =>
      if r.extra then session steps rest m' else (some outcome, m'.view) :: session steps rest m'
    | none => [(none, ((m.reached r.source steps).getD m).view)]

theorem view_eq (h : AlikeMachines p m n) : m.view = n.view := by
  have hglobals (x : String) : (m.global? x).map m.store.display? = (n.global? x).map n.store.display? := by
    have hrel := h.globals x
    generalize m.global? x = v at hrel
    generalize n.global? x = w at hrel
    cases hrel with
    | none => rfl
    | some hvw => exact congrArg some (h.store.display?_eq hvw)
  rw [view, view, h.console, funext hglobals]

theorem interpret_rejected {source : String} {errors : List CompileError} (steps : Nat)
    (h : (compile source m.store m.config.printCode).result = .error errors) :
    m.interpret steps source =
      some (.failure (.rejected errors), m.accept (compile source m.store m.config.printCode)) := by
  unfold interpret start
  simp only [defect_compile, h]

/-- A machine at rest that has rejected a source is like the machines that it was like before. -/
theorem alike_accept (hp : p.lines) (h : AlikeMachines p m n) (hm : m.Resting) (hn : n.Resting) (source : String) :
    ∃ q : Pairing, q.lines ∧ AlikeMachines q m (n.accept (compile source n.store n.config.printCode)) := by
  have hext := compile_extends source n.store n.config.printCode
  refine alike_resting hp hm (hn.accept source _) h.config ?_ h.uniform (fun {f g} hfg hf => ?_) (fun x => ?_) h.console
  · exact h.store.natives.trans (natives_compile _ _ _).symm
  · have hrel := h.store.functions hfg
    cases hf with
    | function hr =>
      rw [hr] at hrel ⊢
      generalize hg : n.store.function? g = y at hrel
      cases hrel with
      | some halike =>
        have hg' : (n.accept (compile source n.store n.config.printCode)).store.function? g = _ := hext.function hg
        rw [hg']
        exact .some (halike.mono (.refl _) hext)
  · have hglobal : (n.accept (compile source n.store n.config.printCode)).global? x = n.global? x :=
      global?_extends hext h.named' x
    rw [hglobal]
    exact rel_imp (fun _ _ => Pairing.Alike.mono (.refl _) hext) (h.globals x)

/-- Extra sources that are rejected change nothing of what is seen on another machine that is alike. -/
theorem session_alike (steps : Nat) {requests : List Request} (hrejected : ∀ r ∈ requests, r.extra → Rejected r.source)
    (hp : p.lines) (h : AlikeMachines p m n) (hm : m.Resting) (hn : n.Resting) :
    session steps requests n = session steps (requests.filter fun r => !r.extra) m := by
  induction requests generalizing p m n with
  | nil => rw [List.filter_nil, session, session, view_eq h]
  | cons r rest ih =>
    have hrest : ∀ r ∈ rest, r.extra → Rejected r.source := fun r hr => hrejected r (List.mem_cons_of_mem _ hr)
    by_cases hextra : r.extra
    · obtain ⟨errors, herrors⟩ := (hrejected r List.mem_cons_self hextra).result n.store n.config.printCode
      obtain ⟨q, hq, halike⟩ := alike_accept hp h hm hn r.source
      rw [List.filter_cons_of_neg (by simp [hextra]), session, interpret_rejected steps herrors]
      dsimp only
      rw [if_pos hextra]
      exact ih hrest hq halike hm (hn.accept _ _)
    · have hinterpret := interpret_alike hp h steps r.source
      have hreached := reached_alike hp h r.source steps
      rw [List.filter_cons_of_pos (by simp [hextra]), session, session]
      generalize hx : m.interpret steps r.source = x at hinterpret ⊢
      generalize hy : n.interpret steps r.source = y at hinterpret ⊢
      cases hinterpret with
      | none =>
        dsimp only
        generalize m.reached r.source steps = a at hreached ⊢
        generalize n.reached r.source steps = b at hreached ⊢
        cases hreached with
        | none => rw [Option.getD_none, Option.getD_none, view_eq h]
        | some halike => rw [Option.getD_some, Option.getD_some, view_eq halike]
      | @some x y hxy =>
        obtain ⟨outcome, m'⟩ := x
        obtain ⟨outcome', n'⟩ := y
        obtain ⟨rfl, halike⟩ := hxy
        dsimp only
        rw [if_neg hextra, if_neg hextra, view_eq halike, ih hrest hp halike (hm.interpret hx) (hn.interpret hy)]

/-- A rejected source leaves no trace that can be seen. Whatever a machine has been through, the source is answered with
its mistakes; stack, calls, global variables and the console stay, listings apart, and the store keeps all that it holds.
A session with such sources put in anywhere goes like the session without them: outcomes, traces and error texts, what is
read and written, and the global variables as they are displayed. -/
theorem rejected_unseen (hm : m.Idle) (uniform : ∀ f ∈ m.store.natives, IsUniform f.call) :
    (∀ source, Rejected source → ∀ steps, ∃ e es m',
      m.interpret steps source = some (.failure (.rejected (e :: es)), m') ∧
        m'.stack = m.stack ∧ m'.frames = m.frames ∧ m'.globals = m.globals ∧ m'.config = m.config ∧
          m'.console.visible = m.console.visible ∧ m.store.Extends m'.store) ∧
      ∀ steps requests, (∀ r ∈ requests, r.extra → Rejected r.source) →
        session steps requests m = session steps (requests.filter fun r => !r.extra) m := by
  refine ⟨fun source hsource steps => ?_, fun steps requests hrejected => ?_⟩
  · obtain ⟨errors, herrors⟩ := hsource.result m.store m.config.printCode
    obtain ⟨r, hr⟩ | ⟨e, es, hes⟩ := result_compile source m.store m.config.printCode
    · rw [hr] at herrors
      cases herrors
    · exact ⟨e, es, _, interpret_rejected steps hes, rfl, rfl, rfl, rfl, rfl, compile_extends _ _ _⟩
  · obtain ⟨q, hq, halike⟩ := hm.resting.alike_self uniform
    exact session_alike steps hrejected hq halike hm.resting hm.resting

/-- What all mathematical functions have, all host functions of a new machine have. -/
theorem natives_new {P : (List Value → Value) → Prop} (h : ∀ spec ∈ mathNatives, P spec.call) (config : Config)
    (console : Console) : ∀ f ∈ (Machine.new config console).store.natives, P f.call := by
  have hfold : ∀ (specs : List NativeSpec) (m : Machine), (∀ spec ∈ specs, P spec.call) →
      (∀ f ∈ m.store.natives, P f.call) → ∀ f ∈ (specs.foldl Machine.defineNative m).store.natives, P f.call := by
    intro specs
    induction specs with
    | nil => exact fun m _ hm => hm
    | cons spec specs ih =>
      refine fun m hspecs hm => ih _ (fun k hk => hspecs k (by simp [hk])) fun f hf => ?_
      obtain hf | rfl := Array.mem_push.1 hf
      · exact hm f hf
      · exact hspecs spec (by simp)
  exact hfold mathNatives _ h fun f hf => absurd hf (Array.not_mem_empty f)

/-- A session on a new machine. -/
theorem rejected_unseen_between :
    Rejected "uwu y := (" ∧
      session 99 [⟨"uwu x := \"a\"", false⟩, ⟨"uwu y := (", true⟩, ⟨"ouo x >>", false⟩] (.new {} {}) =
        session 99 [⟨"uwu x := \"a\"", false⟩, ⟨"ouo x >>", false⟩] (.new {} {}) := by
  have hrejected : Rejected "uwu y := (" :=
    ⟨[⟨1, .sourceEnd, .expectedExpression⟩], {}, false, by decide +kernel⟩
  refine ⟨hrejected, (rejected_unseen (.new {} {}) (natives_new (fun _ => isUniform_of_mem_mathNatives) {} {})).2 99
    [⟨"uwu x := \"a\"", false⟩, ⟨"uwu y := (", true⟩, ⟨"ouo x >>", false⟩] fun r hr hextra => ?_⟩
  simp only [List.mem_cons, List.not_mem_nil, or_false] at hr
  obtain rfl | rfl | rfl := hr
  · cases hextra
  · exact hrejected
  · cases hextra

end Machine
end StackScript
