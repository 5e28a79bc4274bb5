import StackScript.Proofs.Compiler.Unlisted
import StackScript.Proofs.Machine.Beside

/-! Machines beside each other keep pace. Whatever sources they are given, and whether or not their steps are shown,
the runs go alike, as long as the first machine has room. -/
namespace StackScript.Machine

/-- The machine runs out of room within so many steps. -/
def RunsOut (steps : Nat) (m : Machine) : Prop := ∃ a, runFor steps m = some (.failed .stackOverflow, a)

section
variable {R : Console → Console → Prop} {l r : Config} {m n : Machine}

/-- Nothing tells the consoles apart, writing included. -/
structure Lasts (R : Console → Console → Prop) (l r : Config) : Prop extends Lasting R l r where
  write : ∀ bytes, Respects R (·.write bytes)

namespace Beside

theorem trace_eq (h : Beside R l r m n) : m.trace = n.trace := by
  rw [h.eq]
  rfl

theorem abandon (hR : Lasting R l r) (h : Beside R l r m n) (e : RuntimeError) :
    (m.abandon e).1 = (n.abandon e).1 ∧ Beside R l r (m.abandon e).2 (n.abandon e).2 :=
  ⟨congrArg (fun trace => Outcome.failure (.failed e trace)) h.trace_eq,
    h.store, h.globals, rfl, rfl, (hR.flush _ _ h.console).2, h.left, h.right, Nat.zero_le _⟩

theorem conclude (hR : Lasting R l r) (h : Beside R l r m n) (halt : Halt) :
    (m.conclude halt).1 = (n.conclude halt).1 ∧ Beside R l r (m.conclude halt).2 (n.conclude halt).2 := by
  cases halt with
  | finished =>
    obtain ⟨hresult, hconsole⟩ := hR.flush _ _ h.console
    simp only [Machine.conclude]
    generalize m.console.flush = x at hresult hconsole ⊢
    generalize n.console.flush = y at hresult hconsole ⊢
    obtain ⟨x, c⟩ := x
    obtain ⟨y, d⟩ := y
    obtain rfl : x = y := hresult
    cases x with
    | ok _ => exact ⟨rfl, h.with_console hconsole⟩
    | error e => exact (h.with_console hconsole).abandon hR _
  | failed e => exact h.abandon hR e
  | stuck r => exact ⟨rfl, h⟩

/-- The runs are over after the same number of steps, for the same reason, or the first has run out of room. -/
theorem runFor (hR : Lasts R l r) (hlr : l.maxFrames ≤ r.maxFrames) (h : Beside R l r m n) (hm : m.Running)
    (steps : Nat) :
    l.maxFrames < r.maxFrames ∧ RunsOut steps m ∨
      Option.Rel (fun x y => x.1 = y.1 ∧ Beside R l r x.2 y.2) (runFor steps m) (runFor steps n) := by
  induction steps generalizing m n with
  | zero => exact .inr .none
  | succ steps ih =>
    obtain ⟨f, callers, pre, i, post, hat⟩ := hm.at
    have hcycle := h.cycle hR.toLasting hlr hat hm.sound fun _ => hR.write
    have hrunning : ∀ {m'}, Machine.cycle.run m = .ok () m' → m'.Running := hm.goesOn
    rw [RunsOut, Machine.runFor, Machine.runFor]
    generalize Machine.cycle.run m = x at hcycle hrunning ⊢
    generalize Machine.cycle.run n = y at hcycle ⊢
    cases hcycle with
    | ok _ beside => exact ih beside (hrunning rfl)
    | error halt beside => exact .inr (.some ⟨rfl, beside⟩)
    | full less => exact .inl ⟨less, _, rfl⟩

theorem after (hR : Lasts R l r) (hlr : l.maxFrames ≤ r.maxFrames) (h : Beside R l r m n) (hm : m.Running)
    (steps : Nat) :
    l.maxFrames < r.maxFrames ∧ RunsOut steps m ∨ Option.Rel (Beside R l r) (after steps m) (after steps n) := by
  induction steps generalizing m n with
  | zero => exact .inr (.some h)
  | succ steps ih =>
    obtain ⟨f, callers, pre, i, post, hat⟩ := hm.at
    have hcycle := h.cycle hR.toLasting hlr hat hm.sound fun _ => hR.write
    have hrunning : ∀ {m'}, Machine.cycle.run m = .ok () m' → m'.Running := hm.goesOn
    rw [RunsOut, Machine.runFor, Machine.after, Machine.after]
    generalize Machine.cycle.run m = x at hcycle hrunning ⊢
    generalize Machine.cycle.run n = y at hcycle ⊢
    cases hcycle with
    | ok _ beside => exact ih beside (hrunning rfl)
    | error halt beside => exact .inr .none
    | full less => exact .inl ⟨less, _, rfl⟩

end Beside

/-! ### Sources -/

theorem ties_enter (hlr : l.maxFrames ≤ r.maxFrames) (script : FunctionRef) : Ties R l r (enter script) :=
  (ties_push hlr _).bind fun _ => .look (fun h => by rw [h.store]) fun _ =>
    (Ties.orStuck _ _).bind fun f => ties_callFunction hlr f 0

/-- What starting a source comes to on both machines. -/
inductive Abreast (R : Console → Console → Prop) (l r : Config) :
    Except (Outcome × Machine) Machine → Except (Outcome × Machine) Machine → Prop
  | early (outcome : Outcome) {m n : Machine} (h : Beside R l r m n) :
      Abreast R l r (.error (outcome, m)) (.error (outcome, n))
  | running {m n : Machine} (h : Beside R l r m n) : Abreast R l r (.ok m) (.ok n)
  | full {trace : List TraceLine} {m : Machine} {y : Except (Outcome × Machine) Machine} (less : l.maxFrames < r.maxFrames) :
      Abreast R l r (.error (.failure (.failed .stackOverflow trace), m)) y

theorem Beside.start (hR : Lasting R l r) (hlr : l.maxFrames ≤ r.maxFrames) (h : Beside R l r m n) (source : String) :
    Abreast R l r (m.start source) (n.start source) := by
  obtain ⟨hresult, hstore⟩ := compile_unlisted source n.store m.config.printCode n.config.printCode
  have haccept : Beside R l r (m.accept (compile source n.store m.config.printCode))
      (n.accept (compile source n.store n.config.printCode)) := by
    refine ⟨hstore, h.globals, h.stack, h.frames, hR.note _ _ _ _ (fun _ hprint => ?_) h.console, h.left, h.right,
      h.depth⟩
    rw [h.left, h.right, hprint]
  unfold Machine.start
  simp only [defect_compile, h.store, hresult]
  cases (compile source n.store n.config.printCode).result with
  | error errors => exact .early _ haccept
  | ok r =>
    have henter := ties_enter hlr r _ _ haccept
    dsimp only
    generalize (enter r).run (m.accept (compile source n.store m.config.printCode)) = x at henter ⊢
    generalize (enter r).run (n.accept (compile source n.store n.config.printCode)) = y at henter ⊢
    cases henter with
    | ok _ beside => exact .running beside
    | full less => exact .full less
    | @error halt m' n' beside =>
      obtain ⟨houtcome, hafter⟩ := beside.conclude hR halt
      dsimp only
      generalize m'.conclude halt = x at houtcome hafter ⊢
      generalize n'.conclude halt = y at houtcome hafter ⊢
      obtain ⟨x, m'⟩ := x
      obtain ⟨y, n'⟩ := y
      obtain rfl : x = y := houtcome
      exact .early _ hafter

theorem running_of_start {source : String} {b : Machine} (hm : m.Resting) (h : m.start source = .ok b) : b.Running := by
  have hstarts := starts_start hm source
  rw [h] at hstarts
  cases hstarts with
  | running hb => exact hb

/-- There is not enough room for a source. -/
def LacksRoom (steps : Nat) (source : String) (m : Machine) : Prop :=
  ∃ trace m', m.interpret steps source = some (.failure (.failed .stackOverflow trace), m')

theorem lacksRoom_of_start {source : String} {trace : List TraceLine} {m' : Machine}
    (h : m.start source = .error (.failure (.failed .stackOverflow trace), m')) (steps : Nat) :
    LacksRoom steps source m := ⟨trace, m', by rw [interpret, h]⟩

theorem RunsOut.lacksRoom {steps : Nat} {source : String} {b : Machine} (h : RunsOut steps b)
    (hstart : m.start source = .ok b) : LacksRoom steps source m := by
  obtain ⟨a, hrun⟩ := h
  refine ⟨a.trace, (a.abandon .stackOverflow).2, ?_⟩
  rw [interpret, hstart]
  dsimp only
  rw [hrun]
  rfl

theorem Beside.interpret (hR : Lasts R l r) (hlr : l.maxFrames ≤ r.maxFrames) (h : Beside R l r m n)
    (hm : m.Resting) (steps : Nat) (source : String) : l.maxFrames < r.maxFrames ∧ LacksRoom steps source m ∨
      Option.Rel (fun x y => x.1 = y.1 ∧ Beside R l r x.2 y.2) (m.interpret steps source)
        (n.interpret steps source) := by
  have hstart := h.start hR.toLasting hlr source
  have hrunning : ∀ {b}, m.start source = .ok b → b.Running := running_of_start hm
  have hfull : ∀ {trace m'}, m.start source = .error (.failure (.failed .stackOverflow trace), m') →
      LacksRoom steps source m := fun h => lacksRoom_of_start h steps
  have hout : ∀ {b}, RunsOut steps b → m.start source = .ok b → LacksRoom steps source m := RunsOut.lacksRoom
  unfold Machine.interpret
  generalize m.start source = x at hstart hrunning hfull hout ⊢
  generalize n.start source = y at hstart ⊢
  cases hstart with
  | full less => exact .inl ⟨less, hfull rfl⟩
  | early outcome beside => exact .inr (.some ⟨rfl, beside⟩)
  | @running m' n' beside =>
    obtain ⟨less, hrun⟩ | hrun := beside.runFor hR hlr (hrunning rfl) steps
    · exact .inl ⟨less, hout hrun rfl⟩
    · dsimp only
      generalize Machine.runFor steps m' = x at hrun ⊢
      generalize Machine.runFor steps n' = y at hrun ⊢
      cases hrun with
      | none => exact .inr .none
      | @some x y hxy =>
        obtain ⟨halt, m'⟩ := x
        obtain ⟨halt', n'⟩ := y
        obtain ⟨rfl, hbeside⟩ := hxy
        exact .inr (.some (hbeside.conclude hR.toLasting halt))

theorem Beside.reached (hR : Lasts R l r) (hlr : l.maxFrames ≤ r.maxFrames) (h : Beside R l r m n) (hm : m.Resting)
    (steps : Nat) (source : String) : l.maxFrames < r.maxFrames ∧ LacksRoom steps source m ∨
      Option.Rel (Beside R l r) (m.reached source steps) (n.reached source steps) := by
  have hstart := h.start hR.toLasting hlr source
  have hrunning : ∀ {b}, m.start source = .ok b → b.Running := running_of_start hm
  have hfull : ∀ {trace m'}, m.start source = .error (.failure (.failed .stackOverflow trace), m') →
      LacksRoom steps source m := fun h => lacksRoom_of_start h steps
  have hout : ∀ {b}, RunsOut steps b → m.start source = .ok b → LacksRoom steps source m := RunsOut.lacksRoom
  unfold Machine.reached
  generalize m.start source = x at hstart hrunning hfull hout ⊢
  generalize n.start source = y at hstart ⊢
  cases hstart with
  | full less => exact .inl ⟨less, hfull rfl⟩
  | early outcome beside => exact .inr .none
  | running beside =>
    obtain ⟨less, hrun⟩ | hrun := beside.after hR hlr (hrunning rfl) steps
    · exact .inl ⟨less, hout hrun rfl⟩
    · exact .inr hrun

end
end StackScript.Machine
