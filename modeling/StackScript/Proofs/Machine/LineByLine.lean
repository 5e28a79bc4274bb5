import StackScript.Proofs.Machine.Reading

/-! Sessions that read line by line. Over all the runs on a machine, one after another, each read statement gets the line
that comes behind those of the read statements before it. -/
namespace StackScript.Machine

/-- How many of so many next steps of a run read a line. -/
def readsFor : ℕ → Machine → ℕ
  | 0, _ => 0
  | n + 1, m => m.awaitsLine.toNat +
    match cycle.run m with
    | .ok _ m' => readsFor n m'
    | .error _ _ => 0

/-- How many lines are read by running a source. -/
def readsIn (steps : ℕ) (source : String) (m : Machine) : ℕ :=
  match m.start source with
  | .ok b => readsFor steps b
  | .error _ => 0

/-- What a host brings a machine to by running sources on it, one after another, with so many lines read. In between it may
give names to host functions and take what has been written. -/
inductive Session (m : Machine) : ℕ → Machine → Prop
  | refl : Session m 0 m
  | defineNative {k : ℕ} {a : Machine} {spec : NativeSpec} (h : Session m k a) (honest : IsHonest spec.call) :
      Session m k (a.defineNative spec)
  | takePending {k : ℕ} {a : Machine} (h : Session m k a) : Session m k a.takePending.2
  | interpret {k steps : ℕ} {a b : Machine} {source : String} {outcome : Outcome} (h : Session m k a)
      (ended : a.interpret steps source = some (outcome, b)) : Session m (k + a.readsIn steps source) b

section
variable {m a b c : Machine} {source : String} {outcome : Outcome} {halt : Halt} {ls : List (List UInt8)}
  {bytes : List UInt8} {k n : ℕ}

/-! ### Runs -/

theorem hasRead_abandon (h : m.console.HasRead ls k) (e : RuntimeError) : (m.abandon e).2.console.HasRead ls k :=
  h.flush.2

theorem hasRead_conclude (h : m.console.HasRead ls k) (halt : Halt) : (m.conclude halt).2.console.HasRead ls k := by
  cases halt with
  | finished =>
    obtain ⟨hflush, hread⟩ := h.flush
    rw [conclude, hflush]
    exact hread
  | failed e => exact hasRead_abandon h e
  | stuck r => exact h

/-- Nothing is read before the first step. -/
theorem Resting.hasRead_start (hm : m.Resting) (h : m.console.HasRead ls k) (source : String) :
    (∀ b, m.start source = .ok b → b.console.HasRead ls k) ∧
      ∀ outcome b, m.start source = .error (outcome, b) → b.console.HasRead ls k := by
  have haccept : (m.accept (compile source m.store m.config.printCode)).console.HasRead ls k := h.note _
  cases hresult : (compile source m.store m.config.printCode).result with
  | error errors =>
    have hstart : m.start source =
        .error (.failure (.rejected errors), m.accept (compile source m.store m.config.printCode)) := by
      unfold start
      simp only [defect_compile, hresult]
    rw [hstart]
    refine ⟨fun b hb => (by cases hb), fun outcome b hb => ?_⟩
    obtain ⟨-, rfl⟩ := Prod.mk.inj (Except.error.inj hb)
    exact haccept
  | ok r =>
    by_cases hmax : m.config.maxFrames = 0
    · rw [start_full rfl hresult hmax]
      refine ⟨fun b hb => (by cases hb), fun outcome b hb => ?_⟩
      have hrest := hasRead_abandon haccept .stackOverflow
      rwa [Except.error.inj hb] at hrest
    · obtain ⟨ds, hreads⟩ := reads_of_ok hresult
      obtain ⟨r', hr, -, hgains⟩ := compile_of_reads hreads m.store m.config.printCode
      obtain rfl := Except.ok.inj (hresult.symm.trans hr)
      obtain ⟨f, hf, ⟨is, hcompiles, -⟩, -⟩ := hgains.compiled
      rw [start_running hm rfl hresult hf (UInt8.toNat_inj.1 hcompiles.arity) hmax]
      refine ⟨fun b hb => ?_, fun outcome b hb => by cases hb⟩
      obtain rfl := Except.ok.inj hb
      exact haccept

/-- Behind so many steps, or behind fewer if the run is over by then, a line has been read for each step that reads. -/
theorem Running.hasRead_steps (ha : a.Running) (h : a.console.HasRead (Console.lines bytes) k)
    (hsteps : after n a = some b ∨ ∃ halt, runFor n a = some (halt, b)) :
    b.console.HasRead (Console.lines bytes) (k + readsFor n a) := by
  induction n generalizing a k with
  | zero =>
    obtain hafter | ⟨halt, hrun⟩ := hsteps
    · obtain rfl := Option.some.inj hafter
      exact h
    · cases hrun
  | succ n ih =>
    rw [after, runFor] at hsteps
    cases hstep : cycle.run a with
    | ok _ c =>
      rw [hstep] at hsteps
      have hrest := ih (ha.goesOn hstep) (ha.hasRead h (.inl hstep)) hsteps
      rw [readsFor, hstep, ← Nat.add_assoc]
      exact hrest
    | error halt c =>
      rw [hstep] at hsteps
      obtain hafter | ⟨halt', hrun⟩ := hsteps
      · cases hafter
      · obtain ⟨-, rfl⟩ := Prod.mk.inj (Option.some.inj hrun)
        rw [readsFor, hstep]
        exact ha.hasRead h (.inr ⟨halt, hstep⟩)

theorem Resting.running_start (hm : m.Resting) (hstart : m.start source = .ok b) : b.Running := by
  have hstarts := starts_start hm source
  rw [hstart] at hstarts
  cases hstarts with
  | running hb => exact hb

theorem Resting.hasRead_interpret (hm : m.Resting) (h : m.console.HasRead (Console.lines bytes) k)
    (ended : m.interpret n source = some (outcome, b)) :
    b.console.HasRead (Console.lines bytes) (k + m.readsIn n source) := by
  obtain ⟨hgoes, hends⟩ := hm.hasRead_start h source
  rw [Machine.interpret] at ended
  cases hstart : m.start source with
  | error early =>
    rw [hstart] at ended
    obtain rfl : early = (outcome, b) := Option.some.inj ended
    rw [readsIn, hstart]
    exact hends _ _ hstart
  | ok a =>
    rw [hstart] at ended
    obtain ⟨⟨halt, c⟩, hrun, hend⟩ := Option.map_eq_some_iff.1 ended
    have hlast := (hm.running_start hstart).hasRead_steps (hgoes _ hstart) (.inr ⟨halt, hrun⟩)
    have hrest := hasRead_conclude hlast halt
    rw [show c.conclude halt = (outcome, b) from hend] at hrest
    rwa [readsIn, hstart]

/-! ### Sessions -/

theorem Session.idle (h : m.Session k a) (hm : m.Idle) : a.Idle := by
  induction h with
  | refl => exact hm
  | defineNative _ honest ih => exact ih.defineNative honest
  | takePending _ ih => exact ih.console _
  | interpret _ ended ih => exact ih.interpret ended

/-- Behind all runs of a session, as many lines have been read as read statements have been executed. -/
theorem Session.hasRead (h : m.Session k a) (hm : m.Idle) (hsteady : m.console.Steady) :
    a.console.HasRead (Console.lines m.console.input) k := by
  induction h with
  | refl => exact ⟨hsteady, by rw [List.drop_zero, Console.flatten_lines]⟩
  | defineNative _ _ ih => exact ih
  | takePending _ ih => exact ⟨⟨ih.readable, ih.flushable⟩, ih.input⟩
  | interpret hbefore ended ih => exact (hbefore.idle hm).resting.hasRead_interpret ih ended

end

end StackScript.Machine
