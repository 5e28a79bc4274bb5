import StackScript.Proofs.Compiler.Outcome
import StackScript.Proofs.Machine.Advance

/-! Machines between runs and during runs. Whatever sources a machine has been given, and whatever host functions it has
got, nothing is on its stack when it is at rest, and each state of a run is one of a running machine. -/
namespace StackScript
namespace Machine

/-- What a host can bring a machine to: it may give names to host functions, run sources one after another, and look
after the console in between. -/
inductive Idle : Machine → Prop
  | new (config : Config) (console : Console) : Idle (.new config console)
  | defineNative {m : Machine} {spec : NativeSpec} (h : Idle m) (honest : IsHonest spec.call) :
      Idle (m.defineNative spec)
  | interpret {m m' : Machine} {steps : Nat} {source : String} {outcome : Outcome} (h : Idle m)
      (ended : m.interpret steps source = some (outcome, m')) : Idle m'
  | console {m : Machine} (h : Idle m) (console : Console) : Idle { m with console }

/-- Steps of a machine, none of which is the last of the run. -/
inductive Steps : Machine → Machine → Prop
  | refl (m : Machine) : Steps m m
  | tail {m m' m'' : Machine} (h : Steps m m') (step : cycle.run m' = .ok () m'') : Steps m m''

/-- What a machine goes through when it runs a source. -/
def Reaches (m : Machine) (source : String) (a : Machine) : Prop := ∃ b, m.start source = .ok b ∧ Steps b a

/-- The machine after so many steps, if the run is not over by then. -/
def after : Nat → Machine → Option Machine
  | 0, m => some m
  | n + 1, m =>
    match cycle.run m with
    | .ok _ m' => after n m'
    | .error _ _ => none

/-- The machine after so many steps of running a source. -/
def reached (m : Machine) (source : String) (n : Nat) : Option Machine :=
  match m.start source with
  | .ok b => after n b
  | .error _ => none

/-- Why the next step is the last one, if it is. -/
def halts? (m : Machine) : Option Halt :=
  match cycle.run m with
  | .ok _ _ => none
  | .error halt _ => some halt

/-- A machine that is not running. -/
structure Resting (m : Machine) : Prop where
  sound : m.IsSound
  stack : m.stack = #[]
  frames : m.frames = []

section
variable {m m' a b : Machine} {source : String}

/-! ### At rest -/

theorem Resting.defineNative (h : m.Resting) {spec : NativeSpec} (honest : IsHonest spec.call) :
    (m.defineNative spec).Resting := by
  have hintern := Store.Extends.of_intern m.store spec.name
  have hadd := Store.Extends.of_addNative (m.store.intern spec.name).2
    ⟨(m.store.intern spec.name).1, spec.arity, spec.call⟩
  have hnatives : ∀ n ∈ (m.defineNative spec).store.natives, IsHonest n.call := fun n hn => by
    obtain hn | rfl := Array.mem_push.1 hn
    · exact h.sound.natives n hn
    · exact honest
  have hname : ((m.defineNative spec).store.text? (m.store.intern spec.name).1).isSome :=
    Option.isSome_of_eq_some (hadd.text (Symbols.text?_intern m.store.symbols spec.name))
  refine ⟨(h.sound.with_store (hintern.trans hadd) hnatives).insert hname (.native ?_), h.stack, h.frames⟩
  exact Option.isSome_of_eq_some Array.getElem?_push_size

theorem resting_new (config : Config) (console : Console) : (Machine.new config console).Resting := by
  have hfold : ∀ (specs : List NativeSpec) (m : Machine), (∀ n ∈ specs, IsHonest n.call) → m.Resting →
      (specs.foldl Machine.defineNative m).Resting := by
    intro specs
    induction specs with
    | nil => exact fun m _ hm => hm
    | cons n specs ih =>
      exact fun m hspecs hm => ih _ (fun k hk => hspecs k (by simp [hk])) (hm.defineNative (hspecs n (by simp)))
  refine hfold mathNatives _ (fun n => isHonest_of_mem_mathNatives) ⟨⟨by simp, fun {x v} hv => ?_,
    fun {x v} hv => ?_, ?_⟩, rfl, rfl⟩
  · simp at hv
  · simp at hv
  · intro n hn
    change n ∈ (#[] : Array Native) at hn
    simp at hn

theorem Resting.accept (h : m.Resting) (source : String) (printCode : Bool) :
    (m.accept (compile source m.store printCode)).Resting := by
  have hext := compile_extends source m.store printCode
  have hnatives : ∀ n ∈ (compile source m.store printCode).store.natives, IsHonest n.call := by
    rw [natives_compile]
    exact h.sound.natives
  exact ⟨(h.sound.with_store hext hnatives).with_console _, h.stack, h.frames⟩

/-! ### The beginning of a run -/

theorem run_enter {r : FunctionRef} {f : Function} (h : m.Resting) (hf : m.store.function? r = some f)
    (harity : f.arity = 0) (hmax : m.config.maxFrames ≠ 0) :
    (enter r).run m = .ok () { m with stack := #[.function r], frames := [⟨f, 0, 0⟩] } := by
  have hroom : m.stack.size < m.config.stackSize := by
    rw [h.stack, Config.stackSize]
    simp
    omega
  have hstack : ({ m with stack := m.stack.push (.function r) } : Machine).stack = #[].push (.function r) ++ #[] := by
    rw [h.stack]
    simp
  have hcall : (callFunction f 0).run { m with stack := m.stack.push (.function r) } =
      .ok () { m with stack := m.stack.push (.function r), frames := ⟨f, 0, 0⟩ :: m.frames } :=
    run_callFunction hstack rfl harity.symm (by rw [h.frames]; exact hmax.symm)
  rw [enter, run_bind_ok (run_push hroom _), run_bind_ok (EStateM.run_get _)]
  change ((orStuck .unknownReference (m.store.function? r)) >>= _).run _ = _
  rw [hf, run_bind_ok (run_orStuck_some _ _ _), hcall, h.stack, h.frames]
  rfl

theorem run_enter_full {r : FunctionRef} (hmax : m.config.maxFrames = 0) :
    (enter r).run m = .error (.failed .stackOverflow) m := by
  have hfull : m.config.stackSize ≤ m.stack.size := by
    rw [Config.stackSize, hmax]
    omega
  rw [enter, run_bind_error (run_push_full hfull _)]

/-- What starting a source comes to: it is rejected, or there is no room for a call, or it is running. -/
inductive Starts (m : Machine) (source : String) : Except (Outcome × Machine) Machine → Prop
  | rejected {errors : List CompileError} {m' : Machine} (rest : m'.Resting)
      (store : m'.store = (compile source m.store m.config.printCode).store) :
      Starts m source (.error (.failure (.rejected errors), m'))
  | full {m' : Machine} (rest : m'.Resting) (none : m.config.maxFrames = 0)
      (store : m'.store = (compile source m.store m.config.printCode).store) :
      Starts m source (.error (.failure (.failed .stackOverflow []), m'))
  | running {b : Machine} {r : FunctionRef} {f : Function} (running : b.Running) (config : b.config = m.config)
      (store : b.store = (compile source m.store m.config.printCode).store)
      (script : (compile source m.store m.config.printCode).result = .ok r) (known : b.store.function? r = some f)
      (frames : b.frames = [⟨f, 0, 0⟩]) : Starts m source (.ok b)

theorem resting_abandon (hm : m.IsSound) (e : RuntimeError) : (m.abandon e).2.Resting :=
  ⟨⟨by simp [abandon], hm.globals, hm.names, hm.natives⟩, rfl, rfl⟩

theorem abandon_eq (m : Machine) (e : RuntimeError) :
    m.abandon e = (.failure (.failed e m.trace), (m.abandon e).2) := rfl

theorem start_running (h : m.Resting) {c : Compilation} (hc : compile source m.store m.config.printCode = c)
    {r : FunctionRef} {f : Function} (hr : c.result = .ok r) (hf : c.store.function? r = some f) (harity : f.arity = 0)
    (hmax : m.config.maxFrames ≠ 0) :
    m.start source = .ok { m.accept c with stack := #[.function r], frames := [⟨f, 0, 0⟩] } := by
  have haccept := h.accept source m.config.printCode
  have hdefect := defect_compile source m.store m.config.printCode
  rw [hc] at haccept hdefect
  have hrun := run_enter (m := m.accept c) haccept hf harity hmax
  unfold start
  simp only [hc, hdefect, hr, hrun]

theorem start_full {c : Compilation} (hc : compile source m.store m.config.printCode = c) {r : FunctionRef}
    (hr : c.result = .ok r) (hmax : m.config.maxFrames = 0) :
    m.start source = .error ((m.accept c).abandon .stackOverflow) := by
  have hdefect := defect_compile source m.store m.config.printCode
  rw [hc] at hdefect
  have hrun : (enter r).run (m.accept c) = .error (.failed .stackOverflow) (m.accept c) := run_enter_full hmax
  unfold start
  simp only [hc, hdefect, hr, hrun, conclude]

theorem starts_start (h : m.Resting) (source : String) : Starts m source (m.start source) := by
  have haccept := h.accept source m.config.printCode
  cases hresult : (compile source m.store m.config.printCode).result with
  | error errors =>
    unfold start
    simp only [defect_compile, hresult]
    exact .rejected haccept rfl
  | ok r =>
    obtain ⟨ds, hreads⟩ := reads_of_ok hresult
    obtain ⟨r', hr', -, hgains⟩ := compile_of_reads hreads m.store m.config.printCode
    obtain rfl := Except.ok.inj (hresult.symm.trans hr')
    obtain ⟨f, hf, ⟨ib, hcompiles, hbody⟩, -⟩ := hgains.compiled
    have hsound := hgains.sound
    by_cases hmax : m.config.maxFrames = 0
    · have htrace : (m.accept (compile source m.store m.config.printCode)).trace = [] := by
        rw [trace, haccept.frames]; rfl
      rw [start_full rfl hresult hmax, abandon_eq, htrace]
      exact .full (resting_abandon haccept.sound _) hmax rfl
    · have harity : f.arity = 0 := by
        have hzero := hcompiles.arity
        exact UInt8.toNat_inj.1 hzero
      rw [start_running h rfl hresult hf harity hmax]
      obtain ⟨i, post, hstands, hheight⟩ := hsound.stands hf 0
      have hcode : [] ++ i :: post = ib ++ returnCode := hstands.code.unique hcompiles.code
      have hone : 1 ≤ m.config.maxFrames := Nat.one_le_iff_ne_zero.2 hmax
      refine .running ⟨⟨?_, haccept.sound.globals, haccept.sound.names, haccept.sound.natives⟩,
        List.cons_ne_nil _ _, ?_, hone, ?_⟩ rfl rfl
        hresult hf rfl
      · intro v hv
        obtain rfl := Array.mem_singleton.1 hv
        exact hsound
      · refine .cons hstands ?_ (fun _ => ?_) .nil
        · change 1 = 0 + f.height ([] ++ i :: post) 0
          rw [hheight, harity]
          rfl
        · rw [hcode]
          exact scriptTree_returnsAlone hreads.legal hcompiles hbody
      · change 1 ≤ m.config.maxFrames * 256
        omega

/-! ### The states of a run -/

theorem Steps.head (hstep : cycle.run m = .ok () a) (h : Steps a b) : Steps m b := by
  induction h with
  | refl => exact (Steps.refl m).tail hstep
  | tail _ step ih => exact ih.tail step

theorem Steps.of_after {n : Nat} (h : after n a = some b) : Steps a b := by
  induction n generalizing a with
  | zero =>
    obtain rfl := Option.some.inj h
    exact .refl a
  | succ n ih =>
    rw [after] at h
    split at h
    · exact (ih h).head ‹_›
    · cases h

theorem reaches_of_reached {n : Nat} (h : m.reached source n = some a) : m.Reaches source a := by
  unfold reached at h
  split at h
  · exact ⟨_, ‹_›, .of_after h⟩
  · cases h

theorem run_cycle_of_after (h : after 1 a = some b) : cycle.run a = .ok () b := by
  rw [after] at h
  split at h
  · rename_i hstep
    obtain rfl := Option.some.inj h
    exact hstep
  · cases h

theorem exists_of_halts? {halt : Halt} (h : a.halts? = some halt) : ∃ b, cycle.run a = .error halt b := by
  unfold halts? at h
  split at h
  · cases h
  · obtain rfl := Option.some.inj h
    exact ⟨_, ‹_›⟩

theorem Steps.running (h : Steps a b) (ha : a.Running) : b.Running := by
  induction h with
  | refl => exact ha
  | tail _ step ih => exact ih.goesOn step

/-- A run that is over has come to a last step. -/
theorem exists_of_runFor {n : Nat} {halt : Halt} (h : runFor n a = some (halt, b)) :
    ∃ c, Steps a c ∧ cycle.run c = .error halt b := by
  induction n generalizing a with
  | zero => cases h
  | succ n ih =>
    rw [runFor] at h
    split at h
    · obtain ⟨c, hsteps, hlast⟩ := ih h
      exact ⟨c, hsteps.head ‹_›, hlast⟩
    · obtain ⟨rfl, rfl⟩ := Prod.mk.inj (Option.some.inj h)
      exact ⟨a, .refl a, ‹_›⟩

theorem Steps.config (h : Steps a b) (ha : a.Running) : b.config = a.config := by
  induction h with
  | refl => rfl
  | tail hsteps step ih =>
    have hm := hsteps.running ha
    obtain ⟨f, callers, pre, i, post, hat⟩ := hm.at
    obtain ⟨console, hcomes⟩ := comes_cycle hat hm
    rw [step] at hcomes
    exact hcomes.config.trans ih

/-- The last step of a run: nothing is left over, or it has failed with an error of the language, and the functions that
are active then have names that are known. -/
theorem Running.last (ha : a.Running) {halt : Halt} (h : cycle.run a = .error halt b) :
    (halt = .finished ∧ b.Resting) ∨
      ∃ e, halt = .failed e ∧ b.IsSound ∧ (∀ byte, e ≠ .unknownOpcode byte) ∧
        ∀ g ∈ b.frames, ∀ name, g.function.name = some name → (b.store.text? name).isSome := by
  obtain ⟨f, callers, pre, i, post, hat⟩ := ha.at
  obtain ⟨console, hcomes⟩ := comes_cycle hat ha
  rw [h] at hcomes
  cases hcomes with
  | finishes out outer stack =>
    exact .inl ⟨rfl, ⟨by simp, ha.sound.globals, ha.sound.names, ha.sound.natives⟩, rfl, rfl⟩
  | fails hf =>
    refine .inr ⟨_, rfl, hf.sound, hf.known, ?_⟩
    have hframes := hf.frames
    have hstore := hf.store
    rw [goTo_eq (hat.with_console console).frames] at hframes hstore
    rw [hframes]
    intro g hg name hname
    obtain rfl | hg := List.mem_cons.1 hg
    · exact hstore.isSome_text (hat.stands.named name hname)
    · exact hstore.isSome_text (hat.below.named g hg name hname)

theorem resting_conclude {halt : Halt} (ha : a.Running) (h : cycle.run a = .error halt b) :
    (b.conclude halt).2.Resting := by
  obtain ⟨rfl, hb⟩ | ⟨e, rfl, hb, -, -⟩ := ha.last h
  · simp only [conclude]
    split
    · exact ⟨hb.sound.with_console _, hb.stack, hb.frames⟩
    · exact resting_abandon (hb.sound.with_console _) _
  · exact resting_abandon hb e

/-- A source is over early, or it is over after a last step. -/
theorem Resting.interpret_cases (h : m.Resting) {steps : Nat} {outcome : Outcome}
    (hover : m.interpret steps source = some (outcome, m')) :
    (m'.Resting ∧ ((∃ errors, outcome = .failure (.rejected errors)) ∨
      (outcome = .failure (.failed .stackOverflow []) ∧ m.config.maxFrames = 0))) ∨
    ∃ a halt b, m.Reaches source a ∧ a.Running ∧ cycle.run a = .error halt b ∧ b.conclude halt = (outcome, m') := by
  have hstart := starts_start h source
  unfold Machine.interpret at hover
  generalize hstarted : m.start source = started at hstart hover
  cases hstart with
  | rejected rest =>
    obtain ⟨rfl, rfl⟩ := Prod.mk.inj (Option.some.inj hover)
    exact .inl ⟨rest, .inl ⟨_, rfl⟩⟩
  | full rest _ =>
    obtain ⟨rfl, rfl⟩ := Prod.mk.inj (Option.some.inj hover)
    exact .inl ⟨rest, .inr ⟨rfl, ‹_›⟩⟩
  | @running b _ _ hb =>
    obtain ⟨⟨halt, c⟩, hrun, hend⟩ := Option.map_eq_some_iff.1 hover
    obtain ⟨a, hsteps, hlast⟩ := exists_of_runFor hrun
    exact .inr ⟨a, halt, c, ⟨b, hstarted, hsteps⟩, hsteps.running hb, hlast, hend⟩

/-- A run that is over leaves nothing on the stack and no call. -/
theorem Resting.interpret (h : m.Resting) {steps : Nat} {outcome : Outcome}
    (hover : m.interpret steps source = some (outcome, m')) : m'.Resting := by
  obtain ⟨hrest, -⟩ | ⟨a, halt, b, -, hrunning, hlast, hend⟩ := h.interpret_cases hover
  · exact hrest
  · have hrest := resting_conclude hrunning hlast
    rwa [hend] at hrest

theorem Idle.resting (h : m.Idle) : m.Resting := by
  induction h with
  | new config console => exact resting_new config console
  | defineNative _ honest ih => exact ih.defineNative honest
  | interpret _ ended ih => exact ih.interpret ended
  | console _ console ih => exact ⟨ih.sound.with_console console, ih.stack, ih.frames⟩

theorem Idle.reaches (h : m.Idle) (ha : m.Reaches source a) : a.Running ∧ a.config = m.config := by
  obtain ⟨b, hstart, hsteps⟩ := ha
  have hstarts := starts_start h.resting source
  rw [hstart] at hstarts
  cases hstarts with
  | running hb hconfig => exact ⟨hsteps.running hb, (hsteps.config hb).trans hconfig⟩

end

end Machine
end StackScript
