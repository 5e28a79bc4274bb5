import StackScript.Proofs.Machine.Lockstep
import StackScript.Proofs.Machine.Pace
import StackScript.Proofs.Machine.Safety
import StackScript.Proofs.Machine.Trace

/-! A machine can be watched without being disturbed. Listings of compiled functions and traces of the steps are all
that two machines differ in of which only one is watched, and there always is something to list and to show. -/
namespace StackScript.Machine

/-- A machine without the settings that it is watched by, and without what has been noted. -/
def unwatched (m : Machine) : Machine :=
  { m with config := { maxFrames := m.config.maxFrames }, console := m.console.visible }

/-- What becomes of a machine that runs sources one after another: the outcome of each run with the machine behind it,
watching apart. Where a run is not over after a number of steps, the last machine is the one at that step, and there is
no outcome. -/
def transcript (steps : Nat) : List String → Machine → List (Option Outcome × Machine)
  | [], _ => []
  | source :: rest, m =>
    match m.interpret steps source with
    | some (outcome, m') => (some outcome, m'.unwatched) :: transcript steps rest m'
    | none => [(none, ((m.reached source steps).getD m).unwatched)]

/-- Consoles that only differ in what has been noted. -/
def SameVisible (c d : Console) : Prop := c.visible = d.visible

theorem lasts_sameVisible (l r : Config) : Lasts SameVisible l r where
  flush _ _ h := isBlind_flush.eq h
  read _ _ h := isBlind_readLine.eq h
  write bytes _ _ h := (isBlind_write bytes).eq h
  note _ _ _ _ _ h := h

variable {m n : Machine} {l r : Config}

theorem Beside.unwatched_eq (hlr : l.maxFrames = r.maxFrames) (h : Beside SameVisible l r m n) :
    m.unwatched = n.unwatched := by
  have hmax : m.config.maxFrames = n.config.maxFrames := by rw [h.left, h.right, hlr]
  have hconsole : m.console.visible = n.console.visible := h.console
  simp only [unwatched, h.store, h.globals, h.stack, h.frames, hmax, hconsole]

theorem Resting.beside (hm : m.Resting) (h : m.unwatched = n.unwatched) :
    Beside SameVisible m.config n.config m n where
  store := show m.unwatched.store = n.unwatched.store by rw [h]
  globals := show m.unwatched.globals = n.unwatched.globals by rw [h]
  stack := show m.unwatched.stack = n.unwatched.stack by rw [h]
  frames := show m.unwatched.frames = n.unwatched.frames by rw [h]
  console := show m.unwatched.console = n.unwatched.console by rw [h]
  left := rfl
  right := rfl
  depth := by rw [hm.frames]; exact Nat.zero_le _

theorem Beside.transcript (hlr : l.maxFrames = r.maxFrames) (h : Beside SameVisible l r m n) (hm : m.Resting)
    (steps : Nat) (sources : List String) :
    transcript steps sources m = transcript steps sources n := by
  induction sources generalizing m n with
  | nil => rfl
  | cons source rest ih =>
    have hinterpret := (h.interpret (lasts_sameVisible l r) hlr.le hm steps source).resolve_left
      fun hless => Nat.ne_of_lt hless.1 hlr
    have hreached := (h.reached (lasts_sameVisible l r) hlr.le hm steps source).resolve_left
      fun hless => Nat.ne_of_lt hless.1 hlr
    have hrest : ∀ {outcome m'}, m.interpret steps source = some (outcome, m') → m'.Resting := hm.interpret
    rw [Machine.transcript, Machine.transcript]
    generalize m.interpret steps source = x at hinterpret hrest ⊢
    generalize n.interpret steps source = y at hinterpret ⊢
    cases hinterpret with
    | @some x y hxy =>
      obtain ⟨outcome, m'⟩ := x
      obtain ⟨outcome', n'⟩ := y
      obtain ⟨rfl, hbeside⟩ := hxy
      dsimp only
      rw [hbeside.unwatched_eq hlr, ih hbeside (hrest rfl)]
    | none =>
      dsimp only
      generalize m.reached source steps = a at hreached ⊢
      generalize n.reached source steps = b at hreached ⊢
      cases hreached with
      | none => rw [Option.getD_none, Option.getD_none, h.unwatched_eq hlr]
      | some hbeside => rw [Option.getD_some, Option.getD_some, hbeside.unwatched_eq hlr]

/-- A run is not over for want of a rule. -/
theorem Resting.not_stuck (hm : m.Resting) {steps : Nat} {source : String} {outcome : Outcome} {m' : Machine}
    (h : m.interpret steps source = some (outcome, m')) (reason : Stuck) : outcome ≠ .stuck reason := by
  obtain ⟨-, ⟨errors, rfl⟩ | ⟨rfl, -⟩⟩ | ⟨a, halt, b, -, hrunning, hlast, hend⟩ := hm.interpret_cases h
  · exact Outcome.noConfusion
  · exact Outcome.noConfusion
  · obtain rfl | ⟨e, trace, rfl, -⟩ := conclude_cases hrunning hlast hend
    · exact Outcome.noConfusion
    · exact Outcome.noConfusion

theorem Resting.transcript_not_stuck (hm : m.Resting) (steps : Nat) (sources : List String) :
    ∀ entry ∈ transcript steps sources m, ∀ reason, entry.1 ≠ some (.stuck reason) := by
  induction sources generalizing m with
  | nil => exact fun entry hentry => absurd hentry List.not_mem_nil
  | cons source rest ih =>
    intro entry hentry reason
    rw [Machine.transcript] at hentry
    cases hover : m.interpret steps source with
    | none =>
      rw [hover] at hentry
      obtain rfl := List.mem_singleton.1 hentry
      exact nofun
    | some ended =>
      rw [hover] at hentry
      obtain rfl | hentry := List.mem_cons.1 hentry
      · exact fun heq => hm.not_stuck hover reason (Option.some.inj heq)
      · exact ih (hm.interpret hover) entry hentry reason

/-- Watching a machine changes nothing but what is noted. Machines that only differ in the settings that they are
watched by answer a sequence of sources alike: with the same outcomes and traces, and with the same output, input left to
read, global variables and store behind each run, or at any step of one that goes on. No run of the watched machine is
over for want of something to list or to show: each function is listed when it is compiled, its bytes have their lines,
and at each step of a run the stack and the instruction that comes next have a text. -/
theorem watching_unseen (hm : m.Idle) (h : m.unwatched = n.unwatched) :
    (∀ steps sources, transcript steps sources n = transcript steps sources m ∧
      ∀ entry ∈ transcript steps sources n, ∀ reason, entry.1 ≠ some (.stuck reason)) ∧
    ∀ source, (compile source n.store n.config.printCode).defect = none ∧
      (compile source n.store n.config.printCode).store.IsLined ∧
      ∀ a, n.Reaches source a → ∃ text, a.traceText? = some text := by
  have hbeside := hm.resting.beside h
  have hmax : m.config.maxFrames = n.config.maxFrames :=
    show m.unwatched.config.maxFrames = n.unwatched.config.maxFrames by rw [h]
  have hn : n.Resting := ⟨hbeside.sound hm.resting.sound, hbeside.stack ▸ hm.resting.stack, hbeside.frames ▸ hm.resting.frames⟩
  refine ⟨fun steps sources => ⟨(hbeside.transcript hmax hm.resting steps sources).symm, hn.transcript_not_stuck steps sources⟩,
    fun source => ⟨defect_compile _ _ _, isLined_compile source (hbeside.store ▸ hm.isLined) _, ?_⟩⟩
  rintro a ⟨b, hstart, hsteps⟩
  have ha := hsteps.running (running_of_start hn hstart)
  obtain ⟨f, callers, pre, i, post, hat⟩ := ha.at
  exact exists_traceText hat ha.sound

theorem unwatched_new (config : Config) (console : Console) :
    (Machine.new config console).unwatched = .new { maxFrames := config.maxFrames } console.visible := by
  have hfold : ∀ (specs : List NativeSpec) (m : Machine),
      (specs.foldl defineNative m).unwatched = specs.foldl defineNative m.unwatched := by
    intro specs
    induction specs with
    | nil => exact fun m => rfl
    | cons spec specs ih => exact fun m => ih (m.defineNative spec)
  exact hfold mathNatives _

/-- A machine that is traced and lists its code, beside one that is not. -/
theorem watching_unseen_loud :
    (Machine.new {} {}).unwatched = (Machine.new { traceExecution := true, printCode := true } {}).unwatched ∧
      transcript 99 ["uwu x := \"a\"", "ouo x, y >>", "ouo x >>"] (.new { traceExecution := true, printCode := true } {}) =
        transcript 99 ["uwu x := \"a\"", "ouo x, y >>", "ouo x >>"] (.new {} {}) ∧
      ((transcript 99 ["uwu x := \"a\"", "ouo x, y >>", "ouo x >>"] (.new {} {})).map Prod.fst) =
        [some .ok, some (.failure (.failed (.undefinedVariable "y") [⟨1, none⟩])), some .ok] := by
  have h := (unwatched_new {} {}).trans (unwatched_new { traceExecution := true, printCode := true } {}).symm
  exact ⟨h, ((watching_unseen (.new {} {}) h).1 99 _).1, by decide +kernel⟩

end StackScript.Machine
