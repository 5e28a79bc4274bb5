import StackScript.Proofs.Machine.Pace

/-! A higher limit on how deep calls may nest changes nothing of what a machine does without running out of room. The
limit bounds the calls and the stack, and both are full on the machine with the higher limit only if they are on the
other one. -/
namespace StackScript.Machine

/-- The machine under another limit on how deep calls may nest. -/
def limited (m : Machine) (maxFrames : Nat) : Machine := { m with config := { m.config with maxFrames } }

/-- What becomes of a machine that runs sources one after another: the outcome of each run with the machine behind it.
Where a run is not over after a number of steps, the last machine is the one at that step, and there is no outcome. -/
def course (steps : Nat) : List String → Machine → List (Option Outcome × Machine)
  | [], _ => []
  | source :: rest, m =>
    match m.interpret steps source with
    | some (outcome, m') => (some outcome, m') :: course steps rest m'
    | none => [(none, (m.reached source steps).getD m)]

/-- The run has not ended for want of room. -/
def HadRoom (entry : Option Outcome × Machine) : Prop :=
  ∀ trace, entry.1 ≠ some (.failure (.failed .stackOverflow trace))

/-- Equal consoles stay equal if the same is noted. -/
theorem lasts_eq {l r : Config} (htrace : l.traceExecution = r.traceExecution) (hprint : l.printCode = r.printCode) :
    Lasts Eq l r where
  flush := by rintro c _ rfl; exact ⟨rfl, rfl⟩
  read := by rintro c _ rfl; exact ⟨rfl, rfl⟩
  write bytes := by rintro c _ rfl; exact ⟨rfl, rfl⟩
  note := by
    rintro c _ text text' htext rfl
    rw [htext htrace hprint]

variable {m n : Machine} {l : Config} {limit : Nat}

/-- Beside a machine under a higher limit, with the same at the console, stands the machine itself. -/
theorem Beside.eq_limited (h : Beside Eq l { l with maxFrames := limit } m n) : n = m.limited limit := by
  obtain ⟨config, store, globals, stack, frames, console⟩ := n
  obtain ⟨rfl, rfl, rfl, rfl, rfl, rfl, rfl, -⟩ := h
  rfl

theorem Resting.beside_limited (hm : m.Resting) (limit : Nat) :
    Beside Eq m.config { m.config with maxFrames := limit } m (m.limited limit) :=
  ⟨rfl, rfl, rfl, rfl, rfl, rfl, rfl, by rw [hm.frames]; exact Nat.zero_le _⟩

/-- Machines beside each other take the same course, as long as the first one has room. -/
theorem Beside.course (hlimit : l.maxFrames ≤ limit) (h : Beside Eq l { l with maxFrames := limit } m n)
    (hm : m.Resting) (steps : Nat) (sources : List String) (hroom : ∀ entry ∈ course steps sources m, HadRoom entry) :
    course steps sources n = (course steps sources m).map fun entry => (entry.1, entry.2.limited limit) := by
  have hlasts : Lasts Eq l { l with maxFrames := limit } := lasts_eq rfl rfl
  induction sources generalizing m n with
  | nil => rfl
  | cons source rest ih =>
    have henough : ¬LacksRoom steps source m := by
      rintro ⟨trace, m', hlacks⟩
      refine hroom (some (.failure (.failed .stackOverflow trace)), m') ?_ trace rfl
      rw [Machine.course, hlacks]
      exact List.mem_cons_self
    have hinterpret := (h.interpret hlasts hlimit hm steps source).resolve_left fun hless => henough hless.2
    have hreached := (h.reached hlasts hlimit hm steps source).resolve_left fun hless => henough hless.2
    have hrest : ∀ {outcome m'}, m.interpret steps source = some (outcome, m') → m'.Resting := hm.interpret
    rw [Machine.course] at hroom
    rw [Machine.course, Machine.course]
    generalize m.interpret steps source = x at hinterpret hrest hroom ⊢
    generalize n.interpret steps source = y at hinterpret ⊢
    cases hinterpret with
    | @some x y hxy =>
      obtain ⟨outcome, m'⟩ := x
      obtain ⟨outcome', n'⟩ := y
      obtain ⟨rfl, hbeside⟩ := hxy
      dsimp only at hroom ⊢
      rw [List.map_cons, ← hbeside.eq_limited]
      exact congrArg _ (ih hbeside (hrest rfl) fun entry hentry => hroom entry (List.mem_cons_of_mem _ hentry))
    | none =>
      dsimp only
      generalize m.reached source steps = a at hreached ⊢
      generalize n.reached source steps = b at hreached ⊢
      cases hreached with
      | none => rw [Option.getD_none, Option.getD_none, h.eq_limited]; rfl
      | some hbeside => rw [Option.getD_some, Option.getD_some, hbeside.eq_limited]; rfl

/-- A higher limit is not noticed. If no run of a machine ends for want of room, then under any higher limit the runs
have the same outcomes and traces, and behind each run, or at any step of one that goes on, the machine is the same but
for the limit: what has been written and what is left to read, the global variables, the store and what has been noted. -/
theorem higher_limit_unseen (hm : m.Idle) (hlimit : m.config.maxFrames ≤ limit) (steps : Nat) (sources : List String)
    (hroom : ∀ entry ∈ course steps sources m, HadRoom entry) :
    course steps sources (m.limited limit) =
      (course steps sources m).map fun entry => (entry.1, entry.2.limited limit) :=
  (hm.resting.beside_limited limit).course hlimit hm.resting steps sources hroom

theorem limited_new (config : Config) (console : Console) (limit : Nat) :
    (Machine.new config console).limited limit = .new { config with maxFrames := limit } console := by
  have hfold : ∀ (specs : List NativeSpec) (m : Machine),
      (specs.foldl defineNative m).limited limit = specs.foldl defineNative (m.limited limit) := by
    intro specs
    induction specs with
    | nil => exact fun m => rfl
    | cons spec specs ih => exact fun m => ih (m.defineNative spec)
  exact hfold mathNatives _

/-- A function that calls itself, on a machine with as many calls as it needs and on one with more. -/
theorem higher_limit_unseen_recursion :
    (Machine.new { maxFrames := 4 } {}).config.maxFrames ≤ 9 ∧
      (course 99 ["fwun f(n) [: ?w? n = 0 [: ouo n >> out x >> :] out f(n - 1) >> :] f(2)", "ouo 1 >>"]
        (.new { maxFrames := 4 } {})).map Prod.fst =
          [some (.failure (.failed (.undefinedVariable "x") [⟨1, some "f"⟩, ⟨1, some "f"⟩, ⟨1, some "f"⟩, ⟨1, none⟩])),
            some .ok] ∧
      course 99 ["fwun f(n) [: ?w? n = 0 [: ouo n >> out x >> :] out f(n - 1) >> :] f(2)", "ouo 1 >>"]
          (.new { maxFrames := 9 } {}) =
        (course 99 ["fwun f(n) [: ?w? n = 0 [: ouo n >> out x >> :] out f(n - 1) >> :] f(2)", "ouo 1 >>"]
          (.new { maxFrames := 4 } {})).map fun entry => (entry.1, entry.2.limited 9) := by
  have hlimit : (Machine.new { maxFrames := 4 } {}).config.maxFrames ≤ 9 := by decide
  have hends : (course 99 ["fwun f(n) [: ?w? n = 0 [: ouo n >> out x >> :] out f(n - 1) >> :] f(2)", "ouo 1 >>"]
      (.new { maxFrames := 4 } {})).map Prod.fst =
        [some (.failure (.failed (.undefinedVariable "x") [⟨1, some "f"⟩, ⟨1, some "f"⟩, ⟨1, some "f"⟩, ⟨1, none⟩])),
          some .ok] := by decide +kernel
  refine ⟨hlimit, hends, ?_⟩
  rw [← limited_new { maxFrames := 4 } {} 9]
  refine higher_limit_unseen (.new _ _) hlimit 99 _ fun entry hentry trace heq => ?_
  have hfirst := List.mem_map_of_mem (f := Prod.fst) hentry
  rw [hends, heq] at hfirst
  simp at hfirst

end StackScript.Machine
