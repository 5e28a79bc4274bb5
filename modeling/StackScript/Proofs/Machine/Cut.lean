import StackScript.Proofs.Machine.Pace
import StackScript.Proofs.Machine.Trace

/-! A console that takes so many bytes and no more. A run that writes no more than that goes as with any other console.
One that writes more goes so up to the operation that prints too much: what fits is written, the run fails there, and
nothing that comes later happens. -/
namespace StackScript

/-- All of some bytes but those behind a place. -/
theorem extract_append_of_le {xs ys : ByteArray} {stop : Nat} (h : stop ≤ xs.size) :
    (xs ++ ys).extract 0 stop = xs.extract 0 stop := by
  rw [ByteArray.extract_append, Nat.zero_sub, Nat.sub_eq_zero_of_le h, ByteArray.extract_same, ByteArray.append_empty]

theorem extract_append_of_ge {xs ys : ByteArray} {stop : Nat} (h : xs.size ≤ stop) :
    (xs ++ ys).extract 0 stop = xs ++ ys.extract 0 (stop - xs.size) := by
  have hall : xs.extract 0 stop = xs := by
    rw [← Nat.max_eq_left h, ByteArray.extract_zero_max_size]
  rw [ByteArray.extract_append, Nat.zero_sub, hall]

namespace Console

/-- The console takes so many bytes in all, with those that have been written. -/
def limitTo (c : Console) (total : Nat) : Console := { c with room := some (total - c.output.size) }

/-- The console has taken so many bytes of what has been written, and takes no more. -/
def cutTo (c : Console) (total : Nat) : Console := { c with output := c.output.extract 0 total, room := some 0 }

end Console

namespace Machine

def limitTo (m : Machine) (total : Nat) : Machine := { m with console := m.console.limitTo total }

def cutTo (m : Machine) (total : Nat) : Machine := { m with console := m.console.cutTo total }

/-! ### Consoles -/

/-- The first console is the second one with a limit, which has not been passed. -/
structure Within (total : Nat) (c d : Console) : Prop where
  limited : c = d.limitTo total
  unlimited : d.room = none
  fits : d.output.size ≤ total

section
variable {total : Nat} {config : Config}

theorem lasting_within (total : Nat) (config : Config) : Lasting (Within total) config config where
  flush := by
    rintro _ d ⟨rfl, hroom, hfits⟩
    exact ⟨rfl, rfl, hroom, hfits⟩
  read := by
    rintro _ d ⟨rfl, hroom, hfits⟩
    unfold Console.readLine Console.limitTo
    dsimp only
    split
    · exact ⟨rfl, rfl, hroom, hfits⟩
    · exact ⟨rfl, rfl, hroom, hfits⟩
  note := by
    rintro _ d text text' htext ⟨rfl, hroom, hfits⟩
    obtain rfl := htext rfl rfl
    exact ⟨rfl, hroom, hfits⟩

/-- What is written fits, or the limited console takes a part of it. -/
theorem Within.write {c d : Console} (h : Within total c d) (bytes : ByteArray) :
    ∃ d', d.write bytes = (.ok (), d') ∧
      ((∃ c', c.write bytes = (.ok (), c') ∧ Within total c' d') ∨
        (c.write bytes = (.error .outputFull, d'.cutTo total) ∧ total < d'.output.size)) ∧ d'.input = d.input := by
  obtain ⟨rfl, hroom, hfits⟩ := h
  refine ⟨{ d with output := d.output ++ bytes }, by rw [Console.write, hroom], ?_, rfl⟩
  have hsize : (d.output ++ bytes).size = d.output.size + bytes.size := ByteArray.size_append
  by_cases hmore : bytes.size ≤ total - d.output.size
  · refine .inl ⟨_, if_pos hmore, ?_, hroom, ?_⟩
    · simp only [Console.limitTo, hsize, Nat.sub_add_eq]
    · simp only [hsize]
      omega
  · refine .inr ⟨(if_neg hmore).trans ?_, ?_⟩
    · simp only [Console.limitTo, Console.cutTo, extract_append_of_ge hfits]
    · simp only [hsize]
      omega

/-- The consoles are the same, and something has been written before. -/
structure Onward (base : ByteArray) (c d : Console) : Prop where
  same : c = d
  further : ∃ rest, d.output = base ++ rest

theorem lasts_onward (base : ByteArray) (config : Config) : Lasts (Onward base) config config where
  flush := by
    rintro d _ ⟨rfl, hfurther⟩
    exact ⟨rfl, rfl, hfurther⟩
  read := by
    rintro d _ ⟨rfl, hfurther⟩
    refine ⟨rfl, rfl, ?_⟩
    unfold Console.readLine
    dsimp only
    split <;> exact hfurther
  note := by
    rintro d _ text text' htext ⟨rfl, hfurther⟩
    obtain rfl := htext rfl rfl
    exact ⟨rfl, hfurther⟩
  write := by
    rintro bytes d _ ⟨rfl, rest, hrest⟩
    refine ⟨rfl, rfl, ?_⟩
    have hmore (more : ByteArray) : ∃ rest, d.output ++ more = base ++ rest :=
      ⟨rest ++ more, by rw [hrest, ByteArray.append_assoc]⟩
    unfold Console.write
    dsimp only
    split
    · exact hmore _
    · split
      · exact hmore _
      · exact hmore _

/-! ### Steps -/

variable {m n a b : Machine} {f : Frame} {callers : List Frame} {pre post : List Instr} {i : Instr}

/-- A step that prints more than there is room for in all. -/
structure Crosses (total : Nat) (a b : Machine) : Prop where
  step : cycle.run a = .ok () b
  prints : ∃ f callers, a.frames = f :: callers ∧ f.function.bytecode.opAt? f.ip = some .print ∧
    b.frames = { f with ip := f.ip + 1 } :: callers
  before : a.console.output.size ≤ total
  behind : total < b.console.output.size
  store : b.store = a.store
  globals : b.globals = a.globals
  input : b.console.input = a.console.input

/-- Printing writes the bytes of the value on top of the stack, whatever the console is, and goes on with the next
instruction if that goes well. -/
theorem At.run_print (h : m.At f callers pre i post) (hi : i.op = .print) (hm : m.IsSound) :
    ∃ rest bytes, ∀ console,
      (∀ c, console.write bytes = (.ok (), c) → step.run { m with console } =
        .ok () { m with console := c, frames := { f with ip := f.ip + 1 } :: callers, stack := rest }) ∧
      ∀ e c, console.write bytes = (.error e, c) → step.run { m with console } =
        .error (.failed (.console e))
          { m with console := c, frames := { f with ip := f.ip + 1 } :: callers, stack := rest } := by
  have htakes := h.takes
  obtain ⟨rest, v, hstack, -⟩ := exists_push (show 0 + 1 ≤ m.stack.size by omega)
  obtain ⟨bytes, hbytes⟩ := exists_bytes (hm.top hstack)
  have hperform : i.perform = printTop := by
    rw [Instr.perform, hi]
    rfl
  have hsize : i.size = 1 := by rw [Instr.size, hi]; rfl
  have hstep (console : Console) : step.run { m with console } = (withConsole (·.write bytes)).run
      { m with console, frames := { f with ip := f.ip + 1 } :: callers, stack := rest } := by
    rw [(h.with_console console).run_step, hperform, goTo_eq (h.with_console console).frames, hsize]
    exact run_printTop (m := { m with console, frames := { f with ip := f.ip + 1 } :: callers }) hstack hbytes
  refine ⟨rest, bytes, fun console => ⟨fun c hc => ?_, fun e c hc => ?_⟩⟩
  · rw [hstep, run_withConsole]
    dsimp only
    rw [hc]
  · rw [hstep, run_withConsole]
    dsimp only
    rw [hc]

/-- A step goes alike, or it prints more than the limited machine has room for. -/
theorem cycle_within (h : Beside (Within total) config config m n) (hm : m.Running) :
    Tied (Within total) config config (cycle.run m) (cycle.run n) ∨
      ∃ b, Crosses total n b ∧ cycle.run m = .error (.failed (.console .outputFull)) (b.cutTo total) := by
  have hlasting := lasting_within total config
  obtain ⟨f, callers, pre, i, post, hat⟩ := hm.at
  by_cases hi : i.op = .print
  · obtain ⟨text, text', hleft, hright, hbeside⟩ := h.observe hlasting hat hm.sound
    obtain ⟨rest, bytes, hprint⟩ := hat.run_print hi hm.sound
    obtain ⟨d, hd, hwithin, hinput⟩ := hbeside.console.write bytes
    have hn : n = { m with console := n.console } := by rw [h.eq, h.left, h.right]
    have hright' : cycle.run n =
        .ok () { m with console := d, frames := { f with ip := f.ip + 1 } :: callers, stack := rest } := by
      rw [cycle, run_bind_ok hright, hn]
      exact (hprint _).1 d hd
    obtain ⟨c, hc, hwithin⟩ | ⟨hc, hbehind⟩ := hwithin
    · rw [cycle, run_bind_ok hleft, (hprint _).1 c hc, ← cycle, hright']
      have hdepth := h.depth
      rw [hat.frames] at hdepth
      exact .inl (.ok () ⟨rfl, rfl, rfl, rfl, hwithin, h.left, h.left, hdepth⟩)
    · refine .inr ⟨_, ⟨hright', ⟨f, callers, (h.at hat).frames, ?_, rfl⟩, h.console.fits, hbehind, ?_, ?_, ?_⟩, ?_⟩
      · rw [hat.stands.ip, hat.stands.code.opAt?, hi]
      · exact h.store
      · exact h.globals
      · exact hinput
      · rw [cycle, run_bind_ok hleft, (hprint _).2 _ _ hc]
        rfl
  · exact .inl (h.cycle hlasting (Nat.le_refl _) hat hm.sound fun hprint => absurd hprint hi)

/-! ### Runs -/

/-- Where a machine is after so many steps, or after the last step if that comes before. -/
def ComesTo (steps : Nat) (m e : Machine) : Prop := after steps m = some e ∨ ∃ halt, runFor steps m = some (halt, e)

theorem comesTo_succ {steps : Nat} {e : Machine} (hstep : cycle.run m = .ok () a) :
    ComesTo (steps + 1) m e ↔ ComesTo steps a e := by
  rw [ComesTo, after, runFor, hstep]
  rfl

/-- What has been written stays written. -/
theorem ComesTo.further {steps : Nat} {e : Machine} (h : ComesTo steps m e) (hm : m.Running) :
    ∃ rest, e.console.output = m.console.output ++ rest := by
  have hlasts := lasts_onward m.console.output m.config
  have hself : Beside (Onward m.console.output) m.config m.config m m :=
    ⟨rfl, rfl, rfl, rfl, ⟨rfl, .empty, ByteArray.append_empty.symm⟩, rfl, rfl, hm.depth⟩
  obtain h | ⟨halt, h⟩ := h
  · have hafter := (hself.after hlasts (Nat.le_refl _) hm steps).resolve_left fun hless => Nat.lt_irrefl _ hless.1
    rw [h] at hafter
    cases hafter with
    | some beside => exact beside.console.further
  · have hrun := (hself.runFor hlasts (Nat.le_refl _) hm steps).resolve_left fun hless => Nat.lt_irrefl _ hless.1
    rw [h] at hrun
    cases hrun with
    | some beside => exact beside.2.console.further

/-- A run with a limit goes as the one without, or it fails at the step that prints too much. -/
theorem run_within (h : Beside (Within total) config config m n) (hm : m.Running) (steps : Nat) :
    (Option.Rel (fun x y => x.1 = y.1 ∧ Beside (Within total) config config x.2 y.2) (runFor steps m) (runFor steps n) ∧
      Option.Rel (Beside (Within total) config config) (after steps m) (after steps n)) ∨
    ∃ a b, Steps n a ∧ Crosses total a b ∧
      runFor steps m = some (.failed (.console .outputFull), b.cutTo total) ∧
      ∀ e, ComesTo steps n e → ∃ rest, e.console.output = b.console.output ++ rest := by
  induction steps generalizing m n with
  | zero => exact .inl ⟨.none, .some h⟩
  | succ steps ih =>
    obtain htied | ⟨b, hcrosses, hcut⟩ := cycle_within h hm
    · generalize hleft : cycle.run m = x at htied
      generalize hright : cycle.run n = y at htied
      cases htied with
      | @ok _ m' n' beside =>
        obtain halike | ⟨a, b, hsteps, hcrosses, hcut, hrest⟩ := ih beside (hm.goesOn hleft)
        · refine .inl ?_
          rw [runFor, runFor, after, after, hleft, hright]
          exact halike
        · refine .inr ⟨a, b, hsteps.head hright, hcrosses, ?_, fun e he => hrest e ((comesTo_succ hright).1 he)⟩
          rw [runFor, hleft]
          exact hcut
      | error halt beside =>
        refine .inl ?_
        rw [runFor, runFor, after, after, hleft, hright]
        exact ⟨.some ⟨rfl, beside⟩, .none⟩
      | full less => exact absurd less (Nat.lt_irrefl _)
    · refine .inr ⟨n, b, .refl n, hcrosses, by rw [runFor, hcut], fun e he => ?_⟩
      have hn : n.Running := h.running (Nat.le_refl _) hm
      exact ((comesTo_succ hcrosses.step).1 he).further (hn.goesOn hcrosses.step)

/-! ### Sources -/

theorem Beside.eq_limitTo (h : Beside (Within total) config config m n) : m = n.limitTo total := by
  obtain ⟨config, store, globals, stack, frames, console⟩ := m
  obtain ⟨hstore, hglobals, hstack, hframes, ⟨hconsole, -, -⟩, hleft, hright, -⟩ := h
  dsimp only at hstore hglobals hstack hframes hconsole hleft
  rw [limitTo, hstore, hglobals, hstack, hframes, hconsole, hleft, ← hright]

/-- Where a source has brought a machine after so many steps: at the end of the run, if it is over by then. -/
def broughtTo (steps : Nat) (source : String) (m : Machine) : Machine :=
  match m.interpret steps source with
  | some (_, m') => m'
  | none => (m.reached source steps).getD m

/-- Nothing is written behind the last step. -/
theorem output_conclude (halt : Halt) (m : Machine) : (m.conclude halt).2.console.output = m.console.output := by
  cases halt with
  | finished =>
    have hflush : m.console.flush.2.output = m.console.output := rfl
    simp only [conclude]
    split <;> rename_i heq <;> rw [heq] at hflush <;> exact hflush
  | failed e => rfl
  | stuck r => rfl

theorem exists_after {steps : Nat} (h : runFor steps m = none) : ∃ e, after steps m = some e := by
  induction steps generalizing m with
  | zero => exact ⟨m, rfl⟩
  | succ steps ih =>
    rw [runFor] at h
    split at h
    · rename_i hstep
      rw [after, hstep]
      exact ih h
    · cases h

/-- A run that has been cut short between two states of the run without a limit. -/
structure CutShort (total : Nat) (m : Machine) (source : String) (a b e u : Machine) : Prop where
  reaches : m.Reaches source a
  crosses : Crosses total a b
  output : u.console.output = e.console.output.extract 0 total
  globals : u.globals = a.globals
  store : u.store = a.store
  input : u.console.input = a.console.input
  stack : u.stack = #[]
  frames : u.frames = []
  idle : u.Idle
  traced : ∃ f callers line lines, a.frames = f :: callers ∧ b.trace = line :: lines ∧ line.Tells b.store f .print f.ip ∧
    List.Forall₂ (fun (g : Frame) (l : TraceLine) => l.Tells b.store g .call (g.ip - 2)) callers lines

theorem Crosses.tells {script : Function} (h : Crosses total a b) (ha : a.Running) (ht : a.Traceable script) :
    ∃ f callers line lines, a.frames = f :: callers ∧ b.trace = line :: lines ∧ line.Tells b.store f .print f.ip ∧
      List.Forall₂ (fun (g : Frame) (l : TraceLine) => l.Tells b.store g .call (g.ip - 2)) callers lines := by
  obtain ⟨f, callers, pre, i, post, hat⟩ := ha.at
  obtain ⟨f', callers', hframes, hop, hbehind⟩ := h.prints
  obtain ⟨rfl, rfl⟩ := List.cons.inj (hat.frames.symm.trans hframes)
  rw [hat.stands.ip, hat.stands.code.opAt?] at hop
  have hi : i.op = .print := Option.some.inj hop
  have hsize : i.size = 1 := by rw [Instr.size, hi]; rfl
  obtain ⟨line, lines, htrace, hline, hlines⟩ := ht.tells (b := b) hat (h.store ▸ .refl _) (by rw [hbehind, hsize])
  exact ⟨f, callers, line, lines, hframes, htrace, hi ▸ hline, hlines⟩

theorem exists_broughtTo {source : String} (hstart : m.start source = .ok b) (steps : Nat) :
    ∃ e, ComesTo steps b e ∧ (broughtTo steps source m).console.output = e.console.output := by
  rw [broughtTo, interpret, reached, hstart]
  dsimp only
  cases hrun : runFor steps b with
  | some ended => exact ⟨ended.2, .inr ⟨ended.1, hrun⟩, output_conclude ended.1 ended.2⟩
  | none =>
    obtain ⟨e, he⟩ := exists_after hrun
    exact ⟨e, .inl he, by rw [Option.map_none, he, Option.getD_some]⟩

/-- A source goes alike with the limit, or the run is cut short. -/
theorem interpret_within (h : Beside (Within total) config config m n) (hm : m.Resting) (source : String)
    (steps : Nat) :
    (Option.Rel (fun x y => x.1 = y.1 ∧ Beside (Within total) config config x.2 y.2) (m.interpret steps source)
        (n.interpret steps source) ∧
      Option.Rel (Beside (Within total) config config) (m.reached source steps) (n.reached source steps)) ∨
    ∃ a b, n.Reaches source a ∧ Crosses total a b ∧
      m.interpret steps source = some ((b.cutTo total).abandon (.console .outputFull)) ∧
      ∃ rest, (broughtTo steps source n).console.output = b.console.output ++ rest := by
  have hlasting := lasting_within total config
  have habreast := h.start hlasting (Nat.le_refl _) source
  generalize hleft : m.start source = x at habreast
  generalize hright : n.start source = y at habreast
  cases habreast with
  | early outcome beside =>
    refine .inl ?_
    rw [interpret, interpret, reached, reached, hleft, hright]
    exact ⟨.some ⟨rfl, beside⟩, .none⟩
  | full less => exact absurd less (Nat.lt_irrefl _)
  | @running m' n' beside =>
    have hm' : m'.Running := running_of_start hm hleft
    obtain ⟨hrun, hafter⟩ | ⟨a, b, hsteps, hcrosses, hcut, hrest⟩ := run_within beside hm' steps
    · refine .inl ⟨?_, ?_⟩
      · rw [interpret, interpret, hleft, hright]
        dsimp only
        generalize runFor steps m' = x at hrun
        generalize runFor steps n' = y at hrun
        cases hrun with
        | none => exact .none
        | @some x y hxy =>
          obtain ⟨halt, m'⟩ := x
          obtain ⟨halt', n'⟩ := y
          obtain ⟨rfl, hbeside⟩ := hxy
          exact .some (hbeside.conclude hlasting halt)
      · rw [reached, reached, hleft, hright]
        exact hafter
    · obtain ⟨e, he, houtput⟩ := exists_broughtTo hright steps
      refine .inr ⟨a, b, ⟨n', hright, hsteps⟩, hcrosses, ?_, houtput ▸ hrest e he⟩
      rw [interpret, hleft]
      dsimp only
      rw [hcut]
      rfl

/-- A console that takes so many bytes in all makes no difference to a source that does not write more, at any step and
behind the last one. A source that writes more is cut short at the operation that prints more than fits, with what fits:
the bytes written are the first ones of what is written without the limit, the trace is that of the operation, global
variables, store and input are those that it has found, and the machine is left at rest. -/
theorem output_cut (hm : m.Idle) (unlimited : m.console.room = none) (fits : m.console.output.size ≤ total)
    (source : String) (steps : Nat) :
    ((broughtTo steps source m).console.output.size ≤ total →
      (m.limitTo total).interpret steps source = (m.interpret steps source).map (fun x => (x.1, x.2.limitTo total)) ∧
        (m.limitTo total).reached source steps = (m.reached source steps).map (·.limitTo total)) ∧
    (total < (broughtTo steps source m).console.output.size →
      ∃ a b u, (m.limitTo total).interpret steps source = some (.failure (.failed (.console .outputFull) b.trace), u) ∧
        CutShort total m source a b (broughtTo steps source m) u) := by
  have hbeside : Beside (Within total) m.config m.config (m.limitTo total) m :=
    ⟨rfl, rfl, rfl, rfl, ⟨rfl, unlimited, fits⟩, rfl, rfl, by rw [limitTo, hm.resting.frames]; exact Nat.zero_le _⟩
  have hidle : (m.limitTo total).Idle := hm.console _
  obtain ⟨hinterpret, hreached⟩ | ⟨a, b, ha, hcrosses, hcut, rest, hrest⟩ :=
    interpret_within hbeside hidle.resting source steps
  · refine ⟨fun _ => ⟨?_, ?_⟩, fun hmore => absurd hmore (Nat.not_lt_of_le ?_)⟩
    · generalize (m.limitTo total).interpret steps source = x at hinterpret ⊢
      generalize m.interpret steps source = y at hinterpret ⊢
      cases hinterpret with
      | none => rfl
      | some hxy => exact congrArg some (Prod.ext hxy.1 hxy.2.eq_limitTo)
    · generalize (m.limitTo total).reached source steps = x at hreached ⊢
      generalize m.reached source steps = y at hreached ⊢
      cases hreached with
      | none => rfl
      | some beside => exact congrArg some beside.eq_limitTo
    · rw [broughtTo]
      generalize (m.limitTo total).interpret steps source = x at hinterpret
      generalize m.interpret steps source = y at hinterpret ⊢
      generalize (m.limitTo total).reached source steps = x' at hreached
      generalize m.reached source steps = y' at hreached ⊢
      cases hinterpret with
      | some hxy => exact hxy.2.console.fits
      | none =>
        cases hreached with
        | none => exact fits
        | some beside => exact beside.console.fits
  · have hbehind := hcrosses.behind
    refine ⟨fun hless => ?_, fun _ => ⟨a, b, _, hcut, ?_⟩⟩
    · rw [hrest, ByteArray.size_append] at hless
      omega
    · obtain ⟨r, script, -, -, -, htraceable⟩ := hm.resting.traceable hm.isLined ha
      exact {
        reaches := ha
        crosses := hcrosses
        output := by
          rw [hrest, extract_append_of_le (Nat.le_of_lt hbehind)]
          rfl
        globals := hcrosses.globals
        store := hcrosses.store
        input := hcrosses.input
        stack := rfl
        frames := rfl
        idle := hidle.interpret hcut
        traced := hcrosses.tells (hm.reaches ha).1 htraceable }

/-- There is room for one byte of three. -/
theorem output_cut_first :
    (Machine.new {} {}).console.room = none ∧ (Machine.new {} {}).console.output.size ≤ 1 ∧
      1 < (broughtTo 99 "ouo \"ab\", \"c\" >>" (.new {} {})).console.output.size ∧
      ∃ b u : Machine, ((Machine.new {} {}).limitTo 1).interpret 99 "ouo \"ab\", \"c\" >>" =
        some (.failure (.failed (.console .outputFull) b.trace), u) ∧ u.console.output.toList = [97] := by
  have hmore : (broughtTo 99 "ouo \"ab\", \"c\" >>" (.new {} {})).console.output = ⟨#[97, 98, 99]⟩ := by decide +kernel
  have hless : 1 < (broughtTo 99 "ouo \"ab\", \"c\" >>" (.new {} {})).console.output.size := by
    rw [hmore]
    decide
  refine ⟨rfl, Nat.zero_le 1, hless, ?_⟩
  obtain ⟨a, b, u, hcut, hshort⟩ := (output_cut (.new {} {}) rfl (Nat.zero_le 1) "ouo \"ab\", \"c\" >>" 99).2 hless
  refine ⟨b, u, hcut, ?_⟩
  rw [hshort.output, hmore]
  decide +kernel

end
end Machine
end StackScript
