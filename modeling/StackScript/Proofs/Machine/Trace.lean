import StackScript.Proofs.Machine.History

/-! What a trace tells. The calls that wait for others stand behind call instructions, the outermost call is that of
the script, and the code of all functions is in lines, so that each line of a trace is one that an operation has been
written under. -/
namespace StackScript

/-- A line of a trace tells of a call that is at an operation: it has the line that the byte of the operation was
written under, and the name that the function was declared with, if it is not the script. -/
structure TraceLine.Tells (t : TraceLine) (s : Store) (f : Frame) (op : Opcode) (place : Nat) : Prop where
  written : ∃ pre i post, f.function.bytecode.Lined (pre ++ (i, t.line) :: post) ∧ i.op = op ∧
    place = codeLength (pre.map Prod.fst)
  declared : ∃ tree : FunctionTree, tree.IsCompiled s f.function ∧ t.function = tree.name

/-- A function that a trace can tell of: it is that of a tree, and its code is in lines. -/
structure Function.Traceable (s : Store) (f : Function) : Prop where
  lined : f.bytecode.IsLined
  declared : ∃ tree : FunctionTree, tree.IsCompiled s f

theorem Function.Traceable.mono {s t : Store} {f : Function} (h : f.Traceable s) (hs : s.Extends t) : f.Traceable t :=
  ⟨h.lined, h.declared.imp fun _ htree => htree.mono hs⟩

/-- The functions that values refer to. -/
theorem Store.Sound.traceable {s : Store} {r : FunctionRef} {f : Function} (h : s.Sound (.function r))
    (hf : s.function? r = some f) (hs : s.IsLined) : f.Traceable s := by
  cases h with
  | @function _ f' tree hr ht _ =>
    obtain rfl := Option.some.inj (hr.symm.trans hf)
    exact ⟨hs _ (Array.mem_of_getElem? hf), tree, ht⟩

/-- A call waits for another one: it is behind a call instruction. -/
def Frame.Waits (f : Frame) : Prop :=
  ∃ pre i post, f.function.bytecode.Consists (pre ++ i :: post) ∧ i.op = .call ∧ f.ip = codeLength pre + i.size

/-- A trace has the line of the instruction in front of a place. -/
theorem Frame.tells_behind {s : Store} {f : Frame} {pre post : List Instr} {i : Instr} (hf : f.function.Traceable s)
    (hc : f.function.bytecode.Consists (pre ++ i :: post)) (hip : f.ip = codeLength pre + i.size) :
    TraceLine.Tells ⟨f.function.bytecode.lineAt (f.ip - 1), f.function.name.bind s.text?⟩ s f i.op
      (codeLength pre) := by
  obtain ⟨⟨placed, hplaced⟩, tree, ib, hcompiles, hbody⟩ := hf
  obtain ⟨ps, rest, rfl, rfl, hrest⟩ := List.map_eq_append_iff.1 (hplaced.code.unique hc)
  obtain ⟨⟨j, line⟩, qs, rfl, rfl, rfl⟩ := List.map_eq_cons_iff.1 hrest
  have hpos := j.size_pos
  have hline : f.function.bytecode.lineAt (f.ip - 1) = line := by
    rw [hip, Nat.add_sub_assoc hpos]
    exact hplaced.lineAt (Nat.sub_one_lt_of_lt hpos)
  exact ⟨⟨ps, j, qs, by rwa [hline], rfl, rfl⟩, tree, ⟨ib, hcompiles, hbody⟩, hcompiles.named.bind_text⟩

namespace Machine
variable {m m' a b : Machine} {f : Frame} {callers : List Frame} {pre post : List Instr} {i : Instr} {script : Function}
  {source : String}

/-- What traces rely on: all functions can be told of, the calls below the innermost one are waiting, and the outermost
one is that of the script. -/
structure Traceable (script : Function) (m : Machine) : Prop where
  store : m.store.IsLined
  functions : ∀ f ∈ m.frames, f.function.Traceable m.store
  waiting : ∀ f ∈ m.frames.tail, f.Waits
  outermost : (m.frames.map Frame.function).getLast? = some script

theorem Traceable.with_console (h : m.Traceable script) (console : Console) :
    ({ m with console } : Machine).Traceable script := ⟨h.store, h.functions, h.waiting, h.outermost⟩

/-- A step that is not the last one leaves behind what traces rely on. -/
theorem Comes.traceable (h : Comes m f callers i (.ok () m')) (hat : m.At f callers pre i post) (hm : m.Running)
    (ht : m.Traceable script) : m'.Traceable script := by
  obtain ⟨hstore, hfunctions, hwaiting, houtermost⟩ := ht
  rw [hat.frames] at hfunctions hwaiting houtermost
  cases h with
  | @works n _ _ hw =>
    have hframes := hw.frames
    have hgrown := hw.store
    have hsame := hw.functions
    rw [goTo_eq hat.frames] at hframes hgrown hsame
    refine ⟨by rwa [Store.IsLined, hsame], fun g hg => ?_, ?_, ?_⟩
    · rw [hframes] at hg
      obtain rfl | hg := List.mem_cons.1 hg
      · exact (hfunctions f List.mem_cons_self).mono hgrown
      · exact (hfunctions g (List.mem_cons_of_mem _ hg)).mono hgrown
    · rw [hframes]
      exact hwaiting
    · rw [hframes]
      exact houtermost
  | @calls below args r g hop hstack hg count arity depth =>
    have hsound : m.store.Sound (.function r) := hm.sound.stack _ (by rw [hstack]; simp)
    refine ⟨hstore, fun g' hg' => ?_, fun g' hg' => ?_, ?_⟩
    · obtain rfl | hg' := List.mem_cons.1 hg'
      · exact hsound.traceable hg hstore
      obtain rfl | hg' := List.mem_cons.1 hg'
      · exact hfunctions f List.mem_cons_self
      · exact hfunctions g' (List.mem_cons_of_mem _ hg')
    · obtain rfl | hg' := List.mem_cons.1 hg'
      · exact ⟨pre, i, post, hat.stands.code, hop, by rw [hat.stands.ip]⟩
      · exact hwaiting g' hg'
    · rw [List.map_cons, List.map_cons, List.getLast?_cons_cons]
      exact houtermost
  | @returns g waiting below own v hop outer hstack base =>
    subst outer
    refine ⟨hstore, fun g' hg' => hfunctions g' (List.mem_cons_of_mem _ hg'),
      fun g' hg' => hwaiting g' (List.mem_cons_of_mem _ hg'), ?_⟩
    rw [List.map_cons, List.map_cons, List.getLast?_cons_cons] at houtermost
    exact houtermost

theorem Steps.traceable (h : Steps a b) (ha : a.Running) (ht : a.Traceable script) : b.Traceable script := by
  induction h with
  | refl => exact ht
  | tail hsteps step ih =>
    have hm := hsteps.running ha
    obtain ⟨f, callers, pre, i, post, hat⟩ := hm.at
    obtain ⟨console, hcomes⟩ := comes_cycle hat hm
    rw [step] at hcomes
    exact hcomes.traceable (hat.with_console console) (hm.with_console console) (ih.with_console console)

/-- A step adds no function to the store. -/
theorem Comes.functions (h : Comes m f callers i (.ok () m')) (hf : m.frames = f :: callers) :
    m'.store.functions = m.store.functions := by
  cases h with
  | works _ hw =>
    have hsame := hw.functions
    rwa [goTo_eq hf] at hsame
  | calls => rfl
  | returns => rfl

theorem Steps.functions (h : Steps a b) (ha : a.Running) : b.store.functions = a.store.functions := by
  induction h with
  | refl => rfl
  | tail hsteps step ih =>
    have hm := hsteps.running ha
    obtain ⟨f, callers, pre, i, post, hat⟩ := hm.at
    obtain ⟨console, hcomes⟩ := comes_cycle hat hm
    rw [step] at hcomes
    exact (hcomes.functions hat.frames).trans ih

theorem functions_last (ha : a.Running) {halt : Halt} (h : cycle.run a = .error halt b) :
    b.store.functions = a.store.functions := by
  obtain ⟨f, callers, pre, i, post, hat⟩ := ha.at
  obtain ⟨console, hcomes⟩ := comes_cycle hat ha
  rw [h] at hcomes
  cases hcomes with
  | finishes => rfl
  | fails hf =>
    have hsame := hf.functions
    rwa [goTo_eq (hat.with_console console).frames] at hsame

theorem store_conclude (halt : Halt) (m : Machine) : (m.conclude halt).2.store = m.store := by
  cases halt with
  | finished =>
    simp only [conclude]
    split <;> rfl
  | failed e => rfl
  | stuck r => rfl

/-! ### Runs -/

/-- In each state of a run there is what traces rely on. -/
theorem Resting.traceable (hm : m.Resting) (hs : m.store.IsLined) (ha : m.Reaches source a) :
    ∃ r script, (compile source m.store m.config.printCode).result = .ok r ∧ a.store.function? r = some script ∧
      script.name = none ∧ a.Traceable script := by
  obtain ⟨b, hstart, hsteps⟩ := ha
  have hstarts := starts_start hm source
  rw [hstart] at hstarts
  cases hstarts with
  | @running _ r f hb _ hstore hr hf hframes =>
    obtain ⟨ds, hreads⟩ := reads_of_ok hr
    obtain ⟨r', hr', -, hgains⟩ := compile_of_reads hreads m.store m.config.printCode
    obtain rfl := Except.ok.inj (hr.symm.trans hr')
    rw [← hstore] at hgains
    have hlined : b.store.IsLined := hstore ▸ isLined_compile source hs m.config.printCode
    have hscript : f.Traceable b.store := hgains.sound.traceable hf hlined
    obtain ⟨f', hf', ⟨ib, hcompiles, -⟩, -⟩ := hgains.compiled
    obtain rfl := Option.some.inj (hf.symm.trans hf')
    have hbegin : b.Traceable f := by
      refine ⟨hlined, fun g hg => ?_, ?_, ?_⟩
      · rw [hframes] at hg
        obtain rfl := List.mem_singleton.1 hg
        exact hscript
      · simp [hframes]
      · simp [hframes]
    refine ⟨r, f, hr, ?_, ?_, hsteps.traceable hb hbegin⟩
    · rw [Store.function?, hsteps.functions hb]
      exact hf
    · have hname := hcompiles.named
      unfold Store.Names at hname
      generalize f.name = x at hname ⊢
      cases x with
      | none => rfl
      | some x => exact hname.elim

/-- Interpreting a source adds the functions of the source and no others. -/
theorem Resting.functions_interpret (hm : m.Resting) {steps : Nat} {outcome : Outcome}
    (ended : m.interpret steps source = some (outcome, m')) :
    m'.store.functions = (compile source m.store m.config.printCode).store.functions := by
  have hstarts := starts_start hm source
  unfold Machine.interpret at ended
  generalize hstarted : m.start source = started at hstarts ended
  cases hstarts with
  | rejected _ hstore =>
    obtain ⟨rfl, rfl⟩ := Prod.mk.inj (Option.some.inj ended)
    rw [hstore]
  | full _ _ hstore =>
    obtain ⟨rfl, rfl⟩ := Prod.mk.inj (Option.some.inj ended)
    rw [hstore]
  | @running b _ _ hb _ hstore =>
    obtain ⟨⟨halt, c⟩, hrun, hend⟩ := Option.map_eq_some_iff.1 ended
    obtain ⟨a, hsteps, hlast⟩ := exists_of_runFor hrun
    have hfunctions := (functions_last (hsteps.running hb) hlast).trans (hsteps.functions hb)
    have hsame := store_conclude halt c
    rw [show c.conclude halt = (outcome, m') from hend] at hsame
    rw [show m'.store = c.store from hsame, hfunctions, hstore]

theorem functions_new (config : Config) (console : Console) : (Machine.new config console).store.functions = #[] := by
  have hfold : ∀ (specs : List NativeSpec) (m : Machine),
      (specs.foldl Machine.defineNative m).store.functions = m.store.functions := by
    intro specs
    induction specs with
    | nil => exact fun m => rfl
    | cons spec specs ih => exact fun m => ih (m.defineNative spec)
  exact hfold mathNatives _

/-- Whatever a machine has been through, the functions that it knows are in lines. -/
theorem Idle.isLined (h : m.Idle) : m.store.IsLined := by
  induction h with
  | new config console =>
    intro f hf
    rw [functions_new] at hf
    exact absurd hf (Array.not_mem_empty f)
  | defineNative _ _ ih => exact ih
  | @interpret m m' steps source outcome hm ended ih =>
    rw [Store.IsLined, hm.resting.functions_interpret ended]
    exact isLined_compile source ih m.config.printCode
  | console _ _ ih => exact ih

/-- When a step fails, each call has its line in the trace, and no call has begun. -/
theorem Traceable.tells (h : a.Traceable script) (hat : a.At f callers pre i post) (hstore : a.store.Extends b.store)
    (hframes : b.frames = { f with ip := f.ip + i.size } :: callers) :
    ∃ line lines, b.trace = line :: lines ∧ line.Tells b.store f i.op f.ip ∧
      List.Forall₂ (fun (g : Frame) (l : TraceLine) => l.Tells b.store g .call (g.ip - 2)) callers lines := by
  obtain ⟨-, hfunctions, hwaiting, -⟩ := h
  rw [hat.frames] at hfunctions hwaiting
  refine ⟨_, _, by rw [trace, hframes, List.map_cons], ?_, ?_⟩
  · have htells := Frame.tells_behind (f := { f with ip := f.ip + i.size })
      ((hfunctions f List.mem_cons_self).mono hstore) hat.stands.code (by rw [hat.stands.ip])
    rw [← hat.stands.ip] at htells
    exact ⟨htells.written, htells.declared⟩
  · refine List.forall₂_map_right_iff.2 (List.forall₂_same.2 fun g hg => ?_)
    obtain ⟨pre, j, post, hc, hop, hip⟩ := hwaiting g hg
    have htells := Frame.tells_behind ((hfunctions g (List.mem_cons_of_mem _ hg)).mono hstore) hc hip
    have hsize : j.size = 2 := by rw [Instr.size, hop]; rfl
    rwa [hop, show codeLength pre = g.ip - 2 by omega] at htells

/-- What the trace of a failed run tells. -/
inductive Traces (m : Machine) (source : String) : RuntimeError → List TraceLine → Prop
  /-- The script could not be called. -/
  | full (none : m.config.maxFrames = 0) : Traces m source .stackOverflow []
  /-- The script has ended, and what was printed could not be sent out. -/
  | unsent {a b : Machine} {error : ConsoleError} (run : m.Reaches source a) (last : cycle.run a = .error .finished b)
      (none : b.frames = []) (flush : b.console.flush.1 = .error error) : Traces m source (.console error) []
  /-- An instruction has failed: its line comes first, then those of the calls that are waiting. -/
  | failed {a b : Machine} {f : Frame} {callers : List Frame} {e : RuntimeError} {op : Opcode} {line : TraceLine}
      {lines : List TraceLine} {r : FunctionRef} {script : Function} (run : m.Reaches source a)
      (last : cycle.run a = .error (.failed e) b) (active : a.frames = f :: callers)
      (failing : line.Tells b.store f op f.ip)
      (waiting : List.Forall₂ (fun (g : Frame) (l : TraceLine) => l.Tells b.store g .call (g.ip - 2)) callers lines)
      (depth : (line :: lines).length ≤ m.config.maxFrames)
      (compiled : (compile source m.store m.config.printCode).result = .ok r)
      (known : b.store.function? r = some script) (outermost : (a.frames.map Frame.function).getLast? = some script)
      (unnamed : (line :: lines).getLast?.map TraceLine.function = some none) : Traces m source e (line :: lines)

/-- The outermost line of a trace is that of the script. -/
theorem unnamed_last (m : Machine) {script : Function} (h : (m.frames.map Frame.function).getLast? = some script)
    (hname : script.name = none) : m.trace.getLast?.map TraceLine.function = some none := by
  rw [List.getLast?_map] at h
  obtain ⟨f, hf, rfl⟩ := Option.map_eq_some_iff.1 h
  rw [trace, List.getLast?_map, hf, Option.map_some, Option.map_some, hname]
  rfl

/-- A run that fails is followed by a trace with one line for each active call, the innermost first. The first line is
the one that the operation of the failing instruction was written under, the others are those of the calls that are
waiting, and each has the name that the function was declared with; the last one is that of the script, which has none.
A call that fails has not begun, so it is in the trace as an instruction of its caller. Where no call is active there is
no line. -/
theorem trace_tells (hm : m.Idle) {steps : Nat} {e : RuntimeError} {trace : List TraceLine}
    (h : m.interpret steps source = some (.failure (.failed e trace), m')) : Traces m source e trace := by
  obtain ⟨-, ⟨errors, herrors⟩ | ⟨hfull, hmax⟩⟩ | ⟨a, halt, b, ha, hrunning, hlast, hend⟩ := hm.resting.interpret_cases h
  · cases herrors
  · cases hfull
    exact .full hmax
  · have hmax := (hm.reaches ha).2
    obtain ⟨r, script, hr, hscript, hname, htraceable⟩ := hm.resting.traceable hm.isLined ha
    obtain ⟨f, callers, pre, i, post, hat⟩ := hrunning.at
    obtain ⟨console, hcomes⟩ := comes_cycle hat hrunning
    rw [hlast] at hcomes
    cases hcomes with
    | finishes =>
      simp only [conclude] at hend
      split at hend
      · cases hend
      · rename_i error _ hflush
        cases hend
        exact .unsent ha hlast rfl (by rw [hflush])
    | @fails e' _ hfails =>
      obtain ⟨houtcome, -⟩ := Prod.mk.inj hend
      cases houtcome
      have hframes := hfails.frames
      have hstore := hfails.store
      have hfunctions := hfails.functions
      rw [goTo_eq (hat.with_console console).frames] at hframes hstore hfunctions
      obtain ⟨line, lines, htrace, hfailing, hwaiting⟩ := htraceable.tells hat hstore hframes
      have hlength : (line :: lines).length = a.frames.length := by
        rw [hat.frames, List.length_cons, List.length_cons, hwaiting.length_eq]
      have hunnamed : b.trace.getLast?.map TraceLine.function = some none := by
        refine unnamed_last b ?_ hname
        rw [hframes, ← htraceable.outermost, hat.frames]
        rfl
      rw [htrace] at hunnamed ⊢
      refine .failed ha hlast hat.frames hfailing hwaiting ?_ hr ?_ htraceable.outermost hunnamed
      · rw [hlength, ← hmax]
        exact hrunning.depth
      · rwa [Store.function?, hfunctions]

/-- A function that fails two lines above the line that calls it. -/
theorem trace_tells_called :
    ∃ m', (Machine.new {} {}).interpret 99 "fwun f(n) [:\n out n + \"a\" >>\n:]\nouo f(1) >>" =
        some (.failure (.failed .invalidAddOperands [⟨2, some "f"⟩, ⟨4, none⟩]), m') ∧
      Traces (.new {} {}) "fwun f(n) [:\n out n + \"a\" >>\n:]\nouo f(1) >>" .invalidAddOperands
        [⟨2, some "f"⟩, ⟨4, none⟩] := by
  have hrun : ((Machine.new {} {}).interpret 99 "fwun f(n) [:\n out n + \"a\" >>\n:]\nouo f(1) >>").map Prod.fst =
      some (.failure (.failed .invalidAddOperands [⟨2, some "f"⟩, ⟨4, none⟩])) := by decide +kernel
  obtain ⟨⟨outcome, m'⟩, hinterpret, houtcome⟩ := Option.map_eq_some_iff.1 hrun
  obtain rfl : outcome = _ := houtcome
  exact ⟨m', hinterpret, trace_tells (.new {} {}) hinterpret⟩

end Machine
end StackScript
