import StackScript.Proofs.Code.Precedence
import StackScript.Proofs.Machine.Rejected
import StackScript.Proofs.Semantics.Host
import StackScript.Proofs.Semantics.Program

/-! Interpreting a source is walking through its trees: one of them comes to an end exactly if the other one does, with the
same result, after the same input and output, and with the same global variables. -/
namespace StackScript

/-- A run of a machine and a walk end alike: both go well, or both fail with one error while the same functions are
active. -/
inductive SameEnding : Machine.Outcome → World.Ending → Prop
  | ok : SameEnding .ok (.ok ())
  | failed {e : RuntimeError} {trace : List TraceLine} {names : List (Option String)}
      (h : trace.map TraceLine.function = names) : SameEnding (.failure (.failed e trace)) (.error (e, names))

/-- What a machine and a walk come to, and what is left behind. -/
structure Agrees (l : Limits) (o : Machine.Outcome × Machine) (r : World.Ending × World) : Prop where
  ending : SameEnding o.1 r.1
  mirrors : Mirrors l o.2 r.2

open Machine

namespace Machine
variable {a b c : Machine} {n k : Nat}

/-! ### Numbers of steps -/

theorem Steps.runFor (hsteps : Steps a b) {x : Halt × Machine} (hb : Machine.runFor n b = some x) :
    ∃ k, Machine.runFor k a = some x := by
  induction hsteps generalizing n with
  | refl => exact ⟨n, hb⟩
  | tail _ step ih => exact ih (n := n + 1) (by rw [Machine.runFor, step]; exact hb)

theorem exists_runFor (hsteps : Steps a b) {halt : Halt} (hlast : cycle.run b = .error halt c) :
    ∃ k, runFor k a = some (halt, c) := hsteps.runFor (n := 1) (by rw [Machine.runFor, hlast])

theorem runFor_unique {x y : Halt × Machine} (hx : runFor n a = some x) (hy : runFor k a = some y) : x = y := by
  induction n generalizing a k with
  | zero => cases hx
  | succ n ih =>
    cases k with
    | zero => cases hy
    | succ k =>
      rw [runFor] at hx hy
      generalize cycle.run a = result at hx hy
      cases result with
      | ok _ a' => exact ih hx hy
      | error halt a' => exact Option.some.inj (hx.symm.trans hy)

/-- A run that is over has not gone on for longer. -/
theorem lt_of_after {x : Halt × Machine} (hx : runFor n a = some x) (hb : after k a = some b) : k < n := by
  induction n generalizing a k with
  | zero => cases hx
  | succ n ih =>
    cases k with
    | zero => exact Nat.succ_pos n
    | succ k =>
      rw [runFor] at hx
      rw [after] at hb
      generalize cycle.run a = result at hx hb
      cases result with
      | ok _ a' => exact Nat.succ_lt_succ (ih hx hb)
      | error halt a' => cases hb

end Machine

variable {l : Limits} {m b : Machine} {w : World} {n : Nat}

/-! ### The end of a run -/

theorem function_trace {names : List (Option String)} (h : ActiveNames m.store m.frames names) :
    m.trace.map TraceLine.function = names := by
  rw [Machine.trace, List.map_map]
  generalize m.frames = frames at h
  induction h with
  | nil => rfl
  | @cons f x frames names hname _ ih =>
    rw [List.map_cons, ih]
    congr 1
    exact hname.bind_text

/-- A machine that has failed gives its error and clears its stack. -/
theorem agrees_abandon {names : List (Option String)} (h : Ended l m w names) (e : RuntimeError) :
    Agrees l (m.abandon e) (w.finish (.error (e, names))) := by
  obtain ⟨-, hconsole⟩ := isBlind_flush.eq h.mirrors.console
  exact ⟨.failed (function_trace h.names), ((h.mirrors.with_frames []).with_stack #[]).with_console hconsole⟩

theorem agrees_finished (h : Mirrors l m w) (hframes : m.frames = []) :
    Agrees l (m.conclude .finished) (w.finish (.ok ())) := by
  obtain ⟨hresult, hconsole⟩ := isBlind_flush.eq h.console
  unfold conclude World.finish
  generalize hx : m.console.flush = x at hresult hconsole
  generalize hy : w.console.flush = y at hresult hconsole
  obtain ⟨x, c⟩ := x
  obtain ⟨y, d⟩ := y
  obtain rfl : x = y := hresult
  have hafter := h.with_console hconsole
  cases x with
  | ok _ => exact ⟨.ok, hafter⟩
  | error e =>
    refine agrees_abandon (w := { w with console := d }) ⟨hafter, ?_⟩ (.console e)
    change ActiveNames m.store m.frames []
    rw [hframes]
    exact .nil

/-- A machine that goes the way of a walk to its end ends as the walk does, unless the walk is too long. -/
theorem Follows.ends {result : EStateM.Result Stop Scene Datum}
    (h : Follows l n b (fun _ s m => Finishes l m s.toWorld) result) :
    (∃ r k halt c, World.ending result = some r ∧ runFor k b = some (halt, c) ∧ Agrees l (c.conclude halt) r) ∨
      World.ending result = none ∧ GoesOn n b := by
  cases h with
  | arrives steps h =>
    obtain ⟨c, hlast, hframes, hmirrors⟩ := h
    obtain ⟨k, hrun⟩ := exists_runFor steps hlast
    exact .inl ⟨_, k, _, c, rfl, hrun, agrees_finished hmirrors hframes⟩
  | fails steps last _ h =>
    obtain ⟨k, hrun⟩ := exists_runFor steps last
    exact .inl ⟨_, k, _, _, rfl, hrun, agrees_abandon h _⟩
  | tires goesOn => exact .inr ⟨rfl, goesOn⟩

/-! ### The beginning of a run -/

section
variable {source : String} {ds : List Decl} {r : FunctionRef} {c : Compilation}

/-- A program that has been compiled has been declared. -/
theorem Mirrors.accept (h : Mirrors l m w) (hm : m.Resting) (hc : compile source m.store m.config.printCode = c)
    (hgains : m.store.Gains ds r c.store) : Mirrors l (m.accept c) (w.load ds).toWorld := by
  have hnatives := natives_compile source m.store m.config.printCode
  have hsize := hgains.size
  rw [hc] at hnatives
  rw [h.declared] at hsize
  exact (h.with_store hm.sound hgains.grown hnatives hsize).with_console h.console

theorem run_walk_full (hmax : l.maxFrames = 0) (fuel : Nat) :
    (w.walk l fuel ds).run (w.load ds) = .error (.failed .stackOverflow 0 []) (w.load ds) := by
  have hfull : l.maxFrames * 256 ≤ 0 + 0 := by
    rw [hmax]
  have hproduce (v : Datum) : (Walk.produce { l with active := [], held := 0, place := 0 } v).run (w.load ds) =
      .error (.failed .stackOverflow 0 []) (w.load ds) := if_pos hfull
  rw [World.walk, EStateM.run_bind, hproduce]

/-- The script is called, with nothing on the stack but itself. -/
theorem run_walk (hmax : l.maxFrames ≠ 0) (fuel : Nat) :
    (w.walk l fuel ds).run (w.load ds) =
      (Walk.invoke fuel { l with active := [none], held := 0, place := 0 } ⟨w.declared + Decl.listFunctionCount ds⟩
        (w.script ds) []).run
        (w.load ds) := by
  have hroom : ¬l.maxFrames * 256 ≤ 0 + 0 := by omega
  have hproduce (v : Datum) : (Walk.produce { l with active := [], held := 0, place := 0 } v).run (w.load ds) = .ok
    v (w.load ds) :=
    if_neg hroom
  have hdepth : ¬([] : List (Option String)).length = l.maxFrames := hmax.symm
  rw [World.walk, EStateM.run_bind, hproduce]
  dsimp only
  rw [Walk.call, if_neg (fun hne => hne rfl), if_neg hdepth, Walk.run_get_bind]
  rfl

/-- A machine that is about to run the code of a script, with nothing on the stack but the script. -/
structure ScriptBegins (l : Limits) (w : World) (ds : List Decl) (b : Machine) (k : Spot) (is : List Instr) : Prop where
  limits : k.limits = l
  callers : k.callers = []
  around : k.around 0 [] = { l with active := [none], held := 0, place := 0 }
  code : k.code = is ++ returnCode
  list : Decl.ListCode k.pool .script w.declared ds is
  noReturn : NoReturn is
  stage : Stage k Scope.script.names 0 b
    { w.load ds with locals := (w.script ds).locals ⟨w.declared + Decl.listFunctionCount ds⟩ [] } []

theorem exists_begins (hm : m.Resting) (h : Mirrors l m w) (hreads : (TokenStream.ofSource source).Reads ds)
    (hmax : l.maxFrames ≠ 0) : ∃ b k is, m.start source = .ok b ∧ ScriptBegins l w ds b k is := by
  obtain ⟨r, hr, -, hgains⟩ := compile_of_reads hreads m.store m.config.printCode
  have hstarts := starts_start hm source
  obtain ⟨c, hc⟩ : ∃ c, compile source m.store m.config.printCode = c := ⟨_, rfl⟩
  rw [hc] at hr hgains
  have haccept := h.accept hm hc hgains
  obtain ⟨f, hf, ⟨is, hcompiles, hcode⟩, -⟩ := hgains.compiled
  have harity : f.arity = 0 := by
    have hzero := hcompiles.arity
    exact UInt8.toNat_inj.1 hzero
  have hstart := start_running hm hc hr hf harity (h.frames ▸ hmax)
  rw [hstart] at hstarts
  have hscript : w.script ds = scriptTree m.store ds := by rw [World.script, scriptTree, h.declared]
  have hfunction : Denotes c.store (.function r) (.function r (scriptTree m.store ds)) :=
    .function hf ⟨is, hcompiles, hcode⟩
  cases hstarts with
  | running hrunning _ =>
    refine ⟨_, ⟨l, f, is ++ returnCode, hcompiles.code, [], #[], c.store, [none]⟩, is, hstart, rfl, rfl, rfl, rfl,
      ?_, ?_, ?_⟩
    · rw [← h.declared]
      exact hcode
    · exact hcode.noReturn _ _ _ _ rfl hreads.legal.outInFunction
    · rw [hscript, ← h.declared, ← hgains.ref]
      exact ⟨⟨(haccept.with_frames [⟨f, 0, 0⟩]).with_stack #[.function r], rfl, .cons hcompiles.named .nil,
        .push .nil hfunction, .refl _, rfl⟩, hrunning⟩

/-- A program is over before its first step, or it is followed from there. -/
theorem run_cases (hm : m.Resting) (h : Mirrors l m w) (hreads : (TokenStream.ofSource source).Reads ds) :
    (l.maxFrames = 0 ∧
        ∃ o, (∀ steps, m.interpret steps source = some o) ∧ ∀ fuel, ∃ e, w.run l fuel ds = some e ∧ Agrees l o e) ∨
      ∃ b, m.start source = .ok b ∧
        ∀ fuel, Follows l fuel b (fun _ s m => Finishes l m s.toWorld) ((w.walk l fuel ds).run (w.load ds)) := by
  by_cases hmax : l.maxFrames = 0
  · obtain ⟨r, hr, -, hgains⟩ := compile_of_reads hreads m.store m.config.printCode
    obtain ⟨c, hc⟩ : ∃ c, compile source m.store m.config.printCode = c := ⟨_, rfl⟩
    rw [hc] at hr hgains
    have haccept := h.accept hm hc hgains
    refine .inl ⟨hmax, (m.accept c).abandon .stackOverflow, fun steps => ?_, fun fuel => ?_⟩
    · rw [interpret, start_full hc hr (h.frames.trans hmax)]
    · have hnames : ActiveNames (m.accept c).store (m.accept c).frames [] := by
        change ActiveNames _ m.frames []
        rw [hm.frames]
        exact .nil
      refine ⟨_, ?_, agrees_abandon ⟨haccept, hnames⟩ .stackOverflow⟩
      rw [World.run, run_walk_full hmax]
      rfl
  · obtain ⟨b, k, is, hstart, hbegins⟩ := exists_begins hm h hreads hmax
    refine .inr ⟨b, hstart, fun fuel => ?_⟩
    have hfollows := script_follows (t := w.script ds) rfl hbegins.code hbegins.list hbegins.callers hbegins.noReturn
      hbegins.stage fuel
    rwa [run_walk hmax, ← hbegins.around, ← hbegins.limits]

/-! ### The world of a machine -/

/-- What a walk takes from a machine. -/
def Machine.limits (m : Machine) : Limits := ⟨fun r => (m.store.native? r).map Native.host, m.config.maxFrames⟩

/-- There is a world for every machine, if its host functions do not look at references. -/
theorem exists_mirrors (hm : m.IsSound) (uniform : ∀ n ∈ m.store.natives, IsUniform n.call) :
    ∃ w, Mirrors m.limits m w := by
  have hglobals (x : String) : ∃ d, Option.Rel (Denotes m.store) (m.global? x) d := by
    cases hv : m.global? x with
    | none => exact ⟨none, .none⟩
    | some v =>
      obtain ⟨a, -, ha⟩ := Option.bind_eq_some_iff.1 hv
      obtain ⟨d, hd⟩ := Denotes.exists_of_sound (hm.globals ha)
      exact ⟨some d, .some hd⟩
  choose globals hglobals using hglobals
  refine ⟨⟨globals, m.console, m.store.functions.size⟩, rfl, fun {r n} hn => ?_, hglobals, rfl, rfl⟩
  have hmem : n ∈ m.store.natives := Array.mem_of_getElem? hn
  refine ⟨n.host, ?_, hostOf_host (hm.natives n hmem) (uniform n hmem)⟩
  change (m.store.native? r).map Native.host = _
  rw [hn]
  rfl

/-! ### Interpreting -/

/-- A walk that is allowed to be as long as a run that is over comes to its end. -/
theorem exists_run (hm : m.Resting) (h : Mirrors l m w) (hreads : (TokenStream.ofSource source).Reads ds)
    {steps : Nat} {o : Outcome × Machine} (ho : m.interpret steps source = some o) (hle : steps ≤ n) :
    ∃ e, w.run l n ds = some e := by
  obtain ⟨-, o, -, hrun⟩ | ⟨b, hstart, hfollows⟩ := run_cases hm h hreads
  · obtain ⟨e, he, -⟩ := hrun n
    exact ⟨e, he⟩
  · rw [interpret, hstart] at ho
    obtain ⟨halted, hhalted, -⟩ := Option.map_eq_some_iff.1 ho
    obtain ⟨e, k, halt, c, he, -, -⟩ | ⟨-, k, c, hk, hafter⟩ := (hfollows n).ends
    · exact ⟨e, he⟩
    · exact absurd (lt_of_after hhalted hafter) (Nat.not_lt_of_le (Nat.le_trans hle hk))

/-- Interpreting a source and walking through its trees: they come to an end together, and then alike. -/
theorem interpret_iff_run (hm : m.Resting) (h : Mirrors l m w) (hreads : (TokenStream.ofSource source).Reads ds) :
    ((∃ steps o, m.interpret steps source = some o) ↔ ∃ fuel e, w.run l fuel ds = some e) ∧
      ∀ steps fuel o e, m.interpret steps source = some o → w.run l fuel ds = some e → Agrees l o e := by
  obtain ⟨-, o, hover, hrun⟩ | ⟨b, hstart, hfollows⟩ := run_cases hm h hreads
  · obtain ⟨e, he, -⟩ := hrun 0
    refine ⟨⟨fun _ => ⟨0, e, he⟩, fun _ => ⟨0, o, hover 0⟩⟩, fun steps fuel o' e' ho' he' => ?_⟩
    obtain ⟨e, he, hagrees⟩ := hrun fuel
    obtain rfl := Option.some.inj ((hover steps).symm.trans ho')
    obtain rfl := Option.some.inj (he.symm.trans he')
    exact hagrees
  · have hinterpret (steps : Nat) :
        m.interpret steps source = (runFor steps b).map fun halted => halted.2.conclude halted.1 := by
      rw [interpret, hstart]
    refine ⟨⟨fun ⟨steps, o, ho⟩ => ⟨steps, exists_run hm h hreads ho (Nat.le_refl steps)⟩, fun ⟨fuel, e, he⟩ => ?_⟩,
      fun steps fuel o e ho he => ?_⟩
    · obtain ⟨e', k, halt, c, -, hk, -⟩ | ⟨hnone, -⟩ := (hfollows fuel).ends
      · exact ⟨k, _, by rw [hinterpret, hk]; rfl⟩
      · cases hnone.symm.trans he
    · rw [hinterpret] at ho
      obtain ⟨halted, hhalted, rfl⟩ := Option.map_eq_some_iff.1 ho
      obtain ⟨e', k, halt, c, he', hk, hagrees⟩ | ⟨hnone, -⟩ := (hfollows fuel).ends
      · obtain rfl := Option.some.inj (he'.symm.trans he)
        obtain rfl := runFor_unique hk hhalted
        exact hagrees
      · cases hnone.symm.trans he

end

end StackScript
