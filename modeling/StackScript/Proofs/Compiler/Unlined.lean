import StackScript.Proofs.Compiler.Alike

/-! Lines count only in line tables and in reports. What a source is compiled to depends on the kinds and the texts of
its tokens; the lines that they stand on are recorded and change nothing else. -/
namespace StackScript

/-! ### Without lines -/

def Token.unlined (t : Token) : Token := { t with line := 0 }

def Lexeme.unlined : Lexeme → Lexeme
  | .token t => .token t.unlined
  | .fault error _ => .fault error 0

def CompileError.unlined (e : CompileError) : CompileError := { e with line := 0 }

def Bytecode.unlined (b : Bytecode) : Bytecode := { b with lines := {} }

def Draft.unlined (d : Draft) : Draft := { d with bytecode := d.bytecode.unlined }

def Function.unlined (f : Function) : Function := { f with bytecode := f.bytecode.unlined }

def Store.unlined (s : Store) : Store := { s with functions := s.functions.map Function.unlined }

theorem Store.unlined_addFunction (s : Store) (f : Function) :
    ((s.addFunction f).1, (s.addFunction f).2.unlined) = s.unlined.addFunction f.unlined := by
  simp [addFunction, unlined]

namespace Compiler

/-- A state without the lines in it and what a listing shows of them. -/
def State.unlined (s : State) : State :=
  { s with
    upcoming := s.upcoming.map Lexeme.unlined
    lastLine := 0
    current := s.current.unlined
    previous := s.previous.unlined
    errors := s.errors.map CompileError.unlined
    draft := s.draft.unlined
    store := s.store.unlined
    listing := ""
    defect := none }

/-! ### Tokens and mistakes -/

theorem unlined_report (s : State) (line : Nat) (place : Place) (m : Mistake) :
    (s.report line place m).unlined = s.unlined.report 0 place m := by
  unfold State.report
  cases hr : s.recovering <;> simp [State.unlined, hr, CompileError.unlined]

theorem unlined_fetch (ls : List Lexeme) (s : State) :
    (State.fetch ls s).unlined = State.fetch (ls.map Lexeme.unlined) s.unlined := by
  induction ls generalizing s with
  | nil => rfl
  | cons l ls ih =>
    cases l with
    | token t => rfl
    | fault e line =>
      rw [State.fetch, ih, unlined_report]
      rfl

theorem unlined_advance (s : State) : s.advance.unlined = s.unlined.advance := unlined_fetch ..

/-! ### Actions -/

section Actions
variable {α β : Type} {s t : State}

/-- The lines that are met make no difference to what an action comes to. -/
abbrev Unlined (a : Action α) : Prop := Blind State.unlined a

theorem unlined_draft_eq (h : s.unlined = t.unlined) : s.draft.unlined = t.draft.unlined :=
  Blind.eq_of_seen State.unlined (fun u => u.draft.unlined) (fun _ => rfl) h

theorem unlined_draft {d e : Draft} (hd : d.unlined = e.unlined) (h : s.unlined = t.unlined) :
    State.unlined { s with draft := d } = State.unlined { t with draft := e } :=
  congrArg₂ (fun (d : Draft) (u : State) => { u with draft := d }) hd h

theorem unlined_mistake (m : Mistake) : Unlined (mistake m) :=
  .modify (fun s => s.report 0 (.ofToken s.previous) m) fun s => unlined_report s _ _ m

theorem unlined_mistakeAhead (m : Mistake) : Unlined (mistakeAhead m) :=
  .modify (fun s => s.report 0 (.ofToken s.current) m) fun s => unlined_report s _ _ m

/-- A constant is added or not, whatever lines its function has. -/
theorem unlined_addConstant (v : Value) {add : UInt8 → Bytecode → Action α} {full : Action α} (hfull : Unlined full)
    (hadd : ∀ i b c s t, b.unlined = c.unlined → s.unlined = t.unlined →
      ((add i b).run s).1 = ((add i c).run t).1 ∧ ((add i b).run s).2.unlined = ((add i c).run t).2.unlined) :
    Unlined (get >>= fun s => match s.draft.bytecode.addConstant? v with
      | some (i, b) => add i b
      | none => full) := by
  intro s t hst
  have hcode : s.draft.bytecode.unlined = t.draft.bytecode.unlined :=
    Blind.eq_of_seen State.unlined (fun u => u.draft.bytecode.unlined) (fun _ => rfl) hst
  have hconstants : s.draft.bytecode.constants = t.draft.bytecode.constants :=
    Blind.eq_of_seen State.unlined (fun u => u.draft.bytecode.constants) (fun _ => rfl) hst
  rw [run_bind, run_bind, run_get, run_get]
  unfold Bytecode.addConstant?
  by_cases hroom : t.draft.bytecode.constants.size < Bytecode.maxConstants
  · simp only [hconstants, if_pos hroom]
    exact hadd _ _ _ s t
      (congrArg (fun b : Bytecode => { b with constants := t.draft.bytecode.constants.push v }) hcode) hst
  · simp only [hconstants, if_neg hroom]
    exact hfull s t hst

theorem unlined_noRoom : Unlined (mistake .tooManyConstants >>= fun _ => pure (0 : UInt8)) :=
  (unlined_mistake _).bind fun _ => .pure 0

theorem unlined_poolConstant (v : Value) : Unlined (poolConstant v) :=
  unlined_addConstant v unlined_noRoom fun _ _ _ s t hb hst => by
    have hdraft := unlined_draft_eq hst
    exact ⟨rfl, unlined_draft (congrArg₂ (fun (b : Bytecode) (d : Draft) => { d with bytecode := b }) hb hdraft) hst⟩

theorem unlined_symbolConstant (name : Symbol) : Unlined (symbolConstant name) := by
  refine .get (fun {s t} hst => ?_) fun s => ?_
  · rw [Blind.eq_of_seen State.unlined (fun u => u.draft.names) (fun _ => rfl) hst]
  · split
    · exact .pure _
    · refine unlined_addConstant _ unlined_noRoom fun i _ _ s t hb hst => ?_
      have hdraft := unlined_draft_eq hst
      exact ⟨rfl, unlined_draft (congrArg₂ (fun (b : Bytecode) (d : Draft) =>
        { d with bytecode := b, names := (name, i) :: d.names }) hb hdraft) hst⟩

theorem unlined_ensure (b : Bool) (defect : Defect) : Unlined (ensure b defect) := by
  unfold ensure
  split
  · exact .pure _
  · exact .modify (fun u => u) fun _ => rfl

theorem unlined_listFunction : Unlined listFunction := by
  refine .of_seen (fun u => ((), u)) fun s => ?_
  obtain ⟨l, x, hrun⟩ := run_listFunction s
  rw [hrun]
  rfl

theorem unlined_addFunction : Unlined addFunction :=
  .of_seen addFunction.run fun s =>
    congrArg (fun x : FunctionRef × Store => (x.1, ({ s.unlined with store := x.2 } : State)))
    (s.store.unlined_addFunction s.draft.toFunction)

instance : ClosedScope fun _ => Unlined where
  pure := .pure
  bind := .bind
  mistake := unlined_mistake
  mistakeAhead := unlined_mistakeAhead
  emitByte byte := .modify (fun u => { u with draft := { u.draft with bytecode :=
    { u.draft.bytecode with code := u.draft.bytecode.code.push byte } } }) fun _ => rfl
  codeSize := .of_seen (fun u => (u.draft.bytecode.size, u)) fun _ => rfl
  patch offset distance :=
    .modify (fun u => { u with draft := { u.draft with
    bytecode := u.draft.bytecode.patch offset distance } }) fun _ => rfl
  poolConstant := unlined_poolConstant
  symbolConstant := unlined_symbolConstant
  ensure := unlined_ensure
  intern text := .of_seen (fun u => (intern text).run u) fun _ => rfl
  listFunction := unlined_listFunction
  addFunction := unlined_addFunction
  lookup hf h := .get (fun hst => hf (Blind.eq_of_seen State.unlined (fun u => u.draft.locals) (fun _ => rfl) hst)
    (Blind.eq_of_seen State.unlined (fun u => u.draft.depth) (fun _ => rfl) hst)) h
  rescope depth locals := .modify (fun u => { u with draft := { u.draft with
    depth := depth u.draft.depth, locals := locals u.draft.depth u.draft.locals } }) fun _ => rfl
  checkInFunction := by
    refine .get (fun {s t} hst => ?_) fun s => ?_
    · rw [Blind.eq_of_seen State.unlined (fun u => u.draft.isScript) (fun _ => rfl) hst]
    · split
      · exact unlined_mistake _
      · exact .pure _

/-- A function that is compiled in the place of another one, which is taken up again. -/
theorem unlined_function (name : Symbol) {inside : Action FunctionRef} (h : Unlined inside) :
    Unlined (beginFunction name >>= fun outer => inside >>= fun function =>
      (modify fun s => { s with draft := outer }) >>= fun _ => emitConstant (.function function)) := by
  intro s t hst
  obtain ⟨hfunction, hinside⟩ := h _ _ (unlined_draft (d := { name := some name }) rfl hst)
  have hrun (u : State) : (beginFunction name >>= fun outer => inside >>= fun function =>
      (modify fun s => { s with draft := outer }) >>= fun _ => emitConstant (.function function)).run u =
    (emitConstant (.function (inside.run { u with draft := { name := some name } }).1)).run
      { (inside.run { u with draft := { name := some name } }).2 with draft := u.draft } := rfl
  rw [hrun, hrun, hfunction]
  exact closed_emitConstant (fun _ => Unlined) _ _ _ (unlined_draft (unlined_draft_eq hst) hinside)

instance : Closed fun _ => Unlined where
  currentKind := .of_seen (fun u => (u.current.kind, u)) fun _ => rfl
  advance := .modify State.advance unlined_advance

/-- A function after its name, in a place of its own. -/
def functionInside (n : Nat) (body : Action Unit) : Action FunctionRef := do
  enterScope
  expect .leftParen .parametersStart
  let count ← parameterList n
  setArity count
  expect .rightParen .parametersEnd
  expect .blockStart .functionBlock
  body
  expect .blockEnd .blockEnd
  finishFunction

theorem functionBody_eq (n : Nat) (body : Action Unit) : functionBody n body =
    previousToken >>= fun t => intern t.lexeme >>= fun name => beginFunction name >>= fun outer =>
      functionInside n body >>= fun function => (modify fun s => { s with draft := outer }) >>= fun _ =>
        emitConstant (.function function) := by
  simp only [functionBody, functionHead, functionInside, bind_assoc, pure_bind]

theorem unlined_functionInside {n : Nat} {body : Action Unit} (hp : Unlined (parameterList n)) (h : Unlined body) :
    Unlined (functionInside n body) := by
  have hexpect (k : TokenKind) (what : Expectation) : Unlined (expect k what) := closed_expect (fun _ => Unlined) k what
  have harity (count : Nat) : Unlined (setArity count) :=
    .modify (fun u => { u with draft := { u.draft with arity := (min count 255).toUInt8 } }) fun _ => rfl
  exact (closed_enterScope fun _ => Unlined).bind fun _ => (hexpect _ _).bind fun _ => hp.bind fun count =>
    (harity count).bind fun _ => (hexpect _ _).bind fun _ => (hexpect _ _).bind fun _ => h.bind fun _ =>
      (hexpect _ _).bind fun _ => closed_finishFunction fun _ => Unlined

theorem unlined_word {f : Token → Action α} (hf : ∀ {t u : Token}, t.kind = u.kind → t.lexeme = u.lexeme → f t = f u)
    (h : ∀ t, Unlined (f t)) : Unlined (previousToken >>= f) := by
  intro s t hst
  have hkind := Blind.eq_of_seen State.unlined (fun u => u.previous.kind) (fun _ => rfl) hst
  have hlexeme := Blind.eq_of_seen State.unlined (fun u => u.previous.lexeme) (fun _ => rfl) hst
  rw [run_bind, run_bind, run_previousToken, run_previousToken, hf hkind hlexeme]
  exact h _ s t hst

instance : ClosedWords fun _ => Unlined where
  word := unlined_word
  functionBody hp h := by
    rw [functionBody_eq]
    exact unlined_word (fun _ hx => by rw [hx]) fun t => Stable.bind (K := fun _ => Unlined) (ClosedBytes.intern t.lexeme)
      fun name => unlined_function name (unlined_functionInside hp h)
  resume ha := by
    refine .get (fun {s t} hst => ?_) fun s => ?_
    · rw [Blind.eq_of_seen State.unlined (fun u => u.recovering) (fun _ => rfl) hst]
    · split
      · exact Stable.seq (K := fun _ => Unlined) (.modify (fun u => { u with recovering := false }) fun _ => rfl) ha
      · exact .pure _

end Actions
end Compiler

/-! ### Compiling -/

open Compiler

/-- What the run of a whole script comes to. -/
def Compilation.ofRun (x : FunctionRef × State) : Compilation :=
  ⟨if x.2.errors.isEmpty then .ok x.1 else .error x.2.errors.toList, x.2.store, x.2.listing, x.2.defect⟩

theorem compile_eq_ofRun (source : String) (store : Store) (printCode : Bool) : compile source store printCode =
    .ofRun ((wholeScript (TokenStream.ofSource source).lexemes.length).run
      (.start (.ofSource source) store printCode)) := rfl

theorem unlined_ofRun {x y : FunctionRef × State} (hscript : x.1 = y.1) (hstate : x.2.unlined = y.2.unlined) :
    (Compilation.ofRun x).result.mapError (List.map CompileError.unlined) =
        (Compilation.ofRun y).result.mapError (List.map CompileError.unlined) ∧
      (Compilation.ofRun x).store.unlined = (Compilation.ofRun y).store.unlined := by
  have herrors : x.2.errors.map CompileError.unlined = y.2.errors.map CompileError.unlined :=
    congrArg State.errors hstate
  have hsize : x.2.errors.size = y.2.errors.size := by simpa using congrArg Array.size herrors
  have hempty : x.2.errors.isEmpty = y.2.errors.isEmpty := by rw [Array.isEmpty, Array.isEmpty, hsize]
  refine ⟨?_, congrArg State.store hstate⟩
  simp only [Compilation.ofRun, hscript, hempty]
  split
  · rfl
  · exact congrArg Except.error (by simpa using congrArg Array.toList herrors)

/-- Whatever lines the tokens of two sources stand on, if they are the same then the sources are compiled to the same. -/
theorem compile_unlined {a b : String}
    (h : (TokenStream.ofSource a).lexemes.map Lexeme.unlined = (TokenStream.ofSource b).lexemes.map Lexeme.unlined)
    (store : Store) (printCode : Bool) :
    (compile a store printCode).result.mapError (List.map CompileError.unlined) =
        (compile b store printCode).result.mapError (List.map CompileError.unlined) ∧
      (compile a store printCode).store.unlined = (compile b store printCode).store.unlined := by
  have hlength : (TokenStream.ofSource a).lexemes.length = (TokenStream.ofSource b).lexemes.length := by
    simpa using congrArg List.length h
  have hstart : (State.start (.ofSource a) store printCode).unlined =
    (State.start (.ofSource b) store printCode).unlined :=
    congrArg (fun ls => { (State.start (.ofSource b) store printCode).unlined with upcoming := ls }) h
  obtain ⟨hscript, hstate⟩ := closed_wholeScript (fun _ => Unlined) (TokenStream.ofSource b).lexemes.length _ _ hstart
  rw [compile_eq_ofRun, compile_eq_ofRun, hlength]
  exact unlined_ofRun hscript hstate

end StackScript
