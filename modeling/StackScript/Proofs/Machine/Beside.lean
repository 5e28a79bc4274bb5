import StackScript.Proofs.Code.Reads
import StackScript.Proofs.Machine.History

/-! Two machines that only differ in their settings and at their consoles, where the first may not nest calls as deep as
the second. They take the same steps, unless a step is one that only the second has room for, or one that tells their
consoles apart. -/
namespace StackScript.Machine

/-- The machines hold the same things, each under its own settings. -/
structure Beside (R : Console → Console → Prop) (l r : Config) (m n : Machine) : Prop where
  store : m.store = n.store
  globals : m.globals = n.globals
  stack : m.stack = n.stack
  frames : m.frames = n.frames
  console : R m.console n.console
  left : m.config = l
  right : n.config = r
  depth : m.frames.length ≤ l.maxFrames

/-- What an action comes to on both machines: the same, or the first has no room left. -/
inductive Tied (R : Console → Console → Prop) (l r : Config) {α : Type} :
    EStateM.Result Halt Machine α → EStateM.Result Halt Machine α → Prop
  | ok (x : α) {m n : Machine} (beside : Beside R l r m n) : Tied R l r (.ok x m) (.ok x n)
  | error (halt : Halt) {m n : Machine} (beside : Beside R l r m n) : Tied R l r (.error halt m) (.error halt n)
  | full {m : Machine} {y : EStateM.Result Halt Machine α} (less : l.maxFrames < r.maxFrames) :
      Tied R l r (.error (.failed .stackOverflow) m) y

/-- On machines beside each other the action comes to the same, or the first has no room left. -/
def Ties (R : Console → Console → Prop) (l r : Config) {α : Type} (a : Exec α) : Prop :=
  ∀ m n : Machine, Beside R l r m n → Tied R l r (a.run m) (a.run n)

/-- A use of the console that consoles which are so related are not told apart by. -/
def Respects (R : Console → Console → Prop) {α : Type} (f : Console → Except ConsoleError α × Console) : Prop :=
  ∀ c d, R c d → (f c).1 = (f d).1 ∧ R (f c).2 (f d).2

/-- A relation that lasts whatever happens at the consoles, writing apart. What is noted is the same under settings to
watch the machines alike. -/
structure Lasting (R : Console → Console → Prop) (l r : Config) : Prop where
  flush : Respects R Console.flush
  read : Respects R Console.readLine
  note : ∀ c d text text', (l.traceExecution = r.traceExecution → l.printCode = r.printCode → text = text') → R c d →
    R (c.note text) (d.note text')

section
variable {R : Console → Console → Prop} {l r : Config} {m n m' n' : Machine} {α β : Type}

namespace Beside

theorem eq (h : Beside R l r m n) : n = { m with config := n.config, console := n.console } := by
  obtain ⟨config, store, globals, stack, frames, console⟩ := n
  obtain ⟨rfl, rfl, rfl, rfl, -, -, -, -⟩ := h
  rfl

/-- Both machines come to hold other things. -/
theorem change {config : Config} {console : Console} (h : Beside R l r m { m with config, console }) (store : Store)
    (globals : Std.TreeMap Symbol Value) (stack : Array Value) {frames : List Frame}
    (hframes : frames.length ≤ l.maxFrames) :
    Beside R l r { m with store, globals, stack, frames } { m with config, console, store, globals, stack, frames } :=
  ⟨rfl, rfl, rfl, rfl, h.console, h.left, h.right, hframes⟩

theorem with_console (h : Beside R l r m n) {c d : Console} (hcd : R c d) :
    Beside R l r { m with console := c } { n with console := d } :=
  ⟨h.store, h.globals, h.stack, h.frames, hcd, h.left, h.right, h.depth⟩

end Beside

namespace Ties

/-- It is enough to look at a machine and the same machine with other settings at another console. -/
theorem of_forall {a : Exec α}
    (h : ∀ (m : Machine) (config : Config) (console : Console),
    Beside R l r m { m with config, console } → Tied R l r (a.run m) (a.run { m with config, console })) :
    Ties R l r a := by
  intro m n hmn
  have heq := hmn.eq
  rw [heq] at hmn ⊢
  exact h m n.config n.console hmn

theorem pure (x : α) : Ties R l r (Pure.pure x : Exec α) := fun _ _ h => .ok x h

theorem fail (e : RuntimeError) : Ties R l r (fail e : Exec α) := fun _ _ h => .error _ h

theorem stuck (reason : Stuck) : Ties R l r (stuck reason : Exec α) := fun _ _ h => .error _ h

theorem bind {a : Exec α} {f : α → Exec β} (ha : Ties R l r a) (hf : ∀ x, Ties R l r (f x)) : Ties R l r (a >>= f) := by
  intro m n h
  have hrun := ha m n h
  rw [EStateM.run_bind, EStateM.run_bind]
  generalize a.run m = x at hrun
  generalize a.run n = y at hrun
  cases hrun with
  | ok x beside => exact hf x _ _ beside
  | error halt beside => exact .error halt beside
  | full less => exact .full less

/-- What is looked up in both machines is the same. -/
theorem look {f : Machine → Exec α} (hf : ∀ {m n}, Beside R l r m n → f m = f n) (hm : ∀ m, Ties R l r (f m)) :
    Ties R l r (get >>= f) := fun m n h => by
  change Tied R l r ((f m).run m) ((f n).run n)
  rw [← hf h]
  exact hm m m n h

theorem ite {a b : Exec α} (c : Prop) [Decidable c] (ha : Ties R l r a) (hb : Ties R l r b) :
    Ties R l r (if c then a else b) := by
  split
  · exact ha
  · exact hb

theorem orStuck (reason : Stuck) (x : Option α) : Ties R l r (orStuck reason x) := by
  cases x with
  | some a => exact .pure a
  | none => exact .stuck reason

end Ties

/-! ### Code -/

theorem ties_readByte : Ties R l r readByte := .of_forall fun m _ _ h => by
  have hdepth := h.depth
  unfold readByte EStateM.run
  dsimp only
  split
  · exact .error _ h
  · rename_i hframes
    rw [hframes] at hdepth
    split
    · exact .ok _ (h.change _ _ _ hdepth)
    · exact .error _ h

theorem ties_readPair : Ties R l r readPair := ties_readByte.bind fun _ => ties_readByte.bind fun _ => .pure _

theorem ties_frame : Ties R l r frame := .look (fun h => by rw [h.frames]) fun _ => .orStuck _ _

theorem ties_readConstant : Ties R l r readConstant :=
  ties_readByte.bind fun _ => ties_frame.bind fun _ => .orStuck _ _

theorem ties_readName : Ties R l r readName := ties_readConstant.bind fun v => by
  cases v with
  | string a => exact .pure a
  | _ => exact .stuck _

theorem ties_jumpTo (target : Nat → Option Nat) : Ties R l r (jumpTo target) := .of_forall fun m _ _ h => by
  have hdepth := h.depth
  unfold jumpTo EStateM.run
  dsimp only
  split
  · exact .error _ h
  · rename_i hframes
    rw [hframes] at hdepth
    split
    · exact .ok _ (h.change _ _ _ hdepth)
    · exact .error _ h

/-! ### The stack -/

/-- Where the second machine has no room, the first has none either. -/
theorem ties_push (hlr : l.maxFrames ≤ r.maxFrames) (v : Value) : Ties R l r (push v) :=
  .of_forall fun m config console h => by
  have hm : m.config.stackSize = l.maxFrames * 256 := by rw [Config.stackSize, h.left]
  have hn : config.stackSize = r.maxFrames * 256 := congrArg Config.stackSize h.right
  by_cases hleft : m.config.stackSize ≤ m.stack.size
  · rw [run_push_full hleft]
    by_cases hright : config.stackSize ≤ m.stack.size
    · rw [run_push_full (m := { m with config, console }) hright]
      exact .error _ h
    · exact .full (by omega)
  · have hright : config.stackSize > m.stack.size := by omega
    rw [run_push (Nat.lt_of_not_le hleft), run_push (m := { m with config, console }) hright]
    exact .ok _ (h.change _ _ _ h.depth)

theorem ties_pop : Ties R l r pop := .of_forall fun m _ _ h => by
  unfold pop EStateM.run
  dsimp only
  split
  · exact .ok _ (h.change _ _ _ h.depth)
  · exact .error _ h

theorem ties_peek (depth : Nat) : Ties R l r (peek depth) := .of_forall fun m _ _ h => by
  unfold peek EStateM.run
  dsimp only
  split
  · split
    · exact .ok _ h
    · exact .error _ h
  · exact .error _ h

theorem ties_setTop (v : Value) : Ties R l r (setTop v) := .of_forall fun m _ _ h => by
  unfold setTop EStateM.run
  dsimp only
  split
  · exact .error _ h
  · exact .ok _ (h.change _ _ _ h.depth)

theorem ties_truncate (height : Nat) : Ties R l r (truncate height) :=
  .of_forall fun _ _ _ h => .ok _ (h.change _ _ _ h.depth)

theorem ties_getSlot (slot : UInt8) : Ties R l r (getSlot slot) :=
  ties_frame.bind fun f => .look (f := fun m => orStuck .badSlot m.stack[f.base + slot.toNat]?)
    (fun h => by rw [h.stack]) fun _ => .orStuck _ _

theorem ties_setSlot (slot : UInt8) (v : Value) : Ties R l r (setSlot slot v) :=
  ties_frame.bind fun f => .look (f := fun m => if f.base + slot.toNat < m.stack.size then
      modify fun m => { m with stack := m.stack.setIfInBounds (f.base + slot.toNat) v } else stuck .badSlot)
    (fun h => by rw [h.stack]) fun _ => .ite _ (.of_forall fun _ _ _ h => .ok _ (h.change _ _ _ h.depth)) (.stuck _)

/-! ### Operations -/

theorem ties_combineNumbers (f : Double → Double → Value) : Ties R l r (combineNumbers f) :=
  (ties_peek 1).bind fun _ => (ties_peek 0).bind fun _ => by
    split
    · exact ties_pop.bind fun _ => ties_setTop _
    · exact .fail _

theorem ties_intern (text : String) : Ties R l r (intern text) :=
  .of_forall fun _ _ _ h => .ok _ (h.change _ _ _ h.depth)

theorem ties_addTop : Ties R l r addTop :=
  (ties_peek 1).bind fun _ => (ties_peek 0).bind fun _ => by
    split
    · exact ties_pop.bind fun _ => ties_setTop _
    · refine .ite _ ?_ (.fail _)
      exact .look (fun h => by rw [h.store]) fun _ => (Ties.orStuck _ _).bind fun _ =>
        .look (fun h => by rw [h.store]) fun _ => (Ties.orStuck _ _).bind fun _ => (ties_intern _).bind fun _ =>
          ties_pop.bind fun _ => ties_setTop _

theorem ties_compareTop (equal : Bool) : Ties R l r (compareTop equal) :=
  ties_pop.bind fun _ => (ties_peek 0).bind fun _ => ties_setTop _

theorem ties_undefined (name : Symbol) : Ties R l r (undefined name : Exec α) :=
  .look (fun h => by rw [h.store]) fun _ => (Ties.orStuck _ _).bind fun _ => .fail _

theorem ties_insert (name : Symbol) (v : Value) :
    Ties R l r (modify fun m => { m with globals := m.globals.insert name v } : Exec Unit) :=
  .of_forall fun _ _ _ h => .ok _ (h.change _ _ _ h.depth)

/-! ### The console -/

theorem ties_withConsole {f : Console → Except ConsoleError α × Console} (hf : Respects R f) :
    Ties R l r (withConsole f) := fun m n h => by
  obtain ⟨hresult, hconsole⟩ := hf _ _ h.console
  unfold withConsole EStateM.run
  dsimp only
  generalize f m.console = x at hresult hconsole ⊢
  generalize f n.console = y at hresult hconsole ⊢
  obtain ⟨x, c⟩ := x
  obtain ⟨y, d⟩ := y
  obtain rfl : x = y := hresult
  cases x with
  | ok a => exact .ok a (h.with_console hconsole)
  | error e => exact .error _ (h.with_console hconsole)

theorem ties_printTop (write : ∀ bytes, Respects R (·.write bytes)) : Ties R l r printTop :=
  ties_pop.bind fun _ => .look (fun h => by rw [h.store]) fun _ => (Ties.orStuck _ _).bind fun bytes =>
    ties_withConsole (write bytes)

theorem ties_readLine (hR : Lasting R l r) : Ties R l r readLine :=
  (ties_withConsole hR.flush).bind fun _ => ties_withConsole hR.read

/-! ### Calls -/

/-- The first machine runs out of calls first, if not both do at once. -/
theorem ties_callFunction (hlr : l.maxFrames ≤ r.maxFrames) (f : Function) (count : UInt8) :
    Ties R l r (callFunction f count) :=
  .of_forall fun m config console h => by
    have hleft := h.left
    have hright : config.maxFrames = r.maxFrames := congrArg Config.maxFrames h.right
    have hdepth := h.depth
    unfold callFunction
    by_cases harity : count ≠ f.arity
    · rw [if_pos harity]
      exact .error _ h
    rw [if_neg harity]
    simp only [run_get_bind, hleft, hright]
    by_cases hfull : m.frames.length = l.maxFrames
    · rw [if_pos hfull]
      by_cases hboth : m.frames.length = r.maxFrames
      · rw [if_pos hboth]
        exact .error _ h
      · exact .full (by omega)
    · rw [if_neg hfull, if_neg (show m.frames.length ≠ r.maxFrames by omega)]
      simp only [run_get_bind]
      split
      · exact .error _ h
      · exact .ok _ (h.change _ _ _ (by rw [List.length_cons]; omega))

theorem ties_callNative (hlr : l.maxFrames ≤ r.maxFrames) (f : Native) (count : UInt8) :
    Ties R l r (callNative f count) :=
  .of_forall fun m config console h => by
    unfold callNative
    by_cases harity : count ≠ f.arity
    · rw [if_pos harity]
      exact .error _ h
    rw [if_neg harity]
    simp only [run_get_bind]
    split
    · exact .error _ h
    · exact ((ties_truncate _).bind fun _ => ties_push hlr _) _ _ h

theorem ties_callBelow (hlr : l.maxFrames ≤ r.maxFrames) (count : UInt8) : Ties R l r (callBelow count) :=
  (ties_peek _).bind fun v => by
    cases v with
    | function r =>
      exact .look (fun h => by rw [h.store]) fun _ => (Ties.orStuck _ _).bind fun f => ties_callFunction hlr f count
    | native r =>
      exact .look (fun h => by rw [h.store]) fun _ => (Ties.orStuck _ _).bind fun f => ties_callNative hlr f count
    | _ => exact .fail _

theorem ties_returnTop (hlr : l.maxFrames ≤ r.maxFrames) : Ties R l r returnTop :=
  ties_pop.bind fun v => .of_forall fun m config console h => by
    have hdepth := h.depth
    simp only [run_get_bind]
    generalize hframes : m.frames = frames at hdepth
    cases frames with
    | nil =>
      rw [hframes] at h
      exact .error _ h
    | cons f callers =>
      have hcallers : Beside R l r { m with frames := callers } { m with config, console, frames := callers } :=
        h.change _ _ _ (Nat.le_of_succ_le hdepth)
      exact Ties.ite _ (ties_pop.bind fun _ _ _ h => .error _ h) ((ties_truncate _).bind fun _ => ties_push hlr v) _ _
        hcallers

/-! ### Steps -/

theorem ties_execute (hlr : l.maxFrames ≤ r.maxFrames) (op : Opcode) (line : op.readsLine = true → Ties R l r readLine)
    (write : op = .print → ∀ bytes, Respects R (·.write bytes)) : Ties R l r (execute op) := by
  cases op with
  | constant => exact ties_readConstant.bind fun v => ties_push hlr v
  | null => exact ties_push hlr _
  | true => exact ties_push hlr _
  | false => exact ties_push hlr _
  | pop => exact ties_pop.bind fun _ => .pure _
  | getLocal => exact ties_readByte.bind fun slot => (ties_getSlot slot).bind fun v => ties_push hlr v
  | setLocal => exact ties_readByte.bind fun slot => (ties_peek 0).bind fun v => ties_setSlot slot v
  | getGlobal =>
    refine ties_readName.bind fun name => .look (fun h => by rw [h.globals]) fun m => ?_
    split
    · exact ties_push hlr _
    · exact ties_undefined name
  | setGlobal =>
    exact ties_readName.bind fun name => (ties_peek 0).bind fun v => .look (fun h => by rw [h.globals]) fun m =>
      .ite _ (ties_insert name v) (ties_undefined name)
  | defineGlobal => exact ties_readName.bind fun name => ties_pop.bind fun v => ties_insert name v
  | equal => exact ties_compareTop true
  | notEqual => exact ties_compareTop false
  | add => exact ties_addTop
  | not => exact (ties_peek 0).bind fun v => ties_setTop _
  | negate =>
    refine (ties_peek 0).bind fun v => ?_
    split
    · exact ties_setTop _
    · exact .fail _
  | print => exact ties_printTop (write rfl)
  | readString => exact (line rfl).bind fun line => (ties_intern _).bind fun a => ties_push hlr _
  | readNumber => exact (line rfl).bind fun line => ties_push hlr _
  | readChar => exact (line rfl).bind fun line => ties_push hlr _
  | jump => exact ties_readPair.bind fun distance => ties_jumpTo _
  | jumpIfFalse => exact ties_readPair.bind fun distance => (ties_peek 0).bind fun v => .ite _ (ties_jumpTo _) (.pure _)
  | jumpIfTrue => exact ties_readPair.bind fun distance => (ties_peek 0).bind fun v => .ite _ (.pure _) (ties_jumpTo _)
  | loop => exact ties_readPair.bind fun distance => ties_jumpTo _
  | call => exact ties_readByte.bind fun count => ties_callBelow hlr count
  | out => exact ties_returnTop hlr
  | _ => exact ties_combineNumbers _

/-! ### Running machines -/

section
variable {f : Frame} {callers : List Frame} {pre post : List Instr} {i : Instr}

theorem Beside.at (h : Beside R l r m n) (hat : m.At f callers pre i post) : n.At f callers pre i post := by
  rw [h.eq]
  exact ⟨hat.frames, hat.stands, hat.height, hat.alone, hat.below⟩

theorem Beside.sound (h : Beside R l r m n) (hm : m.IsSound) : n.IsSound := by
  rw [h.eq]
  exact ⟨hm.stack, hm.globals, hm.names, hm.natives⟩

theorem Beside.running (hlr : l.maxFrames ≤ r.maxFrames) (h : Beside R l r m n) (hm : m.Running) : n.Running := by
  have hdepth := h.depth
  have hroom := hm.room
  rw [Config.stackSize, h.left] at hroom
  refine ⟨h.sound hm.sound, h.frames ▸ hm.active, ?_, ?_, ?_⟩
  · rw [← h.store, ← h.frames, ← h.stack]
    exact hm.tiles
  · rw [← h.frames, h.right]
    exact Nat.le_trans hdepth hlr
  · rw [Config.stackSize, ← h.stack, h.right]
    exact Nat.le_trans hroom (Nat.mul_le_mul_right 256 hlr)

/-- A step goes alike, unless it is one that reads or prints and tells their consoles apart. -/
theorem Beside.step (hlr : l.maxFrames ≤ r.maxFrames) (h : Beside R l r m n) (hat : m.At f callers pre i post)
    (line : i.op.readsLine = true → Ties R l r readLine) (write : i.op = .print → ∀ bytes, Respects R (·.write bytes)) :
    Tied R l r (step.run m) (step.run n) := by
  have hbyte : f.function.bytecode.code[f.ip]? = some i.op.toByte := by rw [hat.stands.ip, hat.stands.code.opByte]
  have hread := ties_readByte m n h
  have hleft := run_readByte hat.frames hbyte
  have hright := run_readByte (h.at hat).frames hbyte
  rw [hleft, hright] at hread
  rw [Machine.step, run_bind_ok hleft, run_bind_ok hright, Opcode.ofByte?_toByte]
  cases hread with
  | ok _ beside => exact ties_execute hlr i.op line write _ _ beside

/-- What comes next may be shown before on one of them only. -/
theorem Beside.observe (hR : Lasting R l r) (h : Beside R l r m n) (hat : m.At f callers pre i post) (hm : m.IsSound) :
    ∃ text text', observe.run m = .ok () { m with console := m.console.note text } ∧
      observe.run n = .ok () { n with console := n.console.note text' } ∧
      Beside R l r { m with console := m.console.note text } { n with console := n.console.note text' } := by
  obtain ⟨text, htext⟩ := exists_traceText hat hm
  have htext' : n.traceText? = some text := by
    rw [h.eq]
    exact htext
  refine ⟨_, _, run_observe htext, run_observe htext', h.with_console (hR.note _ _ _ _ (fun htrace _ => ?_) h.console)⟩
  rw [h.left, h.right, htrace]

theorem Beside.cycle (hR : Lasting R l r) (hlr : l.maxFrames ≤ r.maxFrames) (h : Beside R l r m n)
    (hat : m.At f callers pre i post) (hm : m.IsSound) (write : i.op = .print → ∀ bytes, Respects R (·.write bytes)) :
    Tied R l r (cycle.run m) (cycle.run n) := by
  obtain ⟨text, text', hleft, hright, hbeside⟩ := h.observe hR hat hm
  rw [Machine.cycle, run_bind_ok hleft, run_bind_ok hright]
  exact hbeside.step hlr (hat.with_console _) (fun _ => ties_readLine hR) write

end

end
end StackScript.Machine
