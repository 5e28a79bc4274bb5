import StackScript.Proofs.Machine.Beside
import StackScript.Proofs.Machine.InputLines
import StackScript.Proofs.Machine.Trace
import StackScript.Proofs.Machine.Turn
import StackScript.Proofs.Text.Replacement

/-! Programs read line by line. Each read statement takes one line off the input, and nothing else takes anything; so however
many runs there have been on a machine, the next read statement gets the first line that none has got before. -/
namespace StackScript

/-! ### Consoles -/

namespace Console

/-- Reading does not fail, and neither does sending out. -/
structure Steady (c : Console) : Prop where
  readable : c.inputBroken = false
  flushable : c.failingFlush = none

/-- So many of some lines have been read, and the others are left. -/
structure HasRead (ls : List (List UInt8)) (k : ℕ) (c : Console) : Prop extends c.Steady where
  input : c.input = (ls.drop k).flatten

/-- One and the same console, from which so many lines have been read. -/
def BothRead (ls : List (List UInt8)) (k : ℕ) (c d : Console) : Prop := c = d ∧ d.HasRead ls k

section
variable {c : Console} {ls : List (List UInt8)} {k : ℕ} {bytes : List UInt8}

theorem HasRead.note (h : c.HasRead ls k) (text : String) : (c.note text).HasRead ls k :=
  ⟨⟨h.readable, h.flushable⟩, h.input⟩

theorem HasRead.flush (h : c.HasRead ls k) : c.flush = (.ok (), c.flush.2) ∧ c.flush.2.HasRead ls k := by
  have hgood : c.failingFlush ≠ some (c.flushes + 1) := by
    rw [h.flushable]
    exact (Option.some_ne_none _).symm
  rw [Console.flush, if_neg hgood]
  exact ⟨rfl, ⟨h.readable, h.flushable⟩, h.input⟩

theorem HasRead.write (h : c.HasRead ls k) (bytes : ByteArray) : (c.write bytes).2.HasRead ls k := by
  unfold Console.write
  split
  · exact ⟨⟨h.readable, h.flushable⟩, h.input⟩
  · split
    · exact ⟨⟨h.readable, h.flushable⟩, h.input⟩
    · exact ⟨⟨h.readable, h.flushable⟩, h.input⟩

/-- What is read is the first line that is left. -/
theorem HasRead.readLine (h : c.HasRead (lines bytes) k) :
    c.readLine = (.ok ((lines bytes)[k]?.getD []), c.readLine.2) ∧ c.readLine.2.HasRead (lines bytes) (k + 1) := by
  have hrun : c.readLine =
      (.ok ((lines bytes)[k]?.getD []), { c with input := ((lines bytes).drop (k + 1)).flatten }) := by
    have hsplit := splitLine_flatten_drop bytes k
    rw [← h.input] at hsplit
    rw [Console.readLine, hsplit]
    exact if_neg fun hbroken => Bool.noConfusion (h.readable.symm.trans hbroken.1)
  rw [hrun]
  exact ⟨rfl, ⟨h.readable, h.flushable⟩, rfl⟩

end
end Console

/-- What a read statement makes of a line: the text of all but its end, the number that this begins with, or its first
byte, for which zero stands where there is none. -/
def InputForm.Gives (s : Store) (line : List UInt8) : InputForm → Value → Prop
  | string, v => ∃ body text x, Console.IsTrimmed line body ∧ Utf8.ReadsAs body text.toList ∧ s.text? x = some text ∧
      v = .string x
  | number, v => ∃ body, Console.IsTrimmed line body ∧ v = .number (Numeral.ofLine (body.map fun b => Char.ofNat b.toNat))
  | char, v => v = .char (match line with
      | [] => 0
      | b :: _ => b)

theorem exists_form {op : Opcode} (h : op.readsLine = true) : ∃ form : InputForm, op = form.opcode := by
  cases op with
  | readString => exact ⟨.string, rfl⟩
  | readNumber => exact ⟨.number, rfl⟩
  | readChar => exact ⟨.char, rfl⟩
  | _ => cases h

namespace Machine

/-- A step ends so, whether or not it is the last one. -/
def Leads (a b : Machine) : Prop := cycle.run a = .ok () b ∨ ∃ halt, cycle.run a = .error halt b

/-- The first step of a read statement, where there is room for what it makes of a line. -/
structure Pushes (a b : Machine) (f : Frame) (callers : List Frame) (form : InputForm) (line : List UInt8) (v : Value) :
    Prop where
  run : cycle.run a = .ok () b
  store : a.store.Extends b.store
  gives : form.Gives b.store line v
  frames : b.frames = { f with ip := f.ip + 1 } :: callers
  stack : b.stack = a.stack.push v
  globals : b.globals = a.globals

/-- What the first step of a read statement comes to. In either case the line is off the input. -/
inductive Fetches (a : Machine) (f : Frame) (callers : List Frame) (form : InputForm) (ls : List (List UInt8)) (k : ℕ) :
    Prop
  | pushed {v : Value} {b : Machine} (pushes : Pushes a b f callers form (ls[k]?.getD []) v)
      (read : b.console.HasRead ls (k + 1)) : Fetches a f callers form ls k
  | full {b : Machine} (full : a.config.stackSize ≤ a.stack.size) (run : cycle.run a = .error (.failed .stackOverflow) b)
      (read : b.console.HasRead ls (k + 1)) : Fetches a f callers form ls k

/-- What a read statement does in a call: it takes a line off the input, and what it makes of it goes to the innermost
variable of the name, a local one in its slot or else a global one. If there is none, that is an error, and so it is if
there is no room for the value. -/
inductive Reads (c : Machine) (f : Frame) (r : ReadStatement) (line left : List UInt8) : Prop
  | toLocal {newer older : List String} {v : Value} {d : Machine} (names : r.names = newer ++ r.target :: older)
      (newest : r.target ∉ newer) (inside : f.base + older.length < c.stack.size) (steps : after 3 c = some d)
      (gives : r.form.Gives d.store line v) (left : d.console.input = left) (globals : d.globals = c.globals)
      (stack : d.stack = c.stack.setIfInBounds (f.base + older.length) v)
  | toGlobal {x : Symbol} {v : Value} {d : Machine} (names : r.target ∉ r.names) (symbol : c.store.text? x = some r.target)
      (known : c.globals.contains x) (steps : after 3 c = some d) (gives : r.form.Gives d.store line v)
      (left : d.console.input = left) (globals : d.globals = c.globals.insert x v) (stack : d.stack = c.stack)
  | unknown {x : Symbol} {b d : Machine} (names : r.target ∉ r.names) (symbol : c.store.text? x = some r.target)
      (unknown : ¬c.globals.contains x) (step : cycle.run c = .ok () b)
      (fails : cycle.run b = .error (.failed (.undefinedVariable r.target)) d) (left : d.console.input = left)
  | full {d : Machine} (full : c.config.stackSize ≤ c.stack.size)
      (fails : cycle.run c = .error (.failed .stackOverflow) d) (left : d.console.input = left)

section
variable {a b c m : Machine} {f : Frame} {callers : List Frame} {pre post : List Instr} {i : Instr}
  {ls : List (List UInt8)} {k : ℕ} {bytes : List UInt8}

theorem Leads.eq_of_ok (h : a.Leads b) (hrun : cycle.run a = .ok () c) : b = c := by
  rw [Leads, hrun] at h
  obtain h | ⟨halt, h⟩ := h
  · cases h
    rfl
  · cases h

theorem Leads.eq_of_error (h : a.Leads b) {halt : Halt} (hrun : cycle.run a = .error halt c) : b = c := by
  rw [Leads, hrun] at h
  obtain h | ⟨halt', h⟩ := h
  · cases h
  · cases h
    rfl

theorem At.awaitsLine_eq (hat : a.At f callers pre i post) : a.awaitsLine = i.op.readsLine := by
  have hop : f.function.bytecode.opAt? f.ip = some i.op := by rw [hat.stands.ip, hat.stands.code.opAt?]
  simp only [awaitsLine, hat.frames, List.head?_cons, Option.bind_some, hop]
  cases i.op <;> rfl

/-! ### Steps -/

/-- Only a step that reads takes anything off the input. -/
theorem At.quiet (hat : a.At f callers pre i post) (ha : a.Running) (hi : i.op.readsLine = false)
    (h : a.console.HasRead ls k) (hstep : a.Leads b) : b.console.HasRead ls k := by
  obtain ⟨text, htext⟩ := exists_traceText hat ha.sound
  have hobserve := run_observe htext
  generalize hshown : a.console.note (if a.config.traceExecution then text else "") = shown at hobserve
  have hcycle : cycle.run a = step.run { a with console := shown } := by rw [cycle, run_bind_ok hobserve]
  have hself : Beside (Console.BothRead ls k) a.config a.config { a with console := shown }
    { a with console := shown } :=
    ⟨rfl, rfl, rfl, rfl, ⟨rfl, hshown ▸ h.note _⟩, rfl, rfl, hat.with_console shown |>.frames ▸ hat.frames ▸ ha.depth⟩
  have hwrite (bytes : ByteArray) : Respects (Console.BothRead ls k) (·.write bytes) := by
    rintro d _ ⟨rfl, hd⟩
    exact ⟨rfl, rfl, hd.write bytes⟩
  have htied := hself.step (Nat.le_refl _) (hat.with_console shown) (fun hreads => by rw [hi] at hreads; cases hreads)
    fun _ => hwrite
  rw [Leads, hcycle] at hstep
  obtain hstep | ⟨halt, hstep⟩ := hstep
  · rw [hstep] at htied
    cases htied with
    | ok _ beside => exact beside.console.2
  · rw [hstep] at htied
    cases htied with
    | error _ beside => exact beside.console.2
    | full less => exact absurd less (Nat.lt_irrefl _)

theorem run_readLine (h : m.console.HasRead (Console.lines bytes) k) : ∃ console : Console,
    readLine.run m = .ok ((Console.lines bytes)[k]?.getD []) { m with console } ∧
      console.HasRead (Console.lines bytes) (k + 1) := by
  obtain ⟨hflush, hflushed⟩ := h.flush
  obtain ⟨hline, hread⟩ := hflushed.readLine
  have hfirst : (withConsole Console.flush).run m = .ok () { m with console := m.console.flush.2 } := by
    rw [run_withConsole, hflush]
  refine ⟨_, ?_, hread⟩
  rw [readLine, run_bind_ok hfirst, run_withConsole]
  dsimp only
  rw [hline]

/-- A read statement puts on the stack what it makes of the first line that is left. -/
theorem run_read (form : InputForm) (h : m.console.HasRead (Console.lines bytes) k) :
    ∃ (v : Value) (store : Store) (console : Console), m.store.Extends store ∧
      form.Gives store ((Console.lines bytes)[k]?.getD []) v ∧ console.HasRead (Console.lines bytes) (k + 1) ∧
      (execute form.opcode).run m = (push v).run { m with store, console } := by
  obtain ⟨console, hline, hread⟩ := run_readLine h
  generalize (Console.lines bytes)[k]?.getD [] = line at hline
  have htrimmed := Console.isTrimmed_trimLineEnd line
  cases form with
  | string =>
    obtain ⟨text, htext⟩ : ∃ text, text = Utf8.decode (Console.trimLineEnd line).toByteArray := ⟨_, rfl⟩
    have hreads := Utf8.readsAs_decode (Console.trimLineEnd line).toByteArray
    rw [List.data_toByteArray, ← htext] at hreads
    refine ⟨.string (m.store.intern text).1, (m.store.intern text).2, console, .of_intern _ _, ?_, hread, ?_⟩
    · exact ⟨_, text, _, htrimmed, hreads, Symbols.text?_intern _ _, rfl⟩
    · exact (run_bind_ok hline _).trans (htext ▸ run_bind_ok (run_intern _ _) _)
  | number => exact ⟨_, m.store, console, .refl _, ⟨_, htrimmed, rfl⟩, hread, run_bind_ok hline _⟩
  | char =>
    refine ⟨.char (line.head?.getD 0), m.store, console, .refl _, ?_, hread, run_bind_ok hline _⟩
    cases line <;> rfl

theorem At.fetches (hat : a.At f callers pre i post) (ha : a.Running) {form : InputForm} (hi : i.op = form.opcode)
    (h : a.console.HasRead (Console.lines bytes) k) : Fetches a f callers form (Console.lines bytes) k := by
  obtain ⟨text, hrun⟩ := ha.run_cycle hat.frames hat.stands.code hat.stands.ip
  obtain ⟨op, operand⟩ := i
  obtain rfl : op = form.opcode := hi
  have hperform : Instr.perform ⟨form.opcode, operand⟩ = execute form.opcode := by cases form <;> rfl
  have hsize : Instr.size ⟨form.opcode, operand⟩ = 1 := by cases form <;> rfl
  obtain ⟨shown, hshown⟩ : ∃ shown, shown = a.behind f callers ⟨form.opcode, operand⟩ text := ⟨_, rfl⟩
  have hframes : shown.frames = { f with ip := f.ip + 1 } :: callers := by rw [hshown, frames_behind, hsize]
  have hleft : shown.console.HasRead (Console.lines bytes) k := by
    rw [hshown]
    exact h.note text
  rw [hperform, ← hshown] at hrun
  obtain ⟨v, store, console, hextends, hgives, hread, hexecute⟩ := run_read form hleft
  rw [hexecute] at hrun
  by_cases hfull : a.config.stackSize ≤ a.stack.size
  · have hpush := run_push_full (m := { shown with store, console }) (hshown ▸ hfull) v
    exact .full hfull (hrun.trans hpush) hread
  · have hpush := run_push (m := { shown with store, console }) (hshown ▸ Nat.lt_of_not_le hfull) v
    have hrun := hrun.trans hpush
    subst hshown
    exact .pushed ⟨hrun, hextends, hgives, hframes, rfl, rfl⟩ hread

/-- A step that reads takes a line off the input, and no other step takes anything. -/
theorem Running.hasRead (ha : a.Running) (h : a.console.HasRead (Console.lines bytes) k) (hstep : a.Leads b) :
    b.console.HasRead (Console.lines bytes) (k + a.awaitsLine.toNat) := by
  obtain ⟨f, callers, pre, i, post, hat⟩ := ha.at
  rw [hat.awaitsLine_eq]
  cases hreads : i.op.readsLine with
  | false => exact hat.quiet ha hreads h hstep
  | true =>
    obtain ⟨form, hi⟩ := exists_form hreads
    cases hat.fetches ha hi h with
    | pushed pushes read =>
      rw [hstep.eq_of_ok pushes.run]
      exact read
    | full _ run read =>
      rw [hstep.eq_of_error run]
      exact read

/-! ### What becomes of a line -/

theorem after_three {d e : Machine} (h₁ : cycle.run a = .ok () b) (h₂ : cycle.run b = .ok () d)
    (h₃ : cycle.run d = .ok () e) :
    after 3 a = some e := by
  simp only [after, h₁, h₂, h₃]

section
variable {r : ReadStatement} {v : Value} {line : List UInt8} (h : Pushes a b f callers r.form line v) (hb : b.Running)
  (hip : f.ip + 1 = codeLength pre)
include h hb hip

theorem Pushes.toLocal {s : ℕ} (hsize : a.stack.size = f.base + r.names.length)
    (hslot : slot? r.target r.names = some s)
    (hcode : f.function.bytecode.Consists (pre ++ ⟨.setLocal, s⟩ :: ⟨.pop, 0⟩ :: post)) :
    a.Reads f r line b.console.input := by
  have hpop : f.function.bytecode.Consists ((pre ++ [⟨.setLocal, s⟩]) ++ ⟨.pop, 0⟩ :: post) := by simpa using hcode
  obtain ⟨newer, older, hnames, hnewest, rfl⟩ := exists_of_slot? hslot
  have hinside : f.base + older.length < a.stack.size := by
    rw [hsize, hnames, List.length_append, List.length_cons]
    omega
  obtain ⟨text, hset⟩ := hb.setsSlot h.frames hcode hip h.stack hinside
  obtain ⟨text', hdrop⟩ := (hb.goesOn hset).drops rfl hpop (by rw [codeLength_append, ← hip]; rfl) rfl
  exact .toLocal hnames hnewest hinside (after_three h.run hset hdrop) h.gives rfl h.globals rfl

theorem Pushes.toGlobal {j : ℕ} {x : Symbol} (hnone : r.target ∉ r.names) (htext : a.store.text? x = some r.target)
    (hname : f.function.bytecode.constants[j]? = some (.string x))
    (hcode : f.function.bytecode.Consists (pre ++ ⟨.setGlobal, j⟩ :: ⟨.pop, 0⟩ :: post)) :
    a.Reads f r line b.console.input := by
  have hpop : f.function.bytecode.Consists ((pre ++ [⟨.setGlobal, j⟩]) ++ ⟨.pop, 0⟩ :: post) := by simpa using hcode
  by_cases hknown : a.globals.contains x
  · obtain ⟨text, hset⟩ := hb.setsGlobal h.frames hcode hip hname h.stack (h.globals ▸ hknown)
    obtain ⟨text', hdrop⟩ := (hb.goesOn hset).drops rfl hpop (by rw [codeLength_append, ← hip]; rfl) h.stack
    exact .toGlobal hnone htext hknown (after_three h.run hset hdrop) h.gives rfl
      (congrArg (·.insert x v) h.globals) rfl
  · obtain ⟨text, hset⟩ := hb.findsNone h.frames hcode hip hname h.stack (h.globals ▸ hknown) (h.store.text htext)
    exact .unknown hnone htext hknown h.run hset rfl

end

end
end Machine
end StackScript
