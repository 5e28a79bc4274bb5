import StackScript.Proofs.Code.Precedence
import StackScript.Proofs.Machine.Rejected
import StackScript.Proofs.Machine.Turn
import StackScript.Proofs.Number.RoundTrip
import StackScript.Proofs.Scanning.NumberLiteral
import StackScript.Proofs.Semantics.InStep

/-! Programs that print a number literal: what they write is the number. -/
namespace StackScript

/-- The program that prints a number literal. -/
def printsNumber (lit : String) : List Decl := [.print (.literal (.number lit)) []]

section
variable {source lit : String}

theorem isProgram_printsNumber (hlit : (⟨.number, lit⟩ : Word).IsWritten) : IsProgram (printsNumber lit) := by
  have hwf : Decl.ListWellFormed (printsNumber lit) := by
    simp only [printsNumber, Decl.ListWellFormed, Decl.WellFormed, Expr.AllWellFormed, Expr.WellFormed]
    decide
  have hwritten : ∀ w ∈ Decl.listWords (printsNumber lit), w.IsWritten := by
    intro w hw
    obtain rfl | rfl | rfl : w = TokenKind.print.mark ∨ w = ⟨.number, lit⟩ ∨ w = TokenKind.outEnd.mark := by
      simpa [printsNumber, Decl.listWords, Decl.words, Expr.words, Literal.word, itemWords] using hw
    · exact Word.isWritten_mark rfl (by decide)
    · exact hlit
    · exact Word.isWritten_mark rfl (by decide)
  exact ⟨hwf, greedy_of_written hwf hwritten ⟨⟨⟨Compiler.closes_of_none rfl, by decide⟩, trivial⟩, trivial⟩⟩

theorem isLegal_printsNumber (lit : String) : IsLegal (printsNumber lit) where
  outInFunction := ⟨⟨trivial, trivial, trivial⟩, trivial⟩
  distinctNames := ⟨⟨trivial, trivial, trivial⟩, trivial⟩
  ownNameUnread := ⟨⟨trivial, trivial, trivial⟩, trivial⟩
  fewOperands := ⟨⟨trivial, trivial, trivial⟩, trivial⟩
  fewSlots := ⟨⟨trivial, trivial, trivial⟩, trivial⟩
  fewConstants := ⟨⟨trivial, trivial, trivial⟩, trivial⟩
  fewScriptConstants := by
    have hone : (Decl.listNeeds .script (printsNumber lit)).count = (Needs.one + 0 + 0).count := rfl
    rw [hone]
    decide
  shortJumps := ⟨⟨trivial, trivial, trivial⟩, trivial⟩

/-- A source of the words of the program is read as the program. -/
theorem reads_printsNumber (hfaultless : (TokenStream.ofSource source).IsFaultless)
    (hwords : (TokenStream.ofSource source).words = [TokenKind.print.mark, ⟨.number, lit⟩, TokenKind.outEnd.mark])
    (hlit : (⟨.number, lit⟩ : Word).IsWritten) : (TokenStream.ofSource source).Reads (printsNumber lit) :=
  ⟨hfaultless, hwords, isProgram_printsNumber hlit, isLegal_printsNumber lit⟩

theorem code_printsNumber {κ : Pool} {σ : Scope} {first : ℕ} {is : List Instr} {n : Numeral}
    (hn : Numeral.leading? lit.toList = some n) (h : Decl.ListCode κ σ first (printsNumber lit) is) :
    ∃ k, κ.constants[k]? = some (.number n.value) ∧ is = [⟨.constant, k⟩, ⟨.print, 0⟩] := by
  obtain ⟨id, js, ⟨ie, items, ⟨k, v, hk, ⟨n', hn', rfl⟩, rfl⟩, rfl, rfl⟩, rfl, rfl⟩ := h
  obtain rfl := Option.some.inj (hn.symm.trans hn')
  exact ⟨k, hk, rfl⟩

end

theorem Console.Reliable.note {c : Console} (h : c.Reliable) (text : String) : (c.note text).Reliable :=
  ⟨h.readable, h.writable, h.flushable⟩

namespace Machine
variable {a m : Machine} {source : String}

/-! ### Steps of such a program -/

/-- The innermost call has gone on with a reliable console: settings and store are as they were. -/
structure GoneOn (a b : Machine) (stack : Array Value) (written : ByteArray) (frames : List Frame) : Prop where
  config : b.config = a.config
  store : b.store = a.store
  stack : b.stack = stack
  frames : b.frames = frames
  reliable : b.console.Reliable
  output : b.console.output = a.console.output ++ written

section
variable {f : Frame} {callers : List Frame} {p q : List Instr}

variable (ha : a.Running) (hconsole : a.console.Reliable) (hframes : a.frames = f :: callers)
include ha hconsole hframes

theorem Running.pushes_constant {k : ℕ} {v : Value}
    (hcode : f.function.bytecode.Consists (p ++ ⟨.constant, k⟩ :: q)) (hip : f.ip = codeLength p)
    (hv : f.function.bytecode.constants[k]? = some v) (hroom : a.stack.size < a.config.stackSize) :
    ∃ b, cycle.run a = .ok () b ∧ GoneOn a b (a.stack.push v) .empty ({ f with ip := f.ip + 2 } :: callers) := by
  obtain ⟨text, hrun⟩ := ha.run_cycle hframes hcode hip
  have hconstant : (constantAt k).run (a.behind f callers ⟨.constant, k⟩ text) =
      .ok v (a.behind f callers ⟨.constant, k⟩ text) := by
    rw [run_constantAt (frames_behind ..), hv]
    rfl
  refine ⟨_, hrun.trans ((run_bind_ok hconstant push).trans (run_push (by simpa using hroom) v)), ?_⟩
  exact ⟨rfl, rfl, rfl, rfl, hconsole.note text, ByteArray.append_empty.symm⟩

theorem Running.pushes_null (hcode : f.function.bytecode.Consists (p ++ ⟨.null, 0⟩ :: q)) (hip : f.ip = codeLength p)
    (hroom : a.stack.size < a.config.stackSize) :
    ∃ b, cycle.run a = .ok () b ∧ GoneOn a b (a.stack.push .null) .empty ({ f with ip := f.ip + 1 } :: callers) := by
  obtain ⟨text, hrun⟩ := ha.run_cycle hframes hcode hip
  refine ⟨_, hrun.trans (run_push (by simpa using hroom) .null), ?_⟩
  exact ⟨rfl, rfl, rfl, rfl, hconsole.note text, ByteArray.append_empty.symm⟩

theorem Running.prints (hcode : f.function.bytecode.Consists (p ++ ⟨.print, 0⟩ :: q)) (hip : f.ip = codeLength p)
    {rest : Array Value} {v : Value} (hstack : a.stack = rest.push v) {bytes : ByteArray}
    (hbytes : a.store.bytes? v = some bytes) :
    ∃ b, cycle.run a = .ok () b ∧ GoneOn a b rest bytes ({ f with ip := f.ip + 1 } :: callers) := by
  obtain ⟨text, hrun⟩ := ha.run_cycle hframes hcode hip
  have hprint := run_printTop (m := a.behind f callers ⟨.print, 0⟩ text) hstack hbytes
  rw [run_withConsole] at hprint
  have hwrite := (hconsole.note text).write bytes
  simp only [behind, hwrite] at hprint
  exact ⟨_, hrun.trans hprint, rfl, rfl, rfl, rfl, ⟨hconsole.readable, hconsole.writable, hconsole.flushable⟩, rfl⟩

theorem Running.finishes (hscript : callers = []) (hcode : f.function.bytecode.Consists (p ++ ⟨.out, 0⟩ :: q))
    (hip : f.ip = codeLength p) {rest : Array Value} {v w : Value} (hstack : a.stack = (rest.push w).push v) :
    ∃ b, cycle.run a = .error .finished b ∧ GoneOn a b rest .empty [] := by
  subst hscript
  obtain ⟨text, hrun⟩ := ha.run_cycle hframes hcode hip
  refine ⟨_, hrun.trans (run_returnTop_script (frames_behind ..) hstack), ?_⟩
  exact ⟨rfl, rfl, rfl, rfl, hconsole.note text, ByteArray.append_empty.symm⟩

end

/-- Running the program that prints a number literal writes the text of the nearest double. -/
theorem interpret_printsNumber (hm : m.Idle) (hmax : m.config.maxFrames ≠ 0) (hconsole : m.console.Reliable)
    {lit : String} {n : Numeral} (hn : Numeral.leading? lit.toList = some n)
    (hreads : (TokenStream.ofSource source).Reads (printsNumber lit)) :
    ∃ m', m.interpret 4 source = some (.ok, m') ∧ m'.console.output = m.console.output ++ n.value.text.toUTF8 := by
  obtain ⟨r, hr, -, hgains⟩ := compile_of_reads hreads m.store m.config.printCode
  obtain ⟨f, hf, ⟨is, hcompiles, hcode⟩, -⟩ := hgains.compiled
  obtain ⟨k, hk, rfl⟩ := code_printsNumber hn hcode
  have hcode : f.bytecode.Consists [⟨.constant, k⟩, ⟨.print, 0⟩, ⟨.null, 0⟩, ⟨.out, 0⟩] := hcompiles.code
  obtain ⟨b, hb, hconfig, hstack, hframes, hreliable, houtput⟩ : ∃ b, m.start source = .ok b ∧ b.config = m.config ∧
      b.stack = #[.function r] ∧ b.frames = [⟨f, 0, 0⟩] ∧ b.console.Reliable ∧ b.console.output = m.console.output :=
    ⟨_, start_running hm.resting rfl hr hf (UInt8.toNat_inj.1 hcompiles.arity) hmax, rfl, rfl, rfl,
      hconsole.note _, rfl⟩
  have hroom : 2 < b.config.stackSize := by
    rw [hconfig, Config.stackSize]
    omega
  have hrunning := (hm.reaches ⟨b, hb, .refl b⟩).1
  obtain ⟨c, hc, hbc⟩ := hrunning.pushes_constant (p := []) hreliable hframes hcode rfl hk
    (by rw [hstack]; exact Nat.lt_of_succ_lt hroom)
  have hrunning := hrunning.goesOn hc
  obtain ⟨d, hd, hcd⟩ := hrunning.prints (p := [⟨.constant, k⟩]) hbc.reliable hbc.frames hcode rfl hbc.stack
    (show c.store.bytes? (.number n.value) = some n.value.text.toUTF8 from rfl)
  have hrunning := hrunning.goesOn hd
  obtain ⟨e, he, hde⟩ := hrunning.pushes_null (p := [⟨.constant, k⟩, ⟨.print, 0⟩]) hcd.reliable hcd.frames hcode rfl
    (by rw [hcd.stack, hcd.config, hbc.config, hstack]; exact Nat.lt_of_succ_lt hroom)
  have hrunning := hrunning.goesOn he
  obtain ⟨g, hg, heg⟩ := hrunning.finishes (p := [⟨.constant, k⟩, ⟨.print, 0⟩, ⟨.null, 0⟩]) hde.reliable hde.frames rfl
    hcode rfl (show e.stack = (#[].push (.function r)).push .null by rw [hde.stack, hcd.stack, hstack]; rfl)
  have hfor : runFor 4 b = some (.finished, g) := by simp only [runFor, hc, hd, he, hg]
  have hend : g.conclude .finished = (.ok, { g with console := g.console.flush.2 }) := by
    rw [conclude, heg.reliable.flush]
  have hinterpret : m.interpret 4 source = some (.ok, { g with console := g.console.flush.2 }) := by
    rw [interpret, hb]
    simp only [hfor, Option.map_some, hend]
  refine ⟨_, hinterpret, ?_⟩
  change g.console.output = _
  rw [heg.output, hde.output, hcd.output, hbc.output, houtput]
  simp only [ByteArray.append_empty]

/-- A number literal that the scanner takes, with no more than fifteen significant digits and neither too large nor too small,
is printed as the number that it is. So two such literals are printed alike if and only if they are the same number. -/
theorem print_number_literal :
    (∀ text, (⟨.number, text⟩ : Word).IsWritten ↔ ∃ n : Numeral, n.IsLiteral ∧ text = n.literal) ∧
    ∀ n : Numeral, n.IsLiteral → n.IsShort →
      (∃ f : Figure, n.value.text = String.ofList f.text ∧ f.IsTidy ∧ f.toRat = n.toRat) ∧
      (∀ n' : Numeral, n'.IsLiteral → n'.IsShort → (n.value.text = n'.value.text ↔ n.toRat = n'.toRat)) ∧
      ∀ (m : Machine) (source : String), m.Idle → m.config.maxFrames ≠ 0 → m.console.Reliable →
        (TokenStream.ofSource source).IsFaultless →
        (TokenStream.ofSource source).words = [TokenKind.print.mark, ⟨.number, n.literal⟩, TokenKind.outEnd.mark] →
        ∃ m', m.interpret 4 source = some (.ok, m') ∧ m'.console.output = m.console.output ++ n.value.text.toUTF8 := by
  refine ⟨fun text => isWritten_number_iff, fun n hliteral hshort => ⟨Numeral.exists_figure hliteral hshort, ?_, ?_⟩⟩
  · intro n' hliteral' hshort'
    exact Numeral.text_value_eq_iff hliteral hshort hliteral' hshort'
  · intro m source hm hmax hconsole hfaultless hwords
    have hwritten := isWritten_number_iff.2 ⟨n, hliteral, rfl⟩
    have hleading : Numeral.leading? n.literal.toList = some n := by
      rw [Numeral.literal, String.toList_ofList]
      exact hliteral.leading?
    exact interpret_printsNumber hm hmax hconsole hleading (reads_printsNumber hfaultless hwords hwritten)

/-- A literal whose value is no double. -/
theorem print_number_literal_tenth : ∃ m', (Machine.new {} {}).interpret 4 "ouo 0.10 >>" = some (.ok, m') ∧
    m'.console.output = "0.1".toUTF8 ∧ ∃ f : Figure, String.ofList f.text = "0.1" ∧ f.IsTidy ∧ f.toRat = 1 / 10 := by
  have hliteral : Numeral.IsLiteral ⟨false, ['0'], ['1', '0']⟩ := ⟨rfl, by simp, by simp [Char.isDigit], by simp [Char.isDigit]⟩
  have hshort : Numeral.IsShort ⟨false, ['0'], ['1', '0']⟩ := ⟨by decide, .inr ⟨by decide +kernel, by decide +kernel⟩⟩
  obtain ⟨⟨f, htext, htidy, hvalue⟩, -, hprints⟩ := print_number_literal.2 _ hliteral hshort
  obtain ⟨ws, hws⟩ : ∃ ws : List Word,
      ws = [TokenKind.print.mark, ⟨.number, Numeral.literal ⟨false, ['0'], ['1', '0']⟩⟩, TokenKind.outEnd.mark] := ⟨_, rfl⟩
  have hwritten : ∀ w ∈ ws, w.IsWritten := by
    rw [hws]
    decide +kernel
  have hspaced : spaced ws = "ouo 0.10 >>" := by
    rw [hws]
    decide +kernel
  obtain ⟨hfaultless, hwords⟩ := words_ofSource_spaced hwritten
  rw [hspaced] at hfaultless hwords
  obtain ⟨m', hrun, houtput⟩ :=
    hprints (.new {} {}) "ouo 0.10 >>" (.new {} {}) (by decide) ⟨rfl, rfl, rfl⟩ hfaultless (hwords.trans hws)
  have hdigits : (Numeral.value ⟨false, ['0'], ['1', '0']⟩).text = "0.1" := by decide +kernel
  have hnumber : Numeral.toRat ⟨false, ['0'], ['1', '0']⟩ = 1 / 10 := by decide +kernel
  rw [hdigits] at htext houtput
  exact ⟨m', hrun, houtput, f, htext.symm, htidy, hvalue.trans hnumber⟩

end Machine

end StackScript
