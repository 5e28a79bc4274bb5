import StackScript.Proofs.Machine.History

/-! The stack and the calls of a machine: neither outgrows its bound during a run, and both are empty behind it. Where
every function makes do with the slots that a byte can name, only calls can find the machine full. -/
namespace StackScript

/-- The stack of a call of the function is never higher than so many slots, slot zero among them. -/
def Function.NeedsAtMost (f : Function) (slots : Nat) : Prop :=
  ∃ is, f.bytecode.Consists is ∧ ∀ pre i post, is = pre ++ i :: post → f.height is (codeLength pre) ≤ slots

section
variable {s : Store} {f : Frame} {callers : List Frame} {pre post : List Instr} {i : Instr} {top : Nat}

theorem Frame.Stands.height_le {slots : Nat} (h : f.Stands s pre i post) (hf : f.function.NeedsAtMost slots) :
    f.function.height (pre ++ i :: post) f.ip ≤ slots := by
  obtain ⟨is, hc, hle⟩ := hf
  obtain rfl := hc.unique h.code
  rw [h.ip]
  exact hle _ _ _ rfl

/-- Of the slots of a call the last one is already the first one of the call that it waits for. -/
theorem Tiles.top_le (slots : Nat) (h : Tiles s callers top) (hf : ∀ f ∈ callers, f.function.NeedsAtMost (slots + 1)) :
    top ≤ slots * callers.length + 1 := by
  induction h with
  | nil => simp
  | @cons f callers pre post i top stands height _ _ ih =>
    have hbase := ih fun g hg => hf g (List.mem_cons_of_mem f hg)
    have hle := stands.height_le (hf f List.mem_cons_self)
    rw [List.length_cons, Nat.mul_succ]
    omega

end

namespace Machine
variable {m a a' : Machine} {f : Frame} {callers : List Frame} {pre post : List Instr} {i : Instr}

/-- An instruction that raises the stack finds room for one more value. -/
theorem Running.room_of_needsAtMost (hm : m.Running) (h : m.At f callers pre i post) (hi : i.takes < i.gives)
    (hf : ∀ f ∈ m.frames, f.function.NeedsAtMost 256) (hmax : 1 ≤ m.config.maxFrames) :
    m.stack.size < m.config.stackSize := by
  have hstraight : i.op ≠ .jump ∧ i.op ≠ .loop ∧ i.op ≠ .out := by
    refine ⟨fun hop => ?_, fun hop => ?_, fun hop => ?_⟩ <;> simp [Instr.takes, Instr.gives, hop] at hi
  have hnext := mem_successors hstraight (codeLength pre)
  obtain ⟨pre', j, post', heq, hstands, hheight⟩ := h.stands.goesOn hnext
  rw [h.frames] at hf
  have hafter := hstands.height_le (hf f List.mem_cons_self)
  rw [heq] at hafter
  change f.function.height (pre ++ i :: post) (codeLength pre + i.size) ≤ 256 at hafter
  have hbase := Tiles.top_le 255 h.below fun g hg => hf g (List.mem_cons_of_mem f hg)
  have htop := h.height
  have hdepth := hm.depth
  rw [h.frames, List.length_cons] at hdepth
  rw [Config.stackSize]
  omega

/-- A machine that is given a source, whatever has happened to it before. However the run ends, nothing is left on the
stack and no call is active; during the run there are at most as many calls and values as there may be. And unless a
function needs more slots than a byte can name, the stack overflows only at a call that finds all calls in use. -/
theorem run_balanced (hm : m.Idle) (source : String) :
    (∀ steps outcome m', m.interpret steps source = some (outcome, m') → m'.stack = #[] ∧ m'.frames = []) ∧
    (∀ a, m.Reaches source a →
      a.frames.length ≤ m.config.maxFrames ∧ a.stack.size ≤ m.config.maxFrames * 256) ∧
    (1 ≤ m.config.maxFrames →
      (∀ trace m', m.start source ≠ .error (.failure (.failed .stackOverflow trace), m')) ∧
      ∀ a a', m.Reaches source a → (∀ f ∈ a.frames, f.function.NeedsAtMost 256) →
        cycle.run a = .error (.failed .stackOverflow) a' →
        a.frames.length = m.config.maxFrames ∧
          ∃ f callers, a.frames = f :: callers ∧ f.function.bytecode.opAt? f.ip = some .call) := by
  refine ⟨fun steps outcome m' h => ?_, fun a ha => ?_, fun hmax => ⟨fun trace m' h => ?_, fun a a' ha hf h => ?_⟩⟩
  · have hrest := hm.resting.interpret h
    exact ⟨hrest.stack, hrest.frames⟩
  · obtain ⟨hrunning, hconfig⟩ := hm.reaches ha
    rw [← hconfig]
    exact ⟨hrunning.depth, hrunning.room⟩
  · have hstarts := starts_start hm.resting source
    rw [h] at hstarts
    cases hstarts with
    | full _ hnone => omega
  · obtain ⟨hrunning, hconfig⟩ := hm.reaches ha
    obtain ⟨f, callers, pre, i, post, hat⟩ := hrunning.at
    obtain ⟨console, hcomes⟩ := comes_cycle hat hrunning
    rw [h] at hcomes
    cases hcomes with
    | fails hfails =>
      obtain ⟨hcall, hfull⟩ | ⟨hraises, hfull⟩ := hfails.overflow rfl
      · refine ⟨hconfig ▸ hfull, f, callers, hat.frames, ?_⟩
        rw [hat.stands.ip, hat.stands.code.opAt?, hcall]
      · have hroom := hrunning.room_of_needsAtMost hat hraises hf (hconfig ▸ hmax)
        exact absurd hroom (Nat.not_lt_of_le hfull)

/-- The slots of code without parameters, counted in one go. -/
theorem needsAtMost_of_code {f : Function} {is : List Instr} {slots : Nat} (harity : f.arity = 0)
    (hcode : f.bytecode.code.toList = codeBytes is) (hfits : ∀ i ∈ is, i.Fits)
    (hle : ∀ k < is.length, heightOf 1 (is.take k) ≤ slots) : f.NeedsAtMost slots := by
  refine ⟨is, ⟨hcode, hfits⟩, fun pre i post heq => ?_⟩
  have hlt : pre.length < is.length := by
    rw [heq]
    simp
  have hpre := hle pre.length hlt
  rw [heq, List.take_left] at hpre
  rw [Function.height, heq, heightAt_append, harity]
  exact hpre

/-- The code of a function without parameters whose body is a call of the first name among its constants. -/
def recursiveCode : List Instr := [⟨.getGlobal, 0⟩, ⟨.call, 0⟩, ⟨.pop, 0⟩, ⟨.null, 0⟩, ⟨.out, 0⟩]

instance (i : Instr) : Decidable i.Fits := inferInstanceAs (Decidable (i.operand < _))

/-- A function that calls itself, on a machine with two calls. -/
theorem run_balanced_recursion :
    ∃ a a' m' trace, (Machine.new { maxFrames := 2 } {}).Reaches "fwun f() [: f() :] f()" a ∧
      (∀ f ∈ a.frames, f.function.NeedsAtMost 256) ∧ cycle.run a = .error (.failed .stackOverflow) a' ∧
      (a.frames.length = 2 ∧
        ∃ f callers, a.frames = f :: callers ∧ f.function.bytecode.opAt? f.ip = some .call) ∧
      (Machine.new { maxFrames := 2 } {}).interpret 9 "fwun f() [: f() :] f()" =
        some (.failure (.failed .stackOverflow trace), m') ∧ m'.stack = #[] ∧ m'.frames = [] := by
  have hinterpret : ((Machine.new { maxFrames := 2 } {}).interpret 9 "fwun f() [: f() :] f()").map Prod.fst =
      some (.failure (.failed .stackOverflow [⟨1, some "f"⟩, ⟨1, none⟩])) := by decide +kernel
  have hreached : ((Machine.new { maxFrames := 2 } {}).reached "fwun f() [: f() :] f()" 5).map (fun a =>
        (a.frames.map fun f => (f.function.arity, f.function.bytecode.code.toList), a.halts?)) =
      some ([(0, codeBytes recursiveCode), (0, codeBytes (⟨.constant, 1⟩ :: ⟨.defineGlobal, 0⟩ :: recursiveCode))],
        some (.failed .stackOverflow)) := by decide +kernel
  obtain ⟨⟨outcome, m'⟩, hrun, rfl⟩ := Option.map_eq_some_iff.1 hinterpret
  obtain ⟨a, ha, hview⟩ := Option.map_eq_some_iff.1 hreached
  obtain ⟨hframes, hhalt⟩ := Prod.mk.inj hview
  obtain ⟨a', hlast⟩ := exists_of_halts? hhalt
  have hneeds : ∀ f ∈ a.frames, f.function.NeedsAtMost 256 := fun f hf => by
    have hmem := List.mem_map_of_mem (f := fun f : Frame => (f.function.arity, f.function.bytecode.code.toList)) hf
    rw [hframes] at hmem
    obtain hcode | hcode := List.mem_pair.1 hmem
    · exact needsAtMost_of_code (Prod.mk.inj hcode).1 (Prod.mk.inj hcode).2 (by decide) (by decide)
    · exact needsAtMost_of_code (Prod.mk.inj hcode).1 (Prod.mk.inj hcode).2 (by decide) (by decide)
  obtain ⟨hends, -, hoverflow⟩ := run_balanced (.new { maxFrames := 2 } {}) "fwun f() [: f() :] f()"
  have hreaches := reaches_of_reached ha
  exact ⟨a, a', m', _, hreaches, hneeds, hlast, (hoverflow (by decide)).2 a a' hreaches hneeds hlast, hrun,
    hends 9 _ m' hrun⟩

end Machine
end StackScript
