import StackScript.Proofs.Machine.History
import StackScript.Proofs.Store.Interned

/-! Strings are equal if their bytes are. However a program has come by them, they have gone through the table of its
machine, which has one symbol for each text. -/
namespace StackScript

/-- The constants of all active functions are known. -/
theorem Tiles.constants {s : Store} {frames : List Frame} {top : Nat} (h : Tiles s frames top) :
    ∀ f ∈ frames, ∀ v ∈ f.function.bytecode.constants, s.Sound v := by
  induction h with
  | nil => exact fun f hf => absurd hf List.not_mem_nil
  | cons stands _ _ _ ih =>
    intro f hf
    obtain rfl | hf := List.mem_cons.1 hf
    · exact stands.constants
    · exact ih f hf

namespace Machine

/-- Values that a program can come by: on the stack, of a global variable, or among the constants of an active function
or of one that it can come by. -/
inductive Holds (a : Machine) : Value → Prop
  | stack {v : Value} (h : v ∈ a.stack) : a.Holds v
  | global {name : Symbol} {v : Value} (h : a.globals[name]? = some v) : a.Holds v
  | active {f : Frame} {v : Value} (hf : f ∈ a.frames) (hv : v ∈ f.function.bytecode.constants) : a.Holds v
  | constant {r : FunctionRef} {f : Function} {v : Value} (h : a.Holds (.function r)) (hr : a.store.function? r = some f)
    (hv : v ∈ f.bytecode.constants) : a.Holds v

/-- A machine that has been brought to a source, or is at a step of running it. -/
def IsAt (m : Machine) (source : String) (a : Machine) : Prop := a = m ∨ m.Reaches source a

section
variable {m a : Machine} {source : String}

theorem Holds.sound (hm : a.IsSound) (hframes : ∀ f ∈ a.frames, ∀ v ∈ f.function.bytecode.constants, a.store.Sound v)
    {v : Value} (h : a.Holds v) : a.store.Sound v := by
  induction h with
  | stack h => exact hm.stack _ h
  | global h => exact hm.globals h
  | active hf hv => exact hframes _ hf _ hv
  | constant _ hr hv ih =>
    cases ih with
    | function hr' _ hs =>
      obtain rfl := Option.some.inj (hr'.symm.trans hr)
      exact hs _ hv

/-- The store knows all values at hand. -/
theorem Idle.sound_of_holds (hm : m.Idle) (ha : m.IsAt source a) {v : Value} (h : a.Holds v) : a.store.Sound v := by
  obtain rfl | ha := ha
  · refine h.sound hm.resting.sound fun f hf => ?_
    rw [hm.resting.frames] at hf
    exact absurd hf List.not_mem_nil
  · have hrunning := (hm.reaches ha).1
    exact h.sound hrunning.sound hrunning.tiles.constants

end

end Machine
end StackScript
