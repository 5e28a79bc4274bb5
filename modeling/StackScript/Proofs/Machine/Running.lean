import StackScript.Proofs.Code.Script
import StackScript.Proofs.Machine.Operations

/-! What a running machine can rely on: every active call is between two instructions of code that passes the verifier,
and the parts of the stack that belong to the calls lie side by side, each as high as the verifier says. -/
namespace StackScript

/-- A host function that makes up no references: with values that a store knows, it comes to such a value. -/
def IsHonest (call : List Value → Value) : Prop := ∀ s args, (∀ v ∈ args, Store.Sound s v) → s.Sound (call args)

theorem isHonest_of_mem_mathNatives {n : NativeSpec} (h : n ∈ mathNatives) : IsHonest n.call := by
  intro s args _
  simp only [mathNatives, List.mem_cons, List.not_mem_nil, or_false] at h
  obtain rfl | rfl | rfl | rfl := h
  · change s.Sound (Native.abs args)
    unfold Native.abs
    split
    · exact .number _
    · exact .null
  · change s.Sound (Native.pow args)
    unfold Native.pow
    split
    · exact .number _
    · exact .null
  · change s.Sound (Native.sqrt args)
    unfold Native.sqrt
    split
    · split
      · exact .number _
      · exact .null
    · exact .null
  · change s.Sound (Native.floor args)
    unfold Native.floor
    split
    · exact .number _
    · exact .null

/-- A call is in front of an instruction of its code. -/
structure Frame.Stands (s : Store) (f : Frame) (pre : List Instr) (i : Instr) (post : List Instr) : Prop where
  code : f.function.bytecode.Consists (pre ++ i :: post)
  verified : f.function.Verified s (pre ++ i :: post)
  constants : ∀ v ∈ f.function.bytecode.constants, s.Sound v
  back : GoesBackInside (pre ++ i :: post)
  named : ∀ a, f.function.name = some a → (s.text? a).isSome
  ip : f.ip = codeLength pre

/-- The parts of the stack that belong to the calls, innermost first, lie side by side. Where a call is waiting for
another one, its part ends with the slot that the other one gives its value to. -/
inductive Tiles (s : Store) : List Frame → Nat → Prop
  | nil : Tiles s [] 1
  | cons {f : Frame} {callers : List Frame} {pre post : List Instr} {i : Instr} {top : Nat}
      (stands : f.Stands s pre i post) (height : top = f.base + f.function.height (pre ++ i :: post) f.ip)
      (alone : callers = [] → f.function.ReturnsAlone (pre ++ i :: post)) (below : Tiles s callers (f.base + 1)) :
      Tiles s (f :: callers) top

section
variable {s t : Store} {f : Frame} {callers : List Frame} {pre post : List Instr} {i : Instr} {top : Nat}

theorem Instr.Refers.mono {constants : Array Value} (hs : s.Extends t) {height : Nat}
    (h : i.Refers ⟨constants, s⟩ height) : i.Refers ⟨constants, t⟩ height := by
  obtain ⟨op, n⟩ := i
  cases op
  case getGlobal => exact h.imp fun _ hx => hx.mono (.of_store _ hs)
  case setGlobal => exact h.imp fun _ hx => hx.mono (.of_store _ hs)
  case defineGlobal => exact h.imp fun _ hx => hx.mono (.of_store _ hs)
  all_goals exact h

theorem Instr.Refers.known {constants : Array Value} {s : Store} {height : Nat} {i : Instr}
    (h : i.Refers ⟨constants, s⟩ height) : i.Known constants := by
  intro hop
  obtain ⟨op, n⟩ := i
  cases op
  case constant => exact h
  case getGlobal =>
    obtain ⟨x, a, ha, -⟩ := h
    exact lt_size_of_getElem? ha
  case setGlobal =>
    obtain ⟨x, a, ha, -⟩ := h
    exact lt_size_of_getElem? ha
  case defineGlobal =>
    obtain ⟨x, a, ha, -⟩ := h
    exact lt_size_of_getElem? ha
  all_goals cases hop

theorem Frame.Stands.mono (hs : s.Extends t) (h : f.Stands s pre i post) : f.Stands t pre i post where
  code := h.code
  verified := ⟨h.verified.decodes, h.verified.ending, h.verified.start, fun heq => (h.verified.refers heq).mono hs,
    h.verified.takes, h.verified.flows⟩
  constants v hv := (h.constants v hv).mono hs
  back := h.back
  named a ha := hs.isSome_text (h.named a ha)
  ip := h.ip

theorem Tiles.mono (hs : s.Extends t) (h : Tiles s callers top) : Tiles t callers top := by
  induction h with
  | nil => exact .nil
  | cons stands height alone _ ih => exact .cons (stands.mono hs) height alone ih

/-- The names of all active functions are known. -/
theorem Tiles.named (h : Tiles s callers top) : ∀ g ∈ callers, ∀ a, g.function.name = some a → (s.text? a).isSome := by
  induction h with
  | nil => exact fun g hg => absurd hg List.not_mem_nil
  | cons stands _ _ _ ih =>
    intro g hg
    obtain rfl | hg := List.mem_cons.1 hg
    · exact stands.named
    · exact ih g hg

/-- Where code goes on after an instruction, another one stands, and the stack is as high as expected. -/
theorem Frame.Stands.goesOn (h : f.Stands s pre i post) {n : Nat} (hn : n ∈ i.successors (codeLength pre)) :
    ∃ pre' j post', pre' ++ j :: post' = pre ++ i :: post ∧ Frame.Stands s { f with ip := n } pre' j post' ∧
      f.function.height (pre ++ i :: post) n + i.takes = f.function.height (pre ++ i :: post) f.ip + i.gives := by
  obtain ⟨pre', j, post', heq, hlength, hheight⟩ := h.verified.flows rfl hn
  have htakes := h.verified.takes rfl
  refine ⟨pre', j, post', heq.symm, ⟨heq ▸ h.code, heq ▸ h.verified, h.constants, heq ▸ h.back, h.named,
    hlength.symm⟩, ?_⟩
  rw [hheight, h.ip]
  omega

/-- The name of a compiled function is known. -/
theorem FunctionTree.IsCompiled.named {t : FunctionTree} {g : Function} (h : t.IsCompiled s g) {a : Symbol}
    (ha : g.name = some a) : (s.text? a).isSome := by
  obtain ⟨ib, hc, -⟩ := h
  have hnamed := hc.named
  unfold Store.Names at hnamed
  rw [ha] at hnamed
  cases hn : t.name with
  | none =>
    rw [hn] at hnamed
    exact hnamed.elim
  | some x =>
    rw [hn] at hnamed
    exact Option.isSome_of_eq_some hnamed

/-- A call of a function that a store knows begins in front of an instruction, with the function and its arguments. -/
theorem Store.Sound.stands {r : FunctionRef} {g : Function} (h : s.Sound (.function r))
    (hg : s.function? r = some g) (base : Nat) :
    ∃ i post, Frame.Stands s ⟨g, 0, base⟩ [] i post ∧ g.height ([] ++ i :: post) 0 = g.arity.toNat + 1 := by
  cases h with
  | @function _ g' t hr ht hs =>
    obtain rfl := Option.some.inj (hr.symm.trans hg)
    obtain ⟨ib, hc, hb⟩ := ht
    obtain ⟨i, post, heq⟩ : ∃ i post, ib ++ returnCode = i :: post :=
      List.exists_cons_of_ne_nil (by simp [returnCode])
    have hverified := FunctionTree.verified hc hb
    refine ⟨i, post, ⟨?_, ?_, hs, ?_, ?_, rfl⟩, heightAt_zero _ _⟩
    · rw [List.nil_append, ← heq]
      exact hc.code
    · rw [List.nil_append, ← heq]
      exact hverified
    · rw [List.nil_append, ← heq]
      exact hb.goesBackInside.append goesBackInside_returnCode
    · exact fun a ha => FunctionTree.IsCompiled.named ⟨ib, hc, hb⟩ ha

end

namespace Machine

/-- All values at hand and the names of global variables are known to the store, and host functions keep to them. -/
structure IsSound (m : Machine) : Prop where
  stack : ∀ v ∈ m.stack, m.store.Sound v
  globals : ∀ {name : Symbol} {v : Value}, m.globals[name]? = some v → m.store.Sound v
  names : ∀ {name : Symbol} {v : Value}, m.globals[name]? = some v → (m.store.text? name).isSome
  natives : ∀ n ∈ m.store.natives, IsHonest n.call

/-- A machine between two steps of a run. -/
structure Running (m : Machine) : Prop where
  sound : m.IsSound
  active : m.frames ≠ []
  tiles : Tiles m.store m.frames m.stack.size
  depth : m.frames.length ≤ m.config.maxFrames
  room : m.stack.size ≤ m.config.stackSize

/-- The place of a machine in its innermost call. -/
structure At (m : Machine) (f : Frame) (callers : List Frame) (pre : List Instr) (i : Instr) (post : List Instr) :
    Prop where
  frames : m.frames = f :: callers
  stands : f.Stands m.store pre i post
  height : m.stack.size = f.base + f.function.height (pre ++ i :: post) f.ip
  alone : callers = [] → f.function.ReturnsAlone (pre ++ i :: post)
  below : Tiles m.store callers (f.base + 1)

theorem Running.at {m : Machine} (h : m.Running) : ∃ f callers pre i post, m.At f callers pre i post := by
  have htiles := h.tiles
  generalize hframes : m.frames = frames at htiles
  generalize hsize : m.stack.size = top at htiles
  cases htiles with
  | nil => exact absurd hframes h.active
  | cons stands height alone below => exact ⟨_, _, _, _, _, hframes, stands, hsize.trans height, alone, below⟩

theorem IsSound.with_console {m : Machine} (h : m.IsSound) (console : Console) :
    ({ m with console } : Machine).IsSound :=
  ⟨h.stack, h.globals, h.names, h.natives⟩

theorem IsSound.with_store {m : Machine} (h : m.IsSound) {store : Store} (hs : m.store.Extends store)
    (hn : ∀ n ∈ store.natives, IsHonest n.call) : ({ m with store } : Machine).IsSound :=
  ⟨fun v hv => (h.stack v hv).mono hs, fun hv => (h.globals hv).mono hs, fun hv => hs.isSome_text (h.names hv), hn⟩

/-- A global variable gets a value. -/
theorem IsSound.insert {m : Machine} (h : m.IsSound) {name : Symbol} {v : Value} (hname : (m.store.text? name).isSome)
    (hv : m.store.Sound v) : ({ m with globals := m.globals.insert name v } : Machine).IsSound := by
  have hinsert {x : Symbol} {w : Value} (hx : (m.globals.insert name v)[x]? = some w) :
      (x = name ∧ w = v) ∨ m.globals[x]? = some w := by
    rw [Std.TreeMap.getElem?_insert] at hx
    split at hx
    · exact .inl ⟨(Std.LawfulEqCmp.eq_of_compare ‹_›).symm, (Option.some.inj hx).symm⟩
    · exact .inr hx
  refine ⟨h.stack, fun hx => ?_, fun hx => ?_, h.natives⟩
  · obtain ⟨-, rfl⟩ | hx := hinsert hx
    · exact hv
    · exact h.globals hx
  · obtain ⟨rfl, -⟩ | hx := hinsert hx
    · exact hname
    · exact h.names hx

theorem Running.with_console {m : Machine} (h : m.Running) (console : Console) :
    ({ m with console } : Machine).Running :=
  ⟨h.sound.with_console console, h.active, h.tiles, h.depth, h.room⟩

theorem At.with_console {m : Machine} {f : Frame} {callers : List Frame} {pre post : List Instr} {i : Instr}
    (h : m.At f callers pre i post) (console : Console) : ({ m with console } : Machine).At f callers pre i post :=
  ⟨h.frames, h.stands, h.height, h.alone, h.below⟩

/-! ### What an action leaves alone -/

/-- Settings and calls are the same, and the store has lost nothing and has not got a function. -/
structure Keeps (m m' : Machine) : Prop where
  config : m'.config = m.config
  frames : m'.frames = m.frames
  store : m.store.Extends m'.store
  functions : m'.store.functions = m.store.functions
  sound : m'.IsSound

/-- Some values on top of the stack have been replaced by others, none of them below a place. -/
structure Works (base takes gives : Nat) (m m' : Machine) : Prop extends Keeps m m' where
  size : m'.stack.size + takes = m.stack.size + gives
  below : ∀ k < base, m'.stack[k]? = m.stack[k]?
  room : m.stack.size ≤ m.config.stackSize → m'.stack.size ≤ m.config.stackSize

/-- An error that can be explained: a stack overflow has a reason. -/
structure Fails (reason : Prop) (m : Machine) (e : RuntimeError) (m' : Machine) : Prop extends Keeps m m' where
  known : ∀ b, e ≠ .unknownOpcode b
  overflow : e = .stackOverflow → reason

section
variable {m m' m'' : Machine} {base takes gives takes' gives' : Nat} {rest : Array Value} {v w : Value}

theorem Works.refl (hm : m.IsSound) (base : Nat) : Works base 0 0 m m :=
  ⟨⟨rfl, rfl, .refl _, rfl, hm⟩, rfl, fun _ _ => rfl, id⟩

theorem Works.trans (h : Works base takes gives m m') (k : Works base takes' gives' m' m'') :
    Works base (takes + takes') (gives + gives') m m'' where
  config := k.config.trans h.config
  frames := k.frames.trans h.frames
  store := h.store.trans k.store
  functions := k.functions.trans h.functions
  sound := k.sound
  size := by
    have h₁ := h.size
    have h₂ := k.size
    omega
  below j hj := (k.below j hj).trans (h.below j hj)
  room hm := by
    have hm'' := k.room
    rw [h.config] at hm''
    exact hm'' (h.room hm)

/-- A value may be counted as taken and put back. -/
theorem Works.same (h : Works base 0 0 m m') : Works base 1 1 m m' :=
  ⟨h.toKeeps, congrArg (· + 1) h.size, h.below, h.room⟩

theorem Works.fails {reason : Prop} {e : RuntimeError} (h : Works base takes gives m m')
    (known : ∀ b, e ≠ .unknownOpcode b) (overflow : e = .stackOverflow → reason) : Fails reason m e m' :=
  ⟨h.toKeeps, known, overflow⟩

theorem works_push (hm : m.IsSound) (hv : m.store.Sound v) (hb : base ≤ m.stack.size)
    (hroom : m.stack.size < m.config.stackSize) :
    Works base 0 1 m { m with stack := m.stack.push v } where
  config := rfl
  frames := rfl
  store := .refl _
  functions := rfl
  sound := by
    refine ⟨fun w hw => ?_, hm.globals, hm.names, hm.natives⟩
    obtain hw | rfl := Array.mem_push.1 hw
    · exact hm.stack w hw
    · exact hv
  size := Array.size_push _
  below k hk := by
    simp only [Array.getElem?_push, if_neg (Nat.ne_of_lt (Nat.lt_of_lt_of_le hk hb))]
  room _ := by
    rw [Array.size_push]
    exact hroom

theorem works_pop (hm : m.IsSound) (h : m.stack = rest.push v) (hb : base ≤ rest.size) :
    Works base 1 0 m { m with stack := rest } where
  config := rfl
  frames := rfl
  store := .refl _
  functions := rfl
  sound := ⟨fun w hw => hm.stack w (h ▸ Array.mem_push.2 (.inl hw)), hm.globals, hm.names, hm.natives⟩
  size := by rw [h, Array.size_push]
  below k hk := by rw [h, Array.getElem?_push, if_neg (Nat.ne_of_lt (Nat.lt_of_lt_of_le hk hb))]
  room hm := by
    rw [h, Array.size_push] at hm
    exact Nat.le_of_succ_le hm

/-- All that is above some values is replaced by one. -/
theorem works_cut {below own : Array Value} (hm : m.IsSound) (h : m.stack = below ++ own) (hb : base ≤ below.size)
    (hown : own ≠ #[]) (hv : m.store.Sound v) : Works base own.size 1 m { m with stack := below.push v } where
  config := rfl
  frames := rfl
  store := .refl _
  functions := rfl
  sound := by
    refine ⟨fun w hw => ?_, hm.globals, hm.names, hm.natives⟩
    obtain hw | rfl := Array.mem_push.1 hw
    · exact hm.stack w (h ▸ Array.mem_append_left own hw)
    · exact hv
  size := by
    rw [h, Array.size_push, Array.size_append]
    omega
  below k hk := by
    rw [h, Array.getElem?_push, if_neg (by omega), Array.getElem?_append_left (by omega)]
  room hm := by
    have hpos : 0 < own.size := Array.size_pos_iff.2 hown
    rw [h, Array.size_append] at hm
    rw [Array.size_push]
    omega

theorem works_replace (hm : m.IsSound) (h : m.stack = rest.push v) (hb : base ≤ rest.size) (hw : m.store.Sound w) :
    Works base 1 1 m { m with stack := rest.push w } := by
  have hown : m.stack = rest ++ #[v] := h.trans Array.push_eq_append
  exact works_cut hm hown hb (by simp) hw

theorem works_combine (hm : m.IsSound) {x : Value} (h : m.stack = (rest.push v).push w) (hb : base ≤ rest.size)
    (hx : m.store.Sound x) : Works base 2 1 m { m with stack := rest.push x } := by
  have hpop := works_pop hm h (Nat.le_trans hb (by simp))
  exact hpop.trans (works_replace hpop.sound rfl hb hx)

theorem works_setSlot (hm : m.IsSound) (hv : m.store.Sound v) {place : Nat} (hb : base ≤ place) :
    Works base 0 0 m { m with stack := m.stack.setIfInBounds place v } where
  config := rfl
  frames := rfl
  store := .refl _
  functions := rfl
  sound := by
    refine ⟨fun w hw => ?_, hm.globals, hm.names, hm.natives⟩
    obtain hw | rfl := Array.mem_or_eq_of_mem_setIfInBounds hw
    · exact hm.stack w hw
    · exact hv
  size := Array.size_setIfInBounds
  below k hk := Array.getElem?_setIfInBounds_ne (Nat.ne_of_gt (Nat.lt_of_lt_of_le hk hb))
  room hm := by rwa [Array.size_setIfInBounds]

theorem works_console (hm : m.IsSound) (base : Nat) (console : Console) : Works base 0 0 m { m with console } :=
  ⟨⟨rfl, rfl, .refl _, rfl, ⟨hm.stack, hm.globals, hm.names, hm.natives⟩⟩, rfl, fun _ _ => rfl, id⟩

theorem works_insert (hm : m.IsSound) (base : Nat) {name : Symbol} (hname : (m.store.text? name).isSome)
    (hv : m.store.Sound v) : Works base 0 0 m { m with globals := m.globals.insert name v } :=
  ⟨⟨rfl, rfl, .refl _, rfl, hm.insert hname hv⟩, rfl, fun _ _ => rfl, id⟩

theorem works_intern (hm : m.IsSound) (base : Nat) (text : String) :
    Works base 0 0 m { m with store := (m.store.intern text).2 } :=
  have hs := Store.Extends.of_intern m.store text
  ⟨⟨rfl, rfl, hs, rfl, hm.with_store hs hm.natives⟩, rfl, fun _ _ => rfl, id⟩

theorem sound_intern (s : Store) (text : String) : (s.intern text).2.Sound (.string (s.intern text).1) := by
  refine .string ?_
  have h := Symbols.text?_intern s.symbols text
  exact Option.isSome_iff_exists.2 ⟨text, h⟩

end

end Machine
end StackScript
