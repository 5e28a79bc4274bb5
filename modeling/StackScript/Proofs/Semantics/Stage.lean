import StackScript.Proofs.Semantics.Follows

/-! Places of a running machine that belong to places of a walk: the code that comes next is that of the piece of the tree
that comes next, and the part of the stack that belongs to the innermost call holds its variables and, above them, the
values that are still needed. -/
namespace StackScript
open Machine

/-- An active call, with what stays the same until it ends. -/
structure Spot where
  limits : Limits
  function : Function
  code : List Instr
  consists : function.bytecode.Consists code
  /-- The calls that wait for this one. -/
  callers : List Frame
  /-- What is on the stack below slot zero. -/
  below : Array Value
  /-- The store as it was when the call began. -/
  store : Store
  /-- The names of all active calls. -/
  active : List (Option String)

namespace Spot

/-- The constants of the function. -/
def pool (k : Spot) : Pool := ⟨k.function.bytecode.constants, k.store⟩

/-- The surroundings of a piece of the function, while some values are held. -/
def around (k : Spot) (place : Nat) (temps : List Datum) : Surroundings :=
  { k.limits with active := k.active, held := k.below.size + temps.length, place }

theorem skip_around (k : Spot) (place size : Nat) (temps : List Datum) :
    (k.around place temps).skip size = k.around (place + size) temps := rfl

/-- Instructions stand at a place of the code. -/
def Has (k : Spot) (ip : Nat) (is : List Instr) : Prop :=
  ∃ pre post, k.code = pre ++ (is ++ post) ∧ ip = codeLength pre

section
variable {k : Spot} {ip : Nat} {i : Instr} {is js : List Instr}

theorem Has.left (h : k.Has ip (is ++ js)) : k.Has ip is := by
  obtain ⟨pre, post, hcode, hip⟩ := h
  exact ⟨pre, js ++ post, by rw [hcode, List.append_assoc], hip⟩

theorem Has.right (h : k.Has ip (is ++ js)) : k.Has (ip + codeLength is) js := by
  obtain ⟨pre, post, hcode, rfl⟩ := h
  exact ⟨pre ++ is, post, by rw [hcode, List.append_assoc, List.append_assoc], by rw [codeLength_append]⟩

theorem Has.tail (h : k.Has ip (i :: is)) : k.Has (ip + i.size) is :=
  @Has.right k ip [i] is h

end

end Spot

/-- A machine is in a call as a walk is, but for the way in which it is going to leave the place. -/
structure Scenery (k : Spot) (names : List String) (ip : Nat) (m : Machine) (s : Scene) (temps : List Datum) : Prop where
  mirrors : Mirrors k.limits m s.toWorld
  frames : m.frames = ⟨k.function, ip, k.below.size⟩ :: k.callers
  active : ActiveNames m.store m.frames k.active
  stack : Holds m.store k.below (temps ++ s.locals.map Prod.snd) m.stack
  store : k.store.Extends m.store
  names : s.locals.map Prod.fst = names

/-- A running machine is in a call as a walk is. -/
structure Stage (k : Spot) (names : List String) (ip : Nat) (m : Machine) (s : Scene) (temps : List Datum) : Prop
    extends Scenery k names ip m s temps where
  running : m.Running

/-- What an instruction can rely on besides. -/
structure Ready (m : Machine) : Prop where
  sound : m.IsSound
  room : m.stack.size ≤ m.config.stackSize

variable {k : Spot} {names : List String} {ip : Nat} {m : Machine} {s : Scene} {temps : List Datum} {v : Value} {d e : Datum}

namespace Scenery

theorem ended (h : Scenery k names ip m s temps) : Ended k.limits m s.toWorld k.active := ⟨h.mirrors, h.active⟩

theorem size (h : Scenery k names ip m s temps) : m.stack.size = k.below.size + temps.length + s.locals.length := by
  rw [h.stack.size, List.length_append, List.length_map, Nat.add_assoc]

theorem depth (h : Scenery k names ip m s temps) : k.active.length = m.frames.length := h.active.length_eq.symm

theorem place (h : Scenery k names ip m s temps) : m.place? = some ip := by
  rw [place?, h.frames]
  rfl

/-- The innermost call goes on from another place. -/
theorem goTo (h : Scenery k names ip m s temps) (ip' : Nat) : Scenery k names ip' (m.goTo ip') s temps := by
  have hactive := h.active
  have hgo : m.goTo ip' = { m with frames := ⟨k.function, ip', k.below.size⟩ :: k.callers } := goTo_eq h.frames ip'
  rw [h.frames] at hactive
  refine ⟨h.mirrors.goTo ip', by rw [hgo], ?_, by rw [hgo]; exact h.stack, by rw [hgo]; exact h.store, h.names⟩
  obtain ⟨name, rest, hname, hrest, hnames⟩ := List.forall₂_cons_left_iff.1 hactive
  rw [hgo, hnames]
  exact .cons hname hrest

theorem with_stack (h : Scenery k names ip m s temps) {stack : Array Value} {temps' : List Datum}
    (hstack : Holds m.store k.below (temps' ++ s.locals.map Prod.snd) stack) :
    Scenery k names ip { m with stack } s temps' :=
  ⟨h.mirrors.with_stack stack, h.frames, h.active, hstack, h.store, h.names⟩

theorem with_console (h : Scenery k names ip m s temps) {c d : Console} (hc : c.visible = d.visible) :
    Scenery k names ip { m with console := c } { s with console := d } temps :=
  ⟨h.mirrors.with_console hc, h.frames, h.active, h.stack, h.store, h.names⟩

/-- The store takes in a string. -/
theorem intern (h : Scenery k names ip m s temps) (hm : m.IsSound) (text : String) :
    Scenery k names ip { m with store := (m.store.intern text).2 } s temps := by
  have hs := Store.Extends.of_intern m.store text
  exact ⟨h.mirrors.with_store hm hs rfl h.mirrors.declared, h.frames, h.active.mono hs, h.stack.mono hs,
    h.store.trans hs, h.names⟩

end Scenery

theorem Ready.with_console (h : Ready m) (console : Console) : Ready { m with console } :=
  ⟨h.sound.with_console console, h.room⟩

/-! ### Steps -/

/-- A step carries out the instruction that comes next, at the place behind it. -/
theorem Stage.run_cycle (h : Stage k names ip m s temps) {i : Instr} {is : List Instr} (hat : k.Has ip (i :: is)) :
    ∃ m', cycle.run m = i.perform.run m' ∧ Scenery k names (ip + i.size) m' s temps ∧ Ready m' := by
  obtain ⟨pre, post, hcode, rfl⟩ := hat
  have hconsists := k.consists
  rw [hcode, List.cons_append] at hconsists
  obtain ⟨f, callers, pre', i', post', hplace⟩ := h.running.at
  obtain ⟨text, htext⟩ := exists_traceText hplace h.running.sound
  have hobserve := run_observe htext
  generalize (if m.config.traceExecution then text else "") = noted at hobserve
  have hshown : Scenery k names (codeLength pre) { m with console := m.console.note noted } s temps :=
    h.toScenery.with_console (d := s.console) h.mirrors.console
  have hready : Ready { m with console := m.console.note noted } :=
    .with_console ⟨h.running.sound, h.running.room⟩ _
  refine ⟨_, ?_, hshown.goTo _, ?_⟩
  · rw [cycle, run_bind_ok hobserve]
    exact run_step hshown.frames hconsists rfl
  · refine ⟨hready.sound.goTo hshown.frames _, ?_⟩
    rw [goTo_eq hshown.frames]
    exact hready.room

section
variable {α : Type} {i : Instr} {is : List Instr} {x : Walk α} {n : Nat}

/-- One step goes the way of a part of a walk. -/
theorem Stage.follows (h : Stage k names ip m s temps) (hat : k.Has ip (i :: is)) {Q : Machine → α → Scene → Prop}
    (hi : ∀ {m'}, Scenery k names (ip + i.size) m' s temps → Ready m' →
      Matches k.limits ip (fun _ => Q) (i.perform.run m') (x.run s)) :
    Follows k.limits n m (fun a s' m' => m'.Running ∧ Q m' a s') (x.run s) := by
  obtain ⟨m', hrun, hscenery, hready⟩ := h.run_cycle hat
  exact (hi hscenery hready).follows hrun h.running h.place

/-- One step that is not seen in the walk. -/
theorem Stage.step (h : Stage k names ip m s temps) (hat : k.Has ip (i :: is)) {ip' : Nat} {temps' : List Datum}
    (hi : ∀ {m'}, Scenery k names (ip + i.size) m' s temps →
      ∃ m'', i.perform.run m' = .ok () m'' ∧ Scenery k names ip' m'' s temps') :
    ∃ m', cycle.run m = .ok () m' ∧ Stage k names ip' m' s temps' := by
  obtain ⟨m', hrun, hscenery, -⟩ := h.run_cycle hat
  obtain ⟨m'', hperform, hscenery'⟩ := hi hscenery
  have hstep := hrun.trans hperform
  exact ⟨m'', hstep, hscenery', h.running.goesOn hstep⟩

theorem Stage.pop (h : Stage k names ip m s (d :: temps)) (hat : k.Has ip (⟨.pop, 0⟩ :: is)) :
    ∃ m', cycle.run m = .ok () m' ∧ Stage k names (ip + 1) m' s temps := by
  refine h.step hat fun {m'} hm => ?_
  obtain ⟨rest, v, hstack, -, hrest⟩ := hm.stack.pop
  refine ⟨{ m' with stack := rest }, ?_, hm.with_stack hrest⟩
  change (Machine.pop >>= fun _ => pure ()).run m' = _
  rw [run_bind_ok (run_pop hstack)]
  rfl

theorem Stage.jump {distance : Nat} (h : Stage k names ip m s temps) (hat : k.Has ip (⟨.jump, distance⟩ :: is)) :
    ∃ m', cycle.run m = .ok () m' ∧ Stage k names (ip + 3 + distance) m' s temps :=
  h.step hat fun hm => ⟨_, run_jumpForward hm.frames distance, hm.goTo _⟩

theorem Stage.loop {distance : Nat} (h : Stage k names ip m s temps) (hat : k.Has ip (⟨.loop, distance⟩ :: is))
    (hd : distance ≤ ip + 3) : ∃ m', cycle.run m = .ok () m' ∧ Stage k names (ip + 3 - distance) m' s temps :=
  h.step hat fun hm => ⟨_, run_jumpBack hm.frames hd, hm.goTo _⟩

theorem Scenery.top (h : Scenery k names ip m s (d :: temps)) :
    ∃ v, (peek 0).run m = .ok v m ∧ v.isFalsey = d.isFalsey := by
  obtain ⟨rest, v, hstack, htop, -⟩ := h.stack.pop
  exact ⟨v, run_peek_zero hstack, htop.isFalsey_eq⟩

theorem Stage.jumpIfFalse {distance : Nat} (h : Stage k names ip m s (d :: temps))
    (hat : k.Has ip (⟨.jumpIfFalse, distance⟩ :: is)) :
    ∃ m', cycle.run m = .ok () m' ∧
      Stage k names (if d.isFalsey then ip + 3 + distance else ip + 3) m' s (d :: temps) := by
  refine h.step hat fun {m'} hm => ?_
  obtain ⟨v, hpeek, hv⟩ := hm.top
  change ∃ m'', (peek 0 >>= _).run m' = _ ∧ _
  rw [run_bind_ok hpeek, hv]
  split
  · exact ⟨_, run_jumpForward hm.frames distance, hm.goTo _⟩
  · exact ⟨m', rfl, hm⟩

theorem Stage.jumpIfTrue {distance : Nat} (h : Stage k names ip m s (d :: temps))
    (hat : k.Has ip (⟨.jumpIfTrue, distance⟩ :: is)) :
    ∃ m', cycle.run m = .ok () m' ∧
      Stage k names (if d.isFalsey then ip + 3 else ip + 3 + distance) m' s (d :: temps) := by
  refine h.step hat fun {m'} hm => ?_
  obtain ⟨v, hpeek, hv⟩ := hm.top
  change ∃ m'', (peek 0 >>= _).run m' = _ ∧ _
  rw [run_bind_ok hpeek, hv]
  split
  · exact ⟨m', rfl, hm⟩
  · exact ⟨_, run_jumpForward hm.frames distance, hm.goTo _⟩

end

end StackScript
