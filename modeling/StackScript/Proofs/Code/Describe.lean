import StackScript.Proofs.Code.Shape
import StackScript.Proofs.Compiler.Effect

/-! What is known of a compilation that has made no mistake, at a place in a tree: the names in scope are
the local variables, and the constants asked for so far are in the pool. -/
namespace StackScript

/-- The variables of blocks, the innermost block first. -/
def blockLocals : List (List String) → List Local
  | [] => []
  | names :: outer => names.map (⟨·, some outer.length⟩) ++ blockLocals outer

def Scope.locals (σ : Scope) : List Local := blockLocals (σ.inner :: σ.outer)

theorem names_blockLocals (blocks : List (List String)) :
    (blockLocals blocks).map Local.name = blocks.flatten := by
  induction blocks with
  | nil => rfl
  | cons names outer ih =>
    rw [blockLocals, List.map_append, ih, List.map_map, List.flatten_cons]
    congr 1
    exact List.map_id _

@[simp] theorem length_blockLocals (blocks : List (List String)) :
    (blockLocals blocks).length = blocks.flatten.length := by
  rw [← names_blockLocals, List.length_map]

@[simp] theorem Scope.length_locals (σ : Scope) : σ.locals.length = σ.live := length_blockLocals _

theorem depth_lt_of_mem_blockLocals {blocks : List (List String)} {v : Local} (h : v ∈ blockLocals blocks) :
    ∃ d, v.depth = some d ∧ d < blocks.length := by
  induction blocks with
  | nil => cases h
  | cons names outer ih =>
    rcases List.mem_append.1 h with h | h
    · obtain ⟨x, -, rfl⟩ := List.mem_map.1 h
      exact ⟨_, rfl, Nat.lt_succ_self _⟩
    · obtain ⟨d, hd, hlt⟩ := ih h
      exact ⟨d, hd, Nat.lt_succ_of_lt hlt⟩

namespace Compiler

/-- What a compilation knows at a place in a tree. -/
structure Context where
  scope : Scope
  /-- The variable whose initializer the place is in. -/
  pending : Option String := none
  /-- The constants asked for so far in the function around the place. -/
  needs : Needs := 0
  /-- How many functions the store has. -/
  functions : Nat

namespace Context

def locals (c : Context) : List Local := (c.pending.map fun x => ⟨x, none⟩).toList ++ c.scope.locals

/-- After more constants have been asked for. -/
def add (c : Context) (n : Needs) : Context := { c with needs := c.needs + n }

@[simp] theorem scope_add (c : Context) (n : Needs) : (c.add n).scope = c.scope := rfl

@[simp] theorem pending_add (c : Context) (n : Needs) : (c.add n).pending = c.pending := rfl

@[simp] theorem needs_add (c : Context) (n : Needs) : (c.add n).needs = c.needs + n := rfl

@[simp] theorem functions_add (c : Context) (n : Needs) : (c.add n).functions = c.functions := rfl

@[simp] theorem locals_add (c : Context) (n : Needs) : (c.add n).locals = c.locals := rfl

@[simp] theorem add_zero (c : Context) : c.add 0 = c := by rw [add, Needs.add_zero]

theorem add_add (c : Context) (m n : Needs) : (c.add m).add n = c.add (m + n) := by
  simp only [add, Needs.add_assoc]

/-- There is room for more constants. -/
def Room (c : Context) (n : Needs) : Prop := (c.needs + n).count ≤ Bytecode.maxConstants

theorem room_add {c : Context} {m n : Needs} : c.Room m ∧ (c.add m).Room n ↔ c.Room (m + n) := by
  rw [Room, Room, Room, needs_add, Needs.add_assoc]
  refine ⟨And.right, fun h => ⟨?_, h⟩⟩
  rw [← Needs.add_assoc] at h
  exact Nat.le_trans (Needs.count_le_add _ _) h

end Context

/-- The constants of a function are those that have been asked for. -/
structure Pooled (n : Needs) (d : Draft) (s : Store) : Prop where
  size : d.bytecode.constants.size = n.count
  room : n.count ≤ Bytecode.maxConstants
  sound : ∀ v ∈ d.bytecode.constants, s.Sound v
  named : ∀ {a i}, d.names.lookup a = some i → d.bytecode.constants[i.toNat]? = some (.string a)
  known : ∀ {x}, x ∈ n.globals ↔ ∃ a i, s.text? a = some x ∧ d.names.lookup a = some i

theorem Pooled.of_store {n : Needs} {d : Draft} {s t : Store} (h : Pooled n d s) (hs : s.Extends t) :
    Pooled n d t := by
  refine ⟨h.size, h.room, fun v hv => (h.sound v hv).mono hs, h.named, fun {x} => ⟨fun hx => ?_, ?_⟩⟩
  · obtain ⟨a, i, ha, hi⟩ := h.known.1 hx
    exact ⟨a, i, hs.text ha, hi⟩
  · rintro ⟨a, i, ha, hi⟩
    have hv := h.sound _ (Array.mem_of_getElem? (h.named hi))
    obtain ⟨y, hy⟩ := Option.isSome_iff_exists.1 hv.isSome_text
    obtain rfl : y = x := Option.some.inj ((hs.text hy).symm.trans ha)
    exact h.known.2 ⟨a, i, hy, hi⟩

/-- The constants with the store that they refer to. -/
def State.pool (s : State) : Pool := ⟨s.draft.bytecode.constants, s.store⟩

/-- What is known at a place holds of a state without a mistake. -/
structure Describes (c : Context) (s : State) : Prop where
  ready : Ready s
  faultless : ∀ l ∈ s.upcoming, ∃ t, l = .token t
  defect : s.defect = none
  locals : s.draft.locals = c.locals
  depth : s.draft.depth = c.scope.outer.length
  isScript : s.draft.isScript = !c.scope.inFunction
  live : c.locals.length ≤ maxLocals
  pooled : Pooled c.needs s.draft s.store
  functions : s.store.functions.size = c.functions

/-- Between the states, code has been written in one function. -/
structure Wrote (is : List Instr) (s t : State) : Prop where
  code : t.draft.bytecode.code.toList = s.draft.bytecode.code.toList ++ codeBytes is
  fits : ∀ i ∈ is, i.Fits
  pool : s.pool.Extends t.pool
  name : t.draft.name = s.draft.name
  arity : t.draft.arity = s.draft.arity

theorem Wrote.of_draft {s t : State} (hd : t.draft = s.draft) (hs : s.store.Extends t.store) :
    Wrote [] s t := by
  refine ⟨by simp [hd], by simp, ⟨?_, hs⟩, by rw [hd], by rw [hd]⟩
  rw [State.pool, State.pool, hd]
  exact id

theorem Wrote.refl (s : State) : Wrote [] s s := .of_draft rfl (.refl _)

theorem Wrote.trans {is js : List Instr} {s t u : State} (h : Wrote is s t) (k : Wrote js t u) :
    Wrote (is ++ js) s u where
  code := by rw [k.code, h.code, codeBytes_append, List.append_assoc]
  fits i hi := (List.mem_append.1 hi).elim (h.fits i) (k.fits i)
  pool := h.pool.trans k.pool
  name := k.name.trans h.name
  arity := k.arity.trans h.arity

theorem Wrote.size {is : List Instr} {s t : State} (h : Wrote is s t) :
    t.draft.bytecode.size = s.draft.bytecode.size + codeLength is := by
  rw [Bytecode.size, Bytecode.size, ← Array.length_toList, h.code, List.length_append, length_codeBytes,
    Array.length_toList]

/-- Code has been written, and this is known behind it. -/
structure Emits (c : Context) (is : List Instr) (s t : State) : Prop where
  describes : Describes c t
  wrote : Wrote is s t

theorem Emits.trans {c d : Context} {is js : List Instr} {s t u : State} (h : Emits c is s t)
    (k : Emits d js t u) : Emits d (is ++ js) s u := ⟨k.describes, h.wrote.trans k.wrote⟩

/-- Code of a shape has been written, and this is known behind it. -/
def Yields (c : Context) (shape : Pool → List Instr → Prop) (s t : State) : Prop :=
  ∃ is, Emits c is s t ∧ shape t.pool is

theorem Yields.describes {c : Context} {shape : Pool → List Instr → Prop} {s t : State}
    (h : Yields c shape s t) : Describes c t := by
  obtain ⟨is, he, -⟩ := h
  exact he.describes

namespace Describes
variable {c : Context} {s : State}

theorem not_failed (h : Describes c s) : ¬Failed s := fun hf => hf h.ready.errors

theorem live_le (h : Describes c s) : c.scope.live ≤ maxLocals := by
  have hl := h.live
  rw [Context.locals, List.length_append, Scope.length_locals] at hl
  exact Nat.le_trans (Nat.le_add_left _ _) hl

theorem with_store (h : Describes c s) {store : Store} (hs : s.store.Extends store)
    (hf : store.functions.size = s.store.functions.size) : Describes c { s with store } :=
  ⟨⟨h.ready.1, h.ready.2⟩, h.faultless, h.defect, h.locals, h.depth, h.isScript, h.live,
    h.pooled.of_store hs, hf.trans h.functions⟩

/-- Code and lines are nothing that is known. -/
theorem with_code (h : Describes c s) (code : Array UInt8) (lines : LineTable) :
    Describes c { s with draft := { s.draft with
      bytecode := { s.draft.bytecode with code, lines } } } :=
  ⟨⟨h.ready.1, h.ready.2⟩, h.faultless, h.defect, h.locals, h.depth, h.isScript, h.live,
    ⟨h.pooled.size, h.pooled.room, h.pooled.sound, h.pooled.named, h.pooled.known⟩, h.functions⟩

end Describes

end Compiler
end StackScript
