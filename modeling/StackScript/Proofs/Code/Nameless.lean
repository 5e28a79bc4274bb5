import StackScript.Proofs.Code.Variables
import StackScript.Proofs.Syntax.Alpha

/-! Names of local variables leave no trace. Two programs whose names stand for the same are compiled in step: the states
on the way are the same but for the texts of tokens and the names of the local variables in scope. -/
namespace StackScript

/-! ### Without names -/

def Token.nameless (t : Token) : Token := { t with lexeme := "" }

def Lexeme.nameless : Lexeme → Lexeme
  | .token t => .token t.nameless
  | .fault error line => .fault error line

def CompileError.nameless (e : CompileError) : CompileError := { e with place := .unknown }

def Local.nameless (v : Local) : Local := { v with name := "" }

namespace Compiler
variable {α β : Type} {s t : State}

/-- A state without the texts of tokens and the names of local variables. -/
def State.nameless (s : State) : State :=
  { s with
    upcoming := s.upcoming.map Lexeme.nameless
    current := s.current.nameless
    previous := s.previous.nameless
    errors := s.errors.map CompileError.nameless
    draft := { s.draft with locals := s.draft.locals.map Local.nameless } }

theorem nameless_report (s : State) (line : Nat) (place : Place) (m : Mistake) :
    (s.report line place m).nameless = s.nameless.report line .unknown m := by
  unfold State.report
  cases hr : s.recovering <;> simp [State.nameless, hr, CompileError.nameless]

theorem nameless_fetch (ls : List Lexeme) (s : State) :
    (State.fetch ls s).nameless = State.fetch (ls.map Lexeme.nameless) s.nameless := by
  induction ls generalizing s with
  | nil => rfl
  | cons l ls ih =>
    cases l with
    | token t => rfl
    | fault e line =>
      rw [State.fetch, ih, nameless_report]
      rfl

theorem nameless_advance (s : State) : s.advance.nameless = s.nameless.advance := nameless_fetch ..

theorem failed_of_nameless (h : s.nameless = t.nameless) (hs : Failed s) : Failed t := by
  have herrors : s.errors.map CompileError.nameless = t.errors.map CompileError.nameless := congrArg State.errors h
  rintro ht
  rw [ht, Array.map_empty, Array.map_eq_empty_iff] at herrors
  exact hs herrors

/-! ### Actions that use no names -/

/-- The local variables at a place, and how many blocks it is in. -/
structure Slots where
  locals : List Local
  depth : Nat

def State.slots (s : State) : Slots := ⟨s.draft.locals, s.draft.depth⟩

/-- No names are used by the action, and no variables come or go. -/
structure Nameless (a : Action α) : Prop where
  blind : Blind State.nameless a
  slots : Keeps (fun s t => t.slots = s.slots) a

instance : Std.Refl fun s t : State => t.slots = s.slots := ⟨fun _ => rfl⟩

instance : IsTrans State fun s t => t.slots = s.slots := ⟨fun _ _ _ h k => k.trans h⟩

theorem slots_report (s : State) (line : Nat) (place : Place) (m : Mistake) :
    (s.report line place m).slots = s.slots := by
  unfold State.report
  split <;> rfl

theorem slots_fetch (ls : List Lexeme) (s : State) : (State.fetch ls s).slots = s.slots := by
  induction ls generalizing s with
  | nil => rfl
  | cons l ls ih =>
    cases l with
    | token t => rfl
    | fault e line => rw [State.fetch, ih, slots_report]

namespace Nameless

theorem pure (x : α) : Nameless (Pure.pure x : Action α) := ⟨.pure x, .pure x⟩

theorem bind {a : Action α} {f : α → Action β} (ha : Nameless a) (hf : ∀ x, Nameless (f x)) : Nameless (a >>= f) :=
  ⟨ha.blind.bind fun x => (hf x).blind, ha.slots.bind fun x => (hf x).slots⟩

theorem modify {f : State → State} (g : State → State) (h : ∀ s, (f s).nameless = g s.nameless)
    (hf : ∀ s, (f s).slots = s.slots) :
    Nameless (MonadState.modifyGet fun s => ((), f s) : Action Unit) := ⟨.modify g h, hf⟩

/-- What is looked up decides what is done, if it has no names in it. -/
theorem get {γ : Type} (q : State → γ) (hq : ∀ s, q s.nameless = q s) {f : State → Action α}
    (hf : ∀ {s t}, q s = q t → f s = f t) (h : ∀ s, Nameless (f s)) : Nameless (MonadState.get >>= f) where
  blind := .get (fun hst => hf (Blind.eq_of_seen State.nameless q hq hst)) fun s => (h s).blind
  slots s := (h s).slots s

theorem mistake (m : Mistake) : Nameless (mistake m) :=
  .modify (fun s => s.report s.previous.line .unknown m) (fun s => nameless_report s _ _ m)
    fun s => slots_report s _ _ m

theorem mistakeAhead (m : Mistake) : Nameless (mistakeAhead m) :=
  .modify (fun s => s.report s.current.line .unknown m) (fun s => nameless_report s _ _ m)
    fun s => slots_report s _ _ m

theorem advance : Nameless advance :=
  .modify State.advance nameless_advance fun s =>
    slots_fetch s.upcoming { s with previous := s.current, upcoming := [] }

theorem ensure (b : Bool) (defect : Defect) : Nameless (ensure b defect) := by
  unfold Compiler.ensure
  split
  · exact .pure _
  · exact .modify (fun s => { s with defect := s.defect <|> some defect }) (fun _ => rfl) fun _ => rfl

theorem poolConstant (v : Value) : Nameless (poolConstant v) := by
  refine .get (fun s => s.draft.bytecode) (fun _ => rfl) (fun h => by rw [h]) fun s => ?_
  split
  · exact .bind (.modify (fun s => { s with draft := { s.draft with bytecode := _ } }) (fun _ => rfl) fun _ => rfl)
      fun _ => .pure _
  · exact (mistake _).bind fun _ => .pure _

theorem symbolConstant (name : Symbol) : Nameless (symbolConstant name) := by
  refine .get (fun s => s.draft.names) (fun _ => rfl) (fun h => by rw [h]) fun s => ?_
  split
  · exact .pure _
  · refine .get (fun s => s.draft.bytecode) (fun _ => rfl) (fun h => by rw [h]) fun s => ?_
    split
    · exact .bind (.modify (fun s => { s with draft := { s.draft with bytecode := _, names := _ :: s.draft.names } })
        (fun _ => rfl) fun _ => rfl) fun _ => .pure _
    · exact (mistake _).bind fun _ => .pure _

theorem checkInFunction : Nameless checkInFunction := by
  refine .get (fun s => s.draft.isScript) (fun _ => rfl) (fun h => by rw [h]) fun s => ?_
  split
  · exact mistake _
  · exact .pure _

theorem listFunction : Nameless listFunction := by
  refine .get (fun s => (s.printCode, s.errors.isEmpty, s.store, s.draft.toFunction)) (fun s => ?_) (fun {s t} h => ?_)
    fun s => ?_
  · simp [State.nameless, Draft.toFunction, Array.isEmpty]
  · obtain ⟨hprint, hrest⟩ := Prod.mk.inj h
    obtain ⟨herrors, hrest⟩ := Prod.mk.inj hrest
    obtain ⟨hstore, hfunction⟩ := Prod.mk.inj hrest
    simp only [hprint, herrors, hstore, hfunction]
  · split
    · exact (ensure _ _).bind fun _ => .modify (fun t => { t with listing := t.listing ++ _ }) (fun _ => rfl)
        fun _ => rfl
    · exact .pure _

end Nameless

instance : ClosedBytes fun _ => Nameless where
  pure := .pure
  bind := .bind
  mistake := .mistake
  mistakeAhead := .mistakeAhead
  emitByte byte := .modify (fun s => s.emitByte byte) (fun _ => rfl) fun _ => rfl
  codeSize := .get (fun s => s.draft.bytecode.size) (fun _ => rfl) (fun h => by rw [h]) fun _ => .pure _
  patch offset distance := .modify (fun s => { s with draft := { s.draft with
    bytecode := s.draft.bytecode.patch offset distance } }) (fun _ => rfl) fun _ => rfl
  poolConstant := .poolConstant
  symbolConstant := .symbolConstant
  ensure := .ensure
  intern text := ⟨.of_seen (fun s => (intern text).run s) fun _ => rfl, fun _ => rfl⟩
  listFunction := .listFunction
  addFunction := ⟨.of_seen (fun s => addFunction.run s) fun _ => rfl, fun _ => rfl⟩

/-! ### In step -/

/-- States that are the same but for names, each with its own variables in scope. -/
structure Twins (p p' : Slots) (s t : State) : Prop where
  nameless : s.nameless = t.nameless
  ready : Ready s
  left : s.slots = p
  right : t.slots = p'

/-- Unless the first action makes a mistake, which stays in its place, both come to the same. -/
structure Tracks (T U : State → State → Prop) (a b : Action α) : Prop where
  keeps : Keeps Evolves a
  comes : ∀ s t, T s t → ¬Failed (a.run s).2 → (a.run s).1 = (b.run t).1 ∧ U (a.run s).2 (b.run t).2

namespace Tracks
variable {T U W : State → State → Prop} {p p' q q' : Slots}

theorem pure (x : α) : Tracks T T (Pure.pure x) (Pure.pure x) := ⟨.pure x, fun _ _ h _ => ⟨rfl, h⟩⟩

theorem bind {a b : Action α} {f g : α → Action β} (ha : Tracks T U a b) (hf : ∀ x, Tracks U W (f x) (g x)) :
    Tracks T W (a >>= f) (b >>= g) where
  keeps := ha.keeps.bind fun x => (hf x).keeps
  comes s t hst h := by
    obtain ⟨hresult, hstate⟩ := ha.comes s t hst ((hf _).keeps.not_failed h)
    rw [run_bind] at h
    rw [run_bind, run_bind, ← hresult]
    exact (hf _).comes _ _ hstate h

theorem seq {a b : Action α} {f g : Action β} (ha : Tracks T U a b) (hf : Tracks U W f g) :
    Tracks T W (a >>= fun _ => f) (b >>= fun _ => g) := ha.bind fun _ => hf

/-- Actions that run as others do, in the states where they are run. -/
theorem of_run {a a' b b' : Action α} [Enduring a] (h : Tracks T U a' b')
    (hrun : ∀ s t, T s t → a.run s = a'.run s ∧ b.run t = b'.run t) : Tracks T U a b where
  keeps := Enduring.keeps
  comes s t hst hf := by
    obtain ⟨ha, hb⟩ := hrun s t hst
    rw [ha] at hf ⊢
    rw [hb]
    exact h.comes s t hst hf

/-- Actions that are told by what is not a name. -/
theorem of_blind {a : Action α} [Enduring a] (h : Blind State.nameless a)
    (hleft : ∀ s, s.slots = p → (a.run s).2.slots = q)
    (hright : ∀ s, s.slots = p' → (a.run s).2.slots = q') : Tracks (Twins p p') (Twins q q') a a := by
  refine ⟨Enduring.keeps, fun s t hst hf => ?_⟩
  obtain ⟨hresult, hstate⟩ := h s t hst.nameless
  exact ⟨hresult, hstate, Enduring.keeps.ready hst.ready hf, hleft s hst.left, hright t hst.right⟩

theorem same {a : Action α} [Enduring a] (h : Nameless a) : Tracks (Twins p p') (Twins p p') a a :=
  .of_blind h.blind (fun s hs => (h.slots s).trans hs) fun s hs => (h.slots s).trans hs

end Tracks

section Same
variable {p p' : Slots}

theorem tracks_advance : Tracks (Twins p p') (Twins p p') advance advance := .same .advance

theorem tracks_emit (op : Opcode) : Tracks (Twins p p') (Twins p p') (emit op) (emit op) :=
  .same (closed_emit (fun _ => Nameless) op)

theorem tracks_emitWith (op : Opcode) (operand : UInt8) :
    Tracks (Twins p p') (Twins p p') (emitWith op operand) (emitWith op operand) :=
  .same (closed_emitWith (fun _ => Nameless) op operand)

theorem tracks_emitConstant (v : Value) : Tracks (Twins p p') (Twins p p') (emitConstant v) (emitConstant v) :=
  .same (closed_emitConstant (fun _ => Nameless) v)

theorem tracks_openJump (op : Opcode) : Tracks (Twins p p') (Twins p p') (openJump op) (openJump op) :=
  .same (closed_openJump (fun _ => Nameless) op)

theorem tracks_closeJump (offset : Nat) : Tracks (Twins p p') (Twins p p') (closeJump offset) (closeJump offset) :=
  .same (closed_closeJump (fun _ => Nameless) offset)

theorem tracks_finishFunction : Tracks (Twins p p') (Twins p p') finishFunction finishFunction :=
  .same (closed_finishFunction fun _ => Nameless)

theorem nameless_literal (l : Literal) : Nameless l.write := by
  have hconstant (v : Value) : Nameless (emitConstant v) := closed_emitConstant (fun _ => Nameless) v
  cases l with
  | number text =>
    rw [Literal.write]
    split
    · exact hconstant _
    · exact .mistake _
  | string text =>
    exact (Nameless.ensure _ _).bind fun _ => .bind (ClosedBytes.intern (K := fun _ => Nameless) _) fun _ => hconstant _
  | char text => exact (Nameless.ensure _ _).bind fun _ => hconstant _
  | newLine => exact hconstant _
  | tab => exact hconstant _
  | true_ => exact closed_emit (fun _ => Nameless) _
  | false_ => exact closed_emit (fun _ => Nameless) _

theorem tracks_readComma {xs xs' : List α} (h : xs.length = xs'.length) :
    Tracks (Twins p p') (Twins p p') (readComma xs) (readComma xs') := by
  cases xs <;> cases xs'
  · exact .pure _
  · cases h
  · cases h
  · exact tracks_advance

end Same

/-! ### Looking up -/

theorem getElem?_findLocal? {x : String} {vs : List Local} {i : Nat} {v : Local}
    (h : Draft.findLocal? x vs = some (i, v)) :
    vs.reverse[i]? = some v := by
  induction vs with
  | nil => cases h
  | cons w older ih =>
    rw [Draft.findLocal?] at h
    rw [List.reverse_cons]
    split at h
    · obtain ⟨rfl, rfl⟩ := Prod.mk.inj (Option.some.inj h)
      simp
    · have hi := ih h
      rwa [List.getElem?_append_left (List.getElem?_eq_some_iff.1 hi).1]

/-- Variables in the same slot have the same depth. -/
theorem depth_findLocal? {x x' : String} {vs vs' : List Local} {i : Nat} {v v' : Local}
    (hdepths : vs.map Local.nameless = vs'.map Local.nameless) (h : Draft.findLocal? x vs = some (i, v))
    (h' : Draft.findLocal? x' vs' = some (i, v')) : v.depth = v'.depth := by
  have hv := congrArg (Option.map Local.nameless) (getElem?_findLocal? h)
  have hv' := congrArg (Option.map Local.nameless) (getElem?_findLocal? h')
  rw [← List.getElem?_map, List.map_reverse] at hv hv'
  rw [hdepths, hv'] at hv
  exact (congrArg Local.depth (Option.some.inj hv)).symm

def Slots.names (p : Slots) : List String := p.locals.map Local.name

section Variables
variable {p p' : Slots} {x x' : String} {σ σ' : Scope}

theorem Twins.locals_left (h : Twins p p' s t) : s.draft.locals = p.locals := congrArg Slots.locals h.left

theorem Twins.locals_right (h : Twins p p' s t) : t.draft.locals = p'.locals := congrArg Slots.locals h.right

theorem Twins.locals (h : Twins p p' s t) : p.locals.map Local.nameless = p'.locals.map Local.nameless := by
  rw [← h.locals_left, ← h.locals_right]
  exact congrArg (fun u : State => u.draft.locals) h.nameless

theorem tracks_accessTo_global (hx : Draft.findLocal? x p.locals = none) (hx' : Draft.findLocal? x p'.locals = none) :
    Tracks (Twins p p') (Twins p p') (accessTo x) (accessTo x) := by
  have hconstant := (closed_nameConstant (fun _ => Nameless) x).bind fun i =>
    .pure (⟨.getGlobal, .setGlobal, i⟩ : Access)
  exact .of_run (.same hconstant) fun s t hst =>
    ⟨run_accessTo_global (hst.locals_left ▸ hx), run_accessTo_global (hst.locals_right ▸ hx')⟩

theorem tracks_accessTo_local {i : Nat} {v v' : Local} (hx : Draft.findLocal? x p.locals = some (i, v))
    (hx' : Draft.findLocal? x' p'.locals = some (i, v')) :
    Tracks (Twins p p') (Twins p p') (accessTo x) (accessTo x') := by
  have hcheck := (closed_checkInitialized (fun _ => Nameless) v).bind fun _ =>
    .pure (⟨.getLocal, .setLocal, i.toUInt8⟩ : Access)
  refine .of_run (.same hcheck) fun s t hst => ⟨run_accessTo_local (hst.locals_left ▸ hx), ?_⟩
  have hsame : checkInitialized v' = checkInitialized v := by
    rw [checkInitialized, checkInitialized, depth_findLocal? hst.locals hx hx']
  rw [run_accessTo_local (hst.locals_right ▸ hx'), hsame]

/-- Names that stand for the same are accessed in the same way. -/
theorem tracks_accessTo (h : SameHome p.names p'.names x x') :
    Tracks (Twins p p') (Twins p p') (accessTo x) (accessTo x') := by
  have hslot := h.slot
  rw [Slots.names, Slots.names, ← map_findLocal?, ← map_findLocal?] at hslot
  cases hx : Draft.findLocal? x p.locals with
  | none =>
    rw [hx] at hslot
    obtain rfl : x' = x := h.global (by rw [Slots.names, ← map_findLocal?, hx]; rfl)
    exact tracks_accessTo_global hx (Option.map_eq_none_iff.1 hslot.symm)
  | some found =>
    rw [hx] at hslot
    obtain ⟨⟨i, v'⟩, hx', hi⟩ := Option.map_eq_some_iff.1 hslot.symm
    obtain rfl : i = found.1 := hi
    exact tracks_accessTo_local hx hx'

/-! ### Declaring -/

namespace Slots

/-- The variables of a scope. -/
def of (σ : Scope) : Slots := ⟨σ.locals, σ.outer.length⟩

/-- The variables of a scope with one that is being declared. -/
def pending (σ : Scope) (x : String) : Slots :=
  if σ.isLocal then ⟨⟨x, none⟩ :: σ.locals, σ.outer.length⟩ else of σ

@[simp] theorem names_of (σ : Scope) : (of σ).names = σ.names := names_blockLocals _

@[simp] theorem names_pending (σ : Scope) (x : String) : (pending σ x).names = (σ.declare x).names := by
  unfold pending
  split
  · rw [Scope.names_declare ‹_›, ← names_of]
    rfl
  · rw [Scope.declare_of_global (Bool.eq_false_iff.2 ‹_›), names_of]

theorem of_declare (hσ : σ.isLocal = true) (x : String) :
    of (σ.declare x) = ⟨⟨x, some σ.outer.length⟩ :: σ.locals, σ.outer.length⟩ := by
  rw [of, Scope.locals_declare hσ, Scope.outer_declare]

end Slots

open Slots

theorem depth_pos_of (h : s.slots = .of σ) : 0 < s.draft.depth ↔ σ.isLocal = true := by
  rw [show s.draft.depth = σ.outer.length from congrArg Slots.depth h, Scope.isLocal_iff]

theorem depth_pos_pending (h : s.slots = .pending σ x) : 0 < s.draft.depth ↔ σ.isLocal = true := by
  have hdepth : s.draft.depth = σ.outer.length := by
    refine (congrArg Slots.depth h).trans ?_
    unfold pending
    split <;> rfl
  rw [hdepth, Scope.isLocal_iff]

theorem depth_eq (h : s.nameless = t.nameless) : t.draft.depth = s.draft.depth :=
  (congrArg (fun u : State => u.draft.depth) h).symm

/-- Where the variables are local they are in both programs. -/
theorem Twins.isLocal (h : Twins (.of σ) (.of σ') s t) : σ'.isLocal = σ.isLocal := by
  rw [Bool.eq_iff_iff, ← depth_pos_of h.left, ← depth_pos_of h.right, depth_eq h.nameless]

theorem run_checkNew_of (h : s.slots = .of σ) (x : String) : (checkNew x).run s =
    if x ∈ σ.inner then (mistake .variableRedeclaration).run s else ((), s) := by
  have hd : s.draft.declares x = decide (x ∈ σ.inner) :=
    Draft.declares_eq (congrArg Slots.locals h) (congrArg Slots.depth h) x
  rw [run_checkNew, hd]
  simp only [decide_eq_true_eq]

/-- If the one name is new then so is the other. -/
theorem tracks_checkNew (h : SameDeclared σ σ' x x') :
    Tracks (Twins (.of σ) (.of σ')) (Twins (.of σ) (.of σ')) (checkNew x) (checkNew x') := by
  refine ⟨keeps_checkNew x, fun s t hst hf => ?_⟩
  rw [run_checkNew_of hst.left] at hf ⊢
  rw [run_checkNew_of hst.right]
  have hx : x ∉ σ.inner := by
    intro hx
    rw [if_pos hx] at hf
    exact hf (failed_mistake (.inl hst.ready) _)
  rw [if_neg hx, if_neg (mt h.fresh hx)]
  exact ⟨rfl, hst⟩

theorem tracks_addLocal (hσ : σ.isLocal = true) (x x' : String) :
    Tracks (Twins (.of σ) (.of σ')) (Twins (.pending σ x) (.pending σ' x')) (addLocal x) (addLocal x') := by
  refine ⟨keeps_addLocal x, fun s t hst hf => ?_⟩
  have hlength : t.draft.locals.length = s.draft.locals.length := by
    simpa [State.nameless] using (congrArg (fun u : State => u.draft.locals.length) hst.nameless).symm
  rw [run_addLocal] at hf ⊢
  rw [run_addLocal, hlength]
  have hroom : s.draft.locals.length ≠ maxLocals := by
    intro hroom
    rw [if_pos hroom] at hf
    exact hf (failed_mistake (.inl hst.ready) _)
  rw [if_neg hroom, if_neg hroom, pending, pending, if_pos hσ, if_pos (hst.isLocal.trans hσ)]
  refine ⟨rfl, ?_, ⟨hst.ready.1, hst.ready.2⟩, ?_, ?_⟩
  · exact congrArg (fun u : State => { u with draft := { u.draft with locals := ⟨"", none⟩ :: u.draft.locals } })
      hst.nameless
  · exact congrArg (fun p : Slots => { p with locals := ⟨x, none⟩ :: p.locals }) hst.left
  · exact congrArg (fun p : Slots => { p with locals := ⟨x', none⟩ :: p.locals }) hst.right

theorem tracks_declareLocal (h : SameDeclared σ σ' x x') :
    Tracks (Twins (.of σ) (.of σ')) (Twins (.pending σ x) (.pending σ' x')) (declareLocal x) (declareLocal x') := by
  cases hσ : σ.isLocal with
  | true =>
    refine .of_run ((tracks_checkNew h).seq (tracks_addLocal hσ x x')) fun s t hst => ⟨?_, ?_⟩
    · exact run_declareLocal_local ((depth_pos_of hst.left).2 hσ)
    · exact run_declareLocal_local ((depth_pos_of hst.right).2 (hst.isLocal.trans hσ))
  | false =>
    refine ⟨keeps_declareLocal x, fun s t hst hf => ?_⟩
    have hs : ¬0 < s.draft.depth := by simp [depth_pos_of hst.left, hσ]
    have ht : ¬0 < t.draft.depth := by simp [depth_pos_of hst.right, hst.isLocal, hσ]
    rw [run_declareLocal_global hs, run_declareLocal_global ht, pending, pending, hst.isLocal, hσ,
      if_neg Bool.false_ne_true, if_neg Bool.false_ne_true]
    exact ⟨rfl, hst⟩

theorem tracks_writeNewName (h : SameDeclared σ σ' x x') :
    Tracks (Twins (.of σ) (.of σ')) (Twins (.pending σ x) (.pending σ' x')) (Decl.writeNewName x)
      (Decl.writeNewName x') := by
  refine tracks_advance.seq <| (tracks_declareLocal h).seq ⟨Enduring.keeps, fun s t hst hf => ?_⟩
  rw [run_bind, run_get] at hf ⊢
  rw [run_bind, run_get, depth_eq hst.nameless]
  cases hσ : σ.isLocal with
  | true =>
    rw [if_pos ((depth_pos_pending hst.left).2 hσ)] at hf ⊢
    rw [if_pos ((depth_pos_pending hst.left).2 hσ)]
    exact ⟨rfl, hst⟩
  | false =>
    obtain rfl : x' = x := h.global hσ
    have hdepth : ¬0 < s.draft.depth := by simp [depth_pos_pending hst.left, hσ]
    rw [if_neg hdepth] at hf ⊢
    exact (Tracks.same (closed_nameConstant (fun _ => Nameless) x')).comes s t hst hf

/-- Variables may come and go whatever their names are. -/
theorem blind_rescope (depth : Nat → Nat) (locals : Nat → List Local → List Local)
    (h : ∀ d vs, (locals d vs).map Local.nameless = locals d (vs.map Local.nameless)) :
    Blind State.nameless (modify fun s => { s with draft := { s.draft with
      depth := depth s.draft.depth, locals := locals s.draft.depth s.draft.locals } } : Action Unit) :=
  .modify (fun s => { s with draft := { s.draft with
      depth := depth s.draft.depth, locals := locals s.draft.depth s.draft.locals } }) fun s =>
    congrArg (fun vs => { s.nameless with draft := { s.nameless.draft with
      depth := depth s.draft.depth, locals := vs } })
      (h s.draft.depth s.draft.locals)

theorem blind_bringInScope : Blind State.nameless bringInScope := by
  rw [bringInScope_eq]
  refine blind_rescope (fun depth => depth) broughtInScope fun depth vs => ?_
  cases vs with
  | nil => rfl
  | cons v older =>
    rw [List.map_cons, broughtInScope, broughtInScope]
    split <;> rfl

theorem slots_bringInScope (s : State) : (bringInScope.run s).2.slots =
    ⟨broughtInScope s.slots.depth s.slots.locals, s.slots.depth⟩ := by
  rw [bringInScope_eq]
  rfl

theorem broughtInScope_of (hσ : σ.isLocal = false) : broughtInScope σ.outer.length σ.locals = σ.locals := by
  have hdepth : ¬0 < σ.outer.length := by simp [← Scope.isLocal_iff, hσ]
  cases σ.locals with
  | nil => rfl
  | cons v older => rw [broughtInScope, if_neg hdepth]

theorem bringInScope_pending (h : s.slots = .pending σ x) :
    (bringInScope.run s).2.slots = .of (σ.declare x) := by
  rw [slots_bringInScope, h]
  cases hσ : σ.isLocal with
  | true =>
    rw [pending, if_pos hσ, of_declare hσ, broughtInScope, if_pos (Scope.isLocal_iff.1 hσ)]
  | false =>
    rw [pending, hσ, if_neg Bool.false_ne_true, Scope.declare_of_global hσ, of, broughtInScope_of hσ]

/-- A variable that is in scope already stays there. -/
theorem bringInScope_declare (h : s.slots = .of (σ.declare x)) :
    (bringInScope.run s).2.slots = .of (σ.declare x) := by
  rw [slots_bringInScope, h]
  cases hσ : σ.isLocal with
  | true => rw [of_declare hσ, broughtInScope, if_pos (Scope.isLocal_iff.1 hσ)]
  | false => rw [Scope.declare_of_global hσ, of, broughtInScope_of hσ]

theorem tracks_bringInScope : Tracks (Twins (.pending σ x) (.pending σ' x'))
    (Twins (.of (σ.declare x)) (.of (σ'.declare x'))) bringInScope bringInScope :=
  .of_blind blind_bringInScope (fun _ => bringInScope_pending) fun _ => bringInScope_pending

theorem tracks_settleVariable {p p' q q' : Slots} (h : Tracks (Twins p p') (Twins q q') bringInScope bringInScope)
    (hleft : p.depth = 0 → q = p) (hright : p'.depth = 0 → q' = p') (global : UInt8) :
    Tracks (Twins p p') (Twins q q') (settleVariable global) (settleVariable global) := by
  refine ⟨keeps_settleVariable global, fun s t hst hf => ?_⟩
  have hs : s.draft.depth = p.depth := congrArg Slots.depth hst.left
  have ht : t.draft.depth = p'.depth := congrArg Slots.depth hst.right
  have hdepth := depth_eq hst.nameless
  by_cases hpos : 0 < s.draft.depth
  · rw [run_settleVariable_local hpos] at hf ⊢
    rw [run_settleVariable_local (hdepth ▸ hpos)]
    exact h.comes s t hst hf
  · rw [run_settleVariable_global hpos] at hf ⊢
    rw [run_settleVariable_global (hdepth ▸ hpos), hleft (by omega), hright (by omega)]
    exact (tracks_emitWith _ _).comes s t hst hf

theorem tracks_settleVariable_pending (global : UInt8) : Tracks (Twins (.pending σ x) (.pending σ' x'))
    (Twins (.of (σ.declare x)) (.of (σ'.declare x'))) (settleVariable global) (settleVariable global) := by
  have hglobal {τ : Scope} {z : String} (h : (pending τ z).depth = 0) : Slots.of (τ.declare z) = pending τ z := by
    have hτ : τ.isLocal = false := by
      cases hτ : τ.isLocal with
      | false => rfl
      | true =>
        rw [pending, if_pos hτ] at h
        exact absurd (Scope.isLocal_iff.1 hτ) (Nat.not_lt.2 (Nat.le_of_eq h))
    rw [pending, hτ, if_neg Bool.false_ne_true, Scope.declare_of_global hτ]
  exact tracks_settleVariable tracks_bringInScope hglobal hglobal global

theorem tracks_settleVariable_declare (global : UInt8) : Tracks (Twins (.of (σ.declare x)) (.of (σ'.declare x')))
    (Twins (.of (σ.declare x)) (.of (σ'.declare x'))) (settleVariable global) (settleVariable global) :=
  tracks_settleVariable (.of_blind blind_bringInScope (fun _ => bringInScope_declare) fun _ => bringInScope_declare)
    (fun _ => rfl) (fun _ => rfl) global

/-! ### Blocks -/

theorem tracks_enterScope :
    Tracks (Twins (.of σ) (.of σ')) (Twins (.of σ.enter) (.of σ'.enter)) enterScope enterScope := by
  have henter {τ : Scope} (u : State) (hu : u.slots = .of τ) : (enterScope.run u).2.slots = .of τ.enter :=
    congrArg (fun p : Slots => { p with depth := p.depth + 1 }) hu
  exact .of_blind (blind_rescope (· + 1) (fun _ vs => vs) fun _ _ => rfl) henter henter

theorem leaving_nameless (depth : Nat) (vs : List Local) :
    Draft.leaving depth (vs.map Local.nameless) = Draft.leaving depth vs := by
  rw [Draft.leaving, Draft.leaving, List.takeWhile_map, List.length_map]
  rfl

theorem blind_leaveScope : Blind State.nameless leaveScope := by
  refine .get (fun {s t} hst => ?_) fun s => ?_
  · have hlocals : s.draft.locals.map Local.nameless = t.draft.locals.map Local.nameless :=
      congrArg (fun u : State => u.draft.locals) hst
    have hleaving (depth : Nat) : Draft.leaving depth t.draft.locals = Draft.leaving depth s.draft.locals := by
      rw [← leaving_nameless, ← leaving_nameless depth s.draft.locals, hlocals]
    simp only [depth_eq hst, hleaving]
  · refine (Nameless.ensure _ _).blind.bind fun _ => .bind ?_ fun _ => (closed_emitPops (fun _ => Nameless) _).blind
    exact blind_rescope (· - 1) (fun _ vs => vs.drop _) fun _ _ => List.map_drop

theorem slots_leaveScope (s : State) : (leaveScope.run s).2.slots =
    ⟨s.slots.locals.drop (Draft.leaving (s.slots.depth - 1) s.slots.locals),
      s.slots.depth - 1⟩ := by
  have hensure := (Nameless.ensure (decide (0 < s.draft.depth)) .scopeOpen).slots s
  have hpops := (closed_emitPops (fun _ => Nameless) (Draft.leaving (s.draft.depth - 1) s.draft.locals)).slots
  rw [leaveScope, run_bind, run_get, run_bind, run_bind, hpops, run_modify]
  exact congrArg (fun p : Slots => (⟨p.locals.drop (Draft.leaving (s.draft.depth - 1) s.draft.locals),
    p.depth - 1⟩ : Slots)) hensure

theorem leaveScope_of {names : List String} (h : s.slots = .of { σ.enter with inner := names }) :
    (leaveScope.run s).2.slots = .of σ := by
  have hlocals : Scope.locals { σ.enter with inner := names } = names.map (⟨·, some (σ.outer.length + 1)⟩) ++
    σ.locals := rfl
  have hdepth : (Slots.of { σ.enter with inner := names }).depth - 1 = σ.outer.length := rfl
  have hdrop := σ.leaving_locals names
  rw [slots_leaveScope, h, hdepth, of, hdrop, hlocals, List.drop_left' (List.length_map _)]
  rfl

/-- Behind a block the variables of the block are gone. -/
theorem tracks_leaveScope (ds ds' : List Decl) :
    Tracks (Twins (.of (σ.enter.afterAll ds)) (.of (σ'.enter.afterAll ds')))
    (Twins (.of σ) (.of σ')) leaveScope leaveScope := by
  rw [Scope.afterAll_enter, Scope.afterAll_enter]
  exact .of_blind blind_leaveScope (fun _ => leaveScope_of) fun _ => leaveScope_of

theorem tracks_writeBlock {ds ds' : List Decl} {body body' : Action Unit}
    (h : Tracks (Twins (.of σ.enter) (.of σ'.enter))
      (Twins (.of (σ.enter.afterAll ds)) (.of (σ'.enter.afterAll ds'))) body body') :
    Tracks (Twins (.of σ) (.of σ')) (Twins (.of σ) (.of σ')) (Decl.writeBlock body) (Decl.writeBlock body') :=
  tracks_enterScope.seq <| h.seq <| tracks_advance.seq (tracks_leaveScope ds ds')

end Variables

/-! ### Expressions -/

mutual

theorem tracks_write_expr {p p' : Slots} {e' : Expr} (e : Expr) (h : e.Alpha p.names p'.names e') :
    Tracks (Twins p p') (Twins p p') e.write e'.write := by
  cases h with
  | literal l => exact tracks_advance.seq (.same (nameless_literal l))
  | name hx => exact tracks_advance.seq <| (tracks_accessTo hx).bind fun _ => tracks_emitWith _ _
  | group h => exact tracks_advance.seq <| (tracks_write_expr _ h).seq tracks_advance
  | assign hx h =>
    exact tracks_advance.seq <| (tracks_accessTo hx).bind fun _ => tracks_advance.seq <|
      (tracks_write_expr _ h).seq (tracks_emitWith _ _)
  | unary op h => exact tracks_advance.seq <| (tracks_write_expr _ h).seq (tracks_emit _)
  | binary op hl hr =>
    exact (tracks_write_expr _ hl).seq <| tracks_advance.seq <| (tracks_write_expr _ hr).seq (tracks_emit _)
  | and hl hr =>
    exact (tracks_write_expr _ hl).seq <| tracks_advance.seq <| (tracks_openJump _).bind fun _ => (tracks_emit _).seq <|
      (tracks_write_expr _ hr).seq (tracks_closeJump _)
  | or hl hr =>
    exact (tracks_write_expr _ hl).seq <| tracks_advance.seq <| (tracks_openJump _).bind fun _ => (tracks_emit _).seq <|
      (tracks_write_expr _ hr).seq (tracks_closeJump _)
  | call hc ha =>
    exact (tracks_write_expr _ hc).seq <| tracks_advance.seq <| (tracks_writeArguments 0 _ ha).bind fun _ =>
      tracks_advance.seq (tracks_emitWith _ _)

theorem tracks_writeArguments {p p' : Slots} {es' : List Expr} (count : Nat) (es : List Expr)
    (h : Expr.AllAlpha p.names p'.names es es') :
    Tracks (Twins p p') (Twins p p') (Expr.writeArguments count es) (Expr.writeArguments count es') := by
  cases h with
  | nil => exact .pure _
  | cons h hs =>
    exact (tracks_write_expr _ h).seq <| (Tracks.same (closed_countArgument (fun _ => Nameless) count)).bind
      fun count =>
      (tracks_readComma hs.length_eq).seq (tracks_writeArguments count _ hs)

end

theorem tracks_writeItems {p p' : Slots} {es es' : List Expr} (h : Expr.AllAlpha p.names p'.names es es') :
    Tracks (Twins p p') (Twins p p') (Expr.writeItems es) (Expr.writeItems es') := by
  induction h with
  | nil => exact .pure _
  | cons h hs ih => exact tracks_advance.seq <| (tracks_write_expr _ h).seq <| (tracks_emit _).seq ih

/-! ### Functions -/

section Functions
variable {p p' : Slots} {σ σ' : Scope} {x x' : String} {xs xs' : List String}

theorem tracks_writeParameters (count : Nat) (h : ParametersAlpha σ σ' xs xs') :
    Tracks (Twins (.of σ) (.of σ')) (Twins (.of (xs.foldl Scope.declare σ)) (.of (xs'.foldl Scope.declare σ')))
      (Decl.writeParameters count xs) (Decl.writeParameters count xs') := by
  induction h generalizing count with
  | nil => exact .pure _
  | cons hx h ih =>
    refine .seq ?_ ((tracks_readComma h.length_eq).seq (ih _))
    exact (Tracks.same (closed_checkParameterCount (fun _ => Nameless) count)).seq <| (tracks_writeNewName hx).bind
      fun _ =>
      tracks_settleVariable_pending _

/-- A function after its name, in a place of its own. -/
def writeInside (xs : List String) (body : Action Unit) : Action FunctionRef := do
  enterScope
  advance
  let count ← Decl.writeParameters 0 xs
  setArity count
  advance
  advance
  body
  advance
  finishFunction

theorem writeFunction_eq (x : String) (xs : List String) (body : Action Unit) : Decl.writeFunction x xs body =
    intern x >>= fun name => beginFunction name >>= fun outer => writeInside xs body >>= fun function =>
      (modify fun s => { s with draft := outer }) >>= fun _ => emitConstant (.function function) := by
  simp only [Decl.writeFunction, Decl.writeHead, writeInside, bind_assoc, pure_bind]

theorem tracks_writeInside {body body' : Action Unit}
    (hxs : ParametersAlpha (.function []) (.function []) xs xs')
    (h : Tracks (Twins (.of (.function xs)) (.of (.function xs'))) (Twins p p') body body') :
    Tracks (Twins (.of .script) (.of .script)) (Twins p p') (writeInside xs body) (writeInside xs' body') := by
  have hparameters := tracks_writeParameters 0 hxs
  rw [Scope.foldl_declare_function, Scope.foldl_declare_function] at hparameters
  have harity (count : Nat) : Nameless (setArity count) :=
    .modify (fun s => { s with draft := { s.draft with arity := (min count 255).toUInt8 } }) (fun _ => rfl) fun _ => rfl
  exact tracks_enterScope.seq <| tracks_advance.seq <| hparameters.bind fun count => (Tracks.same (harity count)).seq <|
    tracks_advance.seq <| tracks_advance.seq <| h.seq <| tracks_advance.seq tracks_finishFunction

/-- Behind a function the one around it is taken up again. -/
theorem tracks_function (name : Symbol) {inside inside' : Action FunctionRef} {q q' : Slots}
    (h : Tracks (Twins (.of .script) (.of .script)) (Twins q q') inside inside') :
    Tracks (Twins p p') (Twins p p')
      (beginFunction name >>= fun outer => inside >>= fun function =>
        (modify fun s => { s with draft := outer }) >>= fun _ => emitConstant (.function function))
      (beginFunction name >>= fun outer => inside' >>= fun function =>
        (modify fun s => { s with draft := outer }) >>= fun _ => emitConstant (.function function)) := by
  have hkeeps : Keeps Evolves (beginFunction name >>= fun outer => inside >>= fun function =>
      (modify fun s => { s with draft := outer }) >>= fun _ => emitConstant (.function function)) :=
    (keeps_beginFunction name).bind fun outer => h.keeps.bind fun function =>
      (keeps_modify_draft fun _ => outer).bind fun _ => keeps_emitConstant _
  refine ⟨hkeeps, fun s t hst hf => ?_⟩
  have hrun (inside : Action FunctionRef) (u : State) : (beginFunction name >>= fun outer => inside >>= fun function =>
      (modify fun s => { s with draft := outer }) >>= fun _ => emitConstant (.function function)).run u =
    (emitConstant (.function (inside.run { u with draft := { name := some name } }).1)).run
      { (inside.run { u with draft := { name := some name } }).2 with draft := u.draft } := rfl
  rw [hrun] at hf ⊢
  rw [hrun]
  have hbegin : Twins (.of .script) (.of .script) { s with draft := { name := some name } }
      { t with draft := { name := some name } } :=
    ⟨congrArg (fun u : State => { u with draft := { name := some name, locals := [⟨"", some 0⟩] } }) hst.nameless,
      ⟨hst.ready.1, hst.ready.2⟩, rfl, rfl⟩
  obtain ⟨hfunction, hinside⟩ := h.comes _ _ hbegin fun hfailed =>
    (keeps_emitConstant (r := Evolves) _).not_failed hf hfailed
  rw [← hfunction]
  refine (tracks_emitConstant _).comes _ _ ⟨?_, ⟨hinside.ready.1, hinside.ready.2⟩, hst.left, hst.right⟩ hf
  have hdraft : s.nameless.draft = t.nameless.draft := congrArg State.draft hst.nameless
  exact congrArg₂ (fun (d : Draft) (u : State) => { u with draft := d }) hdraft hinside.nameless

end Functions

/-! ### Declarations -/

mutual

theorem tracks_write {σ σ' : Scope} {d' : Decl} (d : Decl) (h : d.Alpha σ σ' d') :
    Tracks (Twins (.of σ) (.of σ')) (Twins (.of (σ.after d)) (.of (σ'.after d'))) d.write d'.write := by
  have hexpr {e e' : Expr} (h : e.Alpha σ.names σ'.names e') :
      Tracks (Twins (.of σ) (.of σ')) (Twins (.of σ) (.of σ')) e.write e'.write :=
    tracks_write_expr e (by simpa using h)
  cases h with
  | expression h => exact (hexpr h).seq (tracks_emit _)
  | print h hs =>
    exact tracks_advance.seq <| (hexpr h).seq <| (tracks_emit _).seq <|
      (tracks_writeItems (by simpa using hs)).seq tracks_advance
  | read form hx =>
    exact tracks_advance.seq <| tracks_advance.seq <| (tracks_emit _).seq <| tracks_advance.seq <|
      (tracks_accessTo (by simpa using hx)).bind fun _ =>
        (tracks_emitWith _ _).seq <| (tracks_emit _).seq tracks_advance
  | if_ h hs =>
    exact tracks_advance.seq <| (hexpr h).seq <| (tracks_openJump _).bind fun _ => (tracks_emit _).seq <|
      tracks_advance.seq <| (tracks_writeBlock (tracks_writeList _ hs)).seq <| (tracks_openJump _).bind fun _ =>
        (tracks_closeJump _).seq <| (tracks_emit _).seq (tracks_closeJump _)
  | ifElse h hds hes =>
    exact tracks_advance.seq <| (hexpr h).seq <| (tracks_openJump _).bind fun _ => (tracks_emit _).seq <|
      tracks_advance.seq <| (tracks_writeBlock (tracks_writeList _ hds)).seq <| (tracks_openJump _).bind fun _ =>
        (tracks_closeJump _).seq <| (tracks_emit _).seq <| tracks_advance.seq <| tracks_advance.seq <|
          (tracks_writeBlock (tracks_writeList _ hes)).seq (tracks_closeJump _)
  | until_ h hs =>
    exact tracks_advance.seq <| (Tracks.same (ClosedBytes.codeSize (K := fun _ => Nameless))).bind fun _ =>
      (hexpr h).seq <| (tracks_openJump _).bind fun _ => (tracks_emit _).seq <| tracks_advance.seq <|
        (tracks_writeBlock (tracks_writeList _ hs)).seq <|
          (Tracks.same (closed_emitBackJump (fun _ => Nameless) _)).seq <| (tracks_closeJump _).seq (tracks_emit _)
  | outNothing =>
    exact tracks_advance.seq <| (Tracks.same .checkInFunction).seq <| tracks_advance.seq <|
      Tracks.same (closed_emitReturn fun _ => Nameless)
  | out h =>
    exact tracks_advance.seq <| (Tracks.same .checkInFunction).seq <| (hexpr h).seq <| tracks_advance.seq
      (tracks_emit _)
  | block mark hs => exact tracks_advance.seq (tracks_writeBlock (tracks_writeList _ hs))
  | varNothing hx =>
    exact tracks_advance.seq <| (tracks_writeNewName hx).bind fun _ =>
      (tracks_emit _).seq (tracks_settleVariable_pending _)
  | var hx h =>
    exact tracks_advance.seq <| (tracks_writeNewName hx).bind fun _ => tracks_advance.seq <|
      (tracks_write_expr _ (by simpa using h)).seq (tracks_settleVariable_pending _)
  | @fun_ _ _ x xs xs' ds ds' hx hxs hs =>
    have hfunction := tracks_writeInside hxs (tracks_writeList _ hs)
    refine tracks_advance.seq <| (tracks_writeNewName hx).bind fun _ => tracks_bringInScope.seq <| .seq ?_
      (tracks_settleVariable_declare _)
    rw [writeFunction_eq, writeFunction_eq]
    exact (Tracks.same (ClosedBytes.intern (K := fun _ => Nameless) x)).bind fun name => tracks_function name hfunction

theorem tracks_writeList {σ σ' : Scope} {ds' : List Decl} (ds : List Decl) (h : Decl.ListAlpha σ σ' ds ds') :
    Tracks (Twins (.of σ) (.of σ')) (Twins (.of (σ.afterAll ds)) (.of (σ'.afterAll ds')))
      (Decl.writeList ds) (Decl.writeList ds') := by
  cases h with
  | nil => exact .pure _
  | cons h hs => exact (tracks_write _ h).seq (tracks_writeList _ hs)

end

/-- Programs whose names stand for the same are compiled in step. -/
theorem tracks_writeProgram {ds ds' : List Decl} (h : Decl.ListAlpha .script .script ds ds') :
    Tracks (Twins (.of .script) (.of .script)) (Twins (.of (Scope.script.afterAll ds))
      (.of (Scope.script.afterAll ds')))
      (Decl.writeProgram ds) (Decl.writeProgram ds') :=
  tracks_advance.seq <| (tracks_writeList ds h).seq <| tracks_advance.seq tracks_finishFunction

end Compiler
end StackScript
