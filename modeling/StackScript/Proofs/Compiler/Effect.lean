import StackScript.Proofs.Compiler.Keeps

/-! Effects of actions: the condition under which an action makes no mistake, and what holds then of its
result and of the state behind it. Effects are put together as the actions are. -/
namespace StackScript.Compiler
variable {α β : Type}

/-- Actions that leave a mistake in its place. -/
class Enduring (a : Action α) : Prop where
  keeps : Keeps Evolves a

instance (x : α) : Enduring (pure x : Action α) := ⟨.pure x⟩

instance : Enduring (get : Action State) := ⟨.get⟩

instance (a : Action α) (f : α → Action β) [Enduring a] [∀ x, Enduring (f x)] : Enduring (a >>= f) :=
  ⟨Enduring.keeps.bind fun _ => Enduring.keeps⟩

instance (c : Prop) [Decidable c] (a b : Action α) [Enduring a] [Enduring b] :
    Enduring (if c then a else b) := ⟨.ite c Enduring.keeps Enduring.keeps⟩

instance (f : State → Draft) : Enduring (modify fun s => { s with draft := f s } : Action Unit) :=
  ⟨keeps_modify_draft f⟩

instance : Enduring advance := ⟨keeps_advance⟩
instance : Enduring codeSize := ⟨keeps_codeSize⟩
instance (b : Bool) (d : Defect) : Enduring (ensure b d) := ⟨keeps_ensure b d⟩
instance (m : Mistake) : Enduring (mistake m) := ⟨keeps_mistake m⟩
instance (byte : UInt8) : Enduring (emitByte byte) := ⟨keeps_emitByte byte⟩
instance (op : Opcode) : Enduring (emit op) := ⟨keeps_emit op⟩
instance (op : Opcode) (operand : UInt8) : Enduring (emitWith op operand) := ⟨keeps_emitWith op operand⟩
instance : Enduring emitReturn := ⟨keeps_emitReturn⟩
instance (text : String) : Enduring (intern text) := ⟨keeps_intern text⟩
instance (v : Value) : Enduring (poolConstant v) := ⟨keeps_poolConstant v⟩
instance (v : Value) : Enduring (emitConstant v) := ⟨keeps_emitConstant v⟩
instance (name : Symbol) : Enduring (symbolConstant name) := ⟨keeps_symbolConstant name⟩
instance (x : String) : Enduring (nameConstant x) := ⟨keeps_nameConstant x⟩
instance (op : Opcode) : Enduring (openJump op) := ⟨keeps_openJump op⟩
instance (offset : Nat) : Enduring (closeJump offset) := ⟨keeps_closeJump offset⟩
instance (distance : Nat) : Enduring (loopDistance distance) := ⟨keeps_loopDistance distance⟩
instance (start : Nat) : Enduring (emitBackJump start) := ⟨keeps_emitBackJump start⟩
instance (v : Local) : Enduring (checkInitialized v) := ⟨keeps_checkInitialized v⟩
instance (x : String) : Enduring (accessTo x) := ⟨keeps_accessTo x⟩
instance (x : String) : Enduring (checkNew x) := ⟨keeps_checkNew x⟩
instance (x : String) : Enduring (addLocal x) := ⟨keeps_addLocal x⟩
instance (x : String) : Enduring (declareLocal x) := ⟨keeps_declareLocal x⟩
instance : Enduring bringInScope := ⟨keeps_bringInScope⟩
instance (global : UInt8) : Enduring (settleVariable global) := ⟨keeps_settleVariable global⟩
instance : Enduring enterScope := ⟨keeps_enterScope⟩
instance (n : Nat) : Enduring (emitPops n) := ⟨keeps_emitPops n⟩
instance : Enduring leaveScope := ⟨keeps_leaveScope⟩
instance (count : Nat) : Enduring (countArgument count) := ⟨keeps_countArgument count⟩
instance (count : Nat) : Enduring (checkParameterCount count) := ⟨keeps_checkParameterCount count⟩
instance : Enduring checkInFunction := ⟨keeps_checkInFunction⟩
instance (name : Symbol) : Enduring (beginFunction name) := ⟨keeps_beginFunction name⟩
instance (count : Nat) : Enduring (setArity count) := ⟨keeps_setArity count⟩
instance : Enduring listFunction := ⟨keeps_listFunction⟩
instance : Enduring addFunction := ⟨keeps_addFunction⟩
instance : Enduring finishFunction := ⟨keeps_finishFunction⟩
instance (l : Literal) : Enduring l.write := ⟨keeps_literal l⟩
instance (xs : List α) : Enduring (readComma xs) := ⟨keeps_readComma xs⟩
instance (e : Expr) : Enduring e.write := ⟨keeps_write_expr e⟩
instance (count : Nat) (es : List Expr) : Enduring (Expr.writeArguments count es) :=
  ⟨keeps_writeArguments count es⟩
instance (es : List Expr) : Enduring (Expr.writeItems es) := ⟨keeps_writeItems es⟩
instance (x : String) : Enduring (Decl.writeNewName x) := ⟨keeps_writeNewName x⟩
instance (count : Nat) (x : String) : Enduring (Decl.writeParameter count x) :=
  ⟨keeps_writeParameter count x⟩
instance (count : Nat) (xs : List String) : Enduring (Decl.writeParameters count xs) :=
  ⟨keeps_writeParameters count xs⟩
instance (body : Action Unit) [Enduring body] : Enduring (Decl.writeBlock body) :=
  ⟨keeps_writeBlock Enduring.keeps⟩
instance (x : String) (xs : List String) : Enduring (Decl.writeHead x xs) := ⟨keeps_writeHead x xs⟩
instance (x : String) (xs : List String) (body : Action Unit) [Enduring body] :
    Enduring (Decl.writeFunction x xs body) := ⟨keeps_writeFunction x xs Enduring.keeps⟩
instance (d : Decl) : Enduring d.write := ⟨keeps_write d⟩
instance (ds : List Decl) : Enduring (Decl.writeList ds) := ⟨keeps_writeList ds⟩

/-- From the state the action makes no mistake exactly if `P` holds, and then `Q` holds of its result and
of the state behind it. -/
structure Effect (P : Prop) (a : Action α) (s : State) (Q : α → State → Prop) : Prop where
  succeeds : ¬Failed (a.run s).2 ↔ P
  result : P → Q (a.run s).1 (a.run s).2

namespace Effect
variable {P P' : Prop} {a : Action α} {f : α → Action β} {s : State} {Q Q' : α → State → Prop}
  {R : β → State → Prop}

theorem congr (h : Effect P a s Q) (hp : P ↔ P') : Effect P' a s Q :=
  ⟨h.succeeds.trans hp, fun k => h.result (hp.2 k)⟩

theorem mono (h : Effect P a s Q) (hq : ∀ x t, P → Q x t → Q' x t) : Effect P a s Q' :=
  ⟨h.succeeds, fun k => hq _ _ k (h.result k)⟩

theorem of_not_failed (h : Effect P a s Q) (hn : ¬Failed (a.run s).2) : Q (a.run s).1 (a.run s).2 :=
  h.result (h.succeeds.1 hn)

/-- An action after another makes no mistake if neither does. -/
theorem bind [∀ x, Enduring (f x)] (ha : Effect P a s Q) (hf : ∀ x t, Q x t → Effect P' (f x) t R) :
    Effect (P ∧ P') (a >>= f) s R where
  succeeds := by
    rw [run_bind]
    constructor
    · intro h
      have hp := ha.succeeds.1 (Enduring.keeps.not_failed h)
      exact ⟨hp, (hf _ _ (ha.result hp)).succeeds.1 h⟩
    · exact fun ⟨hp, hp'⟩ => (hf _ _ (ha.result hp)).succeeds.2 hp'
  result := fun ⟨hp, hp'⟩ => (hf _ _ (ha.result hp)).result hp'

/-- As `bind`, after an action that makes no mistake. -/
theorem andThen [∀ x, Enduring (f x)] (ha : Effect True a s Q)
    (hf : ∀ x t, Q x t → Effect P (f x) t R) : Effect P (a >>= f) s R :=
  (ha.bind hf).congr (iff_of_eq (true_and P))

/-- As `bind`, before an action that makes no mistake. -/
theorem bindTrue [∀ x, Enduring (f x)] (ha : Effect P a s Q)
    (hf : ∀ x t, Q x t → Effect True (f x) t R) : Effect P (a >>= f) s R :=
  (ha.bind hf).congr (iff_of_eq (and_true P))

theorem pure {x : α} (h : ¬Failed s) (hq : Q x s) : Effect True (Pure.pure x : Action α) s Q :=
  ⟨iff_true_intro h, fun _ => hq⟩

/-- Actions that do the same have the same effect. -/
theorem of_run_eq {b : Action α} {t : State} (h : a.run s = b.run t) (hb : Effect P b t Q) :
    Effect P a s Q := by
  refine ⟨?_, fun hp => ?_⟩
  · rw [h]
    exact hb.succeeds
  · rw [h]
    exact hb.result hp

/-- What an action does is known if it is run. -/
theorem of_run {x : α} {t : State} (h : a.run s = (x, t)) (ht : ¬Failed t) (hq : Q x t) :
    Effect True a s Q := by
  refine ⟨iff_true_intro ?_, fun _ => ?_⟩
  · rwa [h]
  · rwa [h]

end Effect
end StackScript.Compiler
