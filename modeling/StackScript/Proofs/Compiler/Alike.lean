import StackScript.Proofs.Compiler.Keeps
import StackScript.Proofs.Store.Alike

/-! Compilations that go alike: they write the same code, into stores that hold the same things. They read the
same tokens, or else what they read is free of faults and does not matter. -/
namespace StackScript.Compiler

/-- Functions in the making that are alike. -/
structure AlikeDrafts (p : Pairing) (s t : Store) (d e : Draft) : Prop where
  name : Option.Rel (SameText s t) d.name e.name
  arity : d.arity = e.arity
  bytecode : p.AlikeCode s t d.bytecode e.bytecode
  locals : d.locals = e.locals
  depth : d.depth = e.depth
  names : List.Forall₂ (fun a b => SameText s t a.1 b.1 ∧ a.2 = b.2) d.names e.names

/-- Tokens and mistakes are the same. -/
structure SameSource (s t : State) : Prop where
  upcoming : s.upcoming = t.upcoming
  lastLine : s.lastLine = t.lastLine
  current : s.current = t.current
  previous : s.previous = t.previous
  errors : s.errors = t.errors

/-- No faulty piece is ahead. -/
def Faultless (s : State) : Prop := ∀ l ∈ s.upcoming, ∃ t, l = .token t

/-- States of compilations that go alike. Lines count only where the tokens are the same. -/
structure AlikeStates (p : Pairing) (s t : State) : Prop where
  source : p.lines → SameSource s t
  faultless : ¬p.lines → Faultless s ∧ Faultless t
  recovering : s.recovering = t.recovering
  failed : Failed s ↔ Failed t
  draft : AlikeDrafts p s.store t.store s.draft t.draft
  store : p.AlikeStores s.store t.store

variable {p : Pairing} {s t : State} {s' t' : Store} {d e : Draft}

theorem AlikeDrafts.mono {s t : Store} (hs : s.Extends s') (ht : t.Extends t') (h : AlikeDrafts p s t d e) :
    AlikeDrafts p s' t' d e :=
  ⟨rel_imp (fun _ _ => SameText.mono hs ht) h.name, h.arity, h.bytecode.mono hs ht, h.locals, h.depth,
    h.names.imp fun _ _ hab => ⟨hab.1.mono hs ht, hab.2⟩⟩

namespace AlikeStates

/-- Listings and what is taken for granted are nothing that states are told apart by. -/
theorem with_draft (h : AlikeStates p s t) (hd : AlikeDrafts p s.store t.store d e) (l l' : String)
    (x x' : Option Defect) :
    AlikeStates p { s with draft := d, listing := l, defect := x } { t with draft := e, listing := l', defect := x' } :=
  ⟨fun hl => ⟨(h.source hl).1, (h.source hl).2, (h.source hl).3, (h.source hl).4, (h.source hl).5⟩,
    h.faultless, h.recovering, h.failed, hd, h.store⟩

theorem with_store (h : AlikeStates p s t) (hs : s.store.Extends s') (ht : t.store.Extends t')
    (hst : p.AlikeStores s' t') : AlikeStates p { s with store := s' } { t with store := t' } :=
  ⟨fun hl => ⟨(h.source hl).1, (h.source hl).2, (h.source hl).3, (h.source hl).4, (h.source hl).5⟩,
    h.faultless, h.recovering, h.failed, h.draft.mono hs ht, hst⟩

end AlikeStates

/-! ### Runs that go alike -/

variable {α β α' β' : Type}

/-- What two runs come to: states that go alike, and results that are related in the stores behind. -/
def Parallel (p : Pairing) (R : Store → Store → α → β → Prop) (x : α × State) (y : β × State) : Prop :=
  AlikeStates p x.2 y.2 ∧ R x.2.store y.2.store x.1 y.1

/-- Equal results, whatever the stores. -/
def Equal (_ _ : Store) (x y : α) : Prop := x = y

theorem Parallel.bind {R : Store → Store → α → β → Prop} {Q : Store → Store → α' → β' → Prop} {a : Action α}
    {b : Action β} {f : α → Action α'} {g : β → Action β'} (h : Parallel p R (a.run s) (b.run t))
    (hf : ∀ {x y s t}, AlikeStates p s t → R s.store t.store x y → Parallel p Q ((f x).run s) ((g y).run t)) :
    Parallel p Q ((a >>= f).run s) ((b >>= g).run t) := hf h.1 h.2

/-- From states that go alike the actions give the same result and go alike. -/
def Match (p : Pairing) (a b : Action α) : Prop :=
  ∀ s t, AlikeStates p s t → Parallel p Equal (a.run s) (b.run t)

namespace Match

theorem pure (x : α) : Match p (Pure.pure x) (Pure.pure x) := fun _ _ h => ⟨h, rfl⟩

theorem bind {a b : Action α} {f g : α → Action β} (h : Match p a b) (hf : ∀ x, Match p (f x) (g x)) :
    Match p (a >>= f) (b >>= g) := fun s t hst => (h s t hst).bind fun {x y s t} k hxy => by
  obtain rfl : x = y := hxy
  exact hf x s t k

theorem seq {a b : Action α} {c d : Action β} (h : Match p a b) (k : Match p c d) :
    Match p (a >>= fun _ => c) (b >>= fun _ => d) := h.bind fun _ => k

theorem ite {a b a' b' : Action α} (c : Prop) [Decidable c] (h : Match p a b) (k : Match p a' b') :
    Match p (if c then a else a') (if c then b else b') := by
  split
  · exact h
  · exact k

/-- What is looked up in states that go alike decides what is done. -/
theorem get {f g : State → Action α} (h : ∀ s t, AlikeStates p s t → Parallel p Equal ((f s).run s) ((g t).run t)) :
    Match p (MonadState.get >>= f) (MonadState.get >>= g) := h

theorem modify {f : State → State} (h : ∀ {s t}, AlikeStates p s t → AlikeStates p (f s) (f t)) :
    Match p (modify f : Action Unit) (modify f) := fun _ _ hst => ⟨h hst, rfl⟩

end Match

/-! ### Tokens -/

theorem alike_report (h : AlikeStates p s t) {line line' : Nat} {place place' : Place} (m : Mistake)
    (hl : p.lines → line = line' ∧ place = place') :
    AlikeStates p (s.report line place m) (t.report line' place' m) := by
  unfold State.report
  rw [h.recovering]
  split
  · exact h
  · refine ⟨fun hp => ?_, h.faultless, rfl, by simp [Failed], h.draft, h.store⟩
    obtain ⟨hu, hll, hc, hpr, he⟩ := h.source hp
    obtain ⟨rfl, rfl⟩ := hl hp
    exact ⟨hu, hll, hc, hpr, by rw [he]⟩

theorem alike_fetch (hp : p.lines) (ls : List Lexeme) (h : AlikeStates p s t) :
    AlikeStates p (State.fetch ls s) (State.fetch ls t) := by
  induction ls generalizing s t with
  | nil =>
    obtain ⟨hu, hll, hc, hpr, he⟩ := h.source hp
    exact ⟨fun _ => ⟨rfl, hll, by rw [State.fetch, State.fetch, hll], hpr, he⟩, absurd hp, h.recovering, h.failed,
      h.draft, h.store⟩
  | cons l ls ih =>
    cases l with
    | token tok =>
      obtain ⟨hu, hll, hc, hpr, he⟩ := h.source hp
      exact ⟨fun _ => ⟨rfl, hll, rfl, hpr, he⟩, absurd hp, h.recovering, h.failed, h.draft, h.store⟩
    | fault e line => exact ih (alike_report h _ fun _ => ⟨rfl, rfl⟩)

/-- Where tokens do not matter, reading one does not either. -/
theorem AlikeStates.advance_left (hp : ¬p.lines) (h : AlikeStates p s t) : AlikeStates p s.advance t := by
  obtain ⟨hs, ht⟩ := h.faultless hp
  rw [State.advance]
  cases hu : s.upcoming with
  | nil =>
    exact ⟨(absurd · hp), fun _ => ⟨by simp [Faultless, State.fetch], ht⟩, h.recovering, h.failed, h.draft,
      h.store⟩
  | cons l ls =>
    obtain ⟨tok, rfl⟩ := hs l (by rw [hu]; exact List.mem_cons_self)
    refine ⟨(absurd · hp), fun _ => ⟨fun l hl => hs l ?_, ht⟩, h.recovering, h.failed, h.draft, h.store⟩
    rw [hu]
    exact .tail _ hl

theorem AlikeStates.advance_right (hp : ¬p.lines) (h : AlikeStates p s t) : AlikeStates p s t.advance := by
  obtain ⟨hs, ht⟩ := h.faultless hp
  rw [State.advance]
  cases hu : t.upcoming with
  | nil =>
    exact ⟨(absurd · hp), fun _ => ⟨hs, by simp [Faultless, State.fetch]⟩, h.recovering, h.failed, h.draft,
      h.store⟩
  | cons l ls =>
    obtain ⟨tok, rfl⟩ := ht l (by rw [hu]; exact List.mem_cons_self)
    refine ⟨(absurd · hp), fun _ => ⟨hs, fun l hl => ht l ?_⟩, h.recovering, h.failed, h.draft, h.store⟩
    rw [hu]
    exact .tail _ hl

theorem AlikeStates.advance (h : AlikeStates p s t) : AlikeStates p s.advance t.advance := by
  by_cases hp : p.lines
  · obtain ⟨hu, hll, hc, hpr, he⟩ := h.source hp
    rw [State.advance, State.advance, ← hu]
    exact alike_fetch hp _ ⟨fun _ => ⟨rfl, hll, hc, hc, he⟩, (absurd hp ·), h.recovering, h.failed, h.draft, h.store⟩
  · exact (h.advance_left hp).advance_right hp

theorem match_advance : Match p advance advance := .modify AlikeStates.advance

theorem match_mistake (m : Mistake) : Match p (mistake m) (mistake m) := fun s t h =>
  ⟨alike_report h m fun hp => by rw [(h.source hp).previous]; exact ⟨rfl, rfl⟩, rfl⟩

theorem match_mistakeAhead (m : Mistake) : Match p (mistakeAhead m) (mistakeAhead m) := fun s t h =>
  ⟨alike_report h m fun hp => by rw [(h.source hp).current]; exact ⟨rfl, rfl⟩, rfl⟩

/-! ### Code -/

theorem match_ensure {b : Bool} (d : Defect) : Match p (ensure b d) (ensure b d) := by
  unfold ensure
  split
  · exact .pure _
  · exact .modify fun h => h.with_draft h.draft _ _ _ _

/-- The function in the making is changed in the same way. -/
theorem match_draft {f : Draft → Draft}
    (hf : ∀ {s t d e}, AlikeDrafts p s t d e → AlikeDrafts p s t (f d) (f e)) :
    Match p (modify fun s => { s with draft := f s.draft }) (modify fun s => { s with draft := f s.draft }) :=
  .modify fun h => h.with_draft (hf h.draft) _ _ _ _

theorem AlikeDrafts.with_bytecode {s t : Store} (h : AlikeDrafts p s t d e) {b c : Bytecode}
    (hb : p.AlikeCode s t b c) :
    AlikeDrafts p s t { d with bytecode := b } { e with bytecode := c } :=
  ⟨h.name, h.arity, hb, h.locals, h.depth, h.names⟩

theorem match_emitByte (byte : UInt8) : Match p (emitByte byte) (emitByte byte) := fun _ _ h =>
  ⟨h.with_draft (h.draft.with_bytecode <| h.draft.bytecode.write byte fun hp => by
    rw [(h.source hp).previous]) _ _ _ _, rfl⟩

theorem match_emit (op : Opcode) : Match p (emit op) (emit op) := match_emitByte _

theorem match_emitWith (op : Opcode) (operand : UInt8) : Match p (emitWith op operand) (emitWith op operand) :=
  (match_emit op).seq (match_emitByte operand)

theorem match_emitReturn : Match p emitReturn emitReturn := (match_emit _).seq (match_emit _)

theorem match_codeSize : Match p codeSize codeSize := fun _ _ h => ⟨h, congrArg Array.size h.draft.bytecode.code⟩

/-! ### Constants -/

theorem parallel_poolConstant (h : AlikeStates p s t) {v w : Value} (hv : p.Alike s.store t.store v w) :
    Parallel p Equal ((poolConstant v).run s) ((poolConstant w).run t) := by
  have hadd := h.draft.bytecode.addConstant? hv
  rw [poolConstant, poolConstant, run_bind, run_bind, run_get, run_get]
  dsimp only
  generalize s.draft.bytecode.addConstant? v = x at hadd
  generalize t.draft.bytecode.addConstant? w = y at hadd
  cases hadd with
  | @some x y hxy =>
    obtain ⟨i, b⟩ := x
    obtain ⟨j, c⟩ := y
    exact ⟨h.with_draft (h.draft.with_bytecode hxy.2) _ _ _ _, hxy.1⟩
  | none => exact ((match_mistake .tooManyConstants).seq (.pure 0)) s t h

theorem parallel_emitConstant (h : AlikeStates p s t) {v w : Value} (hv : p.Alike s.store t.store v w) :
    Parallel p Equal ((emitConstant v).run s) ((emitConstant w).run t) :=
  (parallel_poolConstant h hv).bind fun {i j s t} k hij => by
    obtain rfl : i = j := hij
    exact match_emitWith .constant i s t k

/-- Constants that are no references are the same in all stores. -/
theorem match_emitConstant {v : Value} (hv : ∀ s t, p.Alike s t v v) : Match p (emitConstant v) (emitConstant v) :=
  fun _ _ h => parallel_emitConstant h (hv _ _)

theorem parallel_intern (h : AlikeStates p s t) (x : String) :
    Parallel p SameText ((intern x).run s) ((intern x).run t) :=
  ⟨h.with_store (.of_intern _ x) (.of_intern _ x) (h.store.intern x), sameText_intern _ _ x⟩

theorem parallel_newNameConstant (h : AlikeStates p s t) {a b : Symbol} (hab : SameText s.store t.store a b) :
    Parallel p Equal ((newNameConstant a).run s) ((newNameConstant b).run t) := by
  have hadd := h.draft.bytecode.addConstant? (.string hab)
  rw [newNameConstant, newNameConstant, run_bind, run_bind, run_get, run_get]
  dsimp only
  generalize s.draft.bytecode.addConstant? (.string a) = x at hadd
  generalize t.draft.bytecode.addConstant? (.string b) = y at hadd
  cases hadd with
  | @some x y hxy =>
    obtain ⟨i, bs⟩ := x
    obtain ⟨j, cs⟩ := y
    have hd : AlikeDrafts p s.store t.store { s.draft with bytecode := bs, names := (a, i) :: s.draft.names }
        { t.draft with bytecode := cs, names := (b, j) :: t.draft.names } :=
      ⟨h.draft.name, h.draft.arity, hxy.2, h.draft.locals, h.draft.depth, .cons ⟨hab, hxy.1⟩ h.draft.names⟩
    exact ⟨h.with_draft hd _ _ _ _, hxy.1⟩
  | none => exact ((match_mistake .tooManyConstants).seq (.pure 0)) s t h

theorem lookup_eq {s t : Store} {a b : Symbol} (hab : SameText s t a b) {xs ys : List (Symbol × UInt8)}
    (h : List.Forall₂ (fun a b => SameText s t a.1 b.1 ∧ a.2 = b.2) xs ys) : xs.lookup a = ys.lookup b := by
  induction h with
  | nil => rfl
  | @cons x y xs ys hxy _ ih =>
    obtain ⟨c, i⟩ := x
    obtain ⟨d, j⟩ := y
    obtain ⟨hcd, rfl⟩ := hxy
    have hkey := hab.eq_iff hcd
    by_cases hac : a = c
    · rw [List.lookup_cons, List.lookup_cons, hac, hkey.1 hac]
      simp
    · have hbd : ¬b = d := fun hbd => hac (hkey.2 hbd)
      rw [List.lookup_cons, List.lookup_cons, beq_false_of_ne hac, beq_false_of_ne hbd]
      exact ih

theorem parallel_symbolConstant (h : AlikeStates p s t) {a b : Symbol} (hab : SameText s.store t.store a b) :
    Parallel p Equal ((symbolConstant a).run s) ((symbolConstant b).run t) := by
  simp only [symbolConstant, run_bind, run_get, lookup_eq hab h.draft.names]
  split
  · exact ⟨h, rfl⟩
  · exact parallel_newNameConstant h hab

theorem match_nameConstant (x : String) : Match p (nameConstant x) (nameConstant x) := fun _ _ h =>
  (parallel_intern h x).bind fun k hab => parallel_symbolConstant k hab

/-! ### Jumps -/

theorem match_openJump (op : Opcode) : Match p (openJump op) (openJump op) :=
  (match_emit op).seq <| (match_emitByte _).seq <| (match_emitByte _).seq <| match_codeSize.bind fun _ => .pure _

theorem match_closeJump (offset : Nat) : Match p (closeJump offset) (closeJump offset) := by
  refine match_codeSize.bind fun size => (match_ensure _).seq <| match_codeSize.bind fun size' =>
    .ite _ ?_ (match_mistake _)
  refine match_draft (f := fun d => { d with bytecode := d.bytecode.patch offset _ }) fun h =>
    h.with_bytecode ⟨?_, h.bytecode.constants, h.bytecode.lines⟩
  simp only [Bytecode.patch, h.bytecode.code]

theorem match_loopDistance (distance : Nat) : Match p (loopDistance distance) (loopDistance distance) :=
  .ite _ (.pure _) ((match_mistake _).seq (.pure _))

theorem match_emitBackJump (start : Nat) : Match p (emitBackJump start) (emitBackJump start) :=
  (match_emit _).seq <| match_codeSize.bind fun _ => (match_ensure _).seq <| match_codeSize.bind fun _ =>
    (match_loopDistance _).bind fun _ => (match_emitByte _).seq (match_emitByte _)

/-! ### Variables -/

theorem match_checkInitialized (v : Local) : Match p (checkInitialized v) (checkInitialized v) :=
  .ite _ (match_mistake _) (.pure _)

theorem match_accessTo (x : String) : Match p (accessTo x) (accessTo x) := by
  refine .get fun s t h => ?_
  rw [h.draft.locals]
  split
  · exact ((match_checkInitialized _).seq (.pure _)) s t h
  · exact ((match_nameConstant x).bind fun _ => .pure _) s t h

theorem match_checkNew (x : String) : Match p (checkNew x) (checkNew x) := by
  refine .get fun s t h => ?_
  rw [Draft.declares, Draft.declares, Draft.innermost, Draft.innermost, h.draft.locals, h.draft.depth]
  exact Match.ite _ (match_mistake _) (.pure _) s t h

theorem match_addLocal (x : String) : Match p (addLocal x) (addLocal x) := by
  refine .get fun s t h => ?_
  rw [h.draft.locals]
  refine Match.ite _ (match_mistake _) (match_draft (f := fun d => { d with locals := ⟨x, none⟩ :: d.locals }) ?_) s t h
  exact fun h => ⟨h.name, h.arity, h.bytecode, by simp only [h.locals], h.depth, h.names⟩

/-- The depth of the scope decides what is done. -/
theorem match_depth {f g : Nat → Action α} (hfg : ∀ n, Match p (f n) (g n)) :
    Match p (get >>= fun s => f s.draft.depth) (get >>= fun s => g s.draft.depth) := by
  refine .get fun s t h => ?_
  rw [h.draft.depth]
  exact hfg _ s t h

theorem match_declareLocal (x : String) : Match p (declareLocal x) (declareLocal x) :=
  match_depth fun n => .ite (0 < n) ((match_checkNew x).seq (match_addLocal x)) (.pure _)

theorem AlikeDrafts.bringInScope {s t : Store} (h : AlikeDrafts p s t d e) :
    AlikeDrafts p s t d.bringInScope e.bringInScope := by
  unfold Draft.bringInScope
  rw [h.locals, h.depth]
  split
  · exact ⟨h.name, h.arity, h.bytecode, rfl, rfl, h.names⟩
  · exact h

theorem match_bringInScope : Match p bringInScope bringInScope := .modify fun {s t} h => by
  rw [h.draft.depth]
  split
  · exact h.with_draft h.draft.bringInScope _ _ _ _
  · exact h

theorem match_settleVariable (global : UInt8) : Match p (settleVariable global) (settleVariable global) :=
  match_depth fun n => .ite (0 < n) match_bringInScope (match_emitWith _ _)

theorem match_enterScope : Match p enterScope enterScope :=
  match_draft (f := fun d => { d with depth := d.depth + 1 }) fun h =>
    ⟨h.name, h.arity, h.bytecode, h.locals, by simp only [h.depth], h.names⟩

theorem match_emitPops (n : Nat) : Match p (emitPops n) (emitPops n) := by
  induction n with
  | zero => exact .pure _
  | succ n ih => exact (match_emit _).seq ih

theorem match_leaveScope : Match p leaveScope leaveScope := by
  refine .get fun s t h => ?_
  dsimp only
  rw [h.draft.depth, h.draft.locals]
  refine Match.seq (match_ensure _) (.seq (match_draft (f := fun d =>
    { d with depth := d.depth - 1, locals := d.locals.drop _ }) fun h => ?_) (match_emitPops _)) s t h
  exact ⟨h.name, h.arity, h.bytecode, by simp only [h.locals], by simp only [h.depth], h.names⟩

theorem match_checkInFunction : Match p checkInFunction checkInFunction := by
  refine .get fun s t h => ?_
  have hscript : s.draft.isScript = t.draft.isScript := by
    have hname := h.draft.name
    rw [Draft.isScript, Draft.isScript]
    generalize s.draft.name = x at hname
    generalize t.draft.name = y at hname
    cases hname <;> rfl
  rw [hscript]
  exact Match.ite _ (match_mistake _) (.pure _) s t h

theorem match_checkParameterCount (count : Nat) : Match p (checkParameterCount count) (checkParameterCount count) :=
  .ite _ (match_mistakeAhead _) (.pure _)

theorem match_countArgument (count : Nat) : Match p (countArgument count) (countArgument count) := by
  unfold countArgument
  split
  · exact (match_mistake _).seq (.pure _)
  · exact .pure _

/-! ### Functions -/

theorem match_setArity (count : Nat) : Match p (setArity count) (setArity count) :=
  match_draft (f := fun d => { d with arity := (min count 255).toUInt8 }) fun h =>
    ⟨h.name, rfl, h.bytecode, h.locals, h.depth, h.names⟩

/-- A new function gets its name; the one around it is kept for later. -/
theorem parallel_beginFunction (h : AlikeStates p s t) {a b : Symbol} (hab : SameText s.store t.store a b) :
    Parallel p (fun s t => AlikeDrafts p s t) ((beginFunction a).run s) ((beginFunction b).run t) := by
  have hd : AlikeDrafts p s.store t.store { name := some a } { name := some b } :=
    ⟨.some hab, rfl, ⟨rfl, .nil, fun _ => rfl⟩, rfl, rfl, .nil⟩
  exact ⟨h.with_draft hd _ _ _ _, h.draft⟩

theorem match_listFunction : Match p listFunction listFunction := fun s t h => by
  obtain ⟨l, x, hs⟩ := run_listFunction s
  obtain ⟨l', x', ht⟩ := run_listFunction t
  rw [hs, ht]
  exact ⟨h.with_draft h.draft _ _ _ _, rfl⟩

theorem AlikeDrafts.toFunction {s t : Store} (h : AlikeDrafts p s t d e) :
    p.AlikeFunctions s t d.toFunction e.toFunction := ⟨h.name, h.arity, h.bytecode⟩

theorem parallel_addFunction (h : AlikeStates p s t) :
    Parallel p (fun _ _ => p.pairs) (addFunction.run s) (addFunction.run t) :=
  ⟨h.with_store (.of_addFunction _ _) (.of_addFunction _ _) (h.store.addFunction h.draft.toFunction), h.store.next 0⟩

theorem parallel_finishFunction (h : AlikeStates p s t) :
    Parallel p (fun _ _ => p.pairs) (finishFunction.run s) (finishFunction.run t) :=
  (match_emitReturn s t h).bind fun k _ => (match_listFunction _ _ k).bind fun k _ => parallel_addFunction k

end StackScript.Compiler
