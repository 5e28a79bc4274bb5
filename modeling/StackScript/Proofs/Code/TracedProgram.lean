import StackScript.Proofs.Code.Program
import StackScript.Proofs.Code.TracedExpression

/-! Writing declarations, functions and programs does what their events say. -/
namespace StackScript
namespace Compiler
set_option synthInstance.maxSize 4096
variable {line : Nat → Nat} {c d : Context} {p : Progress} {s t u : State} {ds alternative : List Decl}

/-! ### Blocks -/

/-- Wherever such declarations stand, writing them does what their events say. -/
def TriesList (line : Nat → Nat) (c : Context) (ds : List Decl) : Prop :=
  ∀ {p : Progress} {s : State}, Stands line c p s → Tries (Decl.writeList ds) s fun _ t =>
    Traces line (Decl.listAfter c ds) p (Decl.listEvents c.scope c.functions ds) s t

/-- The events of a block behind its opening mark. -/
def Context.blockEvents (c : Context) (ds : List Decl) : List Event :=
  Decl.blockEvents ds (Decl.listEvents c.scope.enter c.functions ds)

@[simp] theorem size_contextBlock (c : Context) (ds : List Decl) :
    Event.allSize (c.blockEvents ds) = Decl.blockSize ds := by
  rw [Context.blockEvents, size_blockEvents, Decl.size_listEvents, Decl.blockSize, Scope.isLocal_enter]

theorem tries_writeBlock (hds : TriesList line c.enter ds) (hp : c.pending = none) (h : Stands line c p s) :
    Tries (Decl.writeBlock (Decl.writeList ds)) s fun _ t =>
      Traces line (c.afterBlock ds) p (c.blockEvents ds) s t := by
  refine (tries_enterScope h hp).bind fun _ t ht => (hds ht.stands).bind fun _ u hu =>
    (tries_advance hu.stands TokenKind.blockEnd.mark).bind fun _ v hv =>
      (tries_leaveScope hv.stands (Decl.listDeclared ds).reverse (σ := c.scope) rfl (c.scope.afterAll_enter ds)).mono
        fun _ w hw => ?_
  have hend := ht.trans (hu.trans (hv.trans hw))
  rw [List.length_reverse] at hend
  exact hend

/-! ### Conditions and loops -/

/-- What happens from behind a condition to the end of the block that it decides on. -/
def Context.thenEvents (c : Context) (ds : List Decl) : List Event :=
  .emit ⟨.jumpIfFalse, Decl.blockSize ds + 4⟩ :: Opcode.pop.event :: TokenKind.blockStart.event :: c.blockEvents ds

/-- A block that is skipped if the value on the stack is falsy, and a jump over what stands in for it. -/
theorem tries_thenBlock (hds : TriesList line c.enter ds) (hp : c.pending = none) (h : Stands line c p s)
    (hle : Decl.blockSize ds + 4 ≤ maxDistance) {k : Nat → Action Unit} [∀ n, Enduring (k n)] {R : Unit → State → Prop}
    (hk : ∀ {t}, Traces line (c.afterBlock ds) p
      (c.thenEvents ds ++ .emit ⟨.jump, maxDistance⟩ :: [Opcode.pop.event]) s t →
        Tries (k (s.draft.bytecode.size + Event.allSize (c.thenEvents ds) + 1)) t R) :
    Tries (openJump .jumpIfFalse >>= fun thenJump => emit .pop >>= fun _ => advance >>= fun _ =>
      Decl.writeBlock (Decl.writeList ds) >>= fun _ => openJump .jump >>= fun elseJump =>
        closeJump thenJump >>= fun _ => emit .pop >>= fun _ => k elseJump) s R := by
  refine (tries_openJump h rfl).bind ?_
  rintro _ t ⟨rfl, ht⟩
  refine (tries_emit ht.stands rfl).bind fun _ u hu =>
    (tries_advance hu.stands TokenKind.blockStart.mark).bind fun _ v hv =>
      (tries_writeBlock hds hp hv.stands).bind fun _ w hw => (tries_openJump hw.stands rfl).bind ?_
  rintro _ x ⟨rfl, hx⟩
  have hblock := ht.trans (hu.trans (hv.trans hw))
  have hoffset : w.draft.bytecode.size + 1 = s.draft.bytecode.size + Event.allSize (c.thenEvents ds) + 1 :=
    congrArg (· + 1) hblock.size
  have hsize : Event.allSize (Opcode.pop.event :: TokenKind.blockStart.event ::
      (c.blockEvents ds ++ [.emit ⟨.jump, maxDistance⟩])) = Decl.blockSize ds + 4 := by
    simp [Opcode.event, TokenKind.event, Instr.size, Opcode.width]
    omega
  rw [hoffset]
  exact (tries_closeJump [] _ rfl (hblock.trans hx) rfl hsize hle).bind fun _ y hy =>
    (tries_emit hy.stands rfl).bind fun _ z hz =>
    hk (by simpa [Context.thenEvents, TokenKind.event] using hy.trans hz)

/-- A block that is run until the value of a condition is truthy. -/
theorem tries_until {es : List Event} (hds : TriesList line c.enter ds) (hp : c.pending = none)
    (h : Traces line c p es s t) (hle : Event.allSize es + Decl.blockSize ds + 7 ≤ maxDistance) :
    Tries (openJump .jumpIfTrue >>= fun exit => emit .pop >>= fun _ => advance >>= fun _ =>
      Decl.writeBlock (Decl.writeList ds) >>= fun _ => emitBackJump s.draft.bytecode.size >>=
        fun _ => closeJump exit >>= fun _ => emit .pop) t fun _ u =>
      Traces line (c.afterBlock ds) p (es ++ .emit ⟨.jumpIfTrue, Decl.blockSize ds + 4⟩ :: Opcode.pop.event ::
        TokenKind.blockStart.event :: (c.blockEvents ds ++
          [.emit ⟨.loop, Event.allSize es + Decl.blockSize ds + 7⟩, Opcode.pop.event])) s u := by
  refine (tries_openJump h.stands rfl).bind ?_
  rintro _ u ⟨rfl, hu⟩
  refine (tries_emit hu.stands rfl).bind fun _ v hv =>
    (tries_advance hv.stands TokenKind.blockStart.mark).bind fun _ w hw =>
      (tries_writeBlock hds hp hw.stands).bind fun _ x hx => ?_
  have hblock := h.trans (hu.trans (hv.trans (hw.trans hx)))
  refine (tries_emitBackJump hblock (m := Event.allSize es + Decl.blockSize ds + 7) ?_ hle).bind fun _ y hy => ?_
  · simp [Opcode.event, Instr.size, Opcode.width]
    omega
  have hoffset : t.draft.bytecode.size + 1 = s.draft.bytecode.size + Event.allSize es + 1 := congrArg (· + 1) h.size
  have hall := hblock.trans hy
  rw [List.append_assoc] at hall
  refine (tries_closeJump es _ rfl hall hoffset (m := Decl.blockSize ds + 4) ?_ (by omega)).bind fun _ z hz =>
    (tries_emit hz.stands rfl).mono fun _ z' hz' => ?_
  · simp [Opcode.event, Instr.size, Opcode.width]
    omega
  · simpa [TokenKind.event] using hz.trans hz'

/-! ### Statements -/

theorem tries_writeItems (es : List Expr) (hw : AllSpelled (itemWords es)) (h : Stands line c p s)
    (hs : Expr.AllSuit c.pending es) :
    Tries (Expr.writeItems es) s fun _ t =>
      Traces line (Expr.allAfter c es) p (Expr.itemEvents c.scope.names es) s t := by
  induction es generalizing c p s with
  | nil =>
    have hafter : Expr.allAfter c [] = c := c.add_zero
    rw [hafter]
    exact .pure h.describes.not_failed h.refl
  | cons e es ih =>
    obtain ⟨he, hes⟩ := hs.cons
    refine (tries_advance h TokenKind.comma.mark).bind fun _ t ht =>
      (tries_write_expr e (hw.of_subset words_subset_items.1) ht.stands he).bind fun _ u hu =>
        (tries_emit hu.stands rfl).bind fun _ v hv =>
          (ih (hw.of_subset words_subset_items.2) (c := e.after c) hv.stands hes).mono fun _ w hw => ?_
    have hend := ht.trans (hu.trans (hv.trans hw))
    rw [Expr.after, Expr.allAfter_add] at hend
    exact hend

theorem tries_emitReturn (h : Stands line c p s) :
    Tries emitReturn s fun _ t => Traces line c p Decl.returnEvents s t :=
  (tries_emit h rfl).bind fun _ _ ht => (tries_emit ht.stands rfl).mono fun _ _ hu => ht.trans hu

/-! ### Functions -/

theorem tries_writeParameter {xs : List String} (h : Stands line (c.inside xs) p s) {x : String} (hx : x ∉ xs)
    (hle : xs.length + 1 ≤ 255) :
    Tries (Decl.writeParameter xs.length x) s fun _ t =>
      Traces line (c.inside (xs ++ [x])) p [.read ⟨.ident, x⟩] s t := by
  have hadmits : (c.inside xs).scope.Admits x := fun _ => by
    refine ⟨by simpa [Context.inside, Scope.function] using hx, ?_⟩
    rw [Context.inside, Scope.function_declare, Scope.live_function, List.length_append]
    exact Nat.succ_le_succ hle
  refine (h.tries_quiet (quiet_checkParameterCount xs.length) (effect_checkParameterCount h.describes xs.length) hle
    fun _ _ hq => hq ▸ h.describes).bind ?_
  rintro _ t ⟨-, ht⟩
  refine (tries_writeNewName ht.stands rfl hadmits).bind ?_
  rintro i u ⟨hu, hi⟩
  refine (tries_settleVariable (x := x) hu.stands (effect_bringInScope hu.stands.describes (x := x) rfl) hi).mono
    fun _ v hv => ?_
  have hend := ht.trans (hu.trans hv)
  rwa [Context.declare, Context.scope_add, scope_announce, Context.inside, Scope.function_declare] at hend

theorem tries_writeParameters (xs ys : List String) (h : Stands line (c.inside xs) p s) (hn : (xs ++ ys).Nodup)
    (hle : (xs ++ ys).length ≤ 255) :
    Tries (Decl.writeParameters xs.length ys) s fun n t => n = (xs ++ ys).length ∧
      Traces line (c.inside (xs ++ ys)) p ((nameWords ys).map .read) s t := by
  induction ys generalizing xs p s with
  | nil =>
    rw [List.append_nil]
    exact .pure h.describes.not_failed ⟨rfl, h.refl⟩
  | cons y ys ih =>
    have hy : y ∉ xs := fun hy => (List.nodup_append.1 hn).2.2 y hy y List.mem_cons_self rfl
    have hlen : xs.length + 1 ≤ 255 := by
      rw [List.length_append, List.length_cons] at hle
      omega
    have hsnoc : xs ++ y :: ys = xs ++ [y] ++ ys := (List.append_assoc xs [y] ys).symm
    have hlength : (xs ++ [y]).length = xs.length + 1 := by simp
    rw [hsnoc] at hn hle ⊢
    refine (tries_writeParameter h hy hlen).bind fun _ t ht => (tries_readComma ht.stands ys).bind fun _ u hu => ?_
    rw [← hlength]
    refine (ih (xs ++ [y]) hu.stands hn hle).mono ?_
    rintro n v ⟨hcount, hv⟩
    have hend := ht.trans (hu.trans hv)
    refine ⟨hcount, ?_⟩
    simpa [nameWords, commaEvents] using hend

/-- Another function is compiled from here on, and nothing has been written in it. -/
structure Opens (s t : State) : Prop where
  bytecode : t.draft.bytecode = {}
  store : s.store.Extends t.store
  functions : t.store.functions = s.store.functions

theorem tries_beginFunction (h : Stands line c p s) (a : Symbol) :
    Tries (beginFunction a) s fun outer t => outer = s.draft ∧ Opens s t ∧
      Stands line { scope := ⟨[""], [], true⟩, functions := c.functions } ⟨p.words, []⟩ t :=
  .of_run rfl (fun hf => hf h.describes.ready.errors) ⟨rfl, ⟨rfl, .refl _, rfl⟩,
    ((effect_beginFunction h.describes a).result trivial).2.2.2, h.trail, .nil, by simp, by simp⟩

/-- The words from behind the name of a function to its body. -/
theorem tries_writeHead (h : Stands line c p s) (x : String) {xs : List String} (hn : xs.Nodup)
    (hle : xs.length ≤ 255) :
    Tries (Decl.writeHead x xs) s fun outer t => outer = s.draft ∧ ∃ u, Opens s u ∧
      Traces line (c.inside xs) ⟨p.words, []⟩ (TokenKind.leftParen.event :: ((nameWords xs).map .read ++
        [TokenKind.rightParen.event, TokenKind.blockStart.event])) u t := by
  refine (h.tries_quiet (quiet_intern x) (effect_intern h.describes x) trivial fun _ _ hx => hx.1.describes).bind ?_
  rintro a t ⟨⟨-, -, hdraft⟩, ht⟩
  refine (tries_beginFunction ht.stands a).bind ?_
  rintro _ u ⟨rfl, hopens, hu⟩
  refine (tries_enterScope hu rfl).bind fun _ v hv =>
    (tries_advance hv.stands TokenKind.leftParen.mark).bind fun _ w hw =>
    (tries_writeParameters (c := c) [] xs hw.stands hn hle).bind ?_
  rintro n x ⟨-, hx⟩
  refine (hx.stands.tries_quiet (quiet_setArity n) (effect_setArity hx.stands.describes n) trivial
    fun _ _ hq => hq.2.2).bind ?_
  rintro _ y ⟨-, hy⟩
  refine (tries_advance hy.stands TokenKind.rightParen.mark).bind fun _ z hz =>
    (tries_advance hz.stands TokenKind.blockStart.mark).bind fun _ z' hz' => ?_
  have hend := hv.trans (hw.trans (hx.trans (hy.trans (hz.trans hz'))))
  refine .pure hend.stands.describes.not_failed ⟨hdraft, u, ⟨hopens.bytecode, ht.store.trans hopens.store, ?_⟩, hend⟩
  rw [hopens.functions, ht.functions_eq rfl]

/-- The function compiled so far has become an object. -/
structure Concludes (s : State) (r : FunctionRef) (t : State) : Prop where
  ref : r = ⟨s.store.functions.size⟩
  tokens : SameTokens s t
  errors : t.errors = s.errors
  store : t.store = (s.store.addFunction s.draft.toFunction).2

theorem tries_finishFunction (h : Stands line c p s) :
    Tries finishFunction s fun r t => ∃ u, Traces line c p Decl.returnEvents s u ∧ Concludes u r t := by
  refine (tries_emitReturn h).bind fun _ u hu => ?_
  obtain ⟨listing, defect, hrun⟩ := run_listFunction u
  refine .of_run (x := ⟨u.store.functions.size⟩)
    (t := { u with store := (u.store.addFunction u.draft.toFunction).2, listing, defect }) ?_
    (fun hf => hf hu.stands.describes.ready.errors) ⟨u, hu, rfl, ⟨rfl, rfl, rfl, rfl⟩, rfl, rfl⟩
  rw [run_bind, hrun]
  rfl

/-- A function is what has happened since it was begun. -/
theorem Traces.tells {k : Nat} {es : List Event} (h : Traces line c ⟨k, []⟩ es s t) (hs : s.draft.bytecode = {}) :
    t.draft.toFunction.Tells t.store line ⟨k, es⟩ where
  asked := h.asked
  lined := by
    have hcode := h.code
    have hlines := h.lines
    rw [hs] at hcode hlines
    refine ⟨⟨?_, ?_⟩, hlines⟩
    all_goals rw [History.placed, Progress.map_placed]
    · exact hcode
    · exact h.fits
  constants := h.stands.holds.constants

/-- When a function ends it becomes an object behind those of the functions in it. -/
theorem Traces.objects {k : Nat} {es : List Event} {store : Store} (h : Traces line c ⟨k, []⟩ es s t)
    (hs : s.draft.bytecode = {}) (hstore : store = (t.store.addFunction t.draft.toFunction).2) :
    t.store.Extends store ∧ ∃ fs, store.functions.toList = s.store.functions.toList ++ fs ∧
      List.Forall₂ (fun h f => f.Tells store line h) (Event.allHistories k es ++ [⟨k, es⟩]) fs := by
  have hadd := Store.Extends.of_addFunction t.store t.draft.toFunction
  obtain ⟨fs, hfs, hall⟩ := h.functions
  rw [hstore]
  refine ⟨hadd, fs ++ [t.draft.toFunction], ?_, List.rel_append (hall.imp fun _ _ hf => hf.mono hadd)
    (.cons ((h.tells hs).mono hadd) .nil)⟩
  rw [← List.append_assoc, ← hfs]
  exact Array.toList_push

/-- Functions have become objects, the last of which has this history, and the compilation goes on in the one around it. -/
structure Makes (line : Nat → Nat) (c : Context) (p : Progress) (es : List Event) (s t : State) : Prop where
  stands : Stands line c { p with words := p.words + (Event.allWords es).length } t
  draft : t.draft = s.draft
  store : s.store.Extends t.store
  functions : ∃ fs, t.store.functions.toList = s.store.functions.toList ++ fs ∧
    List.Forall₂ (fun h f => f.Tells t.store line h) (Event.allHistories p.words es ++ [⟨p.words, es⟩]) fs

/-- A function is left on the stack as a constant. -/
theorem Makes.traces {es : List Event} {r : FunctionRef} (h : Makes line c p es s t)
    (k : Puts line d { p with words := p.words + (Event.allWords es).length } (.function r) t u) :
    Traces line d p [.function r es] s u where
  stands := k.stands
  code := by
    rw [k.code, h.draft]
    exact congrArg _ (List.append_nil _).symm
  fits := List.forall_mem_singleton.2 k.fits
  asked := ⟨by simp, trivial⟩
  lines := by
    rw [k.lines, h.draft]
    rfl
  store := by
    rw [k.store]
    exact h.store
  functions := by
    rw [k.store]
    simpa using h.functions

theorem tries_compileFunction (h : Stands line c p s) {x : String} {xs : List String} (hn : xs.Nodup)
    (hle : xs.length ≤ 255) {body : Action Unit} [Enduring body] {inner : List Event} {P : Prop}
    (hd : d.functions = c.functions + Decl.listFunctionCount ds)
    (he : ∀ {t}, xs.Nodup → Describes (c.inside xs) t → Effect P body t fun _ u =>
      Yields d (fun κ is => Decl.ListCode κ (.function xs) c.functions ds is) t u)
    (hbody : ∀ {p t}, Stands line (c.inside xs) p t → Tries body t fun _ u => Traces line d p inner t u) :
    Tries (compileFunction x xs body) s fun r t => r = ⟨c.functions + Decl.listFunctionCount ds⟩ ∧
      t.store.Sound (.function r) ∧
      Makes line { c with functions := c.functions + Decl.listFunctionCount ds + 1 } p
        (Decl.functionEvents xs inner) s t := by
  have hmakes : Tries (compileFunction x xs body) s fun _ t => ∃ u v, Opens s u ∧
      Traces line d ⟨p.words, []⟩ (Decl.functionEvents xs inner) u v ∧ SameTokens v t ∧
        t.draft = s.draft ∧ t.store = (v.store.addFunction v.draft.toFunction).2 := by
    refine (tries_writeHead h x hn hle).bind ?_
    rintro _ t ⟨rfl, u, hopens, ht⟩
    refine (hbody ht.stands).bind fun _ v hv => (tries_advance hv.stands TokenKind.blockEnd.mark).bind fun _ w hw =>
      (tries_finishFunction hw.stands).bind ?_
    rintro r x ⟨y, hy, hends⟩
    refine .of_run rfl (fun hf => hf ?_) ⟨u, y, hopens, ?_, ?_, rfl, hends.store⟩
    · exact hends.errors.trans hy.stands.describes.ready.errors
    · simpa [Decl.functionEvents, TokenKind.event] using ht.trans (hv.trans (hw.trans hy))
    · obtain ⟨hcurrent, hupcoming, hprevious, hlast⟩ := hends.tokens
      exact ⟨hcurrent, hupcoming, hprevious, hlast⟩
  refine (hmakes.also (effect_compileFunction h.describes hd he)).mono ?_
  rintro r t ⟨⟨u, v, hopens, hv, htokens, hdraft, hstore⟩, rfl, hemits, hsound, -⟩
  obtain ⟨hadd, hfunctions⟩ := hv.objects hopens.bytecode hstore
  have hext : s.store.Extends t.store := hopens.store.trans (hv.store.trans hadd)
  refine ⟨rfl, hsound, ⟨hemits.describes, fun n => ?_, ?_⟩, hdraft, hext, ?_⟩
  · rw [trail_eq htokens, hv.stands.trail, Progress.words_after]
  · rw [hdraft]
    exact h.holds.of_store hext
  · rwa [hopens.functions] at hfunctions

theorem tries_writeFunction (h : Stands line c p s) {x : String} {xs : List String} (hn : xs.Nodup)
    (hle : xs.length ≤ 255) {body : Action Unit} [Enduring body] {inner : List Event} {P : Prop}
    (hd : d.functions = c.functions + Decl.listFunctionCount ds)
    (he : ∀ {t}, xs.Nodup → Describes (c.inside xs) t → Effect P body t fun _ u =>
      Yields d (fun κ is => Decl.ListCode κ (.function xs) c.functions ds is) t u)
    (hbody : ∀ {p t}, Stands line (c.inside xs) p t → Tries body t fun _ u => Traces line d p inner t u) :
    Tries (Decl.writeFunction x xs body) s fun _ t =>
      Traces line { c.add .one with functions := c.functions + Decl.listFunctionCount ds + 1 } p
        [.function ⟨c.functions + Decl.listFunctionCount ds⟩ (Decl.functionEvents xs inner)] s t := by
  refine .of_run_eq (run_writeFunction x xs body s) ((tries_compileFunction h hn hle hd he hbody).bind ?_)
  rintro r t ⟨rfl, hsound, ht⟩
  exact (tries_emitConstant ht.stands (e := .function _) rfl rfl hsound).mono fun _ u hu => ht.traces hu

/-! ### Declarations -/

mutual

theorem tries_write (d : Decl) (hw : AllSpelled d.words) {c : Context} {p : Progress} {s : State}
    (hp : c.pending = none) (h : Stands line c p s) (hs : d.Suits c.scope) :
    Tries d.write s fun _ t => Traces line (d.after c) p (d.events c.scope c.functions) s t := by
  have hc : ∀ n : Needs, c.add n = ⟨c.scope, none, c.needs + n, c.functions⟩ := fun n => by
    rw [Context.add, ← hp]
  have hnone : ∀ {e : Expr}, e.Suits none → e.Suits c.pending := fun he => hp ▸ he
  cases d with
  | expression e =>
    refine (tries_write_expr e hw h (hnone hs.expression)).bind fun _ t ht =>
      (tries_emit ht.stands rfl).mono fun _ u hu => ?_
    rw [Expr.after, hc] at hu
    exact ht.trans hu
  | print e es =>
    obtain ⟨he, hes⟩ := hs.print
    refine (tries_advance h TokenKind.print.mark).bind fun _ t ht =>
      (tries_write_expr e (hw.of_subset Decl.words_subset_print.1) ht.stands (hnone he)).bind fun _ u hu =>
        (tries_emit hu.stands rfl).bind fun _ v hv =>
          (tries_writeItems es (hw.of_subset Decl.words_subset_print.2) (c := e.after c) hv.stands
            (hp ▸ hes)).bind fun _ w hw => (tries_advance hw.stands TokenKind.outEnd.mark).mono fun _ x hx => ?_
    have hend := ht.trans (hu.trans (hv.trans (hw.trans hx)))
    rw [Expr.after, Expr.allAfter_add, hc] at hend
    exact hend
  | read form x =>
    refine (tries_advance h TokenKind.read.mark).bind fun _ t ht => (tries_advance ht.stands form.kind.mark).bind
      fun _ t' ht' => (tries_emit ht'.stands (by cases form <;> rfl)).bind fun _ u hu =>
        (tries_advance hu.stands ⟨.ident, x⟩).bind fun _ u' hu' =>
          (tries_accessTo hu'.stands (x := x) (by simp [hp])).bind ?_
    rintro a v ⟨hv, ha⟩
    refine (tries_access hv.stands ha).2.bind fun _ w hw => (tries_emit hw.stands rfl).bind fun _ y hy =>
      (tries_advance hy.stands TokenKind.readEnd.mark).mono fun _ z hz => ?_
    have hend := ht.trans (ht'.trans (hu.trans (hu'.trans (hv.trans (hw.trans (hy.trans hz))))))
    rw [hc] at hend
    exact hend
  | if_ e ds =>
    obtain ⟨he, hbody, hle⟩ := hs.if_
    have hds : TriesList line (e.after c).enter ds := fun h' => tries_writeList ds
      (hw.of_subset Decl.words_subset_if.2) (c := (e.after c).enter) hp h' hbody
    refine (tries_advance h TokenKind.if_.mark).bind fun _ t ht =>
      (tries_write_expr e (hw.of_subset Decl.words_subset_if.1) ht.stands (hnone he)).bind fun _ u hu =>
        tries_thenBlock (c := e.after c) hds hp hu.stands hle fun hv =>
          (tries_closeJump _ [Opcode.pop.event] rfl hv rfl rfl (by decide)).mono fun _ w hw => ?_
    rw [Decl.after_if]
    exact ht.trans (hu.trans hw)
  | ifElse e ds es =>
    obtain ⟨he, ⟨hbody, hle⟩, hother, hle'⟩ := hs.ifElse
    have hds : TriesList line (e.after c).enter ds := fun h' => tries_writeList ds
      (hw.of_subset Decl.words_subset_ifElse.2.1) (c := (e.after c).enter) hp h' hbody
    have hes : TriesList line ((e.after c).afterBlock ds).enter es := fun h' => tries_writeList es
      (hw.of_subset Decl.words_subset_ifElse.2.2)
      (c := ((e.after c).afterBlock ds).enter) rfl h' hother
    refine (tries_advance h TokenKind.if_.mark).bind fun _ t ht =>
      (tries_write_expr e (hw.of_subset Decl.words_subset_ifElse.1) ht.stands (hnone he)).bind fun _ u hu =>
        tries_thenBlock (c := e.after c) hds hp hu.stands hle fun hv =>
          (tries_advance hv.stands TokenKind.else_.mark).bind fun _ w hw =>
            (tries_advance hw.stands TokenKind.blockStart.mark).bind fun _ x hx =>
              (tries_writeBlock (c := (e.after c).afterBlock ds) hes rfl hx.stands).bind fun _ y hy => ?_
    have hall := hv.trans (hw.trans (hx.trans hy))
    rw [List.append_assoc] at hall
    refine (tries_closeJump _ _ rfl hall rfl (m := Decl.blockSize es + 1) ?_ hle').mono fun _ z hz => ?_
    · simp [Opcode.event, Instr.size, Opcode.width]
      omega
    · rw [Decl.after_ifElse]
      exact ht.trans (hu.trans hz)
  | until_ e ds =>
    obtain ⟨he, hbody, hle⟩ := hs.until_
    have hds : TriesList line (e.after c).enter ds := fun h' => tries_writeList ds
      (hw.of_subset Decl.words_subset_until.2) (c := (e.after c).enter) hp h' hbody
    refine (tries_advance h TokenKind.loop.mark).bind fun _ t ht =>
      ((effect_codeSize ht.stands.describes).tries trivial).bind ?_
    rintro _ _ ⟨rfl, rfl⟩
    refine (tries_write_expr e (hw.of_subset Decl.words_subset_until.1) ht.stands (hnone he)).bind fun _ u hu => ?_
    have huntil := tries_until (c := e.after c) hds hp hu (by rwa [Expr.size_events])
    refine huntil.mono fun _ v hv => ?_
    rw [Expr.size_events] at hv
    rw [Decl.after_until]
    exact ht.trans hv
  | out value =>
    cases value with
    | none =>
      refine (tries_advance h TokenKind.out.mark).bind fun _ t ht =>
        ((effect_checkInFunction ht.stands.describes).tries hs.out_none).bind ?_
      rintro _ _ rfl
      refine (tries_advance ht.stands TokenKind.outEnd.mark).bind fun _ u hu => (tries_emitReturn hu.stands).mono
        fun _ v hv => ?_
      rw [Decl.after_out_none hp]
      exact ht.trans (hu.trans hv)
    | some e =>
      obtain ⟨hin, he⟩ := hs.out_some
      refine (tries_advance h TokenKind.out.mark).bind fun _ t ht =>
        ((effect_checkInFunction ht.stands.describes).tries hin).bind ?_
      rintro _ _ rfl
      refine (tries_write_expr e (hw.of_subset Decl.words_subset_out) ht.stands (hnone he)).bind fun _ u hu =>
        (tries_advance hu.stands TokenKind.outEnd.mark).bind fun _ v hv =>
          (tries_emit hv.stands rfl).mono fun _ w hw => ?_
      have hend := ht.trans (hu.trans (hv.trans hw))
      rw [Expr.after, hc] at hend
      exact hend
  | block mark ds =>
    have hds : TriesList line c.enter ds := fun h' => tries_writeList ds
      (hw.of_subset Decl.words_subset_block) (c := c.enter) hp h' hs.block
    exact (tries_advance h mark.kind.mark).bind fun _ t ht => (tries_writeBlock hds hp ht.stands).mono
      fun _ u hu => ht.trans hu
  | var x initial =>
    cases initial with
    | none =>
      have hadmits := hs.var_none h.describes.live_le
      refine (tries_advance h TokenKind.var.mark).bind fun _ t ht => (tries_writeNewName ht.stands hp hadmits).bind ?_
      rintro i u ⟨hu, hi⟩
      refine (tries_emit hu.stands rfl).bind fun _ v hv => (tries_settleVariable (x := x) hv.stands
        (effect_bringInScope hv.stands.describes (x := x) rfl) hi).mono fun _ w hw => ?_
      exact ht.trans (hu.trans (hv.trans hw))
    | some e =>
      obtain ⟨hadmits, he⟩ := hs.var_some h.describes.live_le
      refine (tries_advance h TokenKind.var.mark).bind fun _ t ht => (tries_writeNewName ht.stands hp hadmits).bind ?_
      rintro i u ⟨hu, hi⟩
      refine (tries_advance hu.stands TokenKind.assign.mark).bind fun _ u' hu' =>
        (tries_write_expr e (hw.of_subset Decl.words_subset_var) hu'.stands he).bind fun _ v hv =>
          (tries_settleVariable (x := x) hv.stands (effect_bringInScope hv.stands.describes (x := x) rfl)
            fun hl => ((hi hl).after _).after _).mono fun _ w hw => ?_
      have hend := ht.trans (hu.trans (hu'.trans (hv.trans hw)))
      rw [Expr.after_add] at hend
      exact hend
  | fun_ x xs ds =>
    obtain ⟨hadmits, ⟨hn, hle⟩, hbody⟩ := hs.fun_ h.describes.live_le
    have hwd : AllSpelled (Decl.listWords ds) := hw.of_subset Decl.words_subset_fun
    refine (tries_advance h TokenKind.fun_.mark).bind fun _ t ht => (tries_writeNewName ht.stands hp hadmits).bind ?_
    rintro i u ⟨hu, hi⟩
    refine (tries_bringInScope hu.stands (effect_bringInScope hu.stands.describes (x := x) rfl)).bind fun _ v hv =>
      (tries_writeFunction hv.stands hn hle (d := Decl.listAfter (c.inside xs) ds) rfl
        (fun hn' hd => effect_writeList ds hwd (c := c.inside xs) rfl (fun _ => List.nodup_reverse.2 hn') hd)
        fun h' => tries_writeList ds hwd (c := c.inside xs) rfl h' hbody).bind fun _ w hw => ?_
    have hagain := effect_bringInScope_again hw.stands.describes (σ := c.scope) (x := x) rfl rfl
    refine (tries_settleVariable (x := x) hw.stands hagain fun hl => ?_).mono fun _ z hz => ?_
    · refine ((hi ?_).after _).after _
      rw [← c.scope.isLocal_declare x]
      exact hl
    · have hend := ht.trans (hu.trans (hv.trans (hw.trans hz)))
      rw [Decl.after_fun, Decl.events, ← c.scope.isLocal_declare x]
      exact hend

theorem tries_writeList (ds : List Decl) (hw : AllSpelled (Decl.listWords ds)) {c : Context} {p : Progress}
    {s : State} (hp : c.pending = none) (h : Stands line c p s) (hs : Decl.ListSuits c.scope ds) :
    Tries (Decl.writeList ds) s fun _ t =>
      Traces line (Decl.listAfter c ds) p (Decl.listEvents c.scope c.functions ds) s t := by
  cases ds with
  | nil =>
    have hafter : Decl.listAfter c [] = c := by
      rw [Decl.listAfter, Decl.listNeeds, Needs.add_zero, ← hp]
      rfl
    rw [hafter]
    exact .pure h.describes.not_failed h.refl
  | cons d ds =>
    obtain ⟨hd, hds⟩ := hs.cons
    refine (tries_write d (hw.of_subset Decl.words_subset_list.1) hp h hd).bind fun _ t ht =>
      (tries_writeList ds (hw.of_subset Decl.words_subset_list.2) (c := d.after c) rfl ht.stands
        hds).mono fun _ u hu => ?_
    rw [Decl.listAfter_cons] at hu
    exact ht.trans hu

end

end Compiler

/-! ### Programs -/

/-- The line of a word of a source, counted from one on. Behind the last one comes the end of the source, and in front of
the first one there is no line. -/
def TokenStream.wordLine (source : TokenStream) : Nat → Nat
  | 0 => 0
  | n + 1 => (source.lexemes.map Lexeme.line)[n]?.getD source.lastLine

namespace Compiler
variable {source : TokenStream} {store : Store} {printCode : Bool} {ds : List Decl}

theorem stands_start (hf : source.IsFaultless) :
    Stands source.wordLine { scope := .script, functions := store.functions.size } ⟨0, []⟩
      (State.start source store printCode).advance := by
  have hstart : Describes { scope := .script, functions := store.functions.size } (.start source store printCode) :=
    describes_start hf
  obtain ⟨current, upcoming, heq, -⟩ := advance_eq hstart.faultless
  refine ⟨((effect_advance hstart).result trivial).describes, fun n => ?_, ?_⟩
  · rw [trail_advance hstart.faultless, Nat.zero_add]
    cases n <;> rfl
  · rw [heq]
    exact ⟨.nil, by simp [State.start], by simp⟩

theorem tries_writeProgram (store : Store) (printCode : Bool) (hf : source.IsFaultless)
    (hw : AllSpelled (Decl.listWords ds)) (hl : IsLegalButConstants ds) :
    Tries (Decl.writeProgram ds) (.start source store printCode) fun _ t =>
      ∃ fs, t.store.functions.toList = store.functions.toList ++ fs ∧
        List.Forall₂ (fun h f => f.Tells t.store source.wordLine h)
          (Decl.programHistories store.functions.size ds) fs := by
  have hs : Stands source.wordLine _ _ (State.start source store printCode).advance := stands_start hf
  have hstart : Describes { scope := .script, functions := store.functions.size } (.start source store printCode) :=
    describes_start hf
  obtain ⟨current, upcoming, heq, -⟩ := advance_eq hstart.faultless
  refine .of_run_eq (run_advance_bind _ _) ?_
  refine (tries_writeList ds hw rfl hs ⟨hl.regular, fun hlocal => absurd hlocal Bool.false_ne_true⟩).bind fun _ t ht =>
    (tries_advance ht.stands TokenKind.eof.mark).bind fun _ u hu => (tries_finishFunction hu.stands).mono ?_
  rintro r w ⟨v, hv, hends⟩
  have hall := ht.trans (hu.trans hv)
  obtain ⟨-, hfunctions⟩ := hall.objects (by rw [heq]; rfl) hends.store
  rw [heq] at hfunctions
  exact hfunctions

end Compiler

/-- The functions that a source is compiled to are what the histories of its program tell. -/
theorem tells_of_ok {source : String} {store : Store} {printCode : Bool} {r : FunctionRef}
    (h : (compile source store printCode).result = .ok r) :
    ∃ ds fs, (TokenStream.ofSource source).Reads ds ∧
      (compile source store printCode).store.functions.toList = store.functions.toList ++ fs ∧
      List.Forall₂ (fun history f => f.Tells (compile source store printCode).store
        (TokenStream.ofSource source).wordLine history)
        (Decl.programHistories store.functions.size ds) fs := by
  obtain ⟨ds, hreads⟩ := reads_of_ok h
  have hwords := hreads.words ▸ allSpelled_words source
  have hf := (Compiler.effect_writeProgram store printCode hreads.faultless hwords).succeeds.2 hreads.legal
  have hrun := Compiler.run_wholeScript (kind_ne_eof source) hreads.faultless hreads.words hreads.program hf
  obtain ⟨fs, hfs, hall⟩ := (Compiler.tries_writeProgram store printCode hreads.faultless hwords
    hreads.legal.butConstants).result hf
  rw [← hrun] at hfs hall
  exact ⟨ds, fs, hreads, hfs, hall⟩

end StackScript
