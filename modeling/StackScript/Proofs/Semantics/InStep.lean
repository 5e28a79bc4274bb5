import StackScript.Proofs.Semantics.Operation
import StackScript.Proofs.Semantics.Renumbered

/-! Walks in step: they know the same functions under different numbers and stand in different places, but go the same way
for as long as the console does not fail. -/
namespace StackScript

/-- A console that does not fail. -/
structure Console.Reliable (c : Console) : Prop where
  readable : c.inputBroken = false
  writable : c.room = none
  flushable : c.failingFlush = none

namespace Console.Reliable
variable {c : Console}

theorem write (h : c.Reliable) (bytes : ByteArray) :
    c.write bytes = (.ok (), { c with output := c.output ++ bytes }) := by
  rw [Console.write, h.writable]

theorem flush (h : c.Reliable) : c.flush = (.ok (), { c with flushes := c.flushes + 1 }) := by
  have hgood : c.failingFlush ≠ some (c.flushes + 1) := by
    rw [h.flushable]
    exact (Option.some_ne_none _).symm
  rw [Console.flush, if_neg hgood]

theorem readLine (h : c.Reliable) :
    c.readLine = (.ok (Console.splitLine c.input).1, { c with input := (Console.splitLine c.input).2 }) :=
  if_neg fun hbroken => Bool.noConfusion (h.readable.symm.trans hbroken.1)

end Console.Reliable

/-- Consoles that do not fail, with the same input left and the same output written. -/
structure Console.Level (c d : Console) : Prop where
  input : c.input = d.input
  output : c.output = d.output
  left : c.Reliable
  right : d.Reliable

namespace Console.Level
variable {c d : Console}

theorem write (h : c.Level d) (bytes : ByteArray) :
    ∃ a, (c.write bytes).1 = .ok a ∧ (d.write bytes).1 = .ok a ∧ (c.write bytes).2.Level (d.write bytes).2 := by
  rw [h.left.write, h.right.write]
  exact ⟨_, rfl, rfl, h.input, congrArg (· ++ bytes) h.output, ⟨h.left.readable, h.left.writable, h.left.flushable⟩,
    ⟨h.right.readable, h.right.writable, h.right.flushable⟩⟩

theorem flush (h : c.Level d) : ∃ a, c.flush.1 = .ok a ∧ d.flush.1 = .ok a ∧ c.flush.2.Level d.flush.2 := by
  rw [h.left.flush, h.right.flush]
  exact ⟨_, rfl, rfl, h.input, h.output, ⟨h.left.readable, h.left.writable, h.left.flushable⟩,
    ⟨h.right.readable, h.right.writable, h.right.flushable⟩⟩

theorem readLine (h : c.Level d) :
    ∃ a, c.readLine.1 = .ok a ∧ d.readLine.1 = .ok a ∧ c.readLine.2.Level d.readLine.2 := by
  rw [h.left.readLine, h.right.readLine, h.input]
  exact ⟨_, rfl, rfl, rfl, h.output, ⟨h.left.readable, h.left.writable, h.left.flushable⟩,
    ⟨h.right.readable, h.right.writable, h.right.flushable⟩⟩

end Console.Level

/-- Surroundings that differ in the place only. -/
structure Surroundings.Near (c d : Surroundings) : Prop where
  limits : c.toLimits = d.toLimits
  active : c.active = d.active
  held : c.held = d.held

namespace Surroundings.Near
variable {c d : Surroundings}

theorem hold (h : c.Near d) : c.hold.Near d.hold := ⟨h.limits, h.active, congrArg (· + 1) h.held⟩

theorem skip (h : c.Near d) (m n : Nat) : (c.skip m).Near (d.skip n) := ⟨h.limits, h.active, h.held⟩

end Surroundings.Near

/-- The functions of the host do not tell numbers apart. -/
def Limits.Uniform (l : Limits) (p : Pairing) : Prop :=
  ∀ {r host ds ds'}, l.hosts r = some host → List.Forall₂ (Datum.Renumbered p) ds ds' →
    (host.call ds).Renumbered p (host.call ds')

/-- Worlds that are the same but for the numbers of functions. -/
structure World.Renumbered (p : Pairing) (w w' : World) : Prop where
  globals : ∀ x, Option.Rel (Datum.Renumbered p) (w.globals x) (w'.globals x)
  console : w.console.Level w'.console

/-- Local variables that are the same, those of the names that can be seen. -/
def SameLocals (p : Pairing) (seen : String → Prop) : List (String × Datum) → List (String × Datum) → Prop :=
  List.Forall₂ fun a b => a.1 = b.1 ∧ (seen a.1 → a.2.Renumbered p b.2)

structure Scene.Renumbered (p : Pairing) (seen : String → Prop) (s s' : Scene) : Prop where
  world : s.toWorld.Renumbered p s'.toWorld
  locals : SameLocals p seen s.locals s'.locals

/-- What two walks come to that are in step. -/
inductive SameCourse (p : Pairing) (seen : String → Prop) {α β : Type} (post : α → β → Prop) :
    EStateM.Result Stop Scene α → EStateM.Result Stop Scene β → Prop
  | arrives {a : α} {b : β} {s s' : Scene} (h : post a b) (hs : s.Renumbered p seen s') :
      SameCourse p seen post (.ok a s) (.ok b s')
  | fails {e : RuntimeError} {place place' : Nat} {names : List (Option String)} {s s' : Scene}
      (hs : s.toWorld.Renumbered p s'.toWorld) :
      SameCourse p seen post (.error (.failed e place names) s) (.error (.failed e place' names) s')
  | tires {s s' : Scene} : SameCourse p seen post (.error .tired s) (.error .tired s')

/-- Walks that come to the same from wherever they start. -/
structure InStep (p : Pairing) (seen : String → Prop) {α β : Type} (post : α → β → Prop) (x : Walk α) (y : Walk β) : Prop where
  course : ∀ {s s' : Scene}, s.Renumbered p seen s' → SameCourse p seen post (x.run s) (y.run s')

section
variable {p : Pairing} {seen seen' : String → Prop} {α β α' β' : Type} {post : α → β → Prop} {post' : α' → β' → Prop}
  {c c' : Surroundings} {d d' : Datum} {s s' : Scene} {x : String}

/-! ### Variables -/

theorem SameLocals.lookup {l l' : List (String × Datum)} (h : SameLocals p seen l l') (hx : seen x) :
    Option.Rel (Datum.Renumbered p) (l.lookup x) (l'.lookup x) := by
  induction h with
  | nil => exact .none
  | @cons a b l l' hab _ ih =>
    obtain ⟨y, v⟩ := a
    obtain ⟨z, w⟩ := b
    obtain ⟨rfl, hv⟩ := hab
    rw [List.lookup_cons, List.lookup_cons]
    cases hxy : x == y with
    | true =>
      obtain rfl := beq_iff_eq.1 hxy
      exact .some (hv hx)
    | false => exact ih

theorem SameLocals.names {l l' : List (String × Datum)} (h : SameLocals p seen l l') :
    l.map Prod.fst = l'.map Prod.fst := by
  induction h with
  | nil => rfl
  | cons hab _ ih => rw [List.map_cons, List.map_cons, hab.1, ih]

theorem SameLocals.assign? {l l' : List (String × Datum)} (h : SameLocals p seen l l') (hd : d.Renumbered p d') :
    Option.Rel (SameLocals p seen) (Scene.assignLocal? x d l) (Scene.assignLocal? x d' l') := by
  induction h with
  | nil => exact .none
  | @cons a b l l' hab hrest ih =>
    obtain ⟨y, v⟩ := a
    obtain ⟨z, w⟩ := b
    obtain ⟨rfl, hv⟩ := hab
    rw [Scene.assignLocal?, Scene.assignLocal?]
    dsimp only
    split
    · exact .some (.cons ⟨rfl, fun _ => hd⟩ hrest)
    · generalize Scene.assignLocal? x d l = o at ih
      generalize Scene.assignLocal? x d' l' = o' at ih
      cases ih with
      | none => exact .none
      | some h => exact .some (.cons ⟨rfl, hv⟩ h)

theorem World.Renumbered.define {w w' : World} (h : w.Renumbered p w') (hd : d.Renumbered p d') (x : String) :
    World.Renumbered p { w with globals := fun y => if y = x then some d else w.globals y }
      { w' with globals := fun y => if y = x then some d' else w'.globals y } := by
  refine ⟨fun y => ?_, h.console⟩
  dsimp only
  split
  · exact .some hd
  · exact h.globals y

theorem Scene.Renumbered.define (h : s.Renumbered p seen s') (hd : d.Renumbered p d') (x : String) :
    (s.define x d).Renumbered p seen (s'.define x d') := ⟨h.world.define hd x, h.locals⟩

theorem Scene.Renumbered.find? (h : s.Renumbered p seen s') (hx : seen x) :
    Option.Rel (Datum.Renumbered p) (s.find? x) (s'.find? x) := by
  have hlocal := h.locals.lookup hx
  rw [Scene.find?, Scene.find?]
  generalize s.locals.lookup x = o at hlocal
  generalize s'.locals.lookup x = o' at hlocal
  cases hlocal with
  | none => exact h.world.globals x
  | some hd => exact .some hd

theorem Scene.Renumbered.assign? (h : s.Renumbered p seen s') (hd : d.Renumbered p d') :
    Option.Rel (Scene.Renumbered p seen) (s.assign? x d) (s'.assign? x d') := by
  have hlocal := h.locals.assign? (x := x) hd
  have hglobal := h.world.globals x
  rw [Scene.assign?, Scene.assign?]
  generalize Scene.assignLocal? x d s.locals = o at hlocal
  generalize Scene.assignLocal? x d' s'.locals = o' at hlocal
  cases hlocal with
  | some hl => exact .some ⟨h.world, hl⟩
  | none =>
    dsimp only
    generalize s.globals x = g at hglobal
    generalize s'.globals x = g' at hglobal
    cases hglobal with
    | none => exact .none
    | some _ => exact .some (h.define hd x)

/-! ### Single actions -/

namespace InStep

theorem pure {a : α} {b : β} (h : post a b) : InStep p seen post (Pure.pure a) (Pure.pure b) :=
  ⟨fun hs => .arrives h hs⟩

theorem bind {x : Walk α} {y : Walk β} {f : α → Walk α'} {g : β → Walk β'} (h : InStep p seen post x y)
    (hf : ∀ {a b}, post a b → InStep p seen post' (f a) (g b)) : InStep p seen post' (x >>= f) (y >>= g) := by
  refine ⟨fun {s s'} hs => ?_⟩
  rw [EStateM.run_bind, EStateM.run_bind]
  have hxy := h.course hs
  generalize x.run s = r at hxy
  generalize y.run s' = r' at hxy
  cases hxy with
  | arrives h hs => exact (hf h).course hs
  | fails hs => exact .fails hs
  | tires => exact .tires

/-- What is done may depend on the scene. -/
theorem get_bind {f : Scene → Walk α} {g : Scene → Walk β}
    (hf : ∀ {s s'}, s.Renumbered p seen s' → SameCourse p seen post ((f s).run s) ((g s').run s')) :
    InStep p seen post (get >>= f) (get >>= g) := ⟨fun hs => hf hs⟩

theorem fail (hc : c.Near c') (e : RuntimeError) :
    InStep p seen post (Walk.fail c e) (Walk.fail c' e) := by
  refine ⟨fun {s s'} hs => ?_⟩
  rw [Walk.fail, Walk.fail, hc.active]
  exact .fails hs.world

theorem orFail (hc : c.Near c') {o o' : Except RuntimeError Datum} (h : Datum.SameResult p o o') :
    InStep p seen (Datum.Renumbered p) (Walk.orFail c o) (Walk.orFail c' o') := by
  cases o with
  | ok d =>
    cases o' with
    | ok e => exact ⟨fun hs => .arrives h hs⟩
    | error e => exact h.elim
  | error e =>
    cases o' with
    | ok e => exact h.elim
    | error e' =>
      obtain rfl : e = e' := h
      exact fail hc e

theorem produce (hc : c.Near c') (h : d.Renumbered p d') :
    InStep p seen (Datum.Renumbered p) (Walk.produce c d) (Walk.produce c' d') := by
  refine ⟨fun {s s'} hs => ?_⟩
  have hspace : c.space = c'.space := congrArg Limits.space hc.limits
  have hfull : c.space ≤ c.held + s.locals.length ↔ c'.space ≤ c'.held + s'.locals.length := by
    rw [hspace, hc.held, hs.locals.length_eq]
  change SameCourse p seen _ (if _ then _ else _) (if _ then _ else _)
  by_cases hle : c.space ≤ c.held + s.locals.length
  · rw [if_pos hle, if_pos (hfull.1 hle), hc.active]
    exact .fails hs.world
  · rw [if_neg hle, if_neg (mt hfull.2 hle)]
    exact .arrives h hs

/-- What a console does that does not fail. -/
theorem withConsole (f : Console → Except ConsoleError α × Console)
    (hf : ∀ {k k' : Console}, k.Level k' → ∃ a, (f k).1 = .ok a ∧ (f k').1 = .ok a ∧ (f k).2.Level (f k').2) :
    InStep p seen Eq (Walk.withConsole c f) (Walk.withConsole c' f) := by
  refine ⟨fun {s s'} hs => ?_⟩
  obtain ⟨a, ha, ha', hlevel⟩ := hf hs.world.console
  rw [EStateM.run, EStateM.run, Walk.withConsole, Walk.withConsole]
  generalize f s.console = r at ha hlevel
  generalize f s'.console = r' at ha' hlevel
  obtain ⟨_, k⟩ := r
  obtain ⟨_, k'⟩ := r'
  obtain rfl := ha
  obtain rfl := ha'
  exact .arrives rfl ⟨⟨hs.world.globals, hlevel⟩, hs.locals⟩

theorem lookup (hc : c.Near c') (hx : seen x) :
    InStep p seen (Datum.Renumbered p) (Walk.lookup c x) (Walk.lookup c' x) := by
  refine get_bind fun {s s'} hs => ?_
  have hfind := hs.find? hx
  generalize s.find? x = o at hfind
  generalize s'.find? x = o' at hfind
  cases hfind with
  | none => exact (fail hc _).course hs
  | some hd => exact (produce hc hd).course hs

theorem assign (hc : c.Near c') (hd : d.Renumbered p d') :
    InStep p seen (Datum.Renumbered p) (Walk.assign c x d) (Walk.assign c' x d') := by
  refine get_bind fun {s s'} hs => ?_
  have hassign := hs.assign? (x := x) hd
  generalize s.assign? x d = o at hassign
  generalize s'.assign? x d' = o' at hassign
  cases hassign with
  | none => exact (fail hc _).course hs
  | some h => exact .arrives hd h

theorem declare (isLocal : Bool) (x : String) (hd : d.Renumbered p d') :
    InStep p seen (fun _ _ => True) (Walk.declare isLocal x d) (Walk.declare isLocal x d') := by
  refine ⟨fun {s s'} hs => ?_⟩
  refine .arrives trivial ?_
  cases isLocal with
  | true => exact ⟨hs.world, .cons ⟨rfl, fun _ => hd⟩ hs.locals⟩
  | false => exact hs.define hd x

theorem inBlock {x : Walk α} {y : Walk β} (h : InStep p seen post x y) :
    InStep p seen post (Walk.inBlock x) (Walk.inBlock y) := by
  refine get_bind fun {s s'} hs => ?_
  have houter : s.locals.length = s'.locals.length := hs.locals.length_eq
  rw [houter]
  refine (bind h fun {a b} hab => ⟨fun {t t'} ht => ?_⟩).course hs
  have hlength : t.locals.length = t'.locals.length := ht.locals.length_eq
  refine .arrives hab ⟨ht.world, ?_⟩
  change SameLocals p seen (t.locals.drop (t.locals.length - _)) (t'.locals.drop (t'.locals.length - _))
  rw [hlength]
  exact List.forall₂_drop _ ht.locals

theorem withLocals {own own' : List (String × Datum)} (hown : SameLocals p seen' own own') {x : Walk α} {y : Walk β}
    (h : InStep p seen' post x y) : InStep p seen post (Walk.withLocals own x) (Walk.withLocals own' y) := by
  refine get_bind fun {s s'} hs => ?_
  have hbody : SameCourse p seen' post (x.run { s with locals := own }) (y.run { s' with locals := own' }) :=
    h.course ⟨hs.world, hown⟩
  change SameCourse p seen post ((x >>= fun a => do
      modify fun t => { t with locals := s.locals }
      return a).run { s with locals := own })
    ((y >>= fun b => do
      modify fun t => { t with locals := s'.locals }
      return b).run { s' with locals := own' })
  rw [EStateM.run_bind, EStateM.run_bind]
  generalize x.run { s with locals := own } = r at hbody
  generalize y.run { s' with locals := own' } = r' at hbody
  cases hbody with
  | arrives h ht => exact .arrives h ⟨ht.world, hs.locals⟩
  | fails ht => exact .fails ht
  | tires => exact .tires

theorem print (hd : d.Renumbered p d') : InStep p seen Eq (Walk.print c d) (Walk.print c' d') := by
  rw [Walk.print, Walk.print, hd.bytes_eq]
  exact withConsole _ fun hk => hk.write _

theorem read (hc : c.Near c') (form : InputForm) :
    InStep p seen (Datum.Renumbered p) (Walk.read c form) (Walk.read c' form) := by
  have hline : InStep p seen Eq (Walk.readLine c) (Walk.readLine c') :=
    bind (withConsole _ Console.Level.flush) fun _ => withConsole _ Console.Level.readLine
  refine bind hline fun {line line'} hl => ?_
  obtain rfl := hl
  exact produce hc (.input p line form)

/-- Loops whose conditions and bodies are in step. -/
theorem repeatUntil {condition condition' : Walk Datum} {body body' : Walk (Option Datum)}
    (hcondition : InStep p seen (Datum.Renumbered p) condition condition')
    (hbody : InStep p seen (Option.Rel (Datum.Renumbered p)) body body') (n : Nat) :
    InStep p seen (Option.Rel (Datum.Renumbered p)) (Walk.repeatUntil condition body n)
      (Walk.repeatUntil condition' body' n) := by
  induction n with
  | zero => exact ⟨fun _ => .tires⟩
  | succ n ih =>
    refine bind hcondition fun {v v'} hv => ?_
    rw [hv.isFalsey_eq]
    split
    · refine bind hbody fun {o o'} ho => ?_
      cases ho with
      | some h => exact pure (.some h)
      | none => exact ih
    · exact pure .none

end InStep

/-! ### Calls -/

/-- Walks through functions that take each other's place. -/
def Walk.EntersInStep (p : Pairing) (enter : Walk.Enter) : Prop :=
  ∀ {seen : String → Prop} {c c' : Surroundings} {r r' : FunctionRef} {t t' : FunctionTree} {args args' : List Datum},
    c.Near c' → c.toLimits.Uniform p → p.pairs r r' → t.Renumbered p t' → List.Forall₂ (Datum.Renumbered p) args args' →
    InStep p seen (Datum.Renumbered p) (enter c r t args) (enter c' r' t' args')

theorem InStep.call {enter : Walk.Enter} (henter : Walk.EntersInStep p enter) (hc : c.Near c')
    (hl : c.toLimits.Uniform p) {args args' : List Datum} (hargs : List.Forall₂ (Datum.Renumbered p) args args')
    (hd : d.Renumbered p d') :
    InStep p seen (Datum.Renumbered p) (Walk.call enter c args d) (Walk.call enter c' args' d') := by
  have hlength := hargs.length_eq
  cases hd with
  | @function r r' t t' hr ht =>
    rw [Walk.call, Walk.call, hlength, ht.parameters, hc.active,
      show c.maxFrames = c'.maxFrames from congrArg Limits.maxFrames hc.limits]
    split
    · exact fail hc _
    split
    · exact fail hc _
    refine get_bind fun {s s'} hs => ?_
    have hinner : Surroundings.Near
      { c with active := t.name :: c'.active, held := c.held + s.locals.length, place := 0 }
      { c' with active := t'.name :: c'.active, held := c'.held + s'.locals.length, place := 0 } :=
      ⟨hc.limits, congrArg (List.cons · _) ht.name, congrArg₂ Nat.add hc.held hs.locals.length_eq⟩
    exact (henter hinner hl hr ht hargs).course hs
  | native r =>
    rw [Walk.call, Walk.call, hlength, show c'.hosts = c.hosts from congrArg Limits.hosts hc.limits.symm]
    cases hhost : c.hosts r with
    | none => exact fail hc _
    | some host =>
      dsimp only
      split
      · exact fail hc _
      · exact pure (hl hhost hargs)
  | _ => exact fail hc _

/-! ### Trees -/

section
variable {enter : Walk.Enter}

mutual

/-- An expression comes to the same in both walks, if they agree on the variables that it names. -/
theorem Expr.eval_inStep (henter : Walk.EntersInStep p enter) (e : Expr) {c c' : Surroundings} (hc : c.Near c')
    (hl : c.toLimits.Uniform p) (hseen : ∀ x, ⟨.ident, x⟩ ∈ e.words → seen x) :
    InStep p seen (Datum.Renumbered p) (e.eval enter c) (e.eval enter c') := by
  cases e with
  | literal l =>
    rw [Expr.eval, Expr.eval]
    exact .produce hc (.literal p l)
  | name x =>
    rw [Expr.eval, Expr.eval]
    exact .lookup hc (hseen x (by simp [Expr.words]))
  | group e =>
    rw [Expr.eval, Expr.eval]
    exact eval_inStep henter e hc hl fun x hx => hseen x (Expr.words_subset_group hx)
  | assign x value =>
    rw [Expr.eval, Expr.eval]
    refine .bind (eval_inStep henter value hc hl fun x hx => hseen x (Expr.words_subset_assign hx)) fun hv => ?_
    exact .assign (hc.skip _ _) hv
  | unary op e =>
    rw [Expr.eval, Expr.eval]
    refine .bind (eval_inStep henter e hc hl fun x hx => hseen x (Expr.words_subset_unary hx)) fun hv => ?_
    exact .orFail (hc.skip _ _) (hv.unary op)
  | binary op left right =>
    rw [Expr.eval, Expr.eval]
    refine .bind (eval_inStep henter left hc hl fun x hx => hseen x (Expr.words_subset_binary.1 hx)) fun hv => ?_
    refine .bind (eval_inStep henter right (hc.hold.skip _ _) hl fun x hx => hseen x (Expr.words_subset_binary.2 hx))
      fun hw => ?_
    exact .orFail (hc.skip _ _) (hv.binary op hw)
  | and left right =>
    rw [Expr.eval, Expr.eval]
    refine .bind (eval_inStep henter left hc hl fun x hx => hseen x (Expr.words_subset_and.1 hx)) fun hv => ?_
    rw [hv.isFalsey_eq]
    split
    · exact .pure hv
    · exact eval_inStep henter right (hc.skip _ _) hl fun x hx => hseen x (Expr.words_subset_and.2 hx)
  | or left right =>
    rw [Expr.eval, Expr.eval]
    refine .bind (eval_inStep henter left hc hl fun x hx => hseen x (Expr.words_subset_or.1 hx)) fun hv => ?_
    rw [hv.isFalsey_eq]
    split
    · exact eval_inStep henter right (hc.skip _ _) hl fun x hx => hseen x (Expr.words_subset_or.2 hx)
    · exact .pure hv
  | call callee arguments =>
    rw [Expr.eval, Expr.eval]
    refine .bind (eval_inStep henter callee hc hl fun x hx => hseen x (Expr.words_subset_call.1 hx)) fun hv => ?_
    refine .bind (evalAll_inStep henter arguments (hc.hold.skip _ _) hl
      fun x hx => hseen x (Expr.words_subset_call.2 hx)) fun hargs => ?_
    exact .call henter (hc.skip _ _) hl hargs hv

theorem Expr.evalAll_inStep (henter : Walk.EntersInStep p enter) (es : List Expr) {c c' : Surroundings} (hc : c.Near c')
    (hl : c.toLimits.Uniform p) (hseen : ∀ x, ⟨.ident, x⟩ ∈ Expr.argumentWords es → seen x) :
    InStep p seen (List.Forall₂ (Datum.Renumbered p)) (Expr.evalAll enter c es) (Expr.evalAll enter c' es) := by
  cases es with
  | nil =>
    rw [Expr.evalAll, Expr.evalAll]
    exact .pure .nil
  | cons e es =>
    rw [Expr.evalAll, Expr.evalAll]
    refine .bind (eval_inStep henter e hc hl fun x hx => hseen x (Expr.words_subset_arguments.1 hx)) fun hv => ?_
    refine .bind (evalAll_inStep henter es (hc.hold.skip _ _) hl fun x hx => hseen x (Expr.words_subset_arguments.2 hx))
      fun hvs => ?_
    exact .pure (.cons hv hvs)

end

theorem Expr.printAll_inStep (henter : Walk.EntersInStep p enter) (es : List Expr) {c c' : Surroundings}
    (hc : c.Near c') (hl : c.toLimits.Uniform p) (hseen : ∀ e ∈ es, ∀ x, ⟨.ident, x⟩ ∈ e.words → seen x) :
    InStep p seen Eq (Expr.printAll enter c es) (Expr.printAll enter c' es) := by
  induction es generalizing c c' with
  | nil => exact .pure rfl
  | cons e es ih =>
    rw [Expr.printAll, Expr.printAll]
    refine .bind (Expr.eval_inStep henter e hc hl (hseen e List.mem_cons_self)) fun hv => ?_
    refine .bind (.print hv) fun _ => ?_
    exact ih (hc.skip _ _) hl fun e he => hseen e (List.mem_cons_of_mem _ he)

theorem mem_itemWords {e : Expr} {es : List Expr} (he : e ∈ es) {w : Word} (hw : w ∈ e.words) : w ∈ itemWords es := by
  induction es with
  | nil => cases he
  | cons e' es ih =>
    obtain rfl | he := List.mem_cons.1 he
    · simp [itemWords, hw]
    · simp [itemWords, ih he]

mutual

/-- A declaration comes to the same in both walks, if the functions that it declares take each other's place. -/
theorem Decl.exec_inStep (henter : Walk.EntersInStep p enter) (loops : Nat) (isLocal : Bool) (d : Decl)
    {c c' : Surroundings} {first first' : Nat} (hc : c.Near c') (hl : c.toLimits.Uniform p)
    (hp : p.PairsFrom first first' d.functionCount) (hseen : ∀ x, ⟨.ident, x⟩ ∈ d.words → seen x) :
    InStep p seen (Option.Rel (Datum.Renumbered p)) (d.exec enter loops c isLocal first)
      (d.exec enter loops c' isLocal first') := by
  cases d with
  | expression e =>
    rw [Decl.exec, Decl.exec]
    exact .bind (Expr.eval_inStep henter e hc hl hseen) fun _ => .pure .none
  | print e es =>
    rw [Decl.exec, Decl.exec]
    refine .bind (Expr.printAll_inStep henter (e :: es) hc hl fun e' he x hx => hseen x ?_) fun _ => .pure .none
    obtain rfl | he := List.mem_cons.1 he
    · simp [Decl.words, hx]
    · simp [Decl.words, mem_itemWords he hx]
  | read form x =>
    rw [Decl.exec, Decl.exec]
    refine .bind (.read hc form) fun hv => .bind (.assign (hc.skip _ _) hv) fun _ => .pure .none
  | if_ condition body =>
    rw [Decl.exec, Decl.exec]
    refine .bind (Expr.eval_inStep henter condition hc hl fun x hx => hseen x (Decl.words_subset_if.1 hx)) fun hv => ?_
    rw [hv.isFalsey_eq]
    split
    · exact .pure .none
    · exact .inBlock (Decl.listExec_inStep henter loops true body (hc.skip _ _) hl hp
        fun x hx => hseen x (Decl.words_subset_if.2 hx))
  | ifElse condition body alternative =>
    rw [Decl.exec, Decl.exec]
    refine .bind (Expr.eval_inStep henter condition hc hl fun x hx => hseen x (Decl.words_subset_ifElse.1 hx))
      fun hv => ?_
    rw [hv.isFalsey_eq]
    split
    · exact .inBlock (Decl.listExec_inStep henter loops true alternative (hc.skip _ _) hl hp.right
        fun x hx => hseen x (Decl.words_subset_ifElse.2.2 hx))
    · exact .inBlock (Decl.listExec_inStep henter loops true body (hc.skip _ _) hl hp.left
        fun x hx => hseen x (Decl.words_subset_ifElse.2.1 hx))
  | until_ condition body =>
    rw [Decl.exec, Decl.exec]
    refine .repeatUntil (Expr.eval_inStep henter condition hc hl fun x hx => hseen x (Decl.words_subset_until.1 hx))
      ?_ loops
    exact .inBlock (Decl.listExec_inStep henter loops true body (hc.skip _ _) hl hp
      fun x hx => hseen x (Decl.words_subset_until.2 hx))
  | out value =>
    cases value with
    | none =>
      rw [Decl.exec, Decl.exec]
      exact .bind (.produce hc .null) fun hv => .pure (.some hv)
    | some e =>
      rw [Decl.exec, Decl.exec]
      refine .bind (Expr.eval_inStep henter e hc hl fun x hx => hseen x (Decl.words_subset_out hx)) fun hv => ?_
      exact .pure (.some hv)
  | block mark body =>
    rw [Decl.exec, Decl.exec]
    exact .inBlock (Decl.listExec_inStep henter loops true body hc hl hp
      fun x hx => hseen x (Decl.words_subset_block hx))
  | var x initial =>
    cases initial with
    | none =>
      rw [Decl.exec, Decl.exec]
      exact .bind (.produce hc .null) fun hv => .bind (.declare isLocal x hv) fun _ => .pure .none
    | some e =>
      rw [Decl.exec, Decl.exec]
      refine .bind (Expr.eval_inStep henter e hc hl fun x hx => hseen x (Decl.words_subset_var hx)) fun hv => ?_
      exact .bind (.declare isLocal x hv) fun _ => .pure .none
  | fun_ x parameters body =>
    rw [Decl.exec, Decl.exec]
    have hfunction : Datum.Renumbered p (.function ⟨first + listFunctionCount body⟩ (.named x parameters body first))
        (.function ⟨first' + listFunctionCount body⟩ (.named x parameters body first')) :=
      .function (hp _ (Nat.lt_succ_self _)) ⟨rfl, rfl, rfl, hp.left⟩
    exact .bind (.produce hc hfunction) fun hv => .bind (.declare isLocal x hv) fun _ => .pure .none

theorem Decl.listExec_inStep (henter : Walk.EntersInStep p enter) (loops : Nat) (isLocal : Bool) (ds : List Decl)
    {c c' : Surroundings} {first first' : Nat} (hc : c.Near c') (hl : c.toLimits.Uniform p)
    (hp : p.PairsFrom first first' (listFunctionCount ds)) (hseen : ∀ x, ⟨.ident, x⟩ ∈ listWords ds → seen x) :
    InStep p seen (Option.Rel (Datum.Renumbered p)) (Decl.listExec enter loops c isLocal first ds)
      (Decl.listExec enter loops c' isLocal first' ds) := by
  cases ds with
  | nil =>
    rw [Decl.listExec, Decl.listExec]
    exact .pure .none
  | cons d ds =>
    rw [Decl.listExec, Decl.listExec]
    refine .bind (Decl.exec_inStep henter loops isLocal d hc hl hp.left
      fun x hx => hseen x (Decl.words_subset_list.1 hx)) fun {o o'} ho => ?_
    cases ho with
    | some hv => exact .pure (.some hv)
    | none =>
      exact Decl.listExec_inStep henter loops isLocal ds (hc.skip _ _) hl hp.right
        fun x hx => hseen x (Decl.words_subset_list.2 hx)

end

end

/-! ### Functions -/

/-- The variables of calls of functions that take each other's place. -/
theorem sameLocals_locals {r r' : FunctionRef} {t t' : FunctionTree} {args args' : List Datum} (hr : p.pairs r r')
    (ht : t.Renumbered p t') (hargs : List.Forall₂ (Datum.Renumbered p) args args') :
    SameLocals p seen (t.locals r args) (t'.locals r' args') := by
  have hzip (names : List String) : SameLocals p seen (names.zip args) (names.zip args') := by
    induction hargs generalizing names with
    | nil =>
      rw [List.zip_nil_right]
      exact .nil
    | cons hd _ ih =>
      cases names with
      | nil => exact .nil
      | cons x names => exact .cons ⟨rfl, fun _ => hd⟩ (ih names)
  rw [FunctionTree.locals, FunctionTree.locals, ← ht.parameters]
  exact List.rel_append (List.rel_reverse (hzip _)) (.cons ⟨rfl, fun _ => .function hr ht⟩ .nil)

/-- Functions that take each other's place come to the same, however deep they call each other. -/
theorem invoke_inStep (n : Nat) : Walk.EntersInStep p (Walk.invoke n) := by
  induction n with
  | zero => exact fun _ _ _ _ _ => ⟨fun _ => .tires⟩
  | succ n ih =>
    intro seen c c' r r' t t' args args' hc hl hr ht hargs
    change InStep p seen _ (Walk.withLocals _ _) (Walk.withLocals _ _)
    rw [← ht.name, ← ht.body]
    have hown : SameLocals p (fun _ => True) (t.locals r args) (t'.locals r' args') := sameLocals_locals hr ht hargs
    refine .withLocals hown ?_
    refine .bind (Decl.listExec_inStep ih _ _ t.body hc hl ht.functions fun _ _ => trivial) fun {o o'} ho => ?_
    cases ho with
    | some hv => exact .pure hv
    | none => exact .produce (hc.skip _ _) .null

end

end StackScript
