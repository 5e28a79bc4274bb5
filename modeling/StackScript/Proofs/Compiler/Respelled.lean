import StackScript.Proofs.Compiler.Alike
import StackScript.Proofs.Syntax.Parentheses

/-! Parentheses change nothing of what a tree is compiled to: reading them writes no code. -/
namespace StackScript.Compiler
variable {p : Pairing} {α β : Type}

/-- A function, from its head to the constant that it is left as. -/
theorem match_function {head head' : Action Draft} {body body' close close' : Action Unit}
    (hhead : ∀ {s t}, AlikeStates p s t → Parallel p (fun s t => AlikeDrafts p s t) (head.run s) (head'.run t))
    (hbody : Match p body body') (hclose : Match p close close') (hb : Keeps Grows body) (hb' : Keeps Grows body')
    (hc : Keeps Grows close) (hc' : Keeps Grows close') :
    Match p
      (do
        let outer ← head
        body
        close
        let function ← finishFunction
        modify fun s => { s with draft := outer }
        emitConstant (.function function))
      (do
        let outer ← head'
        body'
        close'
        let function ← finishFunction
        modify fun s => { s with draft := outer }
        emitConstant (.function function)) := fun s t h => by
  refine (hhead h).bind fun {outer outer' s t} h hdraft => ?_
  have hinside := (hbody.seq hclose) s t h
  have hfinish := parallel_finishFunction hinside.1
  have hs : Keeps Grows (body >>= fun _ => close >>= fun _ => finishFunction) := hb.seq (hc.seq keeps_finishFunction)
  have ht : Keeps Grows (body' >>= fun _ => close' >>= fun _ => finishFunction) :=
    hb'.seq (hc'.seq keeps_finishFunction)
  exact parallel_emitConstant (hfinish.1.with_draft (hdraft.mono (hs s) (ht t)) _ _ _ _) (.function hfinish.2)

/-! ### Where tokens do not matter -/

section
variable (hp : ¬p.lines)
include hp

theorem Match.skip {a b : Action α} (h : Match p a b) : Match p (advance >>= fun _ => a) b :=
  fun _ _ hst => h _ _ (hst.advance_left hp)

theorem Match.skip_last {a b : Action Unit} (h : Match p a b) : Match p (a >>= fun _ => advance) b :=
  fun s t hst => ⟨(h s t hst).1.advance_left hp, rfl⟩

end

theorem match_literal (l : Literal) : Match p l.write l.write := by
  cases l with
  | number text =>
    simp only [Literal.write]
    split
    · exact match_emitConstant fun _ _ => .number _
    · exact match_mistake _
  | string text =>
    exact (match_ensure _).seq fun _ _ h => (parallel_intern h _).bind fun k hab =>
      parallel_emitConstant k (.string hab)
  | char text => exact (match_ensure _).seq (match_emitConstant fun _ _ => .char _)
  | newLine => exact match_emitConstant fun _ _ => .char _
  | tab => exact match_emitConstant fun _ _ => .char _
  | true_ => exact match_emit _
  | false_ => exact match_emit _

theorem match_readComma {γ : Type} (xs : List γ) (f : List γ → List γ) (hf : ∀ xs, (f xs).isEmpty = xs.isEmpty) :
    Match p (readComma xs) (readComma (f xs)) := by
  have h := hf xs
  cases xs with
  | nil =>
    cases hfx : f [] with
    | nil => exact .pure _
    | cons y ys => simp [hfx] at h
  | cons x xs =>
    cases hfx : f (x :: xs) with
    | nil => simp [hfx] at h
    | cons y ys => exact match_advance

mutual

theorem match_write_bare (hp : ¬p.lines) (e : Expr) : Match p e.write e.bare.write := by
  cases e with
  | literal l => exact match_advance.seq (match_literal l)
  | name x => exact match_advance.seq <| (match_accessTo x).bind fun _ => match_emitWith _ _
  | group e => exact ((match_write_bare hp e).skip_last hp).skip hp
  | assign x value =>
    exact match_advance.seq <| (match_accessTo x).bind fun _ => match_advance.seq <|
      (match_write_bare hp value).seq (match_emitWith _ _)
  | unary op e => exact match_advance.seq <| (match_write_bare hp e).seq (match_emit _)
  | binary op left right =>
    exact (match_write_bare hp left).seq <| match_advance.seq <| (match_write_bare hp right).seq (match_emit _)
  | and left right =>
    exact (match_write_bare hp left).seq <| match_advance.seq <| (match_openJump _).bind fun _ =>
      (match_emit _).seq <| (match_write_bare hp right).seq (match_closeJump _)
  | or left right =>
    exact (match_write_bare hp left).seq <| match_advance.seq <| (match_openJump _).bind fun _ =>
      (match_emit _).seq <| (match_write_bare hp right).seq (match_closeJump _)
  | call callee arguments =>
    exact (match_write_bare hp callee).seq <| match_advance.seq <| (match_writeArguments_bare hp 0 arguments).bind
      fun _ =>
      match_advance.seq (match_emitWith _ _)

theorem match_writeArguments_bare (hp : ¬p.lines) (count : Nat) (es : List Expr) :
    Match p (Expr.writeArguments count es) (Expr.writeArguments count (Expr.allBare es)) := by
  cases es with
  | nil => exact .pure _
  | cons e es =>
    refine (match_write_bare hp e).seq <| (match_countArgument count).bind fun count => .seq ?_
      (match_writeArguments_bare hp count es)
    exact match_readComma es Expr.allBare fun es => by cases es <;> rfl

end

theorem match_writeItems_bare (hp : ¬p.lines) (es : List Expr) :
    Match p (Expr.writeItems es) (Expr.writeItems (es.map Expr.bare)) := by
  induction es with
  | nil => exact .pure _
  | cons e es ih => exact match_advance.seq <| (match_write_bare hp e).seq <| (match_emit _).seq ih

theorem match_writeNewName (x : String) : Match p (Decl.writeNewName x) (Decl.writeNewName x) :=
  match_advance.seq <| (match_declareLocal x).seq <| match_depth fun n => .ite (0 < n) (.pure 0) (match_nameConstant x)

theorem match_writeParameters (count : Nat) (xs : List String) :
    Match p (Decl.writeParameters count xs) (Decl.writeParameters count xs) := by
  induction xs generalizing count with
  | nil => exact .pure _
  | cons x xs ih =>
    refine .seq ?_ (.seq (match_readComma xs id fun _ => rfl) (ih _))
    exact (match_checkParameterCount count).seq <| (match_writeNewName x).bind fun _ => match_settleVariable _

theorem match_writeBlock {body body' : Action Unit} (h : Match p body body') :
    Match p (Decl.writeBlock body) (Decl.writeBlock body') :=
  match_enterScope.seq <| h.seq <| match_advance.seq match_leaveScope

theorem parallel_writeHead {s t : State} (h : AlikeStates p s t) (x : String) (xs : List String) :
    Parallel p (fun s t => AlikeDrafts p s t) ((Decl.writeHead x xs).run s) ((Decl.writeHead x xs).run t) := by
  refine (parallel_intern h x).bind fun h hab =>
    (parallel_beginFunction h hab).bind fun {outer outer' s t} h hdraft => ?_
  have hrest : Match p
      (enterScope >>= fun _ => advance >>= fun _ => Decl.writeParameters 0 xs >>= fun count => setArity count >>=
        fun _ => advance >>= fun _ => advance)
      (enterScope >>= fun _ => advance >>= fun _ => Decl.writeParameters 0 xs >>= fun count => setArity count >>=
        fun _ => advance >>= fun _ => advance) :=
    match_enterScope.seq <| match_advance.seq <| (match_writeParameters 0 xs).bind fun _ => (match_setArity _).seq <|
      match_advance.seq match_advance
  have hkeep : Keeps Grows (enterScope >>= fun _ => advance >>= fun _ => Decl.writeParameters 0 xs >>= fun count =>
      setArity count >>= fun _ => advance >>= fun _ => advance) :=
    keeps_enterScope.seq <| keeps_advance.seq <| (keeps_writeParameters 0 xs).bind fun _ => (keeps_setArity _).seq <|
      keeps_advance.seq keeps_advance
  exact ⟨(hrest s t h).1, hdraft.mono (hkeep s) (hkeep t)⟩

mutual

theorem match_write (hp : ¬p.lines) (d : Decl) : Match p d.write (d.respell Expr.bare).write := by
  cases d with
  | expression e => exact (match_write_bare hp e).seq (match_emit _)
  | print e es =>
    exact match_advance.seq <| (match_write_bare hp e).seq <| (match_emit _).seq <|
      (match_writeItems_bare hp es).seq match_advance
  | read form x =>
    exact match_advance.seq <| match_advance.seq <| (match_emit _).seq <| match_advance.seq <|
      (match_accessTo x).bind fun _ => (match_emitWith _ _).seq <| (match_emit _).seq match_advance
  | if_ condition body =>
    exact match_advance.seq <| (match_write_bare hp condition).seq <| (match_openJump _).bind fun _ =>
      (match_emit _).seq <| match_advance.seq <| (match_writeBlock (match_writeList hp body)).seq <|
        (match_openJump _).bind fun _ => (match_closeJump _).seq <| (match_emit _).seq (match_closeJump _)
  | ifElse condition body alternative =>
    exact match_advance.seq <| (match_write_bare hp condition).seq <| (match_openJump _).bind fun _ =>
      (match_emit _).seq <| match_advance.seq <| (match_writeBlock (match_writeList hp body)).seq <|
        (match_openJump _).bind fun _ => (match_closeJump _).seq <| (match_emit _).seq <| match_advance.seq <|
          match_advance.seq <| (match_writeBlock (match_writeList hp alternative)).seq (match_closeJump _)
  | until_ condition body =>
    exact match_advance.seq <| match_codeSize.bind fun _ => (match_write_bare hp condition).seq <|
      (match_openJump _).bind fun _ => (match_emit _).seq <| match_advance.seq <|
        (match_writeBlock (match_writeList hp body)).seq <| (match_emitBackJump _).seq <| (match_closeJump _).seq
          (match_emit _)
  | out value =>
    cases value with
    | none => exact match_advance.seq <| match_checkInFunction.seq <| match_advance.seq match_emitReturn
    | some e =>
      exact match_advance.seq <| match_checkInFunction.seq <| (match_write_bare hp e).seq <|
        match_advance.seq (match_emit _)
  | block mark body => exact match_advance.seq (match_writeBlock (match_writeList hp body))
  | var x initial =>
    cases initial with
    | none =>
      exact match_advance.seq <| (match_writeNewName x).bind fun _ => (match_emit _).seq (match_settleVariable _)
    | some e =>
      exact match_advance.seq <| (match_writeNewName x).bind fun _ => match_advance.seq <|
        (match_write_bare hp e).seq (match_settleVariable _)
  | fun_ x parameters body =>
    refine match_advance.seq <| (match_writeNewName x).bind fun _ => match_bringInScope.seq <| .seq ?_
      (match_settleVariable _)
    exact match_function (fun h => parallel_writeHead h x parameters) (match_writeList hp body) match_advance
      (keeps_writeList body) (keeps_writeList _) keeps_advance keeps_advance

theorem match_writeList (hp : ¬p.lines) (ds : List Decl) :
    Match p (Decl.writeList ds) (Decl.writeList (Decl.listBare ds)) := by
  cases ds with
  | nil => exact .pure _
  | cons d ds => exact (match_write hp d).seq (match_writeList hp ds)

end

/-- Programs are compiled as their trees without parentheses are. -/
theorem parallel_writeProgram (hp : ¬p.lines) {s t : State} (h : AlikeStates p s t) (ds : List Decl) :
    Parallel p (fun _ _ => p.pairs) ((Decl.writeProgram ds).run s) ((Decl.writeProgram (Decl.listBare ds)).run t) :=
  (match_advance s t h).bind fun h _ => (match_writeList hp ds _ _ h).bind fun h _ =>
    (match_advance _ _ h).bind fun h _ => parallel_finishFunction h

end StackScript.Compiler
