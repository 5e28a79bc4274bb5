import StackScript.Proofs.Compiler.Keeps

/-! The words that a compilation has still to read. Reading a token takes the first of them, nothing
else moves them, and following a tree takes the words of the tree. -/
namespace StackScript.Compiler
variable {α β : Type} {s t : State} {w : Word} {us vs ws : List Word}

/-- The kind of the first word; at the end of the source there is the end token. -/
def headKind : List Word → TokenKind
  | [] => .eof
  | w :: _ => w.kind

@[simp] theorem headKind_nil : headKind [] = .eof := rfl

@[simp] theorem headKind_cons (w : Word) (ws : List Word) : headKind (w :: ws) = w.kind := rfl

/-- The words ahead, up to the end of a source, with no faulty piece among them. -/
def Stream (s : State) (ws : List Word) : Prop :=
  ∃ ts : List Token, ts.map Token.word = ws ∧ (∀ t ∈ ts, t.kind ≠ .eof) ∧
    match ts with
    | [] => s.current.kind = .eof ∧ s.upcoming = []
    | t :: ts => s.current = t ∧ s.upcoming = ts.map .token

namespace Stream

theorem kind (h : Stream s ws) : s.current.kind = headKind ws := by
  obtain ⟨ts, rfl, -, hc⟩ := h
  cases ts with
  | nil => exact hc.1
  | cons t ts => exact congrArg Token.kind hc.1

theorem mark {k : TokenKind} (h : Stream s (k.mark :: ws)) : s.current.kind = k := h.kind

theorem word (h : Stream s (w :: ws)) : s.current.word = w := by
  obtain ⟨ts, hw, -, hc⟩ := h
  cases ts with
  | nil => simp at hw
  | cons t ts => rw [hc.1]; exact (List.cons.inj hw).1

/-- A word of a kind that is written in one way is the mark of that kind. -/
theorem eq_mark {k : TokenKind} (h : Stream s (w :: ws)) (hk : w.kind = k) (hv : k.varies = false) :
    w = k.mark := by
  obtain ⟨rfl⟩ := h.word
  subst hk
  simp only [Token.word, TokenKind.mark, Word.mk.injEq, true_and]
  exact if_neg (by simpa using hv)

theorem kind_ne_eof (h : Stream s (w :: ws)) : w.kind ≠ .eof := by
  obtain ⟨ts, hw, he, -⟩ := h
  cases ts with
  | nil => simp at hw
  | cons t ts =>
    rw [← (List.cons.inj hw).1]
    exact he t (by simp)

theorem eq_nil (h : Stream s ws) (he : s.current.kind = .eof) : ws = [] := by
  cases ws with
  | nil => rfl
  | cons w ws => exact absurd (h.kind.symm.trans he) h.kind_ne_eof

theorem advance (h : Stream s (w :: ws)) : Stream s.advance ws := by
  obtain ⟨ts, hw, he, hc⟩ := h
  cases ts with
  | nil => simp at hw
  | cons t ts =>
    refine ⟨ts, (List.cons.inj hw).2, fun u hu => he u (by simp [hu]), ?_⟩
    rw [State.advance, hc.2]
    cases ts with
    | nil => exact ⟨rfl, rfl⟩
    | cons u us => exact ⟨rfl, rfl⟩

theorem of_same (h : Stream s ws) (hst : SameTokens s t) : Stream t ws := by
  obtain ⟨ts, hw, he, hc⟩ := h
  refine ⟨ts, hw, he, ?_⟩
  rwa [hst.current, hst.upcoming]

end Stream

theorem previous_fetch (ls : List Lexeme) (s : State) : (State.fetch ls s).previous = s.previous := by
  induction ls generalizing s with
  | nil => rfl
  | cons l ls ih =>
    cases l with
    | token t => rfl
    | fault e line =>
      refine (ih _).trans ?_
      unfold State.report
      split <;> rfl

@[simp] theorem previous_advance (s : State) : s.advance.previous = s.current :=
  previous_fetch ..

theorem unread_eq_length (h : Stream s ws) : s.unread = ws.length := by
  obtain ⟨ts, rfl, he, hc⟩ := h
  cases ts with
  | nil => simp [State.unread, hc.1, hc.2]
  | cons t ts => simp [State.unread, hc.1, hc.2, he t]

/-! ### Taking words -/

/-- Every run from words that start with the given ones leaves those after them. -/
def Reads (us : List Word) (a : Action α) : Prop :=
  ∀ s ws, Stream s (us ++ ws) → Stream (a.run s).2 ws

namespace Reads

theorem of_keeps {a : Action α} (h : Keeps SameTokens a) : Reads [] a :=
  fun s _ hs => hs.of_same (h s)

theorem pure (x : α) : Reads [] (Pure.pure x : Action α) := of_keeps (.pure x)

theorem advance (w : Word) : Reads [w] Compiler.advance := fun _ _ hs => hs.advance

theorem bind {a : Action α} {f : α → Action β} (ha : Reads us a) (hf : ∀ x, Reads vs (f x)) :
    Reads (us ++ vs) (a >>= f) := fun s ws hs =>
  hf _ _ _ (ha s (vs ++ ws) (by rwa [← List.append_assoc]))

theorem seq {a : Action α} {b : Action β} (ha : Reads us a) (hb : Reads vs b) :
    Reads (us ++ vs) (a >>= fun _ => b) := ha.bind fun _ => hb

theorem ite {a b : Action α} (c : Prop) [Decidable c] (ha : Reads us a) (hb : Reads us b) :
    Reads us (if c then a else b) := by
  split
  · exact ha
  · exact hb

/-- An action that takes no word, with one after it that does. -/
theorem after {a : Action α} {f : α → Action β} (ha : Keeps SameTokens a)
    (hf : ∀ x, Reads us (f x)) : Reads us (a >>= f) := (of_keeps ha).bind hf

/-- An action that takes all the words, with one after it that takes none. -/
theorem before {a : Action α} {f : α → Action β} (ha : Reads us a)
    (hf : ∀ x, Keeps SameTokens (f x)) : Reads us (a >>= f) := by
  simpa using ha.bind fun x => of_keeps (hf x)

/-- A comma is read unless nothing follows. -/
theorem comma {γ : Type} (xs : List γ) : Reads (commaBefore xs) (readComma xs) := by
  cases xs with
  | nil => exact .pure _
  | cons x xs => exact advance _

end Reads

/-! ### The words of a tree -/

mutual

theorem reads_write_expr (e : Expr) : Reads e.words e.write := by
  cases e with
  | literal l => exact (Reads.advance _).before fun _ => keeps_literal l
  | name x =>
    exact (Reads.advance _).before fun _ => (keeps_accessTo x).bind fun _ => keeps_emitWith _ _
  | group e => exact (Reads.advance _).seq <| (reads_write_expr e).seq (Reads.advance _)
  | assign x value =>
    exact (Reads.advance _).seq <| .after (keeps_accessTo x) fun _ => (Reads.advance _).seq <|
      (reads_write_expr value).before fun _ => keeps_emitWith _ _
  | unary op e => exact (Reads.advance _).seq <| (reads_write_expr e).before fun _ => keeps_emit _
  | binary op left right =>
    exact (reads_write_expr left).seq <| (Reads.advance _).seq <|
      (reads_write_expr right).before fun _ => keeps_emit _
  | and left right =>
    exact (reads_write_expr left).seq <| (Reads.advance _).seq <| .after (keeps_openJump _) fun _ =>
      .after (keeps_emit _) fun _ => (reads_write_expr right).before fun _ => keeps_closeJump _
  | or left right =>
    exact (reads_write_expr left).seq <| (Reads.advance _).seq <| .after (keeps_openJump _) fun _ =>
      .after (keeps_emit _) fun _ => (reads_write_expr right).before fun _ => keeps_closeJump _
  | call callee arguments =>
    simp only [Expr.words, List.append_assoc, List.cons_append]
    exact (reads_write_expr callee).seq <| (Reads.advance _).seq <|
      (reads_writeArguments 0 arguments).bind fun _ => (Reads.advance _).before fun _ =>
        keeps_emitWith _ _

theorem reads_writeArguments (count : Nat) (es : List Expr) :
    Reads (Expr.argumentWords es) (Expr.writeArguments count es) := by
  cases es with
  | nil => exact .pure _
  | cons e es =>
    simp only [Expr.argumentWords, List.append_assoc]
    exact (reads_write_expr e).seq <| .after (keeps_countArgument _) fun count =>
      (Reads.comma es).seq (reads_writeArguments count es)

end

theorem reads_writeItems (es : List Expr) : Reads (itemWords es) (Expr.writeItems es) := by
  induction es with
  | nil => exact .pure _
  | cons e es ih =>
    simp only [itemWords, List.cons_append]
    exact (Reads.advance _).seq <| (reads_write_expr e).seq <| .after (keeps_emit _) fun _ => ih

theorem reads_writeNewName (x : String) : Reads [⟨.ident, x⟩] (Decl.writeNewName x) :=
  (Reads.advance _).before fun _ => (keeps_declareLocal x).seq <| Keeps.get.bind fun _ =>
    .ite _ (.pure _) (keeps_nameConstant x)

theorem reads_writeParameter (count : Nat) (x : String) :
    Reads [⟨.ident, x⟩] (Decl.writeParameter count x) :=
  .after (keeps_checkParameterCount count) fun _ => (reads_writeNewName x).before fun _ =>
    keeps_settleVariable _

theorem reads_writeParameters (count : Nat) (xs : List String) :
    Reads (nameWords xs) (Decl.writeParameters count xs) := by
  induction xs generalizing count with
  | nil => exact .pure _
  | cons x xs ih =>
    simp only [nameWords, List.cons_append]
    exact (reads_writeParameter count x).seq <| (Reads.comma xs).seq (ih _)

theorem reads_writeBlock {body : Action Unit} (h : Reads us body) :
    Reads (us ++ [TokenKind.blockEnd.mark]) (Decl.writeBlock body) :=
  .after keeps_enterScope fun _ => h.seq <| (Reads.advance _).before fun _ => keeps_leaveScope

theorem reads_writeHead (name : String) (xs : List String) :
    Reads (TokenKind.leftParen.mark :: nameWords xs ++ [TokenKind.rightParen.mark,
      TokenKind.blockStart.mark]) (Decl.writeHead name xs) := by
  simp only [List.cons_append]
  exact .after (keeps_intern name) fun symbol => .after (keeps_beginFunction symbol) fun outer =>
    .after keeps_enterScope fun _ => (Reads.advance _).seq <|
      (reads_writeParameters 0 xs).bind fun count => .after (keeps_setArity count) fun _ =>
        (Reads.advance _).seq <| (Reads.advance _).before fun _ => .pure _

theorem reads_writeFunction (name : String) (xs : List String) {body : Action Unit}
    (h : Reads us body) :
    Reads (TokenKind.leftParen.mark :: nameWords xs ++ [TokenKind.rightParen.mark,
      TokenKind.blockStart.mark] ++ (us ++ [TokenKind.blockEnd.mark]))
      (Decl.writeFunction name xs body) :=
  (reads_writeHead name xs).bind fun _ => h.seq <| (Reads.advance _).before fun _ =>
    keeps_finishFunction.bind fun _ => (keeps_modify_draft _).seq (keeps_emitConstant _)

mutual

theorem reads_write (d : Decl) : Reads d.words d.write := by
  cases d with
  | expression e => exact (reads_write_expr e).before fun _ => keeps_emit _
  | print first rest =>
    simp only [Decl.words, List.append_assoc, List.cons_append]
    exact (Reads.advance _).seq <| (reads_write_expr first).seq <| .after (keeps_emit _) fun _ =>
      (reads_writeItems rest).seq (Reads.advance _)
  | read form name =>
    exact (Reads.advance _).seq <| (Reads.advance _).seq <| .after (keeps_emit _) fun _ =>
      (Reads.advance _).seq <| .after (keeps_accessTo name) fun _ => .after (keeps_emitWith _ _)
        fun _ => .after (keeps_emit _) fun _ => Reads.advance _
  | if_ condition body =>
    refine (Reads.advance _).seq <| (reads_write_expr condition).seq <|
      .after (keeps_openJump _) fun _ => .after (keeps_emit _) fun _ => ?_
    exact (Reads.advance _).seq <| (reads_writeBlock (reads_writeList body)).before fun _ =>
      (keeps_openJump _).bind fun _ => (keeps_closeJump _).seq <| (keeps_emit _).seq <|
        keeps_closeJump _
  | ifElse condition body alternative =>
    simp only [Decl.words, List.append_assoc, List.cons_append]
    refine (Reads.advance _).seq <| (reads_write_expr condition).seq <|
      .after (keeps_openJump _) fun _ => .after (keeps_emit _) fun _ => ?_
    refine (Reads.advance _).seq <| (reads_writeBlock (reads_writeList body)).seq <|
      .after (keeps_openJump _) fun _ => .after (keeps_closeJump _) fun _ =>
        .after (keeps_emit _) fun _ => (Reads.advance _).seq <| (Reads.advance _).seq <| ?_
    exact (reads_writeBlock (reads_writeList alternative)).before fun _ => keeps_closeJump _
  | until_ condition body =>
    refine (Reads.advance _).seq <| .after keeps_codeSize fun _ => (reads_write_expr condition).seq <|
      .after (keeps_openJump _) fun _ => .after (keeps_emit _) fun _ => ?_
    exact (Reads.advance _).seq <| (reads_writeBlock (reads_writeList body)).before fun _ =>
      (keeps_emitBackJump _).seq <| (keeps_closeJump _).seq (keeps_emit _)
  | out value =>
    cases value with
    | none =>
      exact (Reads.advance _).seq <| .after keeps_checkInFunction fun _ =>
        (Reads.advance _).before fun _ => keeps_emitReturn
    | some e =>
      exact (Reads.advance _).seq <| .after keeps_checkInFunction fun _ =>
        (reads_write_expr e).seq <| (Reads.advance _).before fun _ => keeps_emit _
  | block mark body => exact (Reads.advance _).seq (reads_writeBlock (reads_writeList body))
  | var name initial =>
    cases initial with
    | none =>
      exact (Reads.advance _).seq <| (reads_writeNewName name).before fun global =>
        (keeps_emit _).seq (keeps_settleVariable global)
    | some e =>
      exact (Reads.advance _).seq <| (reads_writeNewName name).bind fun global =>
        (Reads.advance _).seq <| (reads_write_expr e).before fun _ => keeps_settleVariable global
  | fun_ name parameters body =>
    have h := reads_writeFunction name parameters (reads_writeList body)
    simp only [List.append_assoc, List.cons_append] at h
    simp only [Decl.words, List.cons_append]
    exact (Reads.advance _).seq <| (reads_writeNewName name).bind fun global =>
      .after keeps_bringInScope fun _ => h.before fun _ => keeps_settleVariable global

theorem reads_writeList (ds : List Decl) : Reads (Decl.listWords ds) (Decl.writeList ds) := by
  cases ds with
  | nil => exact .pure _
  | cons d ds => exact (reads_write d).seq (reads_writeList ds)

end

end StackScript.Compiler
