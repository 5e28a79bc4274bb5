import StackScript.Proofs.Parsing.Program

/-! Expressions take the longest run of words that they can exactly if nothing behind them can belong to
them: an operator behind an expression makes a longer one of it, with the operand that has to follow. -/
namespace StackScript
open Compiler

variable {e x g : Expr} {us ws rest : List Word}

/-! ### What nothing can be added to is longest -/

/-- Words that tokens of a source can have. -/
def Spoken (ws : List Word) : Prop := ∃ s, Stream s ws

theorem Spoken.left (h : Spoken (us ++ ws)) : Spoken us := by
  obtain ⟨s, ts, hw, he, -⟩ := h
  obtain ⟨ts, ts', rfl, rfl, rfl⟩ := List.map_eq_append_iff.1 hw
  refine ⟨{ s with
      current := ts.headD noToken, upcoming := ts.tail.map .token },
    ts, rfl, fun t ht => he t (by simp [ht]), ?_⟩
  cases ts with
  | nil => exact ⟨rfl, rfl⟩
  | cons t ts => exact ⟨rfl, rfl⟩

theorem Spoken.right (h : Spoken (us ++ ws)) : Spoken ws := by
  obtain ⟨s, hs⟩ := h
  induction us generalizing s with
  | nil => exact ⟨s, hs⟩
  | cons u us ih => exact ih s.advance hs.advance

theorem Spoken.tail {w : Word} (h : Spoken (w :: ws)) : Spoken ws := by
  obtain ⟨s, hs⟩ := h
  exact ⟨s.advance, hs.advance⟩

theorem longest_of_stops (hw : e.WellFormed) (hs : Spoken (e.words ++ rest))
    (hstop : Stops .assignment rest) : e.Longest rest := by
  intro e' hw' rest' heq
  refine Nat.le_of_not_lt fun hlen => ?_
  -- the longer expression is the shorter one with some of the words behind it
  obtain ⟨p, hp, hr⟩ : ∃ p, e'.words = e.words ++ p ∧ rest = p ++ rest' := by
    rcases List.append_eq_append_iff.1 heq with ⟨a, ha, -⟩ | ⟨p, hp, hr⟩
    · rw [ha, List.length_append] at hlen
      omega
    · exact ⟨p, hp, hr⟩
  have hne : p ≠ [] := by
    rintro rfl
    simp [hp] at hlen
  have hstop' : Stops .assignment p := by
    obtain ⟨w, p, rfl⟩ := List.exists_cons_of_ne_nil hne
    subst hr
    exact ⟨hstop.closes, hstop.assign⟩
  rw [hr, ← List.append_assoc, ← hp] at hs
  obtain ⟨s, hs⟩ := hs.left
  have hs' : Stream s (e'.words ++ []) := by simpa using hs
  have h1 := run_expression (n := e'.words.length) hw' hs' (by simp) ⟨closes_of_none rfl, by decide⟩
  have h2 := run_expression (n := e'.words.length) hw (hp ▸ hs) (hp ▸ Nat.le_refl _) hstop'
  have hr1 := reads_write_expr e' s [] hs'
  have hr2 := reads_write_expr e s p (hp ▸ hs)
  rw [congrArg Prod.snd (h1.symm.trans h2)] at hr1
  exact hne (List.eq_nil_of_length_eq_zero
    ((unread_eq_length hr2).symm.trans (unread_eq_length hr1)))

/-! ### What can be added to is not longest -/

/-- An expression before a parenthesized one can call it. -/
theorem exists_call (e : Expr) (hw : e.WellFormed) (hg : g.WellFormed) :
    ∃ e' : Expr, e'.WellFormed ∧ (∀ l ≤ Level.call, l ≤ e.level → l ≤ e'.level) ∧
      e'.words = e.words ++ (TokenKind.leftParen.mark :: g.words ++ [TokenKind.rightParen.mark]) := by
  -- the call goes to the last operand
  have hcall : ∀ e : Expr, e.WellFormed → Level.call ≤ e.level →
      ∃ e' : Expr, e'.WellFormed ∧ (∀ l ≤ Level.call, l ≤ e.level → l ≤ e'.level) ∧
        e'.words = e.words ++ (TokenKind.leftParen.mark :: g.words ++ [TokenKind.rightParen.mark]) :=
    fun e hw hl => ⟨.call e [g], ⟨hl, hw, hg, trivial⟩, fun _ hl _ => hl, by
      simp [Expr.words, Expr.argumentWords, commaBefore]⟩
  induction e using Expr.operand_induction with
  | literal l => exact hcall _ hw (Nat.le_of_ble_eq_true rfl)
  | name y => exact hcall _ hw (Nat.le_of_ble_eq_true rfl)
  | group e => exact hcall _ hw (Nat.le_of_ble_eq_true rfl)
  | call callee arguments => exact hcall _ hw (Nat.le_refl _)
  | assign y value ih =>
    obtain ⟨v, hv, -, hwords⟩ := ih hw
    exact ⟨.assign y v, hv, fun _ _ h => h, by simp [Expr.words, hwords]⟩
  | unary op e ih =>
    obtain ⟨e', he, hl, hwords⟩ := ih hw.2
    exact ⟨.unary op e', ⟨hl _ (by decide) hw.1, he⟩, fun _ _ h => h, by simp [Expr.words, hwords]⟩
  | binary op left right _ ih =>
    obtain ⟨r, hr, hl, hwords⟩ := ih hw.2.2
    have hop : op.level.next ≤ Level.call :=
      Nat.le_trans (Nat.le_of_eq op.rank_next) (Nat.le_succ_of_le (Nat.succ_le_succ op.rank_bounds.2))
    exact ⟨.binary op left r, ⟨⟨hw.1.1, hl _ hop hw.1.2⟩, hw.2.1, hr⟩, fun _ _ h => h,
      by simp [Expr.words, hwords]⟩
  | and left right _ ih =>
    obtain ⟨r, hr, hl, hwords⟩ := ih hw.2.2
    exact ⟨.and left r, ⟨⟨hw.1.1, hl _ (by decide) hw.1.2⟩, hw.2.1, hr⟩, fun _ _ h => h,
      by simp [Expr.words, hwords]⟩
  | or left right _ ih =>
    obtain ⟨r, hr, hl, hwords⟩ := ih hw.2.2
    exact ⟨.or left r, ⟨⟨hw.1.1, hl _ (by decide) hw.1.2⟩, hw.2.1, hr⟩, fun _ _ h => h,
      by simp [Expr.words, hwords]⟩

/-- An expression before a negated one can be subtracted from. -/
theorem exists_subtract (e : Expr) (hw : e.WellFormed) (hx : x.WellFormed)
    (hl : Level.unary ≤ x.level) :
    ∃ e' : Expr, e'.WellFormed ∧ (∀ l ≤ Level.term, l ≤ e.level → l ≤ e'.level) ∧
      e'.words = e.words ++ TokenKind.minus.mark :: x.words := by
  -- the difference is that from the last operand which holds together tightly enough
  have hsub : ∀ e : Expr, e.WellFormed → Level.term ≤ e.level →
      ∃ e' : Expr, e'.WellFormed ∧ (∀ l ≤ Level.term, l ≤ e.level → l ≤ e'.level) ∧
        e'.words = e.words ++ TokenKind.minus.mark :: x.words :=
    fun e hw ht => ⟨.binary .subtract e x, ⟨⟨ht, Level.le_trans (by decide) hl⟩, hw, hx⟩,
      fun _ hl _ => hl, by simp [Expr.words, Binary.kind]⟩
  induction e using Expr.operand_induction with
  | literal l => exact hsub _ hw (Nat.le_of_ble_eq_true rfl)
  | name y => exact hsub _ hw (Nat.le_of_ble_eq_true rfl)
  | group e => exact hsub _ hw (Nat.le_of_ble_eq_true rfl)
  | call callee arguments => exact hsub _ hw (Nat.le_of_ble_eq_true rfl)
  | unary op e => exact hsub _ hw (Nat.le_of_ble_eq_true rfl)
  | assign y value ih =>
    obtain ⟨v, hv, -, hwords⟩ := ih hw
    exact ⟨.assign y v, hv, fun _ _ h => h, by simp [Expr.words, hwords]⟩
  | binary op left right _ ih =>
    by_cases ht : Level.term ≤ op.level
    · exact hsub _ hw ht
    · obtain ⟨r, hr, hl, hwords⟩ := ih hw.2.2
      have hop : op.level.next ≤ Level.term :=
        Nat.le_trans (Nat.le_of_eq op.rank_next) (Nat.lt_of_not_le ht)
      exact ⟨.binary op left r, ⟨⟨hw.1.1, hl _ hop hw.1.2⟩, hw.2.1, hr⟩, fun _ _ h => h,
        by simp [Expr.words, hwords]⟩
  | and left right _ ih =>
    obtain ⟨r, hr, hl, hwords⟩ := ih hw.2.2
    exact ⟨.and left r, ⟨⟨hw.1.1, hl _ (by decide) hw.1.2⟩, hw.2.1, hr⟩, fun _ _ h => h,
      by simp [Expr.words, hwords]⟩
  | or left right _ ih =>
    obtain ⟨r, hr, hl, hwords⟩ := ih hw.2.2
    exact ⟨.or left r, ⟨⟨hw.1.1, hl _ (by decide) hw.1.2⟩, hw.2.1, hr⟩, fun _ _ h => h,
      by simp [Expr.words, hwords]⟩

/-- The parenthesized expression that an expression starts with. -/
theorem exists_group (e : Expr) (hw : e.WellFormed) (h : headKind (e.words ++ ws) = .leftParen) :
    ∃ (g : Expr) (us : List Word), g.WellFormed ∧
      e.words = TokenKind.leftParen.mark :: g.words ++ TokenKind.rightParen.mark :: us := by
  induction e using Expr.operand_induction generalizing ws with
  | literal l => cases l <;> cases h
  | name y => cases h
  | assign y value => cases h
  | unary op e => cases op <;> cases h
  | group g => exact ⟨g, [], hw, rfl⟩
  | binary op left right ih _ =>
    obtain ⟨g, us, hg, hwords⟩ := ih hw.2.1 (by simpa [Expr.words] using h)
    exact ⟨g, us ++ op.kind.mark :: right.words, hg, by simp [Expr.words, hwords]⟩
  | and left right ih _ =>
    obtain ⟨g, us, hg, hwords⟩ := ih hw.2.1 (by simpa [Expr.words] using h)
    exact ⟨g, us ++ TokenKind.and.mark :: right.words, hg, by simp [Expr.words, hwords]⟩
  | or left right ih _ =>
    obtain ⟨g, us, hg, hwords⟩ := ih hw.2.1 (by simpa [Expr.words] using h)
    exact ⟨g, us ++ TokenKind.or.mark :: right.words, hg, by simp [Expr.words, hwords]⟩
  | call callee arguments ih =>
    obtain ⟨g, us, hg, hwords⟩ := ih hw.2.1 (by simpa [Expr.words] using h)
    exact ⟨g, us ++ TokenKind.leftParen.mark :: Expr.argumentWords arguments ++
      [TokenKind.rightParen.mark], hg, by simp [Expr.words, hwords]⟩

/-- The negated operand that an expression starts with. -/
theorem exists_negated (e : Expr) (hw : e.WellFormed) (h : headKind (e.words ++ ws) = .minus) :
    ∃ (x : Expr) (us : List Word), x.WellFormed ∧ Level.unary ≤ x.level ∧
      e.words = TokenKind.minus.mark :: x.words ++ us := by
  induction e using Expr.operand_induction generalizing ws with
  | literal l => cases l <;> cases h
  | name y => cases h
  | assign y value => cases h
  | group g => cases h
  | unary op x =>
    cases op with
    | negate => exact ⟨x, [], hw.2, hw.1, by simp [Expr.words, Unary.kind]⟩
    | not => cases h
  | binary op left right ih _ =>
    obtain ⟨x, us, hx, hl, hwords⟩ := ih hw.2.1 (by simpa [Expr.words] using h)
    exact ⟨x, us ++ op.kind.mark :: right.words, hx, hl, by simp [Expr.words, hwords]⟩
  | and left right ih _ =>
    obtain ⟨x, us, hx, hl, hwords⟩ := ih hw.2.1 (by simpa [Expr.words] using h)
    exact ⟨x, us ++ TokenKind.and.mark :: right.words, hx, hl, by simp [Expr.words, hwords]⟩
  | or left right ih _ =>
    obtain ⟨x, us, hx, hl, hwords⟩ := ih hw.2.1 (by simpa [Expr.words] using h)
    exact ⟨x, us ++ TokenKind.or.mark :: right.words, hx, hl, by simp [Expr.words, hwords]⟩
  | call callee arguments ih =>
    obtain ⟨x, us, hx, hl, hwords⟩ := ih hw.2.1 (by simpa [Expr.words] using h)
    exact ⟨x, us ++ TokenKind.leftParen.mark :: Expr.argumentWords arguments ++
      [TokenKind.rightParen.mark], hx, hl, by simp [Expr.words, hwords]⟩

/-- No expression goes on with one before it, unless it starts with a parenthesis or a minus. -/
theorem stops_words (x : Expr) (hparen : headKind (x.words ++ rest) ≠ .leftParen)
    (hminus : headKind (x.words ++ rest) ≠ .minus) :
    Stops .assignment (x.words ++ rest) := by
  obtain ⟨o, ho⟩ := operand?_headKind x rest
  revert ho hparen hminus
  generalize hh : headKind (x.words ++ rest) = k
  intro hparen hminus ho
  refine ⟨closes_of_none ?_, ?_⟩
  · rw [hh]
    cases k <;>
      first | rfl | exact absurd rfl hparen | exact absurd rfl hminus | cases ho
  · rw [hh]
    rintro rfl
    cases ho

/-- Behind an expression that is as long as it can be, no expression starts that could go on with it. -/
theorem stops_of_longest (hw : e.WellFormed) (hx : x.WellFormed) (h : e.Longest (x.words ++ rest)) :
    Stops .assignment (x.words ++ rest) := by
  refine stops_words x (fun hk => ?_) fun hk => ?_
  · obtain ⟨g, us, hg, hwords⟩ := exists_group x hx hk
    obtain ⟨e', hw', -, he⟩ := exists_call e hw hg
    have hlen := h e' hw' (us ++ rest) (by simp [he, hwords])
    simp only [he, List.length_append, List.length_cons] at hlen
    omega
  · obtain ⟨y, us, hy, hl, hwords⟩ := exists_negated x hx hk
    obtain ⟨e', hw', -, he⟩ := exists_subtract e hw hy hl
    have hlen := h e' hw' (us ++ rest) (by simp [he, hwords])
    simp only [he, List.length_append, List.length_cons] at hlen
    omega

/-! ### Programs -/

/-- The words behind a declaration start another expression, or cannot belong to one. -/
def Parted (ws : List Word) : Prop :=
  Stops .assignment ws ∨ ∃ (x : Expr) (rest : List Word), x.WellFormed ∧ ws = x.words ++ rest

theorem Parted.stopped (h : Parted rest) (hw : e.WellFormed) (hl : e.Longest rest) : Stopped e rest := by
  rcases h with h | ⟨x, rest, hx, rfl⟩
  · exact h
  · exact stops_of_longest hw hx hl

theorem parted_words (d : Decl) (hw : d.WellFormed) (rest : List Word) : Parted (d.words ++ rest) := by
  cases d with
  | expression e => exact .inr ⟨e, rest, hw, rfl⟩
  | block mark body => cases mark <;> exact .inl (stops_mark rfl (by decide))
  | out value => cases value <;> exact .inl (stops_mark rfl (by decide))
  | var name initial => cases initial <;> exact .inl (stops_mark rfl (by decide))
  | _ => exact .inl (stops_mark rfl (by decide))

theorem parted_listWords (ds : List Decl) (hw : Decl.ListWellFormed ds) (h : AtEnd ws) :
    Parted (Decl.listWords ds ++ ws) := by
  cases ds with
  | nil =>
    rcases h with h | h
    · exact .inl ⟨closes_of_none (by simp [Decl.listWords, h, operator?]), by simp [Decl.listWords, h]⟩
    · exact .inl ⟨closes_of_none (by simp [Decl.listWords, h, operator?]), by simp [Decl.listWords, h]⟩
  | cons d ds =>
    rw [Decl.listWords, List.append_assoc]
    exact parted_words d hw.1 _

theorem stopped_items (es : List Expr) :
    Expr.EachItem Stopped es (TokenKind.outEnd.mark :: ws) := by
  induction es with
  | nil => trivial
  | cons e es ih =>
    refine ⟨?_, ih⟩
    cases es <;> exact stops_mark rfl (by decide)

mutual

/-- If each expression is as long as it can be, nothing behind it can belong to it. -/
theorem stopped_of_greedy (d : Decl) (rest : List Word) (hw : d.WellFormed) (hp : Parted rest)
    (h : d.Each Expr.Longest rest) : d.Each Stopped rest := by
  cases d with
  | expression e => exact hp.stopped hw h
  | print first items =>
    refine ⟨?_, stopped_items items⟩
    cases items <;> exact stops_mark rfl (by decide)
  | read form name => trivial
  | if_ condition body =>
    exact ⟨stops_mark rfl (by decide), listStopped_of_greedy body _ hw.2 (atEnd_blockEnd _) h.2⟩
  | ifElse condition body alternative =>
    exact ⟨stops_mark rfl (by decide), listStopped_of_greedy body _ hw.2.1 (.inl rfl) h.2.1,
      listStopped_of_greedy alternative _ hw.2.2 (atEnd_blockEnd _) h.2.2⟩
  | until_ condition body =>
    exact ⟨stops_mark rfl (by decide), listStopped_of_greedy body _ hw.2 (atEnd_blockEnd _) h.2⟩
  | out value =>
    cases value with
    | none => trivial
    | some e => exact stops_mark rfl (by decide)
  | block mark body => exact listStopped_of_greedy body _ hw (atEnd_blockEnd _) h
  | var name initial =>
    cases initial with
    | none => trivial
    | some e => exact hp.stopped hw h
  | fun_ name parameters body => exact listStopped_of_greedy body _ hw (atEnd_blockEnd _) h

theorem listStopped_of_greedy (ds : List Decl) (rest : List Word) (hw : Decl.ListWellFormed ds)
    (hend : AtEnd rest) (h : Decl.ListEach Expr.Longest ds rest) : Decl.ListEach Stopped ds rest := by
  cases ds with
  | nil => trivial
  | cons d ds =>
    exact ⟨stopped_of_greedy d _ hw.1 (parted_listWords ds hw.2 hend) h.1,
      listStopped_of_greedy ds _ hw.2 hend h.2⟩

end

theorem greedy_items (es : List Expr) (hw : Expr.AllWellFormed es) (hs : Spoken (itemWords es ++ rest))
    (h : Expr.EachItem Stopped es rest) : Expr.EachItem Expr.Longest es rest := by
  induction es with
  | nil => trivial
  | cons e es ih =>
    have hs1 : Spoken (e.words ++ (itemWords es ++ rest)) := by
      simp only [itemWords, List.append_assoc, List.cons_append] at hs
      exact hs.tail
    exact ⟨longest_of_stops hw.1 hs1 h.1, ih hw.2 hs1.right h.2⟩

mutual

/-- If nothing behind each expression can belong to it, it is as long as it can be. -/
theorem greedy_of_stopped (d : Decl) (rest : List Word) (hw : d.WellFormed)
    (hs : Spoken (d.words ++ rest)) (h : d.Each Stopped rest) : d.Each Expr.Longest rest := by
  cases d with
  | expression e => exact longest_of_stops hw hs h
  | print first items =>
    simp only [Decl.words, List.append_assoc, List.cons_append, List.nil_append] at hs
    have h1 := hs.tail
    exact ⟨longest_of_stops hw.1 h1 h.1, greedy_items items hw.2 h1.right h.2⟩
  | read form name => trivial
  | if_ condition body =>
    simp only [Decl.words, List.append_assoc, List.cons_append] at hs
    have h1 := hs.tail
    refine ⟨longest_of_stops hw.1 h1 h.1, listGreedy_of_stopped body _ hw.2 ?_ h.2⟩
    simpa [BlockMark.enclosed] using h1.right.tail
  | ifElse condition body alternative =>
    simp only [Decl.words, List.append_assoc, List.cons_append] at hs
    have h1 := hs.tail
    have h2 := h1.right.tail
    refine ⟨longest_of_stops hw.1 ?_ h.1, listGreedy_of_stopped body _ hw.2.1 ?_ h.2.1,
      listGreedy_of_stopped alternative _ hw.2.2 ?_ h.2.2⟩
    · simpa [BlockMark.enclosed] using h1
    · simpa [BlockMark.enclosed] using h2
    · simpa [BlockMark.enclosed] using h2.right.tail.tail
  | until_ condition body =>
    simp only [Decl.words, List.append_assoc, List.cons_append] at hs
    have h1 := hs.tail
    refine ⟨longest_of_stops hw.1 h1 h.1, listGreedy_of_stopped body _ hw.2 ?_ h.2⟩
    simpa [BlockMark.enclosed] using h1.right.tail
  | out value =>
    cases value with
    | none => trivial
    | some e =>
      simp only [Decl.words, List.append_assoc, List.cons_append, List.nil_append] at hs
      exact longest_of_stops hw hs.tail h
  | block mark body =>
    refine listGreedy_of_stopped body _ hw ?_ h
    simpa [BlockMark.enclosed] using hs.tail
  | var name initial =>
    cases initial with
    | none => trivial
    | some e =>
      simp only [Decl.words, List.cons_append] at hs
      exact longest_of_stops hw hs.tail.tail.tail h
  | fun_ name parameters body =>
    simp only [Decl.words, BlockMark.enclosed, List.append_assoc, List.cons_append,
      List.nil_append] at hs
    exact listGreedy_of_stopped body _ hw hs.tail.tail.tail.right.tail.tail h

theorem listGreedy_of_stopped (ds : List Decl) (rest : List Word) (hw : Decl.ListWellFormed ds)
    (hs : Spoken (Decl.listWords ds ++ rest)) (h : Decl.ListEach Stopped ds rest) :
    Decl.ListEach Expr.Longest ds rest := by
  cases ds with
  | nil => trivial
  | cons d ds =>
    rw [Decl.listWords, List.append_assoc] at hs
    exact ⟨greedy_of_stopped d _ hw.1 hs h.1, listGreedy_of_stopped ds _ hw.2 hs.right h.2⟩

end

end StackScript
