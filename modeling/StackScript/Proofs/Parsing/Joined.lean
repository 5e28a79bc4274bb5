import StackScript.Proofs.Parsing.Longest

/-! Programs one behind the other. The declarations of two programs make up one, unless the second program starts with
what its first expression would be called with or subtracted from. -/
namespace StackScript
open Compiler
variable {ds es : List Decl}

theorem Decl.listWords_append (ds es : List Decl) : listWords (ds ++ es) = listWords ds ++ listWords es := by
  induction ds with
  | nil => rfl
  | cons d ds ih => rw [List.cons_append, listWords, listWords, ih, List.append_assoc]

theorem Decl.listWellFormed_append (hd : ListWellFormed ds) (he : ListWellFormed es) : ListWellFormed (ds ++ es) := by
  induction ds with
  | nil => exact he
  | cons d ds ih => exact ⟨hd.1, ih hd.2⟩

theorem Decl.listEach_append {P : Expr → List Word → Prop} (hd : ListEach P ds (listWords es)) (he : ListEach P es []) :
    ListEach P (ds ++ es) [] := by
  induction ds with
  | nil => exact he
  | cons d ds ih =>
    have hd₁ := hd.1
    rw [← listWords_append, ← List.append_nil (listWords (ds ++ es))] at hd₁
    exact ⟨hd₁, ih hd.2⟩

/-! ### What stands behind a program -/

theorem stops_append {rest rest' : List Word} (h : Stops .assignment rest → Stops .assignment rest') (us : List Word)
    (hs : Stops .assignment (us ++ rest)) : Stops .assignment (us ++ rest') := by
  cases us with
  | nil => exact h hs
  | cons w us => exact ⟨hs.closes, hs.assign⟩

mutual

/-- Of what stands behind a declaration it only matters whether it goes on with an expression. -/
theorem stopped_before {rest rest' : List Word} (h : Stops .assignment rest → Stops .assignment rest') (d : Decl)
    (hd : d.Each Stopped rest) : d.Each Stopped rest' := by
  cases d with
  | expression e => exact h hd
  | print first items =>
    refine ⟨?_, stopped_items items⟩
    cases items <;> exact stops_mark rfl (by decide)
  | read form name => trivial
  | if_ condition body =>
    exact ⟨stops_mark rfl (by decide), listStopped_before (stops_append h [_]) body hd.2⟩
  | ifElse condition body alternative =>
    exact ⟨stops_mark rfl (by decide), listStopped_before (stops_append h _) body hd.2.1,
      listStopped_before (stops_append h [_]) alternative hd.2.2⟩
  | until_ condition body =>
    exact ⟨stops_mark rfl (by decide), listStopped_before (stops_append h [_]) body hd.2⟩
  | out value =>
    cases value with
    | none => trivial
    | some e => exact stops_mark rfl (by decide)
  | block mark body => exact listStopped_before (stops_append h [_]) body hd
  | var name initial =>
    cases initial with
    | none => trivial
    | some e => exact h hd
  | fun_ name parameters body => exact listStopped_before (stops_append h [_]) body hd

theorem listStopped_before {rest rest' : List Word} (h : Stops .assignment rest → Stops .assignment rest')
    (ds : List Decl) (hd : Decl.ListEach Stopped ds rest) : Decl.ListEach Stopped ds rest' := by
  cases ds with
  | nil => trivial
  | cons d ds => exact ⟨stopped_before (stops_append h _) d hd.1, listStopped_before h ds hd.2⟩

end

/-- A program that starts neither with a parenthesis nor with a minus goes on with no expression. -/
theorem stops_listWords (hw : Decl.ListWellFormed es) (hparen : headKind (Decl.listWords es) ≠ .leftParen)
    (hminus : headKind (Decl.listWords es) ≠ .minus) : Stops .assignment (Decl.listWords es) := by
  cases es with
  | nil => exact ⟨closes_of_none rfl, by decide⟩
  | cons d es =>
    obtain hstops | ⟨x, rest, -, hwords⟩ := parted_words d hw.1 (Decl.listWords es)
    · exact hstops
    · rw [Decl.listWords, hwords] at hparen hminus ⊢
      exact stops_words x hparen hminus

/-- Two programs, the second of which goes on with no expression of the first one. -/
theorem IsProgram.append (hd : IsProgram ds) (he : IsProgram es)
    (hspoken : Spoken (Decl.listWords ds ++ Decl.listWords es)) (hparen : headKind (Decl.listWords es) ≠ .leftParen)
    (hminus : headKind (Decl.listWords es) ≠ .minus) :
    IsProgram (ds ++ es) := by
  have hstops := stops_listWords he.wellFormed hparen hminus
  have hstopped := listStopped_of_greedy ds [] hd.wellFormed (.inr rfl) hd.greedy
  have hgreedy := listGreedy_of_stopped ds _ hd.wellFormed hspoken (listStopped_before (fun _ => hstops) ds hstopped)
  exact ⟨Decl.listWellFormed_append hd.wellFormed he.wellFormed, Decl.listEach_append hgreedy he.greedy⟩

end StackScript
