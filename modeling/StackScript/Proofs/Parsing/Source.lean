import StackScript.Proofs.Parsing.Longest
import StackScript.Proofs.Scanning.Spelling

/-! Sources: one is compiled without a mistake only if all of it is tokens that make up a program, and
then as the trees of that program say. -/
namespace StackScript

/-- The words of the tokens of a source. -/
def TokenStream.words (t : TokenStream) : List Word :=
  t.lexemes.filterMap fun
    | .token t => some t.word
    | .fault _ _ => none

theorem TokenStream.words_tokens (ts : List Token) (lastLine : Nat) :
    TokenStream.words ⟨ts.map .token, lastLine⟩ = ts.map Token.word := by
  rw [words, List.filterMap_map]
  exact congrFun List.filterMap_eq_map ts

/-- Whether all of a source is tokens. -/
def TokenStream.IsFaultless (t : TokenStream) : Prop :=
  ∀ error line, .fault error line ∉ t.lexemes

namespace Compiler
variable {n : Nat} {s t : State} {body : Action Unit}

/-! ### All of a source is read -/

/-- Only the end of the source counts as its end. -/
structure Proper (s : State) : Prop where
  upcoming : ∀ t, .token t ∈ s.upcoming → t.kind ≠ .eof
  current : s.current.kind = .eof → s.upcoming = []

/-- The tokens that are still to be read get fewer. -/
def Shrinks (s t : State) : Prop := Proper s → Proper t ∧ t.unread ≤ s.unread

theorem proper_fetch (ls : List Lexeme) (s : State) (h : ∀ t, .token t ∈ ls → t.kind ≠ .eof) :
    Proper (State.fetch ls s) ∧ (State.fetch ls s).unread ≤ ls.length := by
  induction ls generalizing s with
  | nil => exact ⟨⟨by simp [State.fetch], fun _ => rfl⟩, by simp [State.fetch, State.unread, Token.sourceEnd]⟩
  | cons l ls ih =>
    cases l with
    | token t =>
      refine ⟨⟨fun u hu => h u (by simp [State.fetch] at hu; simp [hu]), fun hk => ?_⟩, ?_⟩
      · exact absurd hk (h t (by simp))
      · by_cases hk : t.kind = .eof <;> simp [State.fetch, State.unread, hk]
    | fault e line =>
      obtain ⟨hp, hu⟩ := ih (s.report line .unknown (.scan e)) fun t ht => h t (by simp [ht])
      exact ⟨hp, Nat.le_succ_of_le hu⟩

theorem shrinks_advance (s : State) : Shrinks s s.advance := by
  intro h
  obtain ⟨hp, hu⟩ := proper_fetch s.upcoming { s with previous := s.current, upcoming := [] } h.upcoming
  exact ⟨hp, Nat.le_trans hu (Nat.le_add_right _ _)⟩

instance : Lasting Shrinks where
  refl _ := fun h => ⟨h, Nat.le_refl _⟩
  trans _ _ _ h k := fun hs =>
    ⟨(k (h hs).1).1, Nat.le_trans (k (h hs).1).2 (h hs).2⟩
  report s _ _ _ := fun h => by
    unfold State.report
    split
    · exact ⟨h, Nat.le_refl _⟩
    · exact ⟨⟨h.1, h.2⟩, Nat.le_refl _⟩
  rest _ _ _ _ _ _ _ := fun h => ⟨⟨h.1, h.2⟩, Nat.le_refl _⟩
  advance := shrinks_advance
  resume _ := fun h => ⟨⟨h.1, h.2⟩, Nat.le_refl _⟩

/-- Reading a token leaves one fewer. -/
theorem unread_advance (h : Proper s) (hk : s.current.kind ≠ .eof) : s.advance.unread < s.unread := by
  have hu := (proper_fetch s.upcoming { s with previous := s.current, upcoming := [] } h.upcoming).2
  refine Nat.lt_of_le_of_lt hu ?_
  rw [State.unread, if_neg hk]
  exact Nat.lt_succ_self _

/-- Every declaration takes a token. -/
theorem unread_declaration (hb : Keeps Shrinks body) (h : Proper s) (hk : s.current.kind ≠ .eof) :
    ((declaration n body).run s).2.unread < s.unread := by
  have ha := (shrinks_advance s h).1
  have hu := unread_advance h hk
  cases hd : signed? n body s.current.kind with
  | some a =>
    rw [run_declaration_signed hd]
    exact Nat.lt_of_le_of_lt (((keeps_signed hb n hd).seq (keeps_recover n)) _ ha).2 hu
  | none =>
    rw [run_declaration_unsigned hd]
    have hr : Keeps Shrinks (expressionRest (expressionAt n) (operators n .assignment) .assignment) :=
      keeps_expressionRest (keeps_expressionAt n) (keeps_operators n _) _
    exact Nat.lt_of_le_of_lt ((hr.seq <| (keeps_emit .pop).seq (keeps_recover n)) _ ha).2 hu

/-- After a script nothing is left to be read. -/
theorem upcoming_script (h : Proper s) (hn : s.unread ≤ n) : ((script n).run s).2.upcoming = [] := by
  have hend : ∀ {s : State}, Proper s → s.upcoming = [] → s.advance.upcoming = [] := by
    intro s _ hu
    rw [State.advance, hu]
    rfl
  induction n generalizing s with
  | zero =>
    have hu : s.upcoming = [] := by
      refine List.eq_nil_of_length_eq_zero ?_
      simp only [State.unread] at hn
      omega
    exact hend h hu
  | succ n ih =>
    rw [script, run_bind]
    by_cases hk : s.current.kind = .eof
    · rw [run_accept_of_eq hk]
      exact hend h (h.current hk)
    · rw [run_accept_of_ne hk, if_neg Bool.false_ne_true, run_bind]
      have hd := unread_declaration (n := n) (keeps_declarations n) h hk
      exact ih (keeps_declaration (r := Shrinks) (keeps_declarations n) n s h).1
        (Nat.le_of_lt_succ (Nat.lt_of_lt_of_le hd hn))

/-! ### Whole sources -/

variable {source : TokenStream} {store : Store} {printCode : Bool} {ds : List Decl}

theorem ready_start (source : TokenStream) (store : Store) (printCode : Bool) :
    Ready (.start source store printCode) := ⟨rfl, rfl⟩

/-- If all of a source is tokens, its words are ahead when the first token has been read. -/
theorem stream_start (store : Store) (printCode : Bool) (hf : source.IsFaultless)
    (he : ∀ t, .token t ∈ source.lexemes → t.kind ≠ .eof) :
    Stream (State.start source store printCode).advance source.words := by
  obtain ⟨lexemes, lastLine⟩ := source
  obtain ⟨ts, rfl⟩ : ∃ ts : List Token, lexemes = ts.map .token := by
    clear he
    induction lexemes with
    | nil => exact ⟨[], rfl⟩
    | cons l ls ih =>
      obtain ⟨ts, rfl⟩ := ih fun e line h => hf e line (.tail l h)
      cases l with
      | token t => exact ⟨t :: ts, rfl⟩
      | fault e line => exact absurd (by simp) (hf e line)
  refine ⟨ts, ?_, fun t ht => he t (by simpa using ht), ?_⟩
  · exact (TokenStream.words_tokens ts lastLine).symm
  · cases ts with
    | nil => exact ⟨rfl, rfl⟩
    | cons t ts => exact ⟨rfl, rfl⟩

theorem length_words_le (source : TokenStream) : source.words.length ≤ source.lexemes.length :=
  List.length_filterMap_le _ _

/-- A source that is compiled without a mistake is made of tokens only. -/
theorem faultless_of_not_failed (he : ∀ t, .token t ∈ source.lexemes → t.kind ≠ .eof)
    (hf : ¬Failed ((wholeScript source.lexemes.length).run (.start source store printCode)).2) :
    source.IsFaultless := by
  intro e line hl
  have hr := ready_start source store printCode
  rw [wholeScript, run_bind, run_bind] at hf
  have hf1 := keeps_finishFunction.not_failed hf
  obtain ⟨hr1, hfault⟩ := (evolves_advance (.start source store printCode)).of_not_failed hr
    ((keeps_script _).not_failed hf1)
  obtain ⟨-, hfault'⟩ := (keeps_script (r := Evolves) source.lexemes.length _).of_not_failed hr1 hf1
  obtain ⟨e', line', hmem⟩ := hfault' (hfault ⟨e, line, hl⟩)
  have hproper : Proper (State.start source store printCode).advance :=
    (proper_fetch source.lexemes _ he).1
  have hunread : (State.start source store printCode).advance.unread ≤ source.lexemes.length :=
    (proper_fetch source.lexemes _ he).2
  rw [upcoming_script hproper hunread] at hmem
  cases hmem

/-- A source that is compiled without a mistake is made of the words of a program, and is compiled as the
trees of the program say. -/
theorem wholeScript_inv (he : ∀ t, .token t ∈ source.lexemes → t.kind ≠ .eof)
    (hf : ¬Failed ((wholeScript source.lexemes.length).run (.start source store printCode)).2) :
    source.IsFaultless ∧ ∃ ds : List Decl, source.words = Decl.listWords ds ∧ IsProgram ds ∧
      (wholeScript source.lexemes.length).run (.start source store printCode) =
        (Decl.writeProgram ds).run (.start source store printCode) := by
  have hfaultless := faultless_of_not_failed he hf
  have hs := stream_start store printCode hfaultless he
  rw [wholeScript, run_bind, run_bind] at hf ⊢
  have hf1 := keeps_finishFunction.not_failed hf
  have hr1 := (ready_start source store printCode).alive.advance ((keeps_script _).not_failed hf1)
  obtain ⟨ds, hw, hwf, hstop, hrun⟩ := script_inv hr1 hs (length_words_le source) hf1
  have hspoken : Spoken (Decl.listWords ds ++ []) := ⟨_, by simpa [← hw] using hs⟩
  refine ⟨hfaultless, ds, hw, ⟨hwf, listGreedy_of_stopped ds [] hwf hspoken hstop⟩, ?_⟩
  rw [run_advance, hrun]
  rfl

/-- A source that is made of the words of a program is compiled as the trees of the program say, up to the first
mistake. -/
theorem follows_wholeScript (he : ∀ t, .token t ∈ source.lexemes → t.kind ≠ .eof)
    (hfault : source.IsFaultless) (hw : source.words = Decl.listWords ds) (hp : IsProgram ds) :
    UpToMistake ((wholeScript source.lexemes.length).run (.start source store printCode))
      ((Decl.writeProgram ds).run (.start source store printCode)) := by
  have hs := stream_start store printCode hfault he
  have hlen := length_words_le source
  rw [hw] at hs hlen
  have hscript := follows_script ds hp.wellFormed
    (listStopped_of_greedy ds [] hp.wellFormed (.inr rfl) hp.greedy)
    (ready_start source store printCode).alive.advance hs hlen
  rw [wholeScript, Decl.writeProgram, run_advance_bind, run_advance_bind]
  exact hscript.seq

/-- A source that is made of the words of a program is compiled as the trees of the program say, unless
that is a mistake. -/
theorem run_wholeScript (he : ∀ t, .token t ∈ source.lexemes → t.kind ≠ .eof)
    (hfault : source.IsFaultless) (hw : source.words = Decl.listWords ds) (hp : IsProgram ds)
    (hf : ¬Failed ((Decl.writeProgram ds).run (.start source store printCode)).2) :
    (wholeScript source.lexemes.length).run (.start source store printCode) =
      (Decl.writeProgram ds).run (.start source store printCode) :=
  (follows_wholeScript he hfault hw hp).same hf

end Compiler
end StackScript
