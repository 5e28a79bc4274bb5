import StackScript.Proofs.Code.TracedProgram

/-! The lines of compiled code are those of the source. An instruction is on the line of the token that was read last
before it was written, so the lines of a function never go back, and an operand is where its opcode is. -/
namespace StackScript

/-! ### Where the words of a function are -/

namespace Event

mutual

/-- The words of a function stand one after another among those that are read. -/
theorem words_of_mem_histories {start : Nat} {h : History} (e : Event) (hh : h ∈ e.histories start) :
    ∃ before after, e.words = before ++ (allWords h.events ++ after) ∧ h.start = start + before.length := by
  cases e with
  | function r events =>
    rw [histories_function, List.mem_append, List.mem_singleton] at hh
    obtain hh | rfl := hh
    · exact words_of_mem_allHistories events hh
    · exact ⟨[], [], (List.append_nil _).symm, rfl⟩
  | _ => cases hh

theorem words_of_mem_allHistories {start : Nat} {h : History} (es : List Event) (hh : h ∈ allHistories start es) :
    ∃ before after, allWords es = before ++ (allWords h.events ++ after) ∧ h.start = start + before.length := by
  cases es with
  | nil => cases hh
  | cons e es =>
    rw [allHistories_cons, List.mem_append] at hh
    rw [allWords_cons]
    obtain hh | hh := hh
    · obtain ⟨before, after, hw, hs⟩ := words_of_mem_histories e hh
      exact ⟨before, after ++ allWords es, by rw [hw]; simp, hs⟩
    · obtain ⟨before, after, hw, hs⟩ := words_of_mem_allHistories es hh
      exact ⟨e.words ++ before, after, by rw [hw, List.append_assoc], by rw [hs, List.length_append, Nat.add_assoc]⟩

end

end Event

/-- Something is read first. -/
def Event.ReadFirst (es : List Event) : Prop := ∃ w rest, es = .read w :: rest

theorem Event.ReadFirst.append {es : List Event} (h : ReadFirst es) (fs : List Event) : ReadFirst (es ++ fs) := by
  obtain ⟨w, rest, rfl⟩ := h
  exact ⟨w, rest ++ fs, rfl⟩

theorem Expr.readFirst_events (names : List String) (e : Expr) : Event.ReadFirst (e.events names) := by
  cases e with
  | literal | name | group | assign | unary => exact ⟨_, _, rfl⟩
  | binary op left right | and left right | or left right => exact (readFirst_events names left).append _
  | call callee arguments => exact (readFirst_events names callee).append _

theorem Decl.readFirst_events (σ : Scope) (first : Nat) (d : Decl) : Event.ReadFirst (d.events σ first) := by
  cases d with
  | expression e => exact (e.readFirst_events _).append _
  | out value => cases value <;> exact ⟨_, _, rfl⟩
  | var x initial => cases initial <;> exact ⟨_, _, rfl⟩
  | _ => exact ⟨_, _, rfl⟩

theorem Decl.readFirst_programEvents (first : Nat) (ds : List Decl) : Event.ReadFirst (programEvents first ds) := by
  cases ds with
  | nil => exact ⟨_, _, rfl⟩
  | cons d ds =>
    rw [programEvents, listEvents, List.append_assoc]
    exact (d.readFirst_events _ _).append _

/-! ### Lines that do not go back -/

namespace Progress
variable {line : Nat → Nat}

/-- What is written is on the line of a word that has been read. -/
theorem mem_placed {p : Progress} {es : List Event} {x : Instr × Nat} (hx : x ∈ p.placed line es) :
    ∃ n, p.words ≤ n ∧ x.2 = line n := by
  induction es generalizing p with
  | nil => cases hx
  | cons e es ih =>
    have hnext : p.words ≤ (p.next e).words := Nat.le.intro (p.words_after [e]).symm
    rw [placed, List.mem_append] at hx
    obtain hx | hx := hx
    · obtain ⟨i, -, rfl⟩ := Option.map_eq_some_iff.1 (Option.mem_toList.1 hx)
      exact ⟨_, hnext, rfl⟩
    · obtain ⟨n, hn, hline⟩ := ih hx
      exact ⟨n, Nat.le_trans hnext hn, hline⟩

theorem pairwise_placed (hline : Monotone line) (p : Progress) (es : List Event) :
    ((p.placed line es).map Prod.snd).Pairwise (· ≤ ·) := by
  induction es generalizing p with
  | nil => exact .nil
  | cons e es ih =>
    rw [placed, List.map_append]
    refine List.pairwise_append.2 ⟨?_, ih _, fun l hl l' hl' => ?_⟩
    · cases p.instr? e <;> simp
    · obtain ⟨x, hx, rfl⟩ := List.mem_map.1 hl
      obtain ⟨i, -, rfl⟩ := Option.map_eq_some_iff.1 (Option.mem_toList.1 hx)
      obtain ⟨y, hy, rfl⟩ := List.mem_map.1 hl'
      obtain ⟨n, hn, hy⟩ := mem_placed hy
      rw [hy]
      exact hline hn

/-- Where the instruction of an event is, and on which line. -/
theorem placed_of_instr {p : Progress} {pre post : List Event} {e : Event} {i : Instr}
    (hi : (p.after pre).instr? e = some i) : p.placed line (pre ++ e :: post) =
      p.placed line pre ++ (i, line (p.words + (Event.allWords (pre ++ [e])).length)) ::
        (p.after (pre ++ [e])).placed line post := by
  rw [placed_append, placed, hi, ← words_after, after_append]
  rfl

end Progress

theorem pairwise_byteLines {placed : List (Instr × Nat)} (h : (placed.map Prod.snd).Pairwise (· ≤ ·)) :
    (byteLines placed).Pairwise (· ≤ ·) := by
  induction placed with
  | nil => exact .nil
  | cons x xs ih =>
    obtain ⟨hx, hxs⟩ := List.pairwise_cons.1 h
    refine List.pairwise_append.2 ⟨List.pairwise_replicate.2 (.inr (Nat.le_refl _)), ih hxs, fun l hl l' hl' => ?_⟩
    obtain ⟨y, hy, hl'⟩ := List.mem_flatMap.1 hl'
    rw [List.eq_of_mem_replicate hl, List.eq_of_mem_replicate hl']
    exact hx _ (List.mem_map_of_mem hy)

theorem Bytecode.Lined.getElem?_byteLines {b : Bytecode} {placed : List (Instr × Nat)} (h : b.Lined placed) {k : Nat}
    (hk : k < b.size) : (byteLines placed)[k]? = some (b.lineAt k) := by
  have hsize : (byteLines placed).length = b.size := by
    rw [length_byteLines, ← length_codeBytes, ← h.code.code, Array.length_toList, Bytecode.size]
  have hline := List.getElem?_eq_getElem (hsize ▸ hk)
  rw [hline, Bytecode.lineAt, h.lines, LineTable.lineAt_ofLines hline]

/-! ### The lines of words -/

namespace TokenStream
variable (source : String) (n : Nat)

theorem wordLine_mem_lines : (ofSource source).wordLine (n + 1) ∈ (ofSource source).lines := by
  rw [wordLine, lines]
  cases h : ((ofSource source).lexemes.map Lexeme.line)[n]? with
  | none => exact List.mem_append_right _ (List.mem_singleton_self _)
  | some l => exact List.mem_append_left _ (List.mem_of_getElem? h)

theorem one_le_wordLine {n : Nat} (hn : 0 < n) : 1 ≤ (ofSource source).wordLine n := by
  obtain ⟨m, rfl⟩ := Nat.exists_eq_succ_of_ne_zero hn.ne'
  exact List.rel_of_pairwise_cons (ascending_ofSource source) (wordLine_mem_lines source m)

theorem le_lastLine {l : Nat} (hl : l ∈ (ofSource source).lines) : l ≤ (ofSource source).lastLine := by
  have hall := (List.pairwise_append.1 (List.pairwise_cons.1 (ascending_ofSource source)).2).2.2
  rw [lines, List.mem_append, List.mem_singleton] at hl
  obtain hl | rfl := hl
  · exact hall l hl _ (List.mem_singleton_self _)
  · exact Nat.le_refl _

theorem wordLine_le : (ofSource source).wordLine n ≤ 1 + lineBreaks source := by
  rw [← lastLine_ofSource]
  cases n with
  | zero => exact Nat.zero_le _
  | succ n => exact le_lastLine source (wordLine_mem_lines source n)

/-- Words come in order. -/
theorem monotone_wordLine : Monotone (ofSource source).wordLine := by
  refine monotone_nat_of_le_succ fun n => ?_
  cases n with
  | zero => exact Nat.zero_le _
  | succ n =>
    cases h : ((ofSource source).lexemes.map Lexeme.line)[n + 1]? with
    | none =>
      rw [wordLine.eq_2 _ (n + 1), h]
      exact le_lastLine source (wordLine_mem_lines source n)
    | some l =>
      have hpairs := (List.pairwise_append.1 (List.pairwise_cons.1 (ascending_ofSource source)).2).1
      obtain ⟨hlt, rfl⟩ := List.getElem?_eq_some_iff.1 h
      rw [wordLine, wordLine, h, List.getElem?_eq_getElem (Nat.lt_of_succ_lt hlt)]
      exact List.pairwise_iff_getElem.1 hpairs n (n + 1) _ hlt (Nat.lt_succ_self n)

end TokenStream

/-! ### The lines of functions -/

/-- The code of a function and its lines are those of a history, and the words of the history are in the source. -/
structure Function.FollowsLines (source : String) (h : History) (f : Function) : Prop where
  words : Event.allWords h.events <+: ((TokenStream.ofSource source).words ++ [TokenKind.eof.mark]).drop h.start
  code : f.bytecode.Consists h.code
  /-- All bytes of an instruction are on the line of the word that was read last before it was written. -/
  instruction : ∀ {pre e post i}, h.events = pre ++ e :: post → (h.begin.after pre).instr? e = some i → ∀ k < i.size,
    f.bytecode.lineAt (codeLength (h.begin.code pre) + k) =
      (TokenStream.ofSource source).wordLine (h.start + (Event.allWords (pre ++ [e])).length)
  ascending : ∀ {j k}, j ≤ k → k < f.bytecode.size → f.bytecode.lineAt j ≤ f.bytecode.lineAt k
  bounded : ∀ {k}, k < f.bytecode.size → 1 ≤ f.bytecode.lineAt k ∧ f.bytecode.lineAt k ≤ 1 + lineBreaks source

section
variable {source : String} {store : Store} {h : History} {f : Function}

/-- Before anything is written something has been read. -/
theorem History.pos_of_mem_placed (hstart : 0 < h.start ∨ Event.ReadFirst h.events) {line : Nat → Nat} {x : Instr × Nat}
    (hx : x ∈ h.placed line) : ∃ n, 0 < n ∧ x.2 = line n := by
  obtain hpos | ⟨w, rest, hread⟩ := hstart
  · obtain ⟨n, hn, hline⟩ := Progress.mem_placed hx
    exact ⟨n, Nat.lt_of_lt_of_le hpos hn, hline⟩
  · rw [History.placed, hread] at hx
    obtain ⟨n, hn, hline⟩ := Progress.mem_placed (p := h.begin.next (.read w)) hx
    exact ⟨n, Nat.lt_of_lt_of_le (Nat.succ_pos _) hn, hline⟩

theorem Function.Tells.followsLines (hf : f.Tells store (TokenStream.ofSource source).wordLine h)
    (hwords : Event.allWords h.events <+: ((TokenStream.ofSource source).words ++ [TokenKind.eof.mark]).drop h.start)
    (hstart : 0 < h.start ∨ Event.ReadFirst h.events) : f.FollowsLines source h where
  words := hwords
  code := hf.consists
  instruction := by
    intro pre e post i hevents hi k hk
    have hlined := hf.lined
    rw [History.placed, hevents, Progress.placed_of_instr hi] at hlined
    have hline := hlined.lineAt hk
    rwa [Progress.map_placed] at hline
  ascending := by
    intro j k hjk hk
    have hpairs := pairwise_byteLines (h.begin.pairwise_placed (TokenStream.monotone_wordLine source) h.events)
    have hj := hf.lined.getElem?_byteLines (Nat.lt_of_le_of_lt hjk hk)
    have hk := hf.lined.getElem?_byteLines hk
    obtain ⟨hjlt, hj⟩ := List.getElem?_eq_some_iff.1 hj
    obtain ⟨hklt, hk⟩ := List.getElem?_eq_some_iff.1 hk
    obtain rfl | hlt := Nat.eq_or_lt_of_le hjk
    · exact Nat.le_refl _
    · rw [← hj, ← hk]
      exact List.pairwise_iff_getElem.1 hpairs j k hjlt hklt hlt
  bounded := by
    intro k hk
    obtain ⟨x, hx, hline⟩ := List.mem_flatMap.1 (List.mem_of_getElem? (hf.lined.getElem?_byteLines hk))
    obtain ⟨n, hn, hxn⟩ := h.pos_of_mem_placed hstart hx
    rw [List.eq_of_mem_replicate hline, hxn]
    exact ⟨TokenStream.one_le_wordLine source hn, TokenStream.wordLine_le source n⟩

/-- The words of a function are words of the program, and something is read before anything is written. -/
theorem words_of_mem_programHistories {first : Nat} {ds : List Decl} (hh : h ∈ Decl.programHistories first ds) :
    Event.allWords h.events <+: (Decl.listWords ds ++ [TokenKind.eof.mark]).drop h.start ∧
      (0 < h.start ∨ Event.ReadFirst h.events) := by
  have hread := Decl.readFirst_programEvents first ds
  rw [← Decl.words_programEvents first]
  rw [Decl.programHistories, List.mem_append, List.mem_singleton] at hh
  obtain hh | rfl := hh
  · constructor
    · obtain ⟨before, after, hw, hs⟩ := Event.words_of_mem_allHistories _ hh
      rw [Nat.zero_add] at hs
      exact ⟨after, by rw [hs, hw, List.drop_left]⟩
    · obtain ⟨w, rest, hread⟩ := hread
      rw [hread] at hh
      have hrest : h ∈ Event.allHistories (0 + 1) rest := hh
      obtain ⟨before, -, -, hs⟩ := Event.words_of_mem_allHistories rest hrest
      exact .inl (by omega)
  · exact ⟨List.prefix_rfl, .inr hread⟩

end

/-- Closing a jump leaves the lines alone. -/
theorem Compiler.lines_closeJump (offset : Nat) (s : State) :
    ((closeJump offset).run s).2.draft.bytecode.lines = s.draft.bytecode.lines := by
  have hensure := congrArg Bytecode.lines (quiet_ensure (offset + 2 ≤ s.draft.bytecode.size) .jumpInCode s).bytecode
  rw [closeJump, run_bind, run_codeSize, run_bind, run_bind, run_codeSize]
  dsimp only
  split
  · rw [run_modify]
    exact hensure
  · rwa [(quiet_mistake .jumpTooLarge _).bytecode]

/-- The lines of compiled code never go back and are lines of the source. All bytes of an instruction are on one line, that
of the token read last before the instruction was written. A byte is put on the line of the token read last, whatever has
been compiled so far, and closing a jump leaves the lines alone. -/
theorem compile_lines {source : String} {store : Store} {printCode : Bool} {r : FunctionRef}
    (h : (compile source store printCode).result = .ok r) :
    (∃ ds fs, (TokenStream.ofSource source).Reads ds ∧
      (compile source store printCode).store.functions.toList = store.functions.toList ++ fs ∧
      List.Forall₂ (fun h f => f.FollowsLines source h) (Decl.programHistories store.functions.size ds) fs) ∧
    ∀ (s : Compiler.State),
      (∀ byte, ((Compiler.emitByte byte).run s).2.draft.bytecode.lines = s.draft.bytecode.lines.push s.previous.line) ∧
      ∀ offset, ((Compiler.closeJump offset).run s).2.draft.bytecode.lines = s.draft.bytecode.lines := by
  refine ⟨?_, fun s => ⟨fun _ => rfl, fun offset => Compiler.lines_closeJump offset s⟩⟩
  obtain ⟨ds, fs, hreads, hfs, hall⟩ := tells_of_ok h
  have hwords : ∀ h ∈ Decl.programHistories store.functions.size ds,
      Event.allWords h.events <+: ((TokenStream.ofSource source).words ++ [TokenKind.eof.mark]).drop h.start ∧
        (0 < h.start ∨ Event.ReadFirst h.events) := by
    rw [hreads.words]
    exact fun h hh => words_of_mem_programHistories hh
  refine ⟨ds, fs, hreads, hfs, ((List.forall₂_and_left _ _).2 ⟨hwords, hall⟩).imp ?_⟩
  rintro h f ⟨⟨hwords, hstart⟩, hf⟩
  exact hf.followsLines hwords hstart

/-- A function on five lines. What is printed last in it is on the fourth one, and its end on the fifth one. -/
theorem compile_lines_of_five :
    (compile "fwun f(b) [:\n ouo \"a\", b,\n\n b >>\n:] f(1)" {} false).store.functions.toList.map
        (fun f => (List.range f.bytecode.size).map f.bytecode.lineAt) =
      [[2, 2, 2, 2, 2, 2, 4, 4, 4, 5, 5], [5, 5, 5, 5, 5, 5, 5, 5, 5, 5, 5, 5, 5]] ∧
      ∃ ds fs, (TokenStream.ofSource "fwun f(b) [:\n ouo \"a\", b,\n\n b >>\n:] f(1)").Reads ds ∧
        (compile "fwun f(b) [:\n ouo \"a\", b,\n\n b >>\n:] f(1)" {} false).store.functions.toList = fs ∧
        List.Forall₂ (fun h f => f.FollowsLines "fwun f(b) [:\n ouo \"a\", b,\n\n b >>\n:] f(1)" h)
          (Decl.programHistories 0 ds) fs := by
  have hok : (compile "fwun f(b) [:\n ouo \"a\", b,\n\n b >>\n:] f(1)" {} false).result = .ok ⟨1⟩ := by decide +kernel
  obtain ⟨⟨ds, fs, hreads, hfs, hall⟩, -⟩ := compile_lines hok
  exact ⟨by decide +kernel, ds, fs, hreads, hfs, hall⟩

end StackScript
