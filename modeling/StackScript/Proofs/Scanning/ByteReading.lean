import StackScript.Proofs.Scanning.ByteScanner

/-! What the loops of the byte scanner read: every loop comes to an end, behind as many bytes as the same piece
takes among the bytes seen as characters, and a line break is counted with every byte that is one. -/
namespace StackScript.ByteScanner
variable {s : ByteScanner} {b : Char} {rest : List Char}

/-- Some bytes further on. -/
def pass (s : ByteScanner) (k : Nat) : ByteScanner :=
  { s with current := s.current + k, line := s.line + (s.remaining.take k).count '\n' }

@[simp] theorem bytes_pass (s : ByteScanner) (k : Nat) : (s.pass k).bytes = s.bytes := rfl
@[simp] theorem source_pass (s : ByteScanner) (k : Nat) : (s.pass k).source = s.source := rfl
@[simp] theorem start_pass (s : ByteScanner) (k : Nat) : (s.pass k).start = s.start := rfl
@[simp] theorem current_pass (s : ByteScanner) (k : Nat) : (s.pass k).current = s.current + k := rfl

@[simp] theorem remaining_pass (s : ByteScanner) (k : Nat) : (s.pass k).remaining = s.remaining.drop k := by
  simp [remaining, Nat.add_comm]

@[simp] theorem pass_zero (s : ByteScanner) : s.pass 0 = s := by simp [pass]

theorem pass_pass (s : ByteScanner) (j k : Nat) : (s.pass j).pass k = s.pass (j + k) := by
  have hcount : (s.remaining.take (j + k)).count '\n' =
      (s.remaining.take j).count '\n' + ((s.remaining.drop j).take k).count '\n' := by
    rw [List.take_add, List.count_append]
  rw [pass, remaining_pass, pass, pass, hcount]
  simp [Nat.add_assoc]

theorem peek_eq (s : ByteScanner) : s.peek = s.remaining.head?.getD '\x00' := by
  simp [peek, remaining]

theorem peekNext_eq (s : ByteScanner) : s.peekNext = (s.remaining[1]?).getD '\x00' := by
  simp [peekNext, remaining]

theorem atEnd_eq (s : ByteScanner) : s.atEnd = s.remaining.isEmpty := by
  rw [Bool.eq_iff_iff]
  simp [atEnd, remaining]

theorem atEnd_of_cons (h : s.remaining = b :: rest) : s.atEnd = false := by rw [atEnd_eq, h]; rfl

theorem atEnd_of_nil (h : s.remaining = []) : s.atEnd = true := by rw [atEnd_eq, h]; rfl

theorem peek_of_cons (h : s.remaining = b :: rest) : s.peek = b := by rw [peek_eq, h]; rfl

theorem peek_of_nil (h : s.remaining = []) : s.peek = '\x00' := by rw [peek_eq, h]; rfl

theorem peekNext_of_cons (h : s.remaining = b :: rest) : s.peekNext = rest.head?.getD '\x00' := by
  rw [peekNext_eq, h, List.getElem?_cons_succ, List.head?_eq_getElem?]

theorem run_advance (h : s.remaining = b :: rest) : advance.run s = some (b, s.pass 1) := by
  have hb : s.bytes[s.current]? = some b := by simpa [remaining] using congrArg List.head? h
  simp only [advance, StateT.run, hb, pass, h]
  by_cases hn : b = '\n' <;> simp [hn]

theorem run_consume_of_eq (h : s.remaining = b :: rest) (hb : b ≠ '\n') :
    (consume b).run s = some (true, s.pass 1) := by
  have hc : s.bytes[s.current]? = some b := by simpa [remaining] using congrArg List.head? h
  simp [consume, StateT.run, hc, pass, h, hb]

theorem run_consume_of_ne (h : ∀ rest, s.remaining ≠ b :: rest) : (consume b).run s = some (false, s) := by
  have hc : s.bytes[s.current]? ≠ some b := by
    intro hc
    cases hr : s.remaining with
    | nil => simp [remaining] at hr; simp [hr] at hc
    | cons d rest =>
      have hd : s.bytes[s.current]? = some d := by simpa [remaining] using congrArg List.head? hr
      rw [hd] at hc
      obtain rfl := Option.some.inj hc
      exact h rest hr
  simp [consume, StateT.run, hc]

theorem run_repeated_stop {step : Scanning Bool} {s t : ByteScanner} (h : step.run s = some (false, t)) (n : Nat) :
    (repeated step (n + 1)).run s = some ((), t) := by
  simp [repeated, h]

theorem run_repeated_next {step : Scanning Bool} {s t : ByteScanner} (h : step.run s = some (true, t)) (n : Nat) :
    (repeated step (n + 1)).run s = (repeated step n).run t := by
  simp [repeated, h]

theorem length_remaining_le (s : ByteScanner) : s.remaining.length ≤ s.bytes.length := by simp [remaining]

theorem run_stepWhile_of_true {p : ByteScanner → Bool} (hp : p s = true) (h : s.remaining = b :: rest) :
    (stepWhile p).run s = some (true, s.pass 1) := by simp [stepWhile, hp, run_advance h]

theorem run_stepWhile_of_false {p : ByteScanner → Bool} (hp : p s = false) :
    (stepWhile p).run s = some (false, s) := by simp [stepWhile, hp]

/-- A loop that reads bytes of a class. -/
theorem run_repeated_while {p : ByteScanner → Bool} {q : Char → Bool}
    (hp : ∀ s : ByteScanner, p s = s.remaining.head?.any q) {n : Nat} (hn : s.remaining.length < n) :
    (repeated (stepWhile p) n).run s = some ((), s.pass (s.remaining.takeWhile q).length) := by
  induction n generalizing s with
  | zero => cases hn
  | succ n ih =>
    cases hr : s.remaining with
    | nil => exact run_repeated_stop (run_stepWhile_of_false (by simp [hp, hr])) n
    | cons b rest =>
      have hps : p s = q b := by simp [hp, hr]
      cases hq : q b with
      | true =>
        rw [run_repeated_next (run_stepWhile_of_true (hps.trans hq) hr) n, ih (by simp [hr] at hn ⊢; omega)]
        simp [hr, hq, pass_pass, Nat.add_comm]
      | false =>
        rw [run_repeated_stop (run_stepWhile_of_false (hps.trans hq)) n]
        simp [hq]

theorem run_advanceWhile {p : ByteScanner → Bool} {q : Char → Bool}
    (hp : ∀ s : ByteScanner, p s = s.remaining.head?.any q) (s : ByteScanner) :
    (advanceWhile p).run s = some ((), s.pass (s.remaining.takeWhile q).length) := by
  have h := run_repeated_while hp (n := s.bytes.length + 1) (Nat.lt_succ_of_le (length_remaining_le s))
  simpa [advanceWhile, loop] using h

/-! ### Blanks and comments -/

/-- Whether a comment ends here. -/
def closesComment : List Char → Bool
  | ':' :: '}' :: _ => true
  | _ => false

/-- How many bytes there are before the end of a comment. -/
def commentLength : List Char → Nat
  | [] => 0
  | c :: rest => if closesComment (c :: rest) then 0 else commentLength rest + 1

theorem closesComment_eq_true {text : List Char} :
    closesComment text = true ↔ ∃ rest, text = ':' :: '}' :: rest := by
  fun_cases closesComment text <;> simp_all

/-- How many bytes there are up to the end of a comment and with it, if it has one. -/
def commentSize (text : List Char) : Nat :=
  commentLength text + if text.drop (commentLength text) = [] then 0 else 2

theorem blankLength_comment (count : Nat) (text : List Char) :
    Scan.blankLength true count text = Scan.blankLength false (count + commentSize text)
      (text.drop (commentSize text)) := by
  induction text generalizing count with
  | nil => simp [Scan.blankLength, commentSize, commentLength]
  | cons c rest ih =>
    cases hc : closesComment (c :: rest) with
    | true =>
      obtain ⟨rest, h⟩ := closesComment_eq_true.1 hc
      obtain ⟨rfl, rfl⟩ := List.cons.inj h
      rw [Scan.blankLength_closing, commentSize, commentLength, if_pos hc]
      rfl
    | false =>
      have hne : c = ':' → ∀ rest', rest ≠ '}' :: rest' := by
        rintro rfl rest' rfl
        cases hc
      have hlength : commentLength (c :: rest) = commentLength rest + 1 := by
        rw [commentLength, hc]
        rfl
      have hsize : commentSize (c :: rest) = commentSize rest + 1 := by
        rw [commentSize, hlength, List.drop_succ_cons, commentSize]
        omega
      rw [Scan.blankLength_inside hne, ih, hsize, List.drop_succ_cons]
      congr 1
      omega

/-- Behind a comment there are its last two bytes, or nothing. -/
theorem drop_commentLength (text : List Char) :
    text.drop (commentLength text) = [] ∨ ∃ rest, text.drop (commentLength text) = ':' :: '}' :: rest := by
  induction text with
  | nil => exact .inl rfl
  | cons c rest ih =>
    cases hc : closesComment (c :: rest) with
    | true =>
      rw [commentLength, if_pos hc]
      exact .inr (closesComment_eq_true.1 hc)
    | false =>
      rw [commentLength, if_neg (by simp [hc])]
      exact ih

theorem closesComment_cons (c d : Char) (rest : List Char) :
    closesComment (c :: d :: rest) = (c = ':' && d = '}') := by
  rw [closesComment.eq_def]
  split <;> simp_all

theorem inComment_eq (s : ByteScanner) : inComment s = (!s.remaining.isEmpty && !closesComment s.remaining) := by
  rw [inComment, atEnd_eq, peek_eq, peekNext_eq]
  cases s.remaining with
  | nil => rfl
  | cons c rest =>
    cases rest with
    | nil => simp [closesComment]
    | cons d rest =>
      by_cases hc : c = ':' <;> by_cases hd : d = '}' <;> simp [closesComment_cons, hc, hd]

theorem run_repeated_comment {n : Nat} (hn : s.remaining.length < n) :
    (repeated (stepWhile inComment) n).run s = some ((), s.pass (commentLength s.remaining)) := by
  induction n generalizing s with
  | zero => cases hn
  | succ n ih =>
    cases hr : s.remaining with
    | nil => exact run_repeated_stop (run_stepWhile_of_false (by rw [inComment_eq, hr]; rfl)) n
    | cons c rest =>
      have hin : inComment s = !closesComment (c :: rest) := by rw [inComment_eq, hr]; rfl
      rw [commentLength]
      cases hc : closesComment (c :: rest) with
      | true => exact run_repeated_stop (run_stepWhile_of_false (by rw [hin, hc]; rfl)) n
      | false =>
        rw [run_repeated_next (run_stepWhile_of_true (by rw [hin, hc]; rfl) hr) n, ih (by simp [hr] at hn ⊢; omega)]
        simp [hr, pass_pass, Nat.add_comm]

theorem run_comment (s : ByteScanner) :
    (advanceWhile inComment).run s = some ((), s.pass (commentLength s.remaining)) := by
  have h := run_repeated_comment (n := s.bytes.length + 1) (Nat.lt_succ_of_le (length_remaining_le s))
  simpa [advanceWhile, loop] using h

theorem run_stepBlank_blank (h : s.remaining = b :: rest) (hb : Scan.isBlank b = true) :
    stepBlank.run s = some (true, s.pass 1) := by
  simp [stepBlank, peek_of_cons h, atEnd_of_cons h, hb, run_advance h]

/-- The end of a comment is two bytes, if it is there. -/
theorem run_closeComment (h : s.remaining = [] ∨ ∃ rest, s.remaining = ':' :: '}' :: rest) :
    closeComment.run s = some ((), s.pass (if s.remaining = [] then 0 else 2)) := by
  obtain h | ⟨rest, h⟩ := h
  · simp [closeComment, atEnd_of_nil h, h]
  · have h1 : (s.pass 1).remaining = '}' :: rest := by rw [remaining_pass, h]; rfl
    simp [closeComment, atEnd_of_cons h, h, run_advance h, run_advance h1, pass_pass]

/-- A comment is read up to its end, if it has one. -/
theorem run_stepBlank_comment (h : s.remaining = '{' :: ':' :: rest) :
    ∃ k, 2 ≤ k ∧ stepBlank.run s = some (true, s.pass k) ∧
      ∀ count, Scan.blankLength false count s.remaining = Scan.blankLength false (count + k) (s.remaining.drop k) := by
  have h1 : (s.pass 1).remaining = ':' :: rest := by rw [remaining_pass, h]; rfl
  have h2 : ((s.pass 1).pass 1).remaining = rest := by rw [remaining_pass, h1]; rfl
  have hb : Scan.isBlank '{' = false := by decide
  have hcomment := run_comment ((s.pass 1).pass 1)
  have h3 := remaining_pass ((s.pass 1).pass 1) (commentLength rest)
  rw [h2] at hcomment h3
  have hclose := run_closeComment (s := ((s.pass 1).pass 1).pass (commentLength rest)) (h3 ▸ drop_commentLength rest)
  have hstep : stepBlank.run s = some (true, (((s.pass 1).pass 1).pass (commentLength rest)).pass
      (if rest.drop (commentLength rest) = [] then 0 else 2)) := by
    rw [← h3]
    simp [stepBlank, peek_of_cons h, peekNext_of_cons h, atEnd_of_cons h, hb, run_advance h, run_advance h1, hcomment,
      hclose, -remaining_pass]
  refine ⟨commentSize rest + 2, by omega, ?_, fun count => ?_⟩
  · rw [hstep, pass_pass, pass_pass, pass_pass, ← Nat.add_assoc, ← Nat.add_assoc, Nat.add_assoc (1 + 1),
      Nat.add_comm (1 + 1)]
    rfl
  · rw [h, Scan.blankLength_opening, blankLength_comment, List.drop_succ_cons, List.drop_succ_cons]
    congr 1
    omega

/-- What is neither a blank nor the start of a comment. -/
theorem run_stepBlank_stop (hb : s.remaining.head?.all (!Scan.isBlank ·))
    (hc : ∀ rest, s.remaining ≠ '{' :: ':' :: rest) : stepBlank.run s = some (false, s) := by
  cases hr : s.remaining with
  | nil => simp [stepBlank, atEnd_of_nil hr, peek_of_nil hr]
  | cons c rest =>
    have hb : Scan.isBlank c = false := by simpa [hr] using hb
    have hopen : ¬(c = '{' ∧ rest.head?.getD '\x00' = ':') := by
      rintro ⟨rfl, h⟩
      cases rest with
      | nil => cases h
      | cons d rest =>
        obtain rfl : d = ':' := h
        exact hc rest hr
    simp [stepBlank, atEnd_of_cons hr, peek_of_cons hr, peekNext_of_cons hr, hb, hopen]

/-- A step passes all of a blank or a comment, or stops. -/
theorem run_stepBlank (s : ByteScanner) :
    (stepBlank.run s = some (false, s) ∧ ∀ count, Scan.blankLength false count s.remaining = count) ∨
      ∃ k, 0 < k ∧ stepBlank.run s = some (true, s.pass k) ∧ s.remaining ≠ [] ∧
        ∀ count, Scan.blankLength false count s.remaining = Scan.blankLength false (count + k)
          (s.remaining.drop k) := by
  by_cases hopen : ∃ rest, s.remaining = '{' :: ':' :: rest
  · obtain ⟨rest, h⟩ := hopen
    obtain ⟨k, hk, hstep, hlength⟩ := run_stepBlank_comment h
    exact .inr ⟨k, by omega, hstep, by simp [h], hlength⟩
  · have hne : ∀ rest, s.remaining ≠ '{' :: ':' :: rest := fun rest h => hopen ⟨rest, h⟩
    cases hr : s.remaining with
    | nil => exact .inl ⟨run_stepBlank_stop (by simp [hr]) hne, fun _ => by simp [Scan.blankLength]⟩
    | cons c rest =>
      have hother : c = '{' → ∀ rest', rest ≠ ':' :: rest' := by
        rintro rfl rest' rfl
        exact hne rest' hr
      have houtside := Scan.blankLength_outside hother
      cases hb : Scan.isBlank c with
      | true =>
        refine .inr ⟨1, Nat.one_pos, run_stepBlank_blank hr hb, by simp, fun count => ?_⟩
        rw [houtside, if_pos hb]
        rfl
      | false =>
        refine .inl ⟨run_stepBlank_stop (by simp [hr, hb]) hne, fun count => ?_⟩
        rw [houtside, if_neg (by simp [hb])]

theorem blankLength_add (b : Bool) (count k : Nat) (text : List Char) :
    Scan.blankLength b (count + k) text = Scan.blankLength b count text + k := by
  fun_induction Scan.blankLength b count text with
  | case1 => rfl
  | case2 count rest ih => rw [Scan.blankLength_closing, ← ih]; congr 1; omega
  | case3 count c rest h ih => rw [Scan.blankLength_inside fun hc rest' => h rest' hc, ← ih]; congr 1; omega
  | case4 b count hb rest ih =>
    obtain rfl : b = false := by simpa using hb
    rw [Scan.blankLength_opening, ← ih]; congr 1; omega
  | case5 b count hb c rest h hc ih =>
    obtain rfl : b = false := by simpa using hb
    rw [Scan.blankLength_outside (fun hc rest' => h rest' hc), if_pos hc, ← ih]; congr 1; omega
  | case6 b count hb c rest h hc =>
    obtain rfl : b = false := by simpa using hb
    rw [Scan.blankLength_outside (fun hc rest' => h rest' hc), if_neg hc]

theorem run_repeated_blank {n : Nat} (hn : s.remaining.length < n) :
    (repeated stepBlank n).run s = some ((), s.pass (Scan.blankLength false 0 s.remaining)) := by
  induction n generalizing s with
  | zero => cases hn
  | succ n ih =>
    obtain ⟨hstep, hlength⟩ | ⟨k, hk, hstep, hne, hlength⟩ := run_stepBlank s
    · rw [run_repeated_stop hstep, hlength, pass_zero]
    · have hlt : (s.pass k).remaining.length < n := by
        have := List.length_pos_iff.2 hne
        rw [remaining_pass, List.length_drop]
        omega
      rw [run_repeated_next hstep, ih hlt, remaining_pass, pass_pass, hlength, blankLength_add, Nat.add_comm]

/-- Blanks and comments are skipped as in a text. -/
theorem run_skipBlank (s : ByteScanner) :
    skipBlank.run s = some ((), s.pass (Scan.blankLength false 0 s.remaining)) := by
  have h := run_repeated_blank (n := s.bytes.length + 1) (Nat.lt_succ_of_le (length_remaining_le s))
  simpa [skipBlank, loop] using h

/-! ### Literals -/

theorem drop_length_takeWhile (p : Char → Bool) (text : List Char) :
    text.drop (text.takeWhile p).length = text.dropWhile p := by
  induction text with
  | nil => rfl
  | cons c text ih => by_cases h : p c <;> simp [h, ih]

theorem run_number (h : b.isDigit = true) (hr : s.remaining = b :: rest) :
    number.run (s.pass 1) = some (.ok .number, s.pass (Scan.numberLength (b :: rest))) := by
  have hdigit (t : ByteScanner) : t.peek.isDigit = t.remaining.head?.any Char.isDigit := by
    rw [peek_eq]
    cases t.remaining with
    | nil => rfl
    | cons c rest => rfl
  have h1 : (s.pass 1).remaining = rest := by rw [remaining_pass, hr]; rfl
  have hwhole := run_advanceWhile hdigit (s.pass 1)
  obtain ⟨t, ht⟩ : ∃ t, (s.pass 1).pass (rest.takeWhile Char.isDigit).length = t := ⟨_, rfl⟩
  rw [h1, ht] at hwhole
  have htail : t.remaining = rest.dropWhile Char.isDigit := by
    rw [← ht, remaining_pass, h1, drop_length_takeWhile]
  have hpoint : (t.peek = '.' ∧ t.peekNext.isDigit = true) ↔
      ∃ c rest', rest.dropWhile Char.isDigit = '.' :: c :: rest' ∧ c.isDigit = true := by
    rw [peek_eq, peekNext_eq, htail]
    cases rest.dropWhile Char.isDigit with
    | nil => simp
    | cons d rest =>
      cases rest with
      | nil => simp
      | cons e rest => simp [and_assoc]
  by_cases hp : t.peek = '.' ∧ t.peekNext.isDigit = true
  · obtain ⟨c, rest', hrest, hc⟩ := hpoint.1 hp
    have h2 : (t.pass 1).remaining = c :: rest' := by rw [remaining_pass, htail, hrest]; rfl
    have hfraction := run_advanceWhile hdigit (t.pass 1)
    have hlength : Scan.numberLength (b :: rest) =
        1 + (rest.takeWhile Char.isDigit).length + (1 + ((c :: rest').takeWhile Char.isDigit).length) := by
      simp [Scan.numberLength, h, hrest, hc]
      omega
    have hrun : number.run (s.pass 1) =
      some (.ok .number, (t.pass 1).pass ((c :: rest').takeWhile Char.isDigit).length) := by
      rw [h2] at hfraction
      simp [number, hwhole, hp, run_advance (htail.trans hrest), hfraction]
    rw [hrun, ← ht, pass_pass, pass_pass, pass_pass, hlength]
    simp only [Nat.add_assoc]
  · have hlength : Scan.numberLength (b :: rest) = 1 + (rest.takeWhile Char.isDigit).length := by
      rw [Scan.numberLength, List.takeWhile_cons_of_pos h, List.dropWhile_cons_of_pos h]
      dsimp only
      split
      · rename_i tail htail
        cases tail with
        | nil => simp [Nat.add_comm]
        | cons c tail =>
          have hc : ¬c.isDigit = true := fun hc => hp (hpoint.2 ⟨c, tail, htail, hc⟩)
          simp [hc, Nat.add_comm]
      · simp [Nat.add_comm]
    have hrun : number.run (s.pass 1) = some (.ok .number, t) := by simp [number, hwhole, hp]
    rw [hrun, ← ht, pass_pass, hlength]

/-- A string literal is read as far as it goes in a text. -/
theorem run_repeated_string {n : Nat} (hn : s.remaining.length < n) :
    ∃ k, (repeated stepString n).run s = some ((), s.pass k) ∧
      ((k = s.remaining.length ∧ ∀ count, Quoted.extent count s.remaining = (count + k, false)) ∨
        ((∃ rest, s.remaining.drop k = '"' :: rest) ∧
          ∀ count, Quoted.extent count s.remaining = (count + k + 1, true))) := by
  induction n generalizing s with
  | zero => cases hn
  | succ n ih =>
    cases hr : s.remaining with
    | nil =>
      have hstop : stepString.run s = some (false, s) := by simp [stepString, peek_of_nil hr, atEnd_of_nil hr]
      refine ⟨0, by rw [run_repeated_stop hstop, pass_zero], .inl ⟨rfl, fun _ => rfl⟩⟩
    | cons c rest =>
      have h1 : (s.pass 1).remaining = rest := by rw [remaining_pass, hr]; rfl
      by_cases hq : c = '"'
      · subst hq
        have hstop : stepString.run s = some (false, s) := by simp [stepString, peek_of_cons hr]
        exact ⟨0, by rw [run_repeated_stop hstop, pass_zero], .inr ⟨⟨rest, rfl⟩, fun _ => rfl⟩⟩
      by_cases hb : c = '\\'
      · subst hb
        cases rest with
        | nil =>
          have hstop : stepString.run s = some (false, s.pass 1) := by
            simp [stepString, peek_of_cons hr, atEnd_of_cons hr, run_advance hr, atEnd_of_nil h1]
          exact ⟨1, run_repeated_stop hstop n, .inl ⟨rfl, fun _ => rfl⟩⟩
        | cons d rest =>
          have hnext : stepString.run s = some (true, s.pass 2) := by
            simp [stepString, peek_of_cons hr, atEnd_of_cons hr, run_advance hr, atEnd_of_cons h1, run_advance h1,
              pass_pass]
          have h2 : (s.pass 2).remaining = rest := by rw [remaining_pass, hr]; rfl
          obtain ⟨k, hk, hextent⟩ := ih (s := s.pass 2) (by simp [hr] at hn ⊢; omega)
          rw [h2] at hextent
          refine ⟨2 + k, by rw [run_repeated_next hnext, hk, pass_pass], ?_⟩
          obtain ⟨rfl, he⟩ | ⟨⟨tail, htail⟩, he⟩ := hextent
          · refine .inl ⟨by simp; omega, fun count => ?_⟩
            rw [Quoted.extent, he, Nat.add_assoc]
          · refine .inr ⟨⟨tail, by rw [← htail]; simp [Nat.add_comm 2]⟩, fun count => ?_⟩
            rw [Quoted.extent, he, Nat.add_assoc count]
      · have hnext : stepString.run s = some (true, s.pass 1) := by
          simp [stepString, peek_of_cons hr, atEnd_of_cons hr, hq, hb, run_advance hr]
        obtain ⟨k, hk, hextent⟩ := ih (s := s.pass 1) (by simp [hr] at hn ⊢; omega)
        rw [h1] at hextent
        refine ⟨1 + k, by rw [run_repeated_next hnext, hk, pass_pass], ?_⟩
        obtain ⟨rfl, he⟩ | ⟨⟨tail, htail⟩, he⟩ := hextent
        · refine .inl ⟨by simp; omega, fun count => ?_⟩
          rw [Scan.extent_other hq hb, he, Nat.add_assoc]
        · refine .inr ⟨⟨tail, by rw [← htail]; simp [Nat.add_comm 1]⟩, fun count => ?_⟩
          rw [Scan.extent_other hq hb, he, Nat.add_assoc count]

theorem run_string (hr : s.remaining = '"' :: rest) :
    string.run (s.pass 1) = some ((Scan.classify '"' rest).1, s.pass (Scan.classify '"' rest).2) := by
  have h1 : (s.pass 1).remaining = rest := by rw [remaining_pass, hr]; rfl
  obtain ⟨k, hk, hextent⟩ := run_repeated_string (s := s.pass 1) (n := s.bytes.length + 1)
    (Nat.lt_succ_of_le (length_remaining_le _))
  obtain ⟨t, ht⟩ : ∃ t, (s.pass 1).pass k = t := ⟨_, rfl⟩
  have hloop : (loop stepString).run (s.pass 1) = some ((), t) := by simpa [loop, ← ht] using hk
  have h2 : t.remaining = rest.drop k := by rw [← ht, remaining_pass, h1]
  rw [h1] at hextent
  rw [Scan.classify_quote]
  obtain ⟨rfl, he⟩ | ⟨⟨tail, htail⟩, he⟩ := hextent
  · have hend := atEnd_of_nil (h2.trans List.drop_length)
    have hrun : string.run (s.pass 1) = some (.error .unterminatedString, t) := by simp [string, hloop, hend]
    rw [hrun, he, ← ht, pass_pass]
    rfl
  · have hend := atEnd_of_cons (h2.trans htail)
    have hrun : string.run (s.pass 1) = some (.ok .string, t.pass 1) := by
      simp [string, hloop, hend, run_advance (h2.trans htail)]
    rw [hrun, he, ← ht, pass_pass, pass_pass]
    rfl

end StackScript.ByteScanner
