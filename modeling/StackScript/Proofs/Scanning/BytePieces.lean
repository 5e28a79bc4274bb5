import StackScript.Proofs.Scanning.BytePlaces

/-! Pieces among the bytes of a source. From a place between two characters the byte scanner reads the piece
that starts there, and it comes to a place between two characters again, whatever the piece is. -/
namespace StackScript.ByteScanner
variable {s : ByteScanner} {b : Char} {rest : List Char}

/-! ### Literals -/

/-- What has no closing mark. -/
theorem dropWhile_eq_nil {p : Char → Bool} {text : List Char} :
    text.dropWhile p = [] ↔ (text.takeWhile p).length = text.length := by
  rw [← drop_length_takeWhile, List.drop_eq_nil_iff]
  exact ⟨Nat.le_antisymm (List.takeWhile_prefix p).length_le, fun h => Nat.le_of_eq h.symm⟩

theorem run_character {front text : List Char} (hstart : s.start = s.current)
    (h : s.Stands front (Scan.charQuote :: text)) :
    character.run (s.pass 1) =
      some ((Scan.charLiteral text).1, s.pass (Scan.bytesOf (Scan.charQuote :: text) (Scan.charLiteral text).2)) := by
  have hq : Scan.charQuote.toNat < 128 := by decide
  have h1 : (s.pass 1).remaining = Scan.spread text := by
    rw [remaining_pass, h.remaining, Scan.spread_cons_ascii hq]; rfl
  suffices hbytes : character.run (s.pass 1) =
      some ((Scan.charLiteral (Scan.spread text)).1, s.pass (Scan.charLiteral (Scan.spread text)).2) by
    rw [hbytes, Scan.charLiteral_spread]
  have hquote (t : ByteScanner) : inCharacter t = t.remaining.head?.any (· ≠ Scan.charQuote) := by
    rw [inCharacter, peek_eq, atEnd_eq]
    cases t.remaining with
    | nil => simp
    | cons c rest => by_cases hc : c = Scan.charQuote <;> simp [hc]
  cases hbytes : Scan.spread text with
  | nil => simp [character, atEnd_of_nil (h1.trans hbytes), Scan.charLiteral]
  | cons b rest =>
    have h2 := h1.trans hbytes
    have hin := atEnd_of_cons h2
    by_cases hb : b = Scan.charQuote
    · subst hb
      simp [character, hin, peek_of_cons h2, run_advance h2, Scan.charLiteral, pass_pass]
    · have hwhile := run_advanceWhile hquote (s.pass 1)
      obtain ⟨body, hbody⟩ : ∃ body, (b :: rest).takeWhile (· ≠ Scan.charQuote) = body := ⟨_, rfl⟩
      obtain ⟨t, ht⟩ : ∃ t, (s.pass 1).pass body.length = t := ⟨_, rfl⟩
      rw [h2, hbody, ht] at hwhile
      have h3 : t.remaining = (b :: rest).dropWhile (· ≠ Scan.charQuote) := by
        rw [← ht, remaining_pass, h2, ← hbody, drop_length_takeWhile]
      rw [Scan.charLiteral_cons hb hbody]
      by_cases hopen : body.length = (b :: rest).length
      · have hend : t.remaining = [] := h3.trans (dropWhile_eq_nil.2 (hbody ▸ hopen))
        have hrun : character.run (s.pass 1) = some (.error .unterminatedChar, t) := by
          simp [character, hin, peek_of_cons h2, hb, hwhile, atEnd_of_nil hend]
        rw [hrun, if_pos hopen, ← ht, pass_pass, Nat.add_comm]
      · obtain ⟨tail, hsplit⟩ := Scan.exists_closing (b :: rest) (q := Scan.charQuote) (hbody ▸ hopen)
        rw [hbody] at hsplit
        have hclose : t.remaining = Scan.charQuote :: tail := by
          rw [← ht, remaining_pass, h2, hsplit, List.drop_left]
        have hcount : t.current + 1 - t.start = body.length + 2 := by
          rw [← ht, current_pass, current_pass, start_pass, start_pass, hstart]
          omega
        have hrun : character.run (s.pass 1) =
            some (if body.length + 2 = 3 then .ok .char else .error .invalidChar, t.pass 1) := by
          simp [character, hin, peek_of_cons h2, hb, hwhile, atEnd_of_cons hclose, run_advance hclose, hcount]
        have hsingle : body.length + 2 = 3 ↔ body = [b] ∧ b.toNat < 128 := by
          constructor
          · intro hone
            obtain ⟨c, rfl⟩ := List.length_eq_one_iff.1 (Nat.add_right_cancel hone)
            obtain ⟨rfl, rfl⟩ := List.cons.inj hsplit
            exact ⟨rfl, ascii_of_spread hbytes hq⟩
          · rintro ⟨rfl, -⟩
            rfl
        rw [hrun, if_neg hopen, ← ht, pass_pass, pass_pass]
        by_cases hone : body.length + 2 = 3
        · rw [if_pos hone, if_pos (hsingle.1 hone), Nat.add_right_cancel hone]
        · rw [if_neg hone, if_neg (mt hsingle.2 hone)]
          congr 3
          omega

/-! ### Words -/

/-- A word of ASCII characters has been read. -/
structure HasRead (s : ByteScanner) (front run after : List Char) : Prop where
  source : s.source = front ++ (run ++ after)
  start : s.start = (Scan.spread front).length
  current : s.current = s.start + run.length
  ascii : ∀ c ∈ run, c.toNat < 128

section
variable {front run after : List Char}

theorem HasRead.slice (h : s.HasRead front run after) {known : Nat} (hk : known ≤ run.length) :
    slice? s.source (s.start + known) s.current = some (run.drop known) := by
  have htake : Scan.spread (run.take known) = run.take known :=
    Scan.spread_ascii fun c hc => h.ascii c (List.mem_of_mem_take hc)
  have hdrop : Scan.spread (run.drop known) = run.drop known :=
    Scan.spread_ascii fun c hc => h.ascii c (List.mem_of_mem_drop hc)
  have hslice := slice?_append (front ++ run.take known) (run.drop known) after
  rw [spread_append, htake, hdrop, List.length_append, List.length_take_of_le hk, List.length_drop, ← h.start] at hslice
  have hsource : front ++ run.take known ++ (run.drop known ++ after) = s.source := by
    rw [h.source, List.append_assoc, ← List.append_assoc (run.take known), List.take_append_drop]
  have hcurrent : s.start + known + (run.length - known) = s.current := by
    rw [h.current]
    omega
  rwa [hsource, hcurrent] at hslice

theorem HasRead.run_checkKeyword (h : s.HasRead front run after) {known : Nat} (hk : known ≤ run.length) (rest : String)
    (kind : TokenKind) :
    (checkKeyword known rest kind).run s = some (if run.drop known = rest.toList then kind else .ident, s) := by
  have hlength : s.current - s.start = run.length := by
    rw [h.current]
    omega
  by_cases hl : run.length = known + rest.length
  · by_cases he : run.drop known = rest.toList <;> simp [checkKeyword, hlength, hl, h.slice hk, he]
  · have he : run.drop known ≠ rest.toList := by
      intro he
      have := congrArg List.length he
      rw [List.length_drop, String.length_toList] at this
      omega
    simp [checkKeyword, hlength, hl, he]

/-- A word is looked up by its characters. -/
theorem lookup_text (run : List Char) (x : String) (kind : TokenKind) (ks : List (String × TokenKind)) :
    ((x, kind) :: ks).lookup (String.ofList run) =
      if run = x.toList then some kind else ks.lookup (String.ofList run) := by
  have hx : (String.ofList run == x) = decide (run = x.toList) := by
    rw [Bool.eq_iff_iff, beq_iff_eq, decide_eq_true_iff, ← String.toList_inj, String.toList_ofList]
  rw [List.lookup_cons, hx]
  by_cases h : run = x.toList <;> simp [h]

theorem HasRead.run_known (h : s.HasRead front run after) {known : Nat} (hk : known ≤ run.length) {rest : String}
    {kind : TokenKind} (hword : Scan.wordKind run = .ok (if run.drop known = rest.toList then kind else .ident)) :
    (some <$> checkKeyword known rest kind).run s = some ((Scan.wordKind run).toOption, s) := by
  rw [StateT.run_map, h.run_checkKeyword hk, hword]
  rfl

/-- The first bytes tell which keyword a word can be. -/
theorem HasRead.run_wordKind? (h : s.HasRead front run after) (hne : run ≠ []) :
    (wordKind? run).run s = some ((Scan.wordKind run).toOption, s) := by
  unfold wordKind?
  split
  · exact absurd rfl hne
  case h_13 rest =>
    have hkind : Scan.wordKind ('?' :: rest) = if rest = ['w', '?'] then .ok .if_ else .error .invalidIdentifier := by
      simp only [Scan.wordKind, keywords, lookup_text]
      by_cases hr : rest = ['w', '?'] <;> simp [hr]
    have hcheck := h.run_checkKeyword (Nat.le_add_left 1 rest.length) "w?" .if_
    by_cases hr : rest = ['w', '?'] <;> simp_all [Except.toOption]
  case h_14 ha hi he ht hfa hfw huw hun how houo hout hquestion =>
    have hother : ∀ p ∈ keywords, run ≠ p.1.toList := by
      rintro p hp rfl
      simp only [keywords, List.mem_cons, List.not_mem_nil, or_false] at hp
      rcases hp with rfl | rfl | rfl | rfl | rfl | rfl | rfl | rfl | rfl | rfl | rfl | rfl
      · exact ha _ rfl
      · exact how _ rfl
      · exact huw _ rfl
      · exact hfw _ rfl
      · exact houo _ rfl
      · exact hi _ rfl
      · exact hquestion _ rfl
      · exact he _ rfl
      · exact hun _ rfl
      · exact hout _ rfl
      · exact ht _ rfl
      · exact hfa _ rfl
    have hhead : run.head? ≠ some '?' := by
      intro hhead
      obtain ⟨rest, rfl⟩ := List.head?_eq_some_iff.1 hhead
      exact hquestion _ rfl
    rw [Scan.wordKind_other hother, if_neg hhead]
    rfl
  all_goals
    refine h.run_known (by simp) ?_
    simp only [Scan.wordKind, keywords, lookup_text]
    simp
    split <;> simp_all

end

theorem wordKind_error {run : List Char} {error : ScanError} (h : Scan.wordKind run = .error error) :
    error = .invalidIdentifier := by
  unfold Scan.wordKind at h
  split at h
  · cases h
  · split at h
    · exact (Except.error.inj h).symm
    · cases h

theorem run_word {front text : List Char} {c : Char} (hstart : s.start = s.current) (h : s.Stands front (c :: text))
    (hc : Scan.isIdentStart c = true) :
    word.run (s.pass 1) = some (Scan.wordKind ((c :: text).takeWhile Scan.isIdentContinue),
      s.pass ((c :: text).takeWhile Scan.isIdentContinue).length) := by
  have hgoes : Scan.isIdentContinue c = true := by simp [Scan.isIdentContinue, hc]
  have hpeek (t : ByteScanner) : Scan.isIdentContinue t.peek = t.remaining.head?.any Scan.isIdentContinue := by
    rw [peek_eq]
    cases t.remaining with
    | nil => decide
    | cons d rest => rfl
  have h1 : (s.pass 1).remaining = Scan.spread text := by
    rw [remaining_pass, h.remaining, Scan.spread_cons_ascii (Scan.isIdentContinue_ascii hgoes)]
    rfl
  have hwhile := run_advanceWhile hpeek (s.pass 1)
  rw [h1, Scan.takeWhile_spread_ascii @Scan.isIdentContinue_ascii, pass_pass] at hwhile
  obtain ⟨run, hrun⟩ : ∃ run, (c :: text).takeWhile Scan.isIdentContinue = run := ⟨_, rfl⟩
  have hlength : 1 + (text.takeWhile Scan.isIdentContinue).length = run.length := by
    rw [← hrun, List.takeWhile_cons_of_pos hgoes, List.length_cons, Nat.add_comm]
  obtain ⟨t, ht⟩ : ∃ t, s.pass run.length = t := ⟨_, rfl⟩
  rw [hlength, ht] at hwhile
  have hread : t.HasRead front run ((c :: text).dropWhile Scan.isIdentContinue) :=
    { source := by rw [← ht, source_pass, h.source, ← hrun, List.takeWhile_append_dropWhile]
      start := by rw [← ht, start_pass, hstart, h.current]
      current := by rw [← ht, current_pass, start_pass, hstart]
      ascii := hrun ▸ fun d hd => Scan.isIdentContinue_ascii (List.all_eq_true.1 List.all_takeWhile d hd) }
  have hne : run ≠ [] := by
    rintro rfl
    rw [List.takeWhile_cons_of_pos hgoes] at hrun
    cases hrun
  have hbytes : (t.bytes.take t.current).drop t.start = run := by
    have hspread : t.bytes = Scan.spread front ++
      (run ++ Scan.spread ((c :: text).dropWhile Scan.isIdentContinue)) := by
      rw [bytes, hread.source, spread_append, spread_append, Scan.spread_ascii hread.ascii]
    rw [hread.current, hread.start, hspread, List.take_length_add_append, List.take_left, List.drop_left]
  have hkind := hread.run_wordKind? hne
  have hbranch : word.run (s.pass 1) =
      some ((Scan.wordKind run).toOption.elim (.error .invalidIdentifier) Except.ok, t) := by
    cases hk : (Scan.wordKind run).toOption <;> simp [word, hwhile, hbytes, hkind, hk]
  rw [hbranch, hrun, ← ht]
  cases hk : Scan.wordKind run with
  | ok kind => rfl
  | error error => rw [wordKind_error hk]; rfl

/-- Inside a character there is a byte of it, which is no line break. -/
theorem Stands.remaining_inside {front text : List Char} {c : Char} (h : s.Stands front (c :: text)) {k : Nat}
    (hk : 0 < k) (hc : k < (Scan.spreadChar c).length) :
    ∃ b rest, (s.pass k).remaining = b :: rest ∧ 128 ≤ b.toNat := by
  have hwide : 128 ≤ c.toNat := by
    refine Nat.le_of_not_lt fun hascii => ?_
    rw [Scan.spreadChar_ascii hascii, List.length_singleton] at hc
    omega
  refine ⟨(Scan.spreadChar c)[k], (Scan.spreadChar c).drop (k + 1) ++ Scan.spread text, ?_,
    (Scan.spreadChar_wide hwide).2 _ (List.getElem_mem hc)⟩
  rw [remaining_pass, h.remaining, Scan.spread_cons, List.drop_append_of_le_length (Nat.le_of_lt hc),
    List.drop_eq_getElem_cons hc, List.cons_append]

theorem run_stepInside (hr : s.remaining = b :: rest) (hb : 128 ≤ b.toNat) (hcut : cut? s.source s.current = none) :
    stepInside.run s = some (true, s.pass 1) := by
  have hn : b ≠ '\n' := by
    rintro rfl
    exact absurd hb (by decide)
  simp [stepInside, insideChar, hcut, atEnd_of_cons hr, pass, hr, hn]

/-- The rest of a character that starts nothing is passed. -/
theorem run_repeated_inside {front text : List Char} {c : Char} (h : s.Stands front (c :: text)) {n k : Nat}
    (hk : 0 < k) (hc : k ≤ (Scan.spreadChar c).length) (hn : (Scan.spreadChar c).length - k < n) :
    (repeated stepInside n).run (s.pass k) = some ((), s.pass (Scan.spreadChar c).length) := by
  induction n generalizing k with
  | zero => cases hn
  | succ n ih =>
    rcases Nat.eq_or_lt_of_le hc with rfl | hlt
    · have hone : (Scan.spread (front ++ [c])).length = s.current + (Scan.spreadChar c).length := by
        rw [spread_append, List.length_append, Scan.spread_cons, Scan.spread_nil, List.append_nil, h.current]
      have hcut := cut?_append (front ++ [c]) text
      rw [hone, List.append_assoc, List.singleton_append, ← h.source] at hcut
      refine run_repeated_stop ?_ n
      simp [stepInside, insideChar, hcut]
    · have hcut : cut? s.source (s.current + k) = none := by
        rw [h.source, h.current]
        exact cut?_inside front text c hk hlt
      obtain ⟨b, rest, hr, hb⟩ := h.remaining_inside hk hlt
      have hstep : stepInside.run (s.pass k) = some (true, s.pass (k + 1)) := by
        rw [run_stepInside hr hb hcut, pass_pass]
      rw [run_repeated_next hstep, ih (Nat.succ_pos k) hlt (by omega)]

theorem run_unexpected {front text : List Char} {c : Char} (hstart : s.start = s.current)
    (h : s.Stands front (c :: text)) :
    unexpected.run (s.pass 1) = some (.error (.unexpectedCharacter c), s.pass (Scan.spreadChar c).length) := by
  have hlength : (Scan.spreadChar c).length ≤ s.bytes.length := by
    have := length_remaining_le s
    rw [h.remaining, Scan.spread_cons, List.length_append] at this
    omega
  have hloop := run_repeated_inside h Nat.one_pos (spreadChar_pos c) (n := s.bytes.length + 1) (by omega)
  have hslice := slice?_append front [c] text
  rw [Scan.spread_cons, Scan.spread_nil, List.append_nil, List.singleton_append, ← h.source, ← h.current] at hslice
  simp [unexpected, loop, hloop, hstart, hslice]

/-! ### All pieces -/

theorem run_piece_mark {c : Char} (hr : s.remaining = c :: rest) (hword : ¬Scan.isIdentContinue c) (hstring : c ≠ '"')
    (hchar : c ≠ Scan.charQuote) :
    (piece c).run (s.pass 1) = some ((Scan.classify c rest).1, s.pass (Scan.classify c rest).2) ∨
      piece c = unexpected ∧ Scan.classify c rest = (.error (.unexpectedCharacter c), 1) := by
  have h1 : (s.pass 1).remaining = rest := by rw [remaining_pass, hr]; rfl
  have hyes {b : Char} {tail : List Char} (h : rest = b :: tail) (hb : b ≠ '\n') :
      (consume b).run (s.pass 1) = some (true, s.pass 2) := by rw [run_consume_of_eq (h1.trans h) hb, pass_pass]
  have hno {b : Char} (h : ∀ tail, rest = b :: tail → False) : (consume b).run (s.pass 1) = some (false, s.pass 1) :=
    run_consume_of_ne (fun tail ht => h tail (h1.symm.trans ht))
  fun_cases Scan.classify c rest
  case case27 => exact absurd rfl hstring
  case case28 => exact absurd rfl hchar
  case case29 => exact absurd (by simp [Scan.isIdentContinue, *]) hword
  case case30 => exact absurd (by simp [Scan.isIdentContinue, *]) hword
  case case31 _ _ _ _ _ _ _ _ hminus hbang hless hgreater hopen _ _ hdigit hstart _ _ _ hn ht _ _ _ _ _ _ ha hb =>
    by_cases htilde : c = '~'
    · subst htilde
      exact .inl (by simp [piece, hno fun tail => hn tail rfl, hno fun tail => ht tail rfl])
    by_cases hcolon : c = ':'
    · subst hcolon
      exact .inl (by simp [piece, hno fun tail => ha tail rfl, hno fun tail => hb tail rfl])
    refine .inr ⟨?_, rfl⟩
    unfold piece
    split <;> first | contradiction | simp [hstring, hchar, hdigit, hstart]
  all_goals left
  case case9 => simp [piece, hyes rfl]
  case case10 => simp [piece, hyes rfl, hno (b := 's') (by simp)]
  case case11 => simp [piece, hyes rfl, hno (b := 's') (by simp), hno (b := 'd') (by simp)]
  case case12 hs hd hc => simp [piece, hno hs, hno hd, hno hc]
  case case13 => simp [piece, hyes rfl]
  case case14 => simp [piece, hyes rfl, hno (b := 'n') (by simp)]
  case case15 => simp [piece, hyes rfl]
  case case16 h => simp [piece, hno h]
  case case17 => simp [piece, hyes rfl]
  case case18 => simp [piece, hyes rfl, hno (b := '=') (by simp)]
  case case19 he h => simp [piece, hno he, hno h]
  case case20 => simp [piece, hyes rfl]
  case case21 => simp [piece, hyes rfl, hno (b := '=') (by simp)]
  case case22 he h => simp [piece, hno he, hno h]
  case case23 => simp [piece, hyes rfl]
  case case24 h => simp [piece, hno h]
  case case25 => simp [piece, hyes rfl]
  case case26 => simp [piece, hyes rfl, hno (b := '=') (by simp)]
  all_goals simp [piece]

/-- The bytes of a character outside ASCII start nothing. -/
theorem piece_wide (hb : 128 ≤ b.toNat) : piece b = unexpected := by
  have hne {d : Char} (hd : d.toNat < 128) : b ≠ d := by
    rintro rfl
    exact absurd hd (Nat.not_lt.2 hb)
  unfold piece
  split <;> first | exact absurd rfl (hne (by decide)) | skip
  rw [if_neg (hne (by decide)), if_neg (hne (by decide)), if_neg (mt Scan.isDigit_ascii (Nat.not_lt.2 hb)), if_neg]
  exact mt (fun h => Scan.isIdentContinue_ascii (by simp [Scan.isIdentContinue, h])) (Nat.not_lt.2 hb)

theorem piece_word {c : Char} (h : Scan.isIdentContinue c) : piece c = if c.isDigit then number else word := by
  have hne {d : Char} (hd : ¬Scan.isIdentContinue d) : c ≠ d := by
    rintro rfl
    exact hd h
  unfold piece
  split <;> first | exact absurd rfl (hne (by decide)) | skip
  rw [if_neg (hne (by decide)), if_neg (hne (by decide))]
  by_cases hd : c.isDigit
  · rw [if_pos hd, if_pos hd]
  · have hs : Scan.isIdentStart c := by simpa [Scan.isIdentContinue, hd] using h
    rw [if_neg hd, if_neg hd, if_pos hs]

/-- A piece is read as in a text, up to a place between two characters. -/
theorem run_piece {front text : List Char} {c : Char} (hstart : s.start = s.current) (h : s.Stands front (c :: text))
    (hr : s.remaining = b :: rest) :
    (piece b).run (s.pass 1) =
      some ((Scan.classify c text).1, s.pass (Scan.bytesOf (c :: text) (Scan.classify c text).2)) := by
  have hbytes := h.remaining
  rw [hr] at hbytes
  rcases Nat.lt_or_ge c.toNat 128 with hc | hc
  · rw [Scan.spread_cons_ascii hc] at hbytes
    obtain ⟨rfl, rfl⟩ := List.cons.inj hbytes
    have hspread := Scan.classify_spread hc text
    by_cases hword : Scan.isIdentContinue b
    · by_cases hd : b.isDigit
      · rw [Scan.classify_word hword (Scan.spread text), if_pos hd] at hspread
        obtain ⟨hkind, hlength⟩ := Prod.mk.inj hspread
        rw [piece_word hword, if_pos hd, run_number hd hr, hkind, hlength]
      · have hs : Scan.isIdentStart b := by simpa [Scan.isIdentContinue, hd] using hword
        rw [piece_word hword, if_neg hd, run_word hstart h hs, Scan.classify_word hword, if_neg hd,
          Scan.bytesOf_takeWhile, Scan.spread_takeWhile @Scan.isIdentContinue_ascii]
    by_cases hstring : b = '"'
    · subst hstring
      have hrun := run_string hr
      rwa [hspread] at hrun
    by_cases hchar : b = Scan.charQuote
    · subst hchar
      exact run_character hstart h
    obtain hrun | ⟨hpiece, hclassify⟩ := run_piece_mark hr hword hstring hchar
    · rw [hrun, hspread]
    · rw [hclassify] at hspread
      obtain ⟨hkind, hlength⟩ := Prod.mk.inj hspread
      rw [hpiece, run_unexpected hstart h, ← hkind, ← hlength, Scan.spreadChar_ascii hc]
      rfl
  · have hb : 128 ≤ b.toNat := by
      obtain ⟨hne, hall⟩ := Scan.spreadChar_wide hc
      obtain ⟨d, ds, hd⟩ := List.exists_cons_of_ne_nil hne
      rw [Scan.spread_cons, hd, List.cons_append] at hbytes
      obtain ⟨rfl, -⟩ := List.cons.inj hbytes
      exact hall b (by rw [hd]; exact List.mem_cons_self)
    have hone : Scan.bytesOf (c :: text) 1 = (Scan.spreadChar c).length := by
      rw [Scan.bytesOf_succ, Scan.bytesOf, List.take_zero]
      rfl
    rw [piece_wide hb, run_unexpected hstart h, Scan.classify_wide hc, hone]

end StackScript.ByteScanner
