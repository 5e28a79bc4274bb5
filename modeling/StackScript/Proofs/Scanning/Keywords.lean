import StackScript.Proofs.Scanning.Coverage

/-! Keywords. Where a run of identifier characters starts a piece, the byte scanner takes all of it and goes by its
first bytes to the one keyword that it could be. What it finds is what the table of keywords says of the run, whatever
stands before the run and behind it. -/
namespace StackScript

/-- What has been read, without its text and its line. -/
def Lexeme.outcome : Lexeme → Except ScanError TokenKind
  | .token t => .ok t.kind
  | .fault error _ => .error error

namespace Scan
variable {run after : List Char}

/-- All the identifier characters in front of a text. The first of them can start an identifier. -/
structure IsRun (run after : List Char) : Prop where
  starts : ∃ c ∈ run.head?, isIdentStart c = true
  goesOn : ∀ c ∈ run, isIdentContinue c = true
  stops : ∀ c ∈ after.head?, isIdentContinue c = false

/-- What a run is read as: a keyword of the table, an error if it starts with a question mark and is no keyword, and
an identifier otherwise. Neither a part of a keyword nor a longer run is taken for one. -/
structure IsReadAs (run : List Char) (outcome : Except ScanError TokenKind) : Prop where
  keyword : ∀ p ∈ keywords, outcome = .ok p.2 ↔ run = p.1.toList
  invalid : outcome = .error .invalidIdentifier ↔ run.head? = some '?' ∧ run ≠ "?w?".toList
  ident : outcome = .ok .ident ↔ run.head? ≠ some '?' ∧ ∀ p ∈ keywords, run ≠ p.1.toList
  neighbour : ∀ p ∈ keywords, p.1.toList <+: run ∨ run <+: p.1.toList → run ≠ p.1.toList →
    outcome = if run.head? = some '?' then .error .invalidIdentifier else .ok .ident

/-! ### The table -/

theorem lookup_of_mem_keywords : ∀ p ∈ keywords, keywords.lookup p.1 = some p.2 := by decide

/-- No two keywords are of one kind. -/
theorem eq_of_kind_eq : ∀ p ∈ keywords, ∀ q ∈ keywords, p.2 = q.2 → p = q := by decide

theorem keyword_ne_ident : ∀ p ∈ keywords, p.2 ≠ .ident := by decide

/-- No keyword goes on as another one. -/
theorem prefix_free_keywords : ∀ p ∈ keywords, ∀ q ∈ keywords, p.1.toList <+: q.1.toList → p = q := by decide +kernel

/-- One keyword starts with a question mark. -/
theorem eq_question_of_head : ∀ p ∈ keywords, p.1.toList.head? = some '?' → p.1 = "?w?" := by decide

theorem wordKind_keyword {p : String × TokenKind} (hp : p ∈ keywords) : wordKind p.1.toList = .ok p.2 := by
  rw [wordKind, String.ofList_toList, lookup_of_mem_keywords p hp]

theorem isReadAs_keyword {p : String × TokenKind} (hp : p ∈ keywords) : IsReadAs p.1.toList (.ok p.2) where
  keyword q hq := by
    constructor
    · intro h
      rw [eq_of_kind_eq p hp q hq (Except.ok.inj h)]
    · intro h
      rw [prefix_free_keywords p hp q hq (h ▸ List.prefix_rfl)]
  invalid := by
    constructor
    · intro h
      cases h
    · rintro ⟨hhead, hne⟩
      exact absurd (congrArg String.toList (eq_question_of_head p hp hhead)) hne
  ident := by
    constructor
    · intro h
      exact absurd (Except.ok.inj h) (keyword_ne_ident p hp)
    · rintro ⟨-, hne⟩
      exact absurd rfl (hne p hp)
  neighbour q hq hprefix hne := by
    -- a keyword next to another keyword would be that keyword
    have hpq : p = q := hprefix.elim (fun h => (prefix_free_keywords q hq p hp h).symm) (prefix_free_keywords p hp q hq)
    exact absurd (by rw [hpq]) hne

theorem isReadAs_other (h : ∀ p ∈ keywords, run ≠ p.1.toList) :
    IsReadAs run (if run.head? = some '?' then .error .invalidIdentifier else .ok .ident) where
  keyword p hp := by
    refine ⟨fun hk => ?_, fun hrun => absurd hrun (h p hp)⟩
    split at hk
    · cases hk
    · exact absurd (Except.ok.inj hk).symm (keyword_ne_ident p hp)
  invalid := by
    have hquestion : run ≠ "?w?".toList := h ("?w?", .if_) (by decide)
    by_cases hhead : run.head? = some '?'
    · rw [if_pos hhead]
      exact iff_of_true rfl ⟨hhead, hquestion⟩
    · rw [if_neg hhead]
      exact iff_of_false (by simp) fun hq => hhead hq.1
  ident := by
    by_cases hhead : run.head? = some '?'
    · rw [if_pos hhead]
      exact iff_of_false (by simp) fun hi => hi.1 hhead
    · rw [if_neg hhead]
      exact iff_of_true rfl ⟨hhead, h⟩
  neighbour _ _ _ _ := rfl

/-- The table says of every run what it is read as. -/
theorem isReadAs_wordKind (run : List Char) : IsReadAs run (wordKind run) := by
  by_cases h : ∃ p ∈ keywords, run = p.1.toList
  · obtain ⟨p, hp, rfl⟩ := h
    rw [wordKind_keyword hp]
    exact isReadAs_keyword hp
  · have hother : ∀ p ∈ keywords, run ≠ p.1.toList := fun p hp hrun => h ⟨p, hp, hrun⟩
    rw [wordKind_other hother]
    exact isReadAs_other hother

/-! ### Runs in a text -/

theorem IsRun.takeWhile (h : IsRun run after) : (run ++ after).takeWhile isIdentContinue = run := by
  have hstop : after.takeWhile isIdentContinue = [] := by
    cases after with
    | nil => rfl
    | cons c rest => rw [List.takeWhile_cons_of_neg (by simp [h.stops c rfl])]
  rw [List.takeWhile_append_of_pos h.goesOn, hstop, List.append_nil]

theorem IsRun.exists_cons (h : IsRun run after) : ∃ c rest, run ++ after = c :: rest ∧ isIdentStart c = true := by
  obtain ⟨c, hc, hstart⟩ := h.starts
  obtain ⟨rest, rfl⟩ := List.head?_eq_some_iff.1 hc
  exact ⟨c, rest ++ after, rfl, hstart⟩

/-- A run is classified as a whole. -/
theorem IsRun.classify {c : Char} {rest : List Char} (h : IsRun run after) (htext : run ++ after = c :: rest)
    (hc : isIdentStart c = true) : classify c rest = (wordKind run, run.length) := by
  have hgoes : isIdentContinue c = true := by simp [isIdentContinue, hc]
  rw [classify_word hgoes, if_neg (by simp [isDigit_of_isIdentStart hc]), ← htext, h.takeWhile]

/-- Neither blanks nor comments start like a run. -/
theorem IsRun.blankLength (h : IsRun run after) (count : Nat) : blankLength false count (run ++ after) = count := by
  obtain ⟨c, rest, htext, hc⟩ := h.exists_cons
  have hbrace : c ≠ '{' := by
    rintro rfl
    cases hc
  have hblank : isBlank c ≠ true := by
    intro hb
    have hgoes := isIdentContinue_blank hb
    rw [isIdentContinue, hc] at hgoes
    cases hgoes
  rw [htext, blankLength_outside (absurd · hbrace), if_neg hblank]

end Scan

/-- The cursor takes a run with what is skipped before it. -/
theorem Cursor.scan_run {c : Cursor} {skipped run after : List Char} (hrest : c.rest = skipped ++ (run ++ after))
    (hskipped : IsSkipped run skipped) (hrun : Scan.IsRun run after) :
    c.skipBlank.rest = run ++ after ∧ c.scan.2.rest = after ∧ c.scan.1.outcome = Scan.wordKind run := by
  obtain ⟨first, rest, htext, hfirst⟩ := hrun.exists_cons
  have hne : run ≠ [] := by
    rintro rfl
    obtain ⟨d, hd, -⟩ := hrun.starts
    cases hd
  have hlength : Scan.blankLength false 0 c.rest = skipped.length := by
    rw [hrest, hskipped.blankLength hne, hrun.blankLength, Nat.zero_add]
  have hskip : c.skipBlank.rest = run ++ after := by rw [Cursor.skipBlank, hlength, Cursor.drop, hrest, List.drop_left]
  have hscan := (Cursor.scan_cons (hskip.trans htext)).trans (Cursor.take_eq c.skipBlank first rest)
  rw [hrun.classify htext hfirst] at hscan
  refine ⟨hskip, ?_, ?_⟩
  · rw [hscan, Cursor.drop, hskip, List.drop_left]
  · rw [hscan]
    cases Scan.wordKind run <;> rfl

namespace ByteScanner
variable {s : ByteScanner} {c : Cursor} {front skipped run after : List Char}

/-! ### Calls -/

/-- A call reads the run behind what is skipped, and nothing else. -/
theorem Follows.call_run (h : s.Follows front c) (hrest : c.rest = skipped ++ (run ++ after))
    (hskipped : IsSkipped run skipped) (hrun : Scan.IsRun run after) :
    ∃ t, s.Call c.scan.1 t skipped run ∧ t.Follows (front ++ skipped ++ run) c.scan.2 := by
  obtain ⟨hskip, hafter, -⟩ := Cursor.scan_run hrest hskipped hrun
  obtain ⟨first, rest, htext, -⟩ := hrun.exists_cons
  have hsource : s.source = front ++ skipped ++ (run ++ after) := by rw [h.stands.source, hrest, List.append_assoc]
  -- what the call skips and reads makes up the same source, so each part is known from the text behind it
  obtain ⟨skipped', u, hu⟩ := h.skips
  obtain rfl : skipped' = skipped := by
    have hparts := hu.source.symm.trans hu.follows.stands.source
    rw [hskip, hsource] at hparts
    exact (List.append_cancel_left (List.append_cancel_right hparts)).symm
  obtain ⟨piece, t, hcall, ht⟩ := hu.call_piece (hskip.trans htext)
  obtain rfl : piece = run := by
    have hparts := hcall.source.symm.trans ht.stands.source
    rw [hafter, hsource, ← List.append_assoc] at hparts
    exact (List.append_cancel_left (List.append_cancel_right hparts)).symm
  exact ⟨t, hcall, ht⟩

/-- The bytes of the run are all the identifier bytes that stand where the piece starts. -/
theorem Call.takes_run {t : ByteScanner} {given : Lexeme} (h : s.Call given t skipped run) (hrun : Scan.IsRun run after)
    (hremaining : t.remaining = Scan.spread after) :
    t.current = t.start + run.length ∧ (t.bytes.drop t.start).takeWhile Scan.isIdentContinue = run := by
  have hascii : Scan.spread run = run := Scan.spread_ascii fun d hd => Scan.isIdentContinue_ascii (hrun.goesOn d hd)
  have htakes : slice? t.source t.start t.current = some run := by rw [h.source]; exact h.takes
  obtain ⟨hcurrent, hbytes⟩ := bytes_of_slice? htakes
  have hplace : t.bytes.drop t.start = Scan.spread (run ++ after) := by
    rw [hbytes, spread_append]
    exact congrArg _ hremaining
  rw [hascii] at hcurrent
  rw [hplace, Scan.takeWhile_spread_ascii @Scan.isIdentContinue_ascii]
  exact ⟨hcurrent, hrun.takeWhile⟩

/-- Wherever a call comes to a run of identifier characters, behind blanks and comments, it takes all of the run and
nothing more. What the first bytes of the run and its length tell the byte scanner is what the table of keywords says
of the run. -/
theorem keyword_recognition {source : String} {n : Nat} {skipped run after : List Char}
    (hrest : ((Cursor.ofSource source).after n).rest = skipped ++ (run ++ after)) (hskipped : IsSkipped run skipped)
    (hrun : Scan.IsRun run after) :
    let t := (ofSource source).after (n + 1)
    let given := ((Cursor.ofSource source).after n).scan.1
    ((ofSource source).after n).Call given t skipped run ∧
      t.current = t.start + run.length ∧ (t.bytes.drop t.start).takeWhile Scan.isIdentContinue = run ∧
      t.remaining = Scan.spread after ∧ Scan.IsReadAs run given.outcome := by
  intro t given
  obtain ⟨front, hfollows⟩ := follows_after (follows_ofSource source) n
  obtain ⟨-, hafter, houtcome⟩ := Cursor.scan_run hrest hskipped hrun
  obtain ⟨t', hcall, ht⟩ := hfollows.call_run hrest hskipped hrun
  obtain rfl : t = t' := after_succ hcall.run
  have hremaining : t.remaining = Scan.spread after := by rw [ht.stands.remaining, hafter]
  obtain ⟨hcurrent, hbytes⟩ := hcall.takes_run hrun hremaining
  refine ⟨hcall, hcurrent, hbytes, hremaining, ?_⟩
  rw [houtcome]
  exact Scan.isReadAs_wordKind run

/-- A run that is longer than a keyword, right behind a comment and before a character outside ASCII. -/
theorem keyword_recognition_longer :
    let source := "uwu{: ow :}untiwl\u2260"
    let c := (Cursor.ofSource source).after 1
    c.rest = "{: ow :}".toList ++ ("untiwl".toList ++ "\u2260".toList) ∧
      IsSkipped "untiwl".toList "{: ow :}".toList ∧ Scan.IsRun "untiwl".toList "\u2260".toList ∧
      ((ofSource source).after 2).current = ((ofSource source).after 2).start + 6 ∧ c.scan.1.outcome = .ok .ident := by
  intro source c
  have hrest : c.rest = "{: ow :}".toList ++ ("untiwl".toList ++ "\u2260".toList) := by decide +kernel
  have hskipped : IsSkipped "untiwl".toList "{: ow :}".toList := by
    have hbody : ¬[':', '}'] <:+: " ow ".toList := by decide +kernel
    exact .comment hbody .nil
  have hrun : Scan.IsRun "untiwl".toList "\u2260".toList :=
    { starts := ⟨'u', rfl, by decide⟩
      goesOn := List.all_eq_true.1 (by decide)
      stops := by
        rintro d ⟨⟩
        decide }
  obtain ⟨-, hcurrent, -, -, houtcome⟩ := keyword_recognition hrest hskipped hrun
  refine ⟨hrest, hskipped, hrun, hcurrent, ?_⟩
  exact houtcome.neighbour ("untiw", .loop) (by decide) (.inl (by decide +kernel)) (by decide)

end ByteScanner
end StackScript
