import Mathlib.Tactic.Choose
import StackScript.Proofs.Scanning.BytePieces
import StackScript.Token.Stream

/-! Scanning covers a source. Read byte by byte, a source is cut by calls of the scanner into what they skip and
the pieces that they read, without a failure and with every cut between two characters. -/
namespace StackScript

/-- Blanks and comments before a piece. A comment ends with its first closing mark; only the end of the source
can stand for it. -/
inductive IsSkipped (piece : List Char) : List Char → Prop
  | nil : IsSkipped piece []
  | blank {c : Char} {text : List Char} (hc : Scan.isBlank c = true) (h : IsSkipped piece text) : IsSkipped piece (c :: text)
  | comment {body text : List Char} (hbody : ¬[':', '}'] <:+: body) (h : IsSkipped piece text) :
      IsSkipped piece ('{' :: ':' :: body ++ ':' :: '}' :: text)
  | unclosed {body : List Char} (hbody : ¬[':', '}'] <:+: body) (h : piece = []) : IsSkipped piece ('{' :: ':' :: body)

/-- What follows matters only where a comment has no end. -/
theorem IsSkipped.of_nil {piece piece' text : List Char} (h : IsSkipped piece text) (hp : piece = [] → piece' = []) :
    IsSkipped piece' text := by
  induction h with
  | nil => exact .nil
  | blank hc _ ih => exact .blank hc ih
  | comment hbody _ ih => exact .comment hbody ih
  | unclosed hbody hnil => exact .unclosed hbody (hp hnil)

/-- What is skipped before a piece that is there ends where the piece starts. -/
theorem IsSkipped.blankLength {piece skipped : List Char} (h : IsSkipped piece skipped) (hpiece : piece ≠ [])
    (count : Nat) (text : List Char) :
    Scan.blankLength false count (skipped ++ text) = Scan.blankLength false (count + skipped.length) text := by
  induction h generalizing count with
  | nil => rfl
  | @blank c skipped hc _ ih =>
    have hbrace : c ≠ '{' := by
      rintro rfl
      cases hc
    rw [List.cons_append, Scan.blankLength_outside (absurd · hbrace), if_pos hc, ih, List.length_cons]
    congr 1
    omega
  | @comment body skipped hbody _ ih =>
    simp only [List.cons_append, List.append_assoc]
    rw [Scan.blankLength_opening, Scan.blankLength_body hbody, ih]
    congr 1
    simp only [List.length_cons, List.length_append]
    omega
  | unclosed hbody hnil => exact absurd hnil hpiece

/-- Whether the end of the source has been read. -/
def Lexeme.isEnd : Lexeme → Bool
  | .token t => t.kind = .eof
  | .fault .. => false

/-- The place after a number of calls. -/
def Cursor.after (c : Cursor) : Nat → Cursor
  | 0 => c
  | n + 1 => (c.after n).scan.2

namespace Cursor
variable {c : Cursor}

theorem scan_nil (h : c.skipBlank.rest = []) : c.scan = (.token (.sourceEnd c.skipBlank.line), c.skipBlank) := by
  rw [Cursor.scan]
  split <;> simp_all

theorem scan_cons {first : Char} {rest : List Char} (h : c.skipBlank.rest = first :: rest) :
    c.scan = c.skipBlank.take first rest := by
  rw [Cursor.scan]
  split <;> simp_all

theorem take_eq (c : Cursor) (first : Char) (rest : List Char) : c.take first rest =
    (match (Scan.classify first rest).1 with
      | .ok kind => .token ⟨kind, String.ofList (c.rest.take (Scan.classify first rest).2),
          (c.drop (Scan.classify first rest).2).line⟩
      | .error error => .fault error (c.drop (Scan.classify first rest).2).line,
    c.drop (Scan.classify first rest).2) := by
  unfold Cursor.take
  split
  rename_i heq
  rw [heq]
  dsimp only
  split <;> rfl

/-- The end is given at the end only. -/
theorem isEnd_scan_of_cons {first : Char} {rest : List Char} (h : c.skipBlank.rest = first :: rest) :
    c.scan.1.isEnd = false := by
  rw [scan_cons h, take_eq]
  cases ho : (Scan.classify first rest).1 with
  | ok kind =>
    refine decide_eq_false fun heof => ?_
    obtain rfl : kind = .eof := heof
    exact Scan.spells_classify ho
  | error error => rfl

theorem isEnd_scan_iff (c : Cursor) : c.scan.1.isEnd = true ↔ c.skipBlank.rest = [] := by
  cases hcase : c.skipBlank.rest with
  | nil => simp [scan_nil hcase, Lexeme.isEnd, Token.sourceEnd]
  | cons first rest => simp [isEnd_scan_of_cons hcase]

/-- Behind the end there is the end again. -/
theorem isEnd_scan_scan (h : c.scan.1.isEnd = true) : c.scan.2.scan.1.isEnd = true := by
  have hnil := (isEnd_scan_iff c).1 h
  rw [isEnd_scan_iff, scan_nil hnil, Cursor.skipBlank, hnil, Cursor.drop, hnil, List.drop_nil]

theorem isEnd_after {k n : Nat} (h : (c.after k).scan.1.isEnd = true) (hn : k ≤ n) :
    (c.after n).scan.1.isEnd = true := by
  induction hn with
  | refl => exact h
  | step _ ih => exact isEnd_scan_scan ih

theorem after_succ_left (c : Cursor) (n : Nat) : c.after (n + 1) = c.scan.2.after n := by
  induction n with
  | zero => rfl
  | succ n ih => rw [Cursor.after, ih, Cursor.after]

/-- The tokens of a source are what the calls give before the end. -/
theorem readFrom_after {k : Nat} (hbefore : ∀ n < k, (c.after n).scan.1.isEnd = false)
    (hend : (c.after k).scan.1.isEnd = true) (done : List Lexeme) : TokenStream.readFrom done c =
      ⟨done.reverse ++ (List.range k).map fun n => (c.after n).scan.1, (c.after (k + 1)).line⟩ := by
  induction k generalizing c done with
  | zero =>
    have hnil := (isEnd_scan_iff c).1 hend
    have hscan : (c.after 1).line = c.skipBlank.line := congrArg (·.2.line) (scan_nil hnil)
    rw [TokenStream.readFrom, hscan]
    split
    · simp
    · simp_all
  | succ k ih =>
    rw [TokenStream.readFrom]
    split
    · rename_i hnil
      have hmore := hbefore 0 (Nat.succ_pos k)
      rw [Cursor.after, (isEnd_scan_iff c).2 hnil] at hmore
      cases hmore
    · rename_i first rest hcase
      rw [← scan_cons hcase, ih, List.range_succ_eq_map]
      · simp [← after_succ_left, Cursor.after]
      · intro n hn
        rw [← after_succ_left]
        exact hbefore (n + 1) (Nat.succ_lt_succ hn)
      · rwa [← after_succ_left]

end Cursor

namespace ByteScanner
variable {s : ByteScanner} {c : Cursor} {front : List Char}

/-- The scanner after a number of calls. A call that fails would leave it where it is. -/
def after (s : ByteScanner) : Nat → ByteScanner
  | 0 => s
  | n + 1 => ((scan.run (s.after n)).map Prod.snd).getD (s.after n)

/-- One call of the scanner: what it gives, where it comes to, and the texts it skips and reads. -/
structure Call (s : ByteScanner) (given : Lexeme) (t : ByteScanner) (skipped piece : List Char) : Prop where
  run : scan.run s = some (given, t)
  source : t.source = s.source
  skips : slice? s.source s.current t.start = some skipped
  blank : IsSkipped piece skipped
  takes : slice? s.source t.start t.current = some piece
  lexeme : ∀ token, given = .token token → token.lexeme = String.ofList piece ∧ token.line = t.line
  fault : ∀ error line, given = .fault error line → line = t.line
  line : t.line = 1 + (t.bytes.take t.current).count '\n'
  reads : given.isEnd = false → s.current < t.current
  ended : given.isEnd = true → t.current = t.bytes.length

/-- The byte scanner stands where the cursor does, behind a text. -/
structure Follows (s : ByteScanner) (front : List Char) (c : Cursor) : Prop where
  stands : s.Stands front c.rest
  line : s.line = c.line
  counted : s.line = 1 + (s.bytes.take s.current).count '\n'

theorem count_spread (text : List Char) : (Scan.spread text).count '\n' = text.count '\n' := by
  induction text with
  | nil => rfl
  | cons c text ih =>
    rw [Scan.spread_cons, List.count_append, ih]
    rcases Nat.lt_or_ge c.toNat 128 with hc | hc
    · rw [Scan.spreadChar_ascii hc, ← List.count_append, List.singleton_append]
    · have hnone : (Scan.spreadChar c).count '\n' = 0 := by
        rw [List.count_eq_zero]
        intro hmem
        exact absurd ((Scan.spreadChar_wide hc).2 _ hmem) (by decide)
      have hne : c ≠ '\n' := by
        rintro rfl
        exact absurd hc (by decide)
      rw [hnone, Nat.zero_add, List.count_cons_of_ne hne]

theorem follows_ofSource (source : String) : (ofSource source).Follows [] (Cursor.ofSource source) where
  stands := { source := rfl, current := rfl }
  line := rfl
  counted := by simp [ofSource]

/-- Some characters further on. -/
theorem Follows.pass (h : s.Follows front c) (n : Nat) :
    (s.pass (Scan.bytesOf c.rest n)).Follows (front ++ c.rest.take n) (c.drop n) where
  stands := by
    have hsplit : s.Stands front (c.rest.take n ++ c.rest.drop n) := by
      rw [List.take_append_drop]
      exact h.stands
    exact hsplit.pass
  line := by
    have hbytes : Scan.spread c.rest = Scan.spread (c.rest.take n) ++ Scan.spread (c.rest.drop n) := by
      rw [← spread_append, List.take_append_drop]
    rw [ByteScanner.pass, Cursor.drop, h.stands.remaining, h.line, hbytes, Scan.bytesOf, List.take_left, count_spread]
  counted := by
    rw [bytes_pass, current_pass, ByteScanner.pass, h.counted, List.take_add, List.count_append, Nat.add_assoc]
    rfl

/-! ### What is skipped -/

theorem not_infix_comment (text : List Char) : ¬[':', '}'] <:+: text.take (commentLength text) := by
  induction text with
  | nil => simp [commentLength]
  | cons c rest ih =>
    cases hc : closesComment (c :: rest) with
    | true => simp [commentLength, hc]
    | false =>
      rw [commentLength, if_neg (by simp [hc]), List.take_succ_cons, List.infix_cons_iff]
      rintro (hhead | hinfix)
      · obtain ⟨rfl, htail⟩ := List.cons_prefix_cons.1 hhead
        obtain ⟨tail, htail⟩ := htail.trans (List.take_prefix _ _)
        rw [closesComment_eq_true.2 ⟨tail, by rw [← htail]; rfl⟩] at hc
        cases hc
      · exact ih hinfix

/-- Nothing but blanks and comments is skipped. -/
theorem isSkipped_blankLength {n : Nat} {text : List Char} (hn : text.length < n) :
    IsSkipped (text.drop (Scan.blankLength false 0 text)) (text.take (Scan.blankLength false 0 text)) := by
  induction n generalizing text with
  | zero => cases hn
  | succ n ih =>
    by_cases hopen : ∃ rest, text = '{' :: ':' :: rest
    · obtain ⟨rest, rfl⟩ := hopen
      have hlength : Scan.blankLength false 0 ('{' :: ':' :: rest) =
          Scan.blankLength false 0 (rest.drop (commentSize rest)) + commentSize rest + 2 := by
        rw [Scan.blankLength_opening, blankLength_comment, blankLength_add, blankLength_add]
        omega
      have hbody := not_infix_comment rest
      have hsplit := List.take_append_drop (commentLength rest) rest
      rw [hlength, List.drop_succ_cons, List.drop_succ_cons, List.take_succ_cons, List.take_succ_cons]
      obtain hnil | ⟨tail, htail⟩ := drop_commentLength rest
      · have hsize : commentSize rest = commentLength rest := by rw [commentSize, if_pos hnil]; rfl
        rw [hnil, List.append_nil] at hsplit
        rw [hsplit] at hbody
        rw [hsize, hnil, Scan.blankLength, Nat.zero_add, hnil, hsplit]
        exact .unclosed hbody rfl
      · obtain ⟨body, hlast⟩ : ∃ body, rest.take (commentLength rest) = body := ⟨_, rfl⟩
        rw [htail, hlast] at hsplit
        rw [hlast] at hbody
        have hsize : commentSize rest = body.length + 2 := by
          have hle : commentLength rest ≤ rest.length := by
            refine Nat.le_of_not_lt fun hlt => ?_
            rw [List.drop_eq_nil_of_le (Nat.le_of_lt hlt)] at htail
            cases htail
          rw [commentSize, htail, ← hlast, List.length_take_of_le hle]
          rfl
        have hdrop : rest.drop (body.length + 2) = tail := by
          rw [← hsplit, List.drop_length_add_append]
          rfl
        have hshort : tail.length < n := by
          rw [← hsplit] at hn
          simp only [List.length_cons, List.length_append] at hn
          omega
        have htake (k : Nat) : rest.take (k + (body.length + 2)) = body ++ ':' :: '}' :: tail.take k := by
          rw [← hsplit, Nat.add_comm k, Nat.add_assoc, List.take_length_add_append, Nat.add_comm 2]
          rfl
        rw [hsize, hdrop, htake, Nat.add_comm _ (body.length + 2), ← List.drop_drop, hdrop]
        exact .comment hbody (ih hshort)
    · cases text with
      | nil => exact .nil
      | cons c rest =>
        have hother : c = '{' → ∀ rest', rest ≠ ':' :: rest' := by
          rintro rfl rest' rfl
          exact hopen ⟨_, rfl⟩
        rw [Scan.blankLength_outside hother]
        cases hb : Scan.isBlank c with
        | true =>
          rw [if_pos rfl, blankLength_add, List.drop_succ_cons, List.take_succ_cons]
          exact .blank hb (ih (Nat.lt_of_succ_lt_succ hn))
        | false =>
          rw [if_neg (by simp)]
          exact .nil

/-! ### A call -/

theorem Stands.slice {front mid text : List Char} (h : s.Stands front (mid ++ text)) :
    slice? s.source s.current (s.current + (Scan.spread mid).length) = some mid := by
  rw [h.source, h.current, slice?_append]

theorem run_token {kind : TokenKind} {piece : List Char} (h : slice? s.source s.start s.current = some piece) :
    (token kind).run s = some (.token ⟨kind, String.ofList piece, s.line⟩, s) := by
  simp [token, h]

theorem run_scan_end {u v : ByteScanner} (hskip : skipBlank.run s = some ((), v))
    (hu : { v with start := v.current } = u) (h : u.atEnd = true) : scan.run s = (token .eof).run u := by
  simp [scan, hskip, hu, h]

theorem run_scan_piece {u v t : ByteScanner} {b : Char} {outcome : Except ScanError TokenKind}
    (hskip : skipBlank.run s = some ((), v)) (hu : { v with start := v.current } = u) (h : u.atEnd = false)
    (hfirst : advance.run u = some (b, u.pass 1)) (hpiece : (piece b).run (u.pass 1) = some (outcome, t)) :
    scan.run s = match (motive := _ → Option (Lexeme × ByteScanner)) outcome with
      | .ok kind => (token kind).run t
      | .error error => some (.fault error t.line, t) := by
  cases outcome <;> simp [scan, hskip, hu, h, hfirst, hpiece]

/-- The scanner `u` has skipped what `s` had before a piece, and the piece starts where it stands. -/
structure Skips (s u : ByteScanner) (front skipped : List Char) (c : Cursor) : Prop where
  run : ∃ v, skipBlank.run s = some ((), v) ∧ { v with start := v.current } = u
  source : u.source = s.source
  start : u.start = u.current
  le : s.current ≤ u.current
  slice : slice? s.source s.current u.start = some skipped
  blank : IsSkipped c.skipBlank.rest skipped
  follows : u.Follows (front ++ skipped) c.skipBlank

/-- The scanner skips what the cursor skips. -/
theorem Follows.skips (h : s.Follows front c) : ∃ skipped u, Skips s u front skipped c := by
  obtain ⟨n, hn, hk⟩ := Scan.blankLength_spread false 0 c.rest
  rw [Nat.zero_add] at hn
  have hskip := run_skipBlank s
  rw [h.stands.remaining, hk, Nat.zero_add] at hskip
  have hpassed := h.pass n
  have hsplit : s.Stands front (c.rest.take n ++ c.rest.drop n) := by
    rw [List.take_append_drop]
    exact h.stands
  have hrest : c.skipBlank.rest = c.rest.drop n := by rw [Cursor.skipBlank, hn]; rfl
  have hblank := isSkipped_blankLength (Nat.lt_succ_self c.rest.length)
  rw [hn, ← hrest] at hblank
  refine ⟨c.rest.take n, _, ⟨_, hskip, rfl⟩, rfl, rfl, Nat.le_add_right _ _, hsplit.slice, hblank, ?_⟩
  rw [Cursor.skipBlank, hn]
  exact ⟨⟨hpassed.stands.source, hpassed.stands.current⟩, hpassed.line, hpassed.counted⟩

/-- A call that finds nothing more gives the end. -/
theorem Skips.call_end {u : ByteScanner} {skipped : List Char} (h : Skips s u front skipped c)
    (hcase : c.skipBlank.rest = []) : Call s c.scan.1 u skipped [] ∧ u.Follows (front ++ skipped) c.scan.2 := by
  obtain ⟨v, hskip, hu⟩ := h.run
  have hnil : u.remaining = [] := h.follows.stands.remaining.trans (congrArg Scan.spread hcase)
  have htakes : slice? u.source u.start u.current = some [] := by
    rw [h.start]
    have hhere : u.Stands (front ++ skipped) ([] ++ c.skipBlank.rest) := h.follows.stands
    exact hhere.slice
  rw [Cursor.scan_nil hcase]
  refine ⟨?_, h.follows⟩
  exact {
    run := by
      rw [run_scan_end hskip hu (atEnd_of_nil hnil), run_token htakes, h.follows.line]
      rfl
    source := h.source
    skips := h.slice
    blank := h.blank.of_nil fun _ => rfl
    takes := h.source ▸ htakes
    lexeme := fun token ht => by cases ht; exact ⟨rfl, h.follows.line.symm⟩
    fault := fun error line hf => by cases hf
    line := h.follows.counted
    reads := fun hend => by cases hend
    ended := fun _ => by
      rw [bytes, h.follows.stands.source, hcase, List.append_nil, h.follows.stands.current] }

theorem Stands.exists_remaining {first : Char} {rest : List Char} (h : s.Stands front (first :: rest)) :
    ∃ b bs, s.remaining = b :: bs := by
  rw [h.remaining]
  refine List.exists_cons_of_ne_nil fun hnil => ?_
  exact absurd ((Scan.length_spread_eq_zero _).1 (congrArg List.length hnil)) (List.cons_ne_nil _ _)

theorem current_lt_pass (s : ByteScanner) (first : Char) (rest : List Char) {m : Nat} (hm : 0 < m) :
    s.current < (s.pass (Scan.bytesOf (first :: rest) m)).current := by
  obtain ⟨k, rfl⟩ := Nat.exists_eq_succ_of_ne_zero (Nat.ne_of_gt hm)
  rw [current_pass, Scan.bytesOf_succ]
  have := spreadChar_pos first
  omega

/-- A call that finds something reads the piece that the cursor takes. -/
theorem Skips.call_piece {u : ByteScanner} {skipped : List Char} (h : Skips s u front skipped c) {first : Char}
    {rest : List Char} (hcase : c.skipBlank.rest = first :: rest) :
    ∃ piece t, Call s c.scan.1 t skipped piece ∧ t.Follows (front ++ skipped ++ piece) c.scan.2 := by
  obtain ⟨v, hskip, hu⟩ := h.run
  have hstands := hcase ▸ h.follows.stands
  obtain ⟨b, bs, hremaining⟩ := hstands.exists_remaining
  have hpiece := run_piece h.start hstands hremaining
  have hscan := (Cursor.scan_cons hcase).trans (Cursor.take_eq c.skipBlank first rest)
  have hpos := Scan.classify_pos first rest
  have hend := Cursor.isEnd_scan_of_cons hcase
  obtain ⟨outcome, ho⟩ : ∃ outcome, (Scan.classify first rest).1 = outcome := ⟨_, rfl⟩
  obtain ⟨m, hm⟩ : ∃ m, (Scan.classify first rest).2 = m := ⟨_, rfl⟩
  rw [ho, hm] at hpiece hscan
  rw [hm] at hpos
  have hafter := h.follows.pass m
  rw [hcase] at hafter hscan
  have hparts : u.Stands (front ++ skipped) ((first :: rest).take m ++ (first :: rest).drop m) := by
    rw [List.take_append_drop]
    exact hstands
  have hpast := current_lt_pass u first rest hpos
  have hslice : slice? u.source u.start (u.pass (Scan.bytesOf (first :: rest) m)).current =
      some ((first :: rest).take m) := by
    rw [h.start, current_pass]
    exact hparts.slice
  have hrun := run_scan_piece hskip hu (atEnd_of_cons hremaining) (run_advance hremaining) hpiece
  refine ⟨(first :: rest).take m, u.pass (Scan.bytesOf (first :: rest) m), ?_, by rwa [hscan]⟩
  exact {
    run := by
      rw [hrun, hscan]
      cases outcome with
      | ok kind => exact (run_token hslice).trans (by rw [hafter.line])
      | error error => rw [hafter.line]
    source := h.source
    skips := h.slice
    blank := h.blank.of_nil fun hnil => absurd (hcase.symm.trans hnil) (List.cons_ne_nil _ _)
    takes := h.source ▸ hslice
    lexeme := by
      rw [hscan]
      intro token htoken
      cases outcome with
      | ok kind => cases htoken; exact ⟨rfl, hafter.line.symm⟩
      | error error => cases htoken
    fault := by
      rw [hscan]
      intro error line hfault
      cases outcome with
      | ok kind => cases hfault
      | error error => cases hfault; exact hafter.line.symm
    line := hafter.counted
    reads := fun _ => Nat.lt_of_le_of_lt h.le hpast
    ended := fun he => by rw [hend] at he; cases he }

/-- A call gives what the cursor gives and goes where it goes. -/
theorem Follows.call (h : s.Follows front c) :
    ∃ skipped piece t, Call s c.scan.1 t skipped piece ∧ t.Follows (front ++ skipped ++ piece) c.scan.2 := by
  obtain ⟨skipped, u, hu⟩ := h.skips
  cases hcase : c.skipBlank.rest with
  | nil =>
    obtain ⟨hcall, hfollows⟩ := hu.call_end hcase
    exact ⟨skipped, [], u, hcall, by rwa [List.append_nil]⟩
  | cons first rest =>
    obtain ⟨piece, t, ht⟩ := hu.call_piece hcase
    exact ⟨skipped, piece, t, ht⟩

/-! ### All calls -/

theorem length_spread (text : List Char) : (Scan.spread text).length = (String.ofList text).utf8ByteSize := by
  induction text with
  | nil => rfl
  | cons c text ih =>
    rw [Scan.spread_cons, List.length_append, ih, String.ofList_cons, String.utf8ByteSize_append,
      String.utf8ByteSize_singleton, Scan.spreadChar, List.length_map, String.length_utf8EncodeChar]

/-- A place in a source has one text before it. -/
theorem Follows.front_eq {front' : List Char} {c' : Cursor} (h : s.Follows front c) (h' : s.Follows front' c') :
    front = front' := by
  have hcut := cut?_append front c.rest
  rw [← h.stands.source, ← h.stands.current, h'.stands.source, h'.stands.current, cut?_append] at hcut
  exact (Prod.mk.inj (Option.some.inj hcut)).1.symm

theorem after_succ {t : ByteScanner} {given : Lexeme} {n : Nat} (h : scan.run (s.after n) = some (given, t)) :
    s.after (n + 1) = t := by
  rw [after, h]
  rfl

theorem follows_after (h : s.Follows front c) (n : Nat) : ∃ front, (s.after n).Follows front (c.after n) := by
  induction n with
  | zero => exact ⟨front, h⟩
  | succ n ih =>
    obtain ⟨front, hn⟩ := ih
    obtain ⟨skipped, piece, t, hcall, ht⟩ := hn.call
    rw [after_succ hcall.run]
    exact ⟨_, ht⟩

/-- As long as the end has not been given, every call reads something. -/
theorem exists_isEnd {trace : Nat → ByteScanner} {given : Nat → Lexeme}
    (h : ∀ n, (given n).isEnd = false → (trace n).current < (trace (n + 1)).current) (m : Nat) :
    (∃ k < m, (given k).isEnd = true ∧ ∀ n < k, (given n).isEnd = false) ∨
      m ≤ (trace m).current ∧ ∀ n < m, (given n).isEnd = false := by
  induction m with
  | zero => exact .inr ⟨Nat.zero_le _, fun n hn => absurd hn (Nat.not_lt_zero n)⟩
  | succ m ih =>
    obtain ⟨k, hk, hend, hbefore⟩ | ⟨hm, hbefore⟩ := ih
    · exact .inl ⟨k, Nat.lt_succ_of_lt hk, hend, hbefore⟩
    · cases hend : (given m).isEnd with
      | true => exact .inl ⟨m, Nat.lt_succ_self m, hend, hbefore⟩
      | false =>
        refine .inr ⟨Nat.succ_le_of_lt (Nat.lt_of_le_of_lt hm (h m hend)), fun n hn => ?_⟩
        rcases Nat.lt_succ_iff_lt_or_eq.1 hn with hlt | rfl
        · exact hbefore n hlt
        · exact hend

/-- Called again and again, going on behind faulty pieces, the scanner never fails and never cuts inside a
character. It reads something in every call until it has come to the end, which it then gives forever. What it
skips and what it reads make up the source. -/
theorem scanner_coverage (source : String) :
    ∃ skipped piece : Nat → List Char,
      (∀ n, ((ofSource source).after n).Call ((Cursor.ofSource source).after n).scan.1 ((ofSource source).after (n + 1))
        (skipped n) (piece n)) ∧
      ∃ k ≤ source.utf8ByteSize,
        (∀ n < k, ((Cursor.ofSource source).after n).scan.1.isEnd = false) ∧
        (∀ n ≥ k, ((Cursor.ofSource source).after n).scan.1.isEnd = true) ∧
        source.toList = ((List.range (k + 1)).flatMap fun n => skipped n ++ piece n) ∧
        TokenStream.ofSource source = ⟨(List.range k).map fun n => ((Cursor.ofSource source).after n).scan.1,
          ((ofSource source).after (k + 1)).line⟩ := by
  choose front hfollows using follows_after (follows_ofSource source)
  have hcalls (n : Nat) : ∃ skipped piece, ((ofSource source).after n).Call ((Cursor.ofSource source).after n).scan.1
      ((ofSource source).after (n + 1)) skipped piece ∧ front (n + 1) = front n ++ (skipped ++ piece) := by
    obtain ⟨skipped, piece, t, hcall, ht⟩ := (hfollows n).call
    obtain rfl := after_succ hcall.run
    exact ⟨skipped, piece, hcall, by rw [← List.append_assoc]; exact (hfollows (n + 1)).front_eq ht⟩
  choose skipped piece hcall hfront using hcalls
  have hsource (n : Nat) : ((ofSource source).after n).source = source.toList := by
    induction n with
    | zero => rfl
    | succ n ih => rw [(hcall n).source, ih]
  have htile (n : Nat) : front n = (List.range n).flatMap fun i => skipped i ++ piece i := by
    induction n with
    | zero => exact (hfollows 0).front_eq (follows_ofSource source)
    | succ n ih => rw [hfront, ih, List.range_succ, List.flatMap_append, List.flatMap_singleton]
  have hbound (n : Nat) : ((ofSource source).after n).current ≤ source.utf8ByteSize := by
    have hlength := congrArg List.length (congrArg Scan.spread ((hsource n).symm.trans (hfollows n).stands.source))
    rw [length_spread, String.ofList_toList, spread_append, List.length_append, ← (hfollows n).stands.current] at hlength
    omega
  refine ⟨skipped, piece, hcall, ?_⟩
  obtain ⟨k, hk, hend, hbefore⟩ | ⟨hlarge, -⟩ := exists_isEnd (fun n => (hcall n).reads) (source.utf8ByteSize + 1)
  · refine ⟨k, Nat.le_of_lt_succ hk, hbefore, fun n hn => Cursor.isEnd_after hend hn, ?_, ?_⟩
    · have hnil : ((Cursor.ofSource source).after (k + 1)).rest = [] := by
        have hrest := (Cursor.isEnd_scan_iff _).1 hend
        rw [Cursor.after, Cursor.scan_nil hrest]
        exact hrest
      rw [← htile, ← hsource (k + 1), (hfollows (k + 1)).stands.source, hnil, List.append_nil]
    · rw [TokenStream.ofSource, Cursor.readFrom_after hbefore hend, (hfollows (k + 1)).line]
      rfl
  · exact absurd (hbound _) (Nat.not_le_of_lt hlarge)

end ByteScanner
end StackScript
