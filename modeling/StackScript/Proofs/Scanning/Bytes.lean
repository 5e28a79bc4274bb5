import StackScript.Proofs.Scanning.Spelling

/-! Scanning by bytes. All marks of the language are ASCII, so that a scanner that goes through the bytes of a
source, each seen as a character below 256, cuts it where one that goes through its characters does: no
cut is inside a character. -/
namespace StackScript.Scan

/-- The bytes of a character, each seen as a character. -/
def spreadChar (c : Char) : List Char := (String.utf8EncodeChar c).map fun b => Char.ofNat b.toNat

/-- The bytes of a text, each seen as a character. -/
def spread (text : List Char) : List Char := text.flatMap spreadChar

theorem toNat_ofNat_byte (b : UInt8) : (Char.ofNat b.toNat).toNat = b.toNat := by
  have hb := b.toNat_lt
  have hv : b.toNat.isValidChar := .inl (by omega)
  rw [show Char.ofNat b.toNat = Char.ofNatAux b.toNat hv from dif_pos hv]
  rfl

theorem spreadChar_ascii {c : Char} (h : c.toNat < 128) : spreadChar c = [c] := by
  have hc : c.val.toNat ≤ 127 := Nat.le_of_lt_succ h
  have hb : (UInt8.ofNat c.toNat).toNat = c.toNat := UInt8.toNat_ofNat_of_lt' (Nat.lt_trans h (by decide))
  have hn : (Char.ofNat (UInt8.ofNat c.toNat).toNat).toNat = c.toNat := by rw [toNat_ofNat_byte, hb]
  rw [spreadChar, String.utf8EncodeChar, if_pos hc]
  exact congrArg (fun d => [d]) (Char.toNat_inj.1 hn)

/-- Other characters have bytes that are not ASCII. -/
theorem spreadChar_wide {c : Char} (h : 128 ≤ c.toNat) :
    spreadChar c ≠ [] ∧ ∀ d ∈ spreadChar c, 128 ≤ d.toNat := by
  have hc : ¬c.val.toNat ≤ 127 := Nat.not_le_of_lt h
  have hbytes : String.utf8EncodeChar c ≠ [] ∧ ∀ b ∈ String.utf8EncodeChar c, 128 ≤ b.toNat := by
    rw [String.utf8EncodeChar, if_neg hc]
    split
    · simp only [ne_eq, reduceCtorEq, not_false_eq_true, List.mem_cons, List.not_mem_nil, or_false, true_and]
      rintro b (rfl | rfl) <;> simp only [UInt8.toNat_ofNat'] <;> omega
    · split
      · simp only [ne_eq, reduceCtorEq, not_false_eq_true, List.mem_cons, List.not_mem_nil, or_false, true_and]
        rintro b (rfl | rfl | rfl) <;> simp only [UInt8.toNat_ofNat'] <;> omega
      · simp only [ne_eq, reduceCtorEq, not_false_eq_true, List.mem_cons, List.not_mem_nil, or_false, true_and]
        rintro b (rfl | rfl | rfl | rfl) <;> simp only [UInt8.toNat_ofNat'] <;> omega
  refine ⟨by simp [spreadChar, hbytes.1], fun d hd => ?_⟩
  obtain ⟨b, hb, rfl⟩ := List.mem_map.1 hd
  rw [toNat_ofNat_byte]
  exact hbytes.2 b hb

@[simp] theorem spread_nil : spread [] = [] := rfl

theorem spread_cons (c : Char) (text : List Char) : spread (c :: text) = spreadChar c ++ spread text := rfl

theorem spread_cons_ascii {c : Char} (h : c.toNat < 128) (text : List Char) :
    spread (c :: text) = c :: spread text := by
  rw [spread_cons, spreadChar_ascii h]
  rfl

/-- An ASCII character among the bytes is one of the text. -/
theorem spread_eq_cons {text rest : List Char} {c : Char} (hc : c.toNat < 128) (h : spread text = c :: rest) :
    ∃ text', text = c :: text' ∧ rest = spread text' := by
  cases text with
  | nil => cases h
  | cons d text =>
    by_cases hd : d.toNat < 128
    · rw [spread_cons_ascii hd] at h
      obtain ⟨rfl, rfl⟩ := List.cons.inj h
      exact ⟨text, rfl, rfl⟩
    · obtain ⟨hne, hall⟩ := spreadChar_wide (Nat.le_of_not_lt hd)
      rw [spread_cons] at h
      cases hs : spreadChar d with
      | nil => exact absurd hs hne
      | cons e es =>
        rw [hs] at h hall
        obtain ⟨rfl, -⟩ := List.cons.inj h
        exact absurd (hall e List.mem_cons_self) (Nat.not_le_of_lt hc)

/-- How many bytes the first characters of a text take. -/
def bytesOf (text : List Char) (n : Nat) : Nat := (spread (text.take n)).length

@[simp] theorem bytesOf_zero (text : List Char) : bytesOf text 0 = 0 := rfl

theorem bytesOf_succ (c : Char) (text : List Char) (n : Nat) :
    bytesOf (c :: text) (n + 1) = (spreadChar c).length + bytesOf text n := by
  simp [bytesOf, spread_cons]

theorem bytesOf_succ_ascii {c : Char} (h : c.toNat < 128) (text : List Char) (n : Nat) :
    bytesOf (c :: text) (n + 1) = bytesOf text n + 1 := by
  rw [bytesOf_succ, spreadChar_ascii h, Nat.add_comm]
  rfl

/-! ### Blanks and comments -/

theorem blankLength_closing (k : Nat) (rest : List Char) :
    blankLength true k (':' :: '}' :: rest) = blankLength false (k + 2) rest := rfl

theorem blankLength_inside {c : Char} {rest : List Char} (h : c = ':' → ∀ rest', rest ≠ '}' :: rest')
    (k : Nat) : blankLength true k (c :: rest) = blankLength true (k + 1) rest := by
  rw [blankLength.eq_def]
  dsimp only
  rw [if_pos rfl]
  split
  · exact absurd rfl (h rfl _)
  · rfl

theorem blankLength_opening (k : Nat) (rest : List Char) :
    blankLength false k ('{' :: ':' :: rest) = blankLength true (k + 2) rest := rfl

theorem blankLength_outside {c : Char} {rest : List Char} (h : c = '{' → ∀ rest', rest ≠ ':' :: rest')
    (k : Nat) :
    blankLength false k (c :: rest) = if isBlank c then blankLength false (k + 1) rest else k := by
  rw [blankLength.eq_def]
  dsimp only
  rw [if_neg Bool.false_ne_true]
  split
  · exact absurd rfl (h rfl _)
  · rfl

theorem blankLength_wide {ws : List Char} (h : ∀ d ∈ ws, 128 ≤ d.toNat) (count : Nat) (text : List Char) :
    blankLength true count (ws ++ text) = blankLength true (count + ws.length) text := by
  induction ws generalizing count with
  | nil => rfl
  | cons d ws ih =>
    have hd : d ≠ ':' := by
      rintro rfl
      exact absurd (h ':' List.mem_cons_self) (by decide)
    rw [List.cons_append, blankLength_inside (absurd · hd), ih fun e he => h e (.tail _ he),
      List.length_cons]
    congr 1
    omega

/-- A comment goes up to its first closing mark. -/
theorem blankLength_body {body : List Char} (h : ¬[':', '}'] <:+: body) (count : Nat) (rest : List Char) :
    blankLength true count (body ++ ':' :: '}' :: rest) = blankLength false (count + body.length + 2) rest := by
  induction body generalizing count with
  | nil => exact blankLength_closing count rest
  | cons c body ih =>
    have hbody : ¬[':', '}'] <:+: body := fun hmem => h (hmem.trans (List.suffix_cons c body).isInfix)
    have hopen : c = ':' → ∀ rest', body ++ ':' :: '}' :: rest ≠ '}' :: rest' := by
      rintro rfl rest' heq
      cases body with
      | nil => cases heq
      | cons d body =>
        obtain ⟨rfl, -⟩ := List.cons.inj heq
        exact h (List.prefix_append [':', '}'] body).isInfix
    rw [List.cons_append, blankLength_inside hopen, ih hbody, List.length_cons]
    congr 1
    omega

theorem isBlank_ascii {c : Char} (h : isBlank c) : c.toNat < 128 := by
  simp only [isBlank, Bool.or_eq_true, decide_eq_true_eq] at h
  rcases h with ((rfl | rfl) | rfl) | rfl <;> decide

theorem not_isIdentContinue {c : Char} : ¬isIdentContinue c ↔ ¬isIdentStart c ∧ ¬c.isDigit := by
  simp [isIdentContinue]

/-- No blank goes on with a word. -/
theorem isIdentContinue_blank {c : Char} (h : isBlank c = true) : isIdentContinue c = false := by
  simp only [isBlank, Bool.or_eq_true, decide_eq_true_eq] at h
  obtain ((rfl | rfl) | rfl) | rfl := h <;> decide

/-- A character that a text does not go on with, its bytes do not go on with either. -/
theorem spread_ne_cons {text : List Char} {c : Char} (hc : c.toNat < 128) (h : ∀ rest, text ≠ c :: rest)
    (rest : List Char) : spread text ≠ c :: rest := by
  intro heq
  obtain ⟨text', rfl, -⟩ := spread_eq_cons hc heq
  exact h text' rfl

/-- Blanks and comments end behind a character. -/
theorem blankLength_spread (b : Bool) (count : Nat) (text : List Char) :
    ∃ n, blankLength b count text = count + n ∧
      ∀ k, blankLength b k (spread text) = k + bytesOf text n := by
  fun_induction blankLength b count text with
  | case1 => exact ⟨0, rfl, fun k => by simp [blankLength]⟩
  | case2 count rest ih =>
    obtain ⟨n, hn, hk⟩ := ih
    refine ⟨n + 2, by omega, fun k => ?_⟩
    rw [spread_cons_ascii (by decide), spread_cons_ascii (by decide), blankLength_closing, hk,
      bytesOf_succ_ascii (by decide), bytesOf_succ_ascii (by decide)]
    omega
  | case3 count c rest h ih =>
    obtain ⟨n, hn, hk⟩ := ih
    refine ⟨n + 1, by omega, fun k => ?_⟩
    by_cases hc : c.toNat < 128
    · rw [spread_cons_ascii hc, blankLength_inside, hk, bytesOf_succ_ascii hc]
      · omega
      · exact fun h' => spread_ne_cons (by decide) fun rest' => h rest' h'
    · rw [spread_cons, blankLength_wide (spreadChar_wide (Nat.le_of_not_lt hc)).2, hk, bytesOf_succ]
      omega
  | case4 b count hb rest ih =>
    obtain rfl : b = false := by simpa using hb
    obtain ⟨n, hn, hk⟩ := ih
    refine ⟨n + 2, by omega, fun k => ?_⟩
    rw [spread_cons_ascii (by decide), spread_cons_ascii (by decide), blankLength_opening, hk,
      bytesOf_succ_ascii (by decide), bytesOf_succ_ascii (by decide)]
    omega
  | case5 b count hb c rest h hc ih =>
    obtain rfl : b = false := by simpa using hb
    obtain ⟨n, hn, hk⟩ := ih
    refine ⟨n + 1, by omega, fun k => ?_⟩
    rw [spread_cons_ascii (isBlank_ascii hc), blankLength_outside, if_pos hc, hk,
      bytesOf_succ_ascii (isBlank_ascii hc)]
    · omega
    · exact fun h' => spread_ne_cons (by decide) fun rest' => h rest' h'
  | case6 b count hb c rest h hc =>
    obtain rfl : b = false := by simpa using hb
    refine ⟨0, rfl, fun k => ?_⟩
    by_cases hw : c.toNat < 128
    · rw [spread_cons_ascii hw, blankLength_outside, if_neg hc]
      · rfl
      · exact fun h' => spread_ne_cons (by decide) fun rest' => h rest' h'
    · obtain ⟨hne, hall⟩ := spreadChar_wide (Nat.le_of_not_lt hw)
      obtain ⟨d, ds, hd⟩ := List.exists_cons_of_ne_nil hne
      have hdw : ¬d.toNat < 128 := Nat.not_lt.2 (hall d (by simp [hd]))
      rw [spread_cons, hd, List.cons_append, blankLength_outside, if_neg (mt isBlank_ascii hdw)]
      · rfl
      · rintro rfl
        exact absurd (by decide) hdw

/-! ### Runs and literals -/

/-- A run of characters that are told apart from the others by an ASCII mark, or by being ASCII. -/
theorem takeWhile_spread {p : Char → Bool} {b : Bool} (hp : ∀ c, 128 ≤ c.toNat → p c = b)
    (text : List Char) : (spread text).takeWhile p = spread (text.takeWhile p) := by
  induction text with
  | nil => rfl
  | cons c text ih =>
    by_cases hc : c.toNat < 128
    · rw [spread_cons_ascii hc, List.takeWhile_cons, List.takeWhile_cons, ih]
      split
      · rw [spread_cons_ascii hc]
      · rfl
    · obtain ⟨hne, hall⟩ := spreadChar_wide (Nat.le_of_not_lt hc)
      obtain ⟨d, ds, hd⟩ := List.exists_cons_of_ne_nil hne
      rw [spread_cons, List.takeWhile_cons, hp c (Nat.le_of_not_lt hc)]
      cases b with
      | true =>
        rw [List.takeWhile_append_of_pos fun d hd => hp d (hall d hd), ih]
        rfl
      | false => simp [hd, hp d (hall d (by simp [hd]))]

theorem dropWhile_spread {p : Char → Bool} {b : Bool} (hp : ∀ c, 128 ≤ c.toNat → p c = b)
    (text : List Char) : (spread text).dropWhile p = spread (text.dropWhile p) := by
  have h : spread text = spread (text.takeWhile p) ++ spread (text.dropWhile p) := by
    rw [spread, spread, spread, ← List.flatMap_append, List.takeWhile_append_dropWhile]
  have h' := List.takeWhile_append_dropWhile (p := p) (l := spread text)
  rw [takeWhile_spread hp] at h'
  exact List.append_cancel_left (h'.trans h)

theorem bytesOf_takeWhile (p : Char → Bool) (text : List Char) :
    bytesOf text (text.takeWhile p).length = (spread (text.takeWhile p)).length := by
  rw [bytesOf, take_length_takeWhile]

theorem spread_ascii {text : List Char} (h : ∀ c ∈ text, c.toNat < 128) : spread text = text := by
  induction text with
  | nil => rfl
  | cons c text ih =>
    rw [spread_cons_ascii (h c List.mem_cons_self), ih fun d hd => h d (.tail _ hd)]

theorem extent_other {c : Char} (hq : c ≠ '"') (hb : c ≠ '\\') (count : Nat) (rest : List Char) :
    Quoted.extent count (c :: rest) = Quoted.extent (count + 1) rest := by
  rw [Quoted.extent] <;> simp_all

theorem extent_wide {ws : List Char} (h : ∀ d ∈ ws, 128 ≤ d.toNat) (count : Nat) (text : List Char) :
    Quoted.extent count (ws ++ text) = Quoted.extent (count + ws.length) text := by
  induction ws generalizing count with
  | nil => rfl
  | cons d ws ih =>
    have hq : d ≠ '"' ∧ d ≠ '\\' := by
      constructor <;> (rintro rfl; exact absurd (h _ List.mem_cons_self) (by decide))
    rw [List.cons_append, extent_other hq.1 hq.2, ih fun e he => h e (.tail _ he), List.length_cons]
    congr 1
    omega

/-- The character that a backslash takes with it may be a wide one: of its bytes the backslash takes the
first, and the others neither end the literal nor take another with them. -/
theorem extent_backslash (count : Nat) (c : Char) (text : List Char) :
    Quoted.extent count ('\\' :: (spreadChar c ++ text)) =
      Quoted.extent (count + 1 + (spreadChar c).length) text := by
  by_cases hc : c.toNat < 128
  · rw [spreadChar_ascii hc]
    rfl
  · obtain ⟨hne, hall⟩ := spreadChar_wide (Nat.le_of_not_lt hc)
    obtain ⟨d, ds, hd⟩ := List.exists_cons_of_ne_nil hne
    rw [hd, List.cons_append, Quoted.extent,
      extent_wide fun e he => hall e (by rw [hd]; exact .tail _ he), List.length_cons]
    congr 1
    omega

theorem extent_spread (count : Nat) (text : List Char) :
    ∃ n, (Quoted.extent count text).1 = count + n ∧
      ∀ k, Quoted.extent k (spread text) = (k + bytesOf text n, (Quoted.extent count text).2) := by
  fun_induction Quoted.extent count text with
  | case1 => exact ⟨0, rfl, fun k => rfl⟩
  | case2 count rest =>
    refine ⟨1, rfl, fun k => ?_⟩
    rw [spread_cons_ascii (by decide), Quoted.extent, bytesOf_succ_ascii (by decide)]
    rfl
  | case3 => exact ⟨1, rfl, fun k => rfl⟩
  | case4 count c rest ih =>
    obtain ⟨n, hn, hk⟩ := ih
    refine ⟨n + 2, by omega, fun k => ?_⟩
    rw [spread_cons_ascii (by decide), spread_cons, extent_backslash, hk,
      bytesOf_succ_ascii (by decide), bytesOf_succ]
    congr 1
    omega
  | case5 count c rest hq hnil hcons ih =>
    have hb : c ≠ '\\' := by
      cases rest with
      | nil => exact fun h => hnil h rfl
      | cons d rest => exact fun h => hcons d rest h rfl
    obtain ⟨n, hn, hk⟩ := ih
    refine ⟨n + 1, by omega, fun k => ?_⟩
    have hstep : Quoted.extent k (spread (c :: rest)) =
        Quoted.extent (k + (spreadChar c).length) (spread rest) := by
      by_cases hc : c.toNat < 128
      · rw [spread_cons_ascii hc, spreadChar_ascii hc, extent_other hq hb]
        rfl
      · rw [spread_cons, extent_wide (spreadChar_wide (Nat.le_of_not_lt hc)).2]
    rw [hstep, hk, bytesOf_succ]
    congr 1
    omega

theorem isDigit_ascii {c : Char} (h : c.isDigit) : c.toNat < 128 := by
  simp only [Char.isDigit, Bool.and_eq_true, decide_eq_true_eq, UInt32.le_iff_toNat_le] at h
  exact Nat.lt_of_le_of_lt h.2 (by decide)

theorem val_of_isAlpha {c : Char} (h : c.isAlpha) : 'A'.val ≤ c.val ∧ c.val ≤ 'z'.val := by
  have h : c.isUpper ∨ c.isLower := Bool.or_eq_true_iff.1 h
  rcases h with h | h
  · have h : c.val ≥ 'A'.val ∧ c.val ≤ 'Z'.val := of_decide_eq_true h
    exact ⟨h.1, UInt32.le_trans h.2 (by decide)⟩
  · have h : (decide (c.val ≥ 'a'.val) && decide (c.val ≤ 'z'.val)) = true := h
    obtain ⟨hleft, hright⟩ := Bool.and_eq_true_iff.1 h
    exact ⟨UInt32.le_trans (by decide) (of_decide_eq_true hleft), of_decide_eq_true hright⟩

theorem isAlpha_ascii {c : Char} (h : c.isAlpha) : c.toNat < 128 :=
  Nat.lt_of_le_of_lt (UInt32.le_iff_toNat_le.1 (val_of_isAlpha h).2) (by decide)

/-- All digits come before the letters. -/
theorem isDigit_of_isAlpha {c : Char} (h : c.isAlpha) : c.isDigit = false := by
  have hlt : '9'.val < c.val := UInt32.lt_of_lt_of_le (by decide) (val_of_isAlpha h).1
  exact Bool.and_eq_false_imp.2 fun _ => decide_eq_false (UInt32.not_le.2 hlt)

/-- Numbers and identifiers do not start alike. -/
theorem isDigit_of_isIdentStart {c : Char} (h : isIdentStart c = true) : c.isDigit = false := by
  simp only [isIdentStart, Bool.or_eq_true, decide_eq_true_eq] at h
  obtain ((h | rfl) | rfl) | rfl := h
  · exact isDigit_of_isAlpha h
  all_goals decide

theorem isIdentContinue_ascii {c : Char} (h : isIdentContinue c) : c.toNat < 128 := by
  simp only [isIdentContinue, isIdentStart, Bool.or_eq_true, decide_eq_true_eq] at h
  rcases h with (((h | rfl) | rfl) | rfl) | h
  · exact isAlpha_ascii h
  · decide
  · decide
  · decide
  · exact isDigit_ascii h

/-- A run of characters of an ASCII class takes as many bytes as characters. -/
theorem spread_takeWhile {p : Char → Bool} (hp : ∀ c, p c → c.toNat < 128) (text : List Char) :
    spread (text.takeWhile p) = text.takeWhile p :=
  spread_ascii fun c hc => hp c (List.all_eq_true.1 List.all_takeWhile c hc)

theorem eq_false_of_ascii {p : Char → Bool} (hp : ∀ c, p c → c.toNat < 128) (c : Char)
    (hc : 128 ≤ c.toNat) : p c = false := by
  simpa using mt (hp c) (Nat.not_lt.2 hc)

theorem takeWhile_spread_ascii {p : Char → Bool} (hp : ∀ c, p c → c.toNat < 128) (text : List Char) :
    (spread text).takeWhile p = text.takeWhile p := by
  rw [takeWhile_spread (eq_false_of_ascii hp), spread_takeWhile hp]

theorem bytesOf_append (front rest : List Char) (n : Nat) :
    bytesOf (front ++ rest) (front.length + n) = (spread front).length + bytesOf rest n := by
  rw [bytesOf, List.take_length_add_append, bytesOf, spread, List.flatMap_append, List.length_append]
  rfl

/-- A number takes as many bytes as characters. -/
theorem numberLength_spread (text : List Char) :
    numberLength (spread text) = bytesOf text (numberLength text) := by
  have hrun (text : List Char) : bytesOf text (text.takeWhile Char.isDigit).length =
      (text.takeWhile Char.isDigit).length := by
    rw [bytesOf_takeWhile, spread_takeWhile @isDigit_ascii]
  have hdrop := dropWhile_spread (eq_false_of_ascii @isDigit_ascii) text
  have hsplit : text = text.takeWhile Char.isDigit ++ text.dropWhile Char.isDigit :=
    List.takeWhile_append_dropWhile.symm
  unfold numberLength
  simp only [takeWhile_spread_ascii @isDigit_ascii, hdrop]
  cases htail : text.dropWhile Char.isDigit with
  | nil => simpa using (hrun text).symm
  | cons d rest =>
    by_cases hd : d = '.'
    · subst hd
      rw [spread_cons_ascii (by decide)]
      simp only [takeWhile_spread_ascii @isDigit_ascii]
      split
      · exact (hrun text).symm
      · rw [htail] at hsplit
        have h := bytesOf_append (text.takeWhile Char.isDigit) ('.' :: rest)
          ((rest.takeWhile Char.isDigit).length + 1)
        rw [← hsplit, bytesOf_succ_ascii (by decide), hrun, spread_takeWhile @isDigit_ascii] at h
        rw [Nat.add_assoc, Nat.add_comm 1, h]
    · have hne : ∀ rest', spread (d :: rest) ≠ '.' :: rest' :=
        spread_ne_cons (by decide) fun rest' h => hd (List.cons.inj h).1
      split
      · exact absurd ‹_› (hne _)
      · split
        · exact absurd (List.cons.inj ‹_›).1 hd
        · exact (hrun text).symm

theorem length_spread_eq_zero (text : List Char) : (spread text).length = 0 ↔ text = [] := by
  cases text with
  | nil => simp
  | cons c text =>
    have : spreadChar c ≠ [] := by
      by_cases hc : c.toNat < 128
      · simp [spreadChar_ascii hc]
      · exact (spreadChar_wide (Nat.le_of_not_lt hc)).1
    simp [spread_cons, this]

/-- Whether a closing mark follows can be seen from the lengths, of the bytes too. -/
theorem length_takeWhile_spread {p : Char → Bool} (text : List Char) :
    (spread (text.takeWhile p)).length = (spread text).length ↔
      (text.takeWhile p).length = text.length := by
  have hsplit : text.takeWhile p ++ text.dropWhile p = text := List.takeWhile_append_dropWhile
  have hspread : (spread text).length =
      (spread (text.takeWhile p)).length + (spread (text.dropWhile p)).length := by
    rw [← List.length_append, spread, spread, spread, ← List.flatMap_append, hsplit]
  have hlength : text.length = (text.takeWhile p).length + (text.dropWhile p).length := by
    rw [← List.length_append, hsplit]
  have hz := length_spread_eq_zero (text.dropWhile p)
  rw [← List.length_eq_zero_iff] at hz
  omega

/-- What stands between the marks of a character literal goes up to the next mark. -/
theorem charLiteral_cons {c : Char} {rest : List Char} (hc : c ≠ charQuote) {body : List Char}
    (hb : (c :: rest).takeWhile (· ≠ charQuote) = body) :
    charLiteral (c :: rest) =
      if body.length = (c :: rest).length then (.error .unterminatedChar, body.length + 1)
      else if body = [c] ∧ c.toNat < 128 then (.ok .char, 3)
      else (.error .invalidChar, body.length + 2) := by
  rw [charLiteral, if_neg hc]
  simp only [hb]

/-- A run that does not take all of a text ends before a mark. -/
theorem exists_closing (text : List Char) {q : Char}
    (h : (text.takeWhile (· ≠ q)).length ≠ text.length) :
    ∃ tail, text = text.takeWhile (· ≠ q) ++ q :: tail := by
  have hsplit : text = text.takeWhile (· ≠ q) ++ text.dropWhile (· ≠ q) :=
    List.takeWhile_append_dropWhile.symm
  cases htail : text.dropWhile (· ≠ q) with
  | nil =>
    rw [htail, List.append_nil] at hsplit
    exact absurd (congrArg List.length hsplit.symm) h
  | cons d tail =>
    obtain rfl : d = q := by
      have hne : text.dropWhile (· ≠ q) ≠ [] := htail ▸ List.cons_ne_nil _ _
      have := List.head_dropWhile_not (· ≠ q) hne
      simp only [htail, List.head_cons] at this
      simpa using this
    exact ⟨tail, by rwa [htail] at hsplit⟩

/-- The closing mark after a run is one byte. -/
theorem bytesOf_closed (text : List Char) {q : Char} (hq : q.toNat < 128)
    (h : (text.takeWhile (· ≠ q)).length ≠ text.length) :
    bytesOf text ((text.takeWhile (· ≠ q)).length + 1) =
      (spread (text.takeWhile (· ≠ q))).length + 1 := by
  obtain ⟨tail, hsplit⟩ := exists_closing text h
  have := bytesOf_append (text.takeWhile (· ≠ q)) (q :: tail) 1
  rwa [← hsplit, bytesOf_succ_ascii hq, bytesOf_zero] at this

/-- What the bytes of a text that does not start with a mark start with. -/
theorem spread_cons_head {c q : Char} (hq : q.toNat < 128) (hcq : c ≠ q) (rest : List Char) :
    ∃ d ds, spread (c :: rest) = d :: ds ∧ d ≠ q ∧
      ∀ body, body = (c :: rest).takeWhile (· ≠ q) →
        ((spread body = [d] ∧ d.toNat < 128) ↔ (body = [c] ∧ c.toNat < 128)) := by
  by_cases hc : c.toNat < 128
  · refine ⟨c, spread rest, spread_cons_ascii hc rest, hcq, ?_⟩
    rintro body rfl
    rw [List.takeWhile_cons, if_pos (by simpa using hcq), spread_cons_ascii hc]
    simp [hc, ← List.length_eq_zero_iff, length_spread_eq_zero]
  · obtain ⟨hne, hall⟩ := spreadChar_wide (Nat.le_of_not_lt hc)
    obtain ⟨d, ds, hd⟩ := List.exists_cons_of_ne_nil hne
    have hdw : ¬d.toNat < 128 := Nat.not_lt.2 (hall d (by simp [hd]))
    refine ⟨d, ds ++ spread rest, by simp [spread_cons, hd], ?_, fun body _ => by simp [hc, hdw]⟩
    rintro rfl
    exact hdw hq

theorem charLiteral_spread (text : List Char) :
    charLiteral (spread text) = ((charLiteral text).1, bytesOf (charQuote :: text) (charLiteral text).2) := by
  have hq : charQuote.toNat < 128 := by decide
  cases text with
  | nil => rfl
  | cons c rest =>
    by_cases hcq : c = charQuote
    · subst hcq
      simp [spread_cons_ascii hq, charLiteral, bytesOf_succ_ascii hq]
    · obtain ⟨d, ds, hspread, hd, hone⟩ := spread_cons_head hq hcq rest
      have hclosed := bytesOf_closed (c :: rest) hq
      have hrun := bytesOf_takeWhile (· ≠ charQuote) (c :: rest)
      have hlength := length_takeWhile_spread (p := (· ≠ charQuote)) (c :: rest)
      have hbytes := takeWhile_spread (p := (· ≠ charQuote)) (b := true) (by
        intro e he
        simp only [ne_eq, decide_not, Bool.not_eq_true', decide_eq_false_iff_not]
        rintro rfl
        exact absurd hq (Nat.not_lt.2 he)) (c :: rest)
      obtain ⟨body, hbody⟩ : ∃ body, (c :: rest).takeWhile (· ≠ charQuote) = body := ⟨_, rfl⟩
      rw [hbody] at hclosed hrun hlength hbytes
      rw [hspread] at hbytes hlength ⊢
      rw [charLiteral_cons hd hbytes, charLiteral_cons hcq hbody]
      by_cases hopen : body.length = (c :: rest).length
      · rw [if_pos (hlength.2 hopen), if_pos hopen, bytesOf_succ_ascii hq, hrun]
      · rw [if_neg (mt hlength.1 hopen), if_neg hopen]
        by_cases hsingle : body = [c] ∧ c.toNat < 128
        · rw [if_pos ((hone body hbody.symm).2 hsingle), if_pos hsingle]
          have := hclosed hopen
          rw [hsingle.1, spread_cons_ascii hsingle.2] at this
          rw [bytesOf_succ_ascii hq]
          exact congrArg (Prod.mk _) (congrArg Nat.succ this.symm)
        · rw [if_neg (mt (hone body hbody.symm).1 hsingle), if_neg hsingle, bytesOf_succ_ascii hq, hclosed hopen]

theorem classify_word {c : Char} (h : isIdentContinue c) (rest : List Char) :
    classify c rest =
      if c.isDigit then (.ok .number, numberLength (c :: rest))
      else (wordKind ((c :: rest).takeWhile isIdentContinue), ((c :: rest).takeWhile isIdentContinue).length) := by
  have hne {d : Char} (hd : ¬isIdentContinue d) : c ≠ d := by
    rintro rfl
    exact hd h
  unfold classify
  split <;> first | exact absurd rfl (hne (by decide)) | skip
  rw [if_neg (hne (by decide)), if_neg (hne (by decide))]
  by_cases hd : c.isDigit
  · rw [if_pos hd, if_pos hd]
  · have hs : isIdentStart c := by simpa [isIdentContinue, hd] using h
    rw [if_neg hd, if_neg hd, if_pos hs]

/-- Bytes of words and numbers are classified as the words and numbers are. -/
theorem classify_spread_word {c : Char} (h : isIdentContinue c) (rest : List Char) :
    classify c (spread rest) = ((classify c rest).1, bytesOf (c :: rest) (classify c rest).2) := by
  have hc := isIdentContinue_ascii h
  rw [classify_word h, classify_word h, ← spread_cons_ascii hc, numberLength_spread,
    takeWhile_spread_ascii @isIdentContinue_ascii]
  split
  · rfl
  · rw [bytesOf_takeWhile, spread_takeWhile @isIdentContinue_ascii]

theorem classify_quote (rest : List Char) :
    classify '"' rest = (if (Quoted.extent 1 rest).2 then .ok .string else .error .unterminatedString,
      (Quoted.extent 1 rest).1) := rfl

/-- An ASCII character starts the same token or faulty piece among the bytes of a source as in the source,
and what it takes ends behind a character. -/
theorem classify_spread {c : Char} (hc : c.toNat < 128) (rest : List Char) :
    classify c (spread rest) = ((classify c rest).1, bytesOf (c :: rest) (classify c rest).2) := by
  by_cases hword : isIdentContinue c
  · exact classify_spread_word hword rest
  by_cases hstring : c = '"'
  · subst hstring
    obtain ⟨n, hn, hk⟩ := extent_spread 1 rest
    rw [classify_quote, classify_quote, hk, hn, Nat.add_comm 1 n, bytesOf_succ_ascii hc, Nat.add_comm]
  by_cases hchar : c = charQuote
  · subst hchar
    exact charLiteral_spread rest
  fun_cases classify c rest
  case case27 => exact absurd rfl hstring
  case case28 => exact absurd rfl hchar
  case case29 => exact absurd (by simp [isIdentContinue, *]) hword
  case case30 => exact absurd (by simp [isIdentContinue, *]) hword
  case case31 hn ht _ _ _ _ _ _ ha hb =>
    rw [classify, if_neg hstring, if_neg hchar, if_neg ‹¬c.isDigit›, if_neg ‹¬isIdentStart c›, bytesOf_succ_ascii hc]
    · rfl
    all_goals first
      | assumption
      | exact fun _ h => absurd h ‹_›
      | exact fun tail h => spread_ne_cons (by decide) (fun tail => hn tail h) tail
      | exact fun tail h => spread_ne_cons (by decide) (fun tail => ht tail h) tail
      | exact fun tail h => spread_ne_cons (by decide) (fun tail => ha tail h) tail
      | exact fun tail h => spread_ne_cons (by decide) (fun tail => hb tail h) tail
  all_goals first
    | rfl
    | (rw [classify] <;> first | rfl | exact spread_ne_cons (by decide) ‹_›)

/-- No other character starts a token: it is a faulty piece on its own. -/
theorem classify_wide {c : Char} (hc : 128 ≤ c.toNat) (rest : List Char) :
    classify c rest = (.error (.unexpectedCharacter c), 1) := by
  have hne {d : Char} (hd : d.toNat < 128) : c ≠ d := by
    rintro rfl
    exact absurd hd (Nat.not_lt.2 hc)
  unfold classify
  split <;> first | exact absurd rfl (hne (by decide)) | skip
  rw [if_neg (hne (by decide)), if_neg (hne (by decide)), if_neg (mt isDigit_ascii (Nat.not_lt.2 hc)),
    if_neg]
  exact mt (fun h => isIdentContinue_ascii (by simp [isIdentContinue, h])) (Nat.not_lt.2 hc)

/-! ### The marks of literals -/

theorem take_extent (count : Nat) (text : List Char) (h : (Quoted.extent count text).2 = true) :
    ∃ raw n, (Quoted.extent count text).1 = count + n ∧ text.take n = raw ++ ['"'] := by
  fun_induction Quoted.extent count text with
  | case1 => cases h
  | case2 count rest => exact ⟨[], 1, rfl, rfl⟩
  | case3 => cases h
  | case4 count c rest ih =>
    obtain ⟨raw, n, hn, hraw⟩ := ih h
    exact ⟨'\\' :: c :: raw, n + 2, by omega, by simp [hraw]⟩
  | case5 count c rest _ _ _ ih =>
    obtain ⟨raw, n, hn, hraw⟩ := ih h
    exact ⟨c :: raw, n + 1, by omega, by simp [hraw]⟩

theorem charLiteral_kind {text : List Char} {k : TokenKind} (h : (charLiteral text).1 = .ok k) : k = .char := by
  cases text with
  | nil => cases h
  | cons c rest =>
    by_cases hcq : c = charQuote
    · simp [charLiteral, hcq] at h
    · rw [charLiteral_cons hcq rfl] at h
      split at h
      · cases h
      · split at h <;> cases h
        rfl

theorem take_charLiteral {text : List Char} {k : TokenKind} (h : (charLiteral text).1 = .ok k) :
    ∃ c, c.toNat < 128 ∧ (charQuote :: text).take (charLiteral text).2 = [charQuote, c, charQuote] := by
  cases text with
  | nil => cases h
  | cons c rest =>
    by_cases hcq : c = charQuote
    · simp [charLiteral, hcq] at h
    · obtain ⟨body, hbody⟩ : ∃ body, (c :: rest).takeWhile (· ≠ charQuote) = body := ⟨_, rfl⟩
      rw [charLiteral_cons hcq hbody] at h ⊢
      by_cases hopen : body.length = (c :: rest).length
      · rw [if_pos hopen] at h
        cases h
      · rw [if_neg hopen] at h ⊢
        by_cases hsingle : body = [c] ∧ c.toNat < 128
        · obtain ⟨tail, hsplit⟩ := exists_closing (c :: rest) (q := charQuote) (by rwa [hbody])
          rw [if_pos hsingle, hsplit, hbody, hsingle.1]
          exact ⟨c, hsingle.2, rfl⟩
        · rw [if_neg hsingle] at h
          cases h

theorem wordKind_ne_literal {run : List Char} {k : TokenKind} (h : wordKind run = .ok k) :
    k ≠ .string ∧ k ≠ .char := by
  have hkeywords : ∀ p ∈ keywords, p.2 ≠ .string ∧ p.2 ≠ .char := by decide
  obtain hmem | rfl := mem_keywords_of_wordKind h
  · exact hkeywords _ hmem
  · decide

/-- Only its mark starts a literal. -/
theorem eq_mark_of_classify {c : Char} {rest : List Char} {k : TokenKind} (h : (classify c rest).1 = .ok k) :
    (k = .string → c = '"') ∧ (k = .char → c = charQuote) := by
  by_cases hword : isIdentContinue c
  · rw [classify_word hword] at h
    split at h
    · obtain rfl := Except.ok.inj h
      simp
    · obtain ⟨h1, h2⟩ := wordKind_ne_literal h
      exact ⟨(absurd · h1), (absurd · h2)⟩
  by_cases hstring : c = '"'
  · subst hstring
    rw [classify_quote] at h
    refine ⟨fun _ => rfl, ?_⟩
    rintro rfl
    split at h <;> cases h
  by_cases hchar : c = charQuote
  · subst hchar
    refine ⟨?_, fun _ => rfl⟩
    rintro rfl
    have h' : (charLiteral rest).1 = .ok .string := h
    cases charLiteral_kind h'
  obtain ⟨hstart, hdigit⟩ := not_isIdentContinue.1 hword
  revert h
  unfold classify
  split <;> intro h <;> try (obtain rfl := Except.ok.inj h; simp)
  rw [if_neg hstring, if_neg hchar, if_neg hdigit, if_neg hstart] at h
  cases h

/-- A literal starts and ends with its mark, and the one byte of a character literal stands between. -/
theorem take_classify {c : Char} {rest : List Char} {k : TokenKind} (h : (classify c rest).1 = .ok k) :
    (k = .string → ∃ raw, (c :: rest).take (classify c rest).2 = '"' :: raw ++ ['"']) ∧
    (k = .char → ∃ d, d.toNat < 128 ∧ (c :: rest).take (classify c rest).2 = [charQuote, d, charQuote]) := by
  obtain ⟨hstring, hchar⟩ := eq_mark_of_classify h
  constructor
  · rintro rfl
    obtain rfl := hstring rfl
    rw [classify_quote] at h ⊢
    cases hclosed : (Quoted.extent 1 rest).2 with
    | false => simp [hclosed] at h
    | true =>
      obtain ⟨raw, n, hn, hraw⟩ := take_extent 1 rest hclosed
      refine ⟨raw, ?_⟩
      rw [hn, Nat.add_comm 1, List.take_succ_cons, hraw]
      rfl
  · rintro rfl
    obtain rfl := hchar rfl
    have h' : (charLiteral rest).1 = .ok .char := h
    exact take_charLiteral h'

end StackScript.Scan
