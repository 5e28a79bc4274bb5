import StackScript.Proofs.Text.Utf8

/-! The text of any bytes: characters are read where their encodings stand, and each maximal part that belongs to none
becomes the replacement character. Nothing is lost exactly where the bytes are well-formed. -/
namespace StackScript.Utf8

/-- The encoding of some character begins so. -/
def Begins (start : List UInt8) : Prop := ∃ c : Char, start <+: String.utf8EncodeChar c

/-- An ill-formed part at the head of bytes that begin with no character: the longest beginning of a character that stands
there, or the single byte that begins none. -/
structure IsIllFormed (part rest : List UInt8) : Prop where
  ne_nil : part ≠ []
  no_char (c : Char) : ¬ String.utf8EncodeChar c <+: part ++ rest
  begins : Begins part ∨ part.length = 1
  longest (start : List UInt8) (h : start <+: part ++ rest) (hbegins : Begins start) : start.length ≤ part.length

/-- A text that bytes are read as, with the replacement character for each maximal ill-formed part. -/
inductive ReadsAs : List UInt8 → List Char → Prop
  | nil : ReadsAs [] []
  | char (c : Char) {rest : List UInt8} {text : List Char} (h : ReadsAs rest text) :
    ReadsAs (String.utf8EncodeChar c ++ rest) (c :: text)
  | part {part rest : List UInt8} {text : List Char} (hpart : IsIllFormed part rest) (h : ReadsAs rest text) :
    ReadsAs (part ++ rest) (replacement :: text)

/-! ### Beginnings of characters -/

theorem continues_start {owed : ℕ} {least greatest : UInt8} {start rest : List UInt8} (hstart : start <+: rest)
    (h : Continues owed least greatest rest) : Continues owed least greatest start := by
  induction start generalizing owed least greatest rest with
  | nil => cases owed <;> trivial
  | cons b start ih =>
    obtain ⟨more, rfl⟩ := hstart
    cases owed with
    | zero => exact h.elim
    | succ owed => exact ⟨h.1, ih ⟨more, rfl⟩ h.2⟩

/-- What is owed can always be made up. -/
theorem exists_filled {owed : ℕ} {least greatest : UInt8} {start : List UInt8} (hle : least ≤ greatest)
    (h : Continues owed least greatest start) :
    ∃ rest, start <+: rest ∧ Continues owed least greatest rest ∧ rest.length = owed := by
  induction owed generalizing least greatest start with
  | zero =>
    obtain rfl := List.eq_nil_of_length_eq_zero (Nat.le_zero.1 (length_le_of_continues h))
    exact ⟨[], List.prefix_rfl, trivial, rfl⟩
  | succ owed ih =>
    cases start with
    | nil =>
      have hnone : Continues owed 0x80 0xBF [] := by cases owed <;> trivial
      obtain ⟨rest, -, hrest, hlength⟩ := ih (by decide) hnone
      exact ⟨least :: rest, List.nil_prefix, ⟨⟨UInt8.le_refl _, hle⟩, hrest⟩, congrArg Nat.succ hlength⟩
    | cons b start =>
      obtain ⟨rest, hprefix, hrest, hlength⟩ := ih (by decide) h.2
      exact ⟨b :: rest, List.cons_prefix_cons.2 ⟨rfl, hprefix⟩, ⟨h.1, hrest⟩, congrArg Nat.succ hlength⟩

theorem least_le_greatest {b : UInt8} {l : Lead} (h : lead? b = some l) : l.least ≤ l.greatest := by
  unfold lead? at h
  split_ifs at h
  all_goals
    obtain rfl := Option.some.inj h
    dsimp only
    decide

/-- A character begins with the bytes that its first byte lets follow. -/
theorem begins_cons {b : UInt8} {start : List UInt8} :
    Begins (b :: start) ↔ ∃ l, lead? b = some l ∧ Continues l.following l.least l.greatest start := by
  constructor
  · rintro ⟨c, hprefix⟩
    obtain ⟨b', rest, hencode, l, hlead, hcontinues, -⟩ := exists_spells c
    rw [hencode, List.cons_prefix_cons] at hprefix
    obtain ⟨rfl, hprefix⟩ := hprefix
    exact ⟨l, hlead, continues_start hprefix hcontinues⟩
  · rintro ⟨l, hlead, hcontinues⟩
    obtain ⟨rest, hprefix, hrest, hlength⟩ := exists_filled (least_le_greatest hlead) hcontinues
    obtain ⟨c, -, hencode⟩ := Spells.exists_char ⟨l, hlead, hrest, hlength, rfl⟩
    exact ⟨c, hencode ▸ List.cons_prefix_cons.2 ⟨rfl, hprefix⟩⟩

/-- No two characters begin the same bytes. -/
theorem char_unique {c d : Char} {bytes : List UInt8} (hc : String.utf8EncodeChar c <+: bytes)
    (hd : String.utf8EncodeChar d <+: bytes) : c = d := by
  obtain ⟨b, rest, hencode, l, hlead, -, hlength, hvalue⟩ := exists_spells c
  obtain ⟨b', rest', hencode', l', hlead', -, hlength', hvalue'⟩ := exists_spells d
  obtain ⟨more, rfl⟩ := hc
  rw [hencode, hencode', List.cons_append, List.cons_prefix_cons] at hd
  obtain ⟨rfl, hd⟩ := hd
  obtain rfl := Option.some.inj (hlead.symm.trans hlead')
  have hrest : rest' = rest :=
    (List.prefix_of_prefix_length_le hd (List.prefix_append _ _) (by omega)).eq_of_length (by omega)
  exact Char.toNat_inj.1 (hvalue.symm.trans (hrest ▸ hvalue'))

theorem IsIllFormed.length_le {part rest part' rest' : List UInt8} (h : IsIllFormed part rest)
    (h' : IsIllFormed part' rest') (heq : part' ++ rest' = part ++ rest) : part'.length ≤ part.length := by
  obtain hbegins | hone := h'.begins
  · exact h.longest part' (heq ▸ List.prefix_append _ _) hbegins
  · exact hone ▸ List.length_pos_iff.2 h.ne_nil

/-- Bytes are read in one way. -/
theorem ReadsAs.unique {bytes : List UInt8} {text text' : List Char} (h : ReadsAs bytes text)
    (h' : ReadsAs bytes text') :
    text = text' := by
  induction h generalizing text' with
  | nil =>
    generalize hbytes : ([] : List UInt8) = bytes at h'
    cases h' with
    | nil => rfl
    | char c => exact absurd (List.append_eq_nil_iff.1 hbytes.symm).1 String.utf8EncodeChar_ne_nil
    | part hpart => exact absurd (List.append_eq_nil_iff.1 hbytes.symm).1 hpart.ne_nil
  | @char c rest text h ih =>
    generalize hbytes : String.utf8EncodeChar c ++ rest = bytes at h'
    cases h' with
    | nil => exact absurd (List.append_eq_nil_iff.1 hbytes).1 String.utf8EncodeChar_ne_nil
    | char d hd =>
      have hprefix : String.utf8EncodeChar d <+: String.utf8EncodeChar c ++ rest := hbytes ▸ List.prefix_append _ _
      obtain rfl := char_unique (List.prefix_append _ rest) hprefix
      rw [ih (List.append_cancel_left hbytes ▸ hd)]
    | part hpart => exact absurd (hbytes ▸ List.prefix_append _ _) (hpart.no_char c)
  | @part part rest text hpart h ih =>
    generalize hbytes : part ++ rest = bytes at h'
    cases h' with
    | nil => exact absurd (List.append_eq_nil_iff.1 hbytes).1 hpart.ne_nil
    | char c => exact absurd (hbytes ▸ List.prefix_append _ _) (hpart.no_char c)
    | @part part' rest' _ hpart' hd =>
      have hlength := Nat.le_antisymm (hpart'.length_le hpart hbytes) (hpart.length_le hpart' hbytes.symm)
      rw [ih ((List.append_inj hbytes hlength).2 ▸ hd)]

/-! ### Reading -/

/-- Taking what is owed stops where all of it is there, or before the first byte that does not fit. -/
theorem follow_cases (payload owed : ℕ) (least greatest : UInt8) (bytes : List UInt8) :
    ∃ taken rest, bytes = taken ++ rest ∧ Continues owed least greatest taken ∧
      (taken.length = owed ∧ follow payload owed least greatest bytes = (Char.ofNat (value payload taken), rest) ∨
        taken.length < owed ∧ follow payload owed least greatest bytes = (replacement, rest) ∧
          ∀ b more, rest = b :: more → ¬ Continues owed least greatest (taken ++ [b])) := by
  induction bytes generalizing payload owed least greatest with
  | nil =>
    cases owed with
    | zero => exact ⟨[], [], rfl, trivial, .inl ⟨rfl, rfl⟩⟩
    | succ owed => exact ⟨[], [], rfl, trivial, .inr ⟨Nat.succ_pos _, rfl, fun _ _ h => by cases h⟩⟩
  | cons b bytes ih =>
    cases owed with
    | zero => exact ⟨[], b :: bytes, rfl, trivial, .inl ⟨rfl, rfl⟩⟩
    | succ owed =>
      rw [follow]
      split_ifs with hb
      · obtain ⟨taken, rest, rfl, hcontinues, hstops⟩ := ih (payload * 64 + (b.toNat - 0x80)) owed 0x80 0xBF
        refine ⟨b :: taken, rest, rfl, ⟨hb, hcontinues⟩, ?_⟩
        obtain ⟨hlength, hfollow⟩ | ⟨hlength, hfollow, hstuck⟩ := hstops
        · refine .inl ⟨congrArg Nat.succ hlength, ?_⟩
          rw [hfollow, value, value, List.foldl_cons]
        · have hrest (b' : UInt8) (h : Continues (owed + 1) least greatest (b :: taken ++ [b'])) :
              Continues owed 0x80 0xBF (taken ++ [b']) := h.2
          exact .inr ⟨Nat.succ_lt_succ hlength, hfollow, fun b' more h hmore => hstuck b' more h (hrest b' hmore)⟩
      · refine ⟨[], b :: bytes, rfl, trivial, .inr ⟨Nat.succ_pos _, rfl, fun b' more h hmore => hb ?_⟩⟩
        obtain ⟨rfl, -⟩ := List.cons.inj h
        exact hmore.1

/-- Before a byte that does not fit, no more than what was taken can follow. -/
theorem length_le_of_stuck {owed : ℕ} {least greatest : UInt8} {taken rest start : List UInt8}
    (hstuck : ∀ b more, rest = b :: more → ¬Continues owed least greatest (taken ++ [b])) (h : start <+: taken ++ rest)
    (hcontinues : Continues owed least greatest start) : start.length ≤ taken.length := by
  by_contra hlonger
  obtain ⟨more, hmore⟩ := List.prefix_of_prefix_length_le (List.prefix_append taken rest) h (Nat.le_of_not_le hlonger)
  obtain _ | ⟨b, more⟩ := more
  · rw [← hmore, List.append_nil] at hlonger
    exact hlonger (Nat.le_refl _)
  obtain ⟨left, hleft⟩ := h
  rw [← hmore, List.append_assoc, List.append_cancel_left_eq] at hleft
  refine hstuck b (more ++ left) hleft.symm (continues_start ⟨more, ?_⟩ hcontinues)
  rw [List.append_assoc]
  exact hmore

/-- A first byte with too few of those that it lets follow is an ill-formed part. -/
theorem isIllFormed_of_stuck {b : UInt8} {taken rest : List UInt8} {l : Lead} (hlead : lead? b = some l)
    (hcontinues : Continues l.following l.least l.greatest taken) (hlength : taken.length < l.following)
    (hstuck : ∀ b more, rest = b :: more → ¬Continues l.following l.least l.greatest (taken ++ [b])) :
    IsIllFormed (b :: taken) rest := by
  refine ⟨List.cons_ne_nil _ _, fun c hc => ?_, .inl (begins_cons.2 ⟨l, hlead, hcontinues⟩), fun start h hb => ?_⟩
  · obtain ⟨b', bytes, hencode, l', hlead', hall, hwhole, -⟩ := exists_spells c
    rw [hencode, List.cons_append, List.cons_prefix_cons] at hc
    obtain ⟨rfl, hc⟩ := hc
    obtain rfl := Option.some.inj (hlead.symm.trans hlead')
    have hle := length_le_of_stuck hstuck hc hall
    omega
  · obtain _ | ⟨b', start⟩ := start
    · exact Nat.zero_le _
    rw [List.cons_append, List.cons_prefix_cons] at h
    obtain ⟨rfl, h⟩ := h
    obtain ⟨l', hlead', hstart⟩ := begins_cons.1 hb
    obtain rfl := Option.some.inj (hlead.symm.trans hlead')
    exact Nat.succ_le_succ (length_le_of_stuck hstuck h hstart)

/-- A byte that is the first one of no character is an ill-formed part by itself. -/
theorem isIllFormed_of_lead?_none {b : UInt8} (hlead : lead? b = none) (rest : List UInt8) : IsIllFormed [b] rest := by
  have hnone {start : List UInt8} (h : Begins (b :: start)) : False := by
    obtain ⟨l, hl, -⟩ := begins_cons.1 h
    rw [hlead] at hl
    cases hl
  refine ⟨List.cons_ne_nil _ _, fun c hc => ?_, .inr rfl, fun start h hb => ?_⟩
  · obtain ⟨b', bytes, hencode, -⟩ := exists_spells c
    rw [hencode, List.cons_append, List.cons_prefix_cons] at hc
    obtain ⟨rfl, -⟩ := hc
    exact hnone (show Begins (b' :: bytes) from ⟨c, hencode ▸ List.prefix_rfl⟩)
  · obtain _ | ⟨b', start⟩ := start
    · exact Nat.zero_le _
    rw [List.cons_append, List.cons_prefix_cons] at h
    obtain ⟨rfl, -⟩ := h
    exact (hnone hb).elim

/-- The next step reads a character where one stands, and replaces an ill-formed part elsewhere. -/
theorem next_cases (b : UInt8) (bytes : List UInt8) :
    (∃ c rest, b :: bytes = String.utf8EncodeChar c ++ rest ∧ next b bytes = (c, rest)) ∨
      ∃ part rest, b :: bytes = part ++ rest ∧ IsIllFormed part rest ∧ next b bytes = (replacement, rest) := by
  unfold next
  split
  · rename_i l hlead
    obtain ⟨taken, rest, rfl, hcontinues, ⟨hlength, hfollow⟩ | ⟨hlength, hfollow, hstuck⟩⟩ :=
      follow_cases l.payload l.following l.least l.greatest bytes
    · obtain ⟨c, hc, hencode⟩ := Spells.exists_char ⟨l, hlead, hcontinues, hlength, rfl⟩
      rw [← hc, Char.ofNat_toNat] at hfollow
      exact .inl ⟨c, rest, by rw [hencode, List.cons_append], hfollow⟩
    · exact .inr ⟨b :: taken, rest, rfl, isIllFormed_of_stuck hlead hcontinues hlength hstuck, hfollow⟩
  · exact .inr ⟨[b], bytes, rfl, isIllFormed_of_lead?_none ‹_› bytes, rfl⟩

theorem decodeFrom_eq_append (done : List Char) (bytes : List UInt8) :
    ∃ text, decodeFrom done bytes = done.reverse ++ text ∧ ReadsAs bytes text := by
  fun_induction decodeFrom done bytes with
  | case1 done => exact ⟨[], (List.append_nil _).symm, .nil⟩
  | case2 done b bytes ih =>
    obtain ⟨text, htext, hreads⟩ := ih
    refine ⟨(next b bytes).1 :: text, by rw [htext, List.reverse_cons, List.append_assoc]; rfl, ?_⟩
    obtain ⟨c, rest, hbytes, hnext⟩ | ⟨part, rest, hbytes, hpart, hnext⟩ := next_cases b bytes
    · rw [hnext] at hreads
      rw [hbytes, hnext]
      exact .char c hreads
    · rw [hnext] at hreads
      rw [hbytes, hnext]
      exact .part hpart hreads

theorem readsAs_utf8Encode (text : List Char) : ReadsAs (text.flatMap String.utf8EncodeChar) text := by
  induction text with
  | nil => exact .nil
  | cons c text ih => exact List.flatMap_cons .. ▸ .char c ih

theorem toList_loop (bytes : ByteArray) (i : ℕ) (done : List UInt8) :
    ByteArray.toList.loop bytes i done = done.reverse ++ bytes.data.toList.drop i := by
  fun_induction ByteArray.toList.loop bytes i done with
  | case1 i done h ih =>
    have hi : i < bytes.data.toList.length := h
    have hget : bytes.get! i = bytes.data.toList[i] := (getElem!_pos bytes.data i hi).trans rfl
    rw [ih, List.reverse_cons, List.append_assoc, List.drop_eq_getElem_cons hi, List.singleton_append, hget]
  | case2 i done h =>
    rw [List.drop_eq_nil_of_le (Nat.le_of_not_lt h), List.append_nil]

theorem toList_eq (bytes : ByteArray) : bytes.toList = bytes.data.toList := toList_loop bytes 0 []

/-- The text of bytes is what they are read as. -/
theorem readsAs_decode (bytes : ByteArray) : ReadsAs bytes.data.toList (decode bytes).toList := by
  rw [decode, String.fromUTF8?]
  split_ifs with hvalid
  · obtain ⟨text, rfl⟩ := id hvalid
    have htext : String.fromUTF8 text.utf8Encode hvalid = String.ofList text := rfl
    rw [Option.getD_some, htext, String.toList_ofList, List.utf8Encode, List.data_toByteArray]
    exact readsAs_utf8Encode text
  · obtain ⟨text, htext, hreads⟩ := decodeFrom_eq_append [] bytes.toList
    rw [Option.getD_none, String.toList_ofList, htext, ← toList_eq]
    exact hreads

theorem decode_eq_iff {bytes : ByteArray} {text : String} :
    decode bytes = text ↔ ReadsAs bytes.data.toList text.toList :=
  ⟨fun h => h ▸ readsAs_decode bytes, fun h => String.toList_inj.1 ((readsAs_decode bytes).unique h)⟩

/-- The text has the bytes that it was read from just if these are the encoding of some text. -/
theorem toUTF8_decode_iff {bytes : ByteArray} : (decode bytes).toUTF8 = bytes ↔ bytes.IsValidUTF8 := by
  constructor
  · exact fun h => h ▸ (decode bytes).isValidUTF8
  · intro h
    rw [decode, String.fromUTF8?, dif_pos h]
    rfl

end StackScript.Utf8
