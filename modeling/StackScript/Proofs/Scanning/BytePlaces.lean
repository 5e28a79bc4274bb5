import StackScript.Proofs.Scanning.ByteReading

/-! Places between the characters of a source. A piece that starts at one ends at one, so that its text can be
cut out of the source. -/
namespace StackScript.ByteScanner
variable {s : ByteScanner} {b : Char} {rest : List Char}

/-! ### Places between characters -/

/-- The scanner is between two characters. -/
structure Stands (s : ByteScanner) (front text : List Char) : Prop where
  source : s.source = front ++ text
  current : s.current = (Scan.spread front).length

theorem spread_append (front text : List Char) : Scan.spread (front ++ text) = Scan.spread front ++ Scan.spread text :=
  List.flatMap_append

theorem Stands.remaining {front text : List Char} (h : s.Stands front text) : s.remaining = Scan.spread text := by
  rw [ByteScanner.remaining, bytes, h.source, spread_append, h.current, List.drop_left]

/-- Behind some characters. -/
theorem Stands.pass {front mid text : List Char} (h : s.Stands front (mid ++ text)) :
    (s.pass (Scan.spread mid).length).Stands (front ++ mid) text where
  source := by rw [source_pass, h.source, List.append_assoc]
  current := by rw [current_pass, h.current, spread_append, List.length_append]

theorem spreadChar_pos (c : Char) : 0 < (Scan.spreadChar c).length := by
  by_cases hc : c.toNat < 128
  · rw [Scan.spreadChar_ascii hc]
    exact Nat.one_pos
  · exact List.length_pos_iff.2 (Scan.spreadChar_wide (Nat.le_of_not_lt hc)).1

theorem cut?_append (front text : List Char) :
    cut? (front ++ text) (Scan.spread front).length = some (front, text) := by
  induction front with
  | nil => simp [cut?]
  | cons c front ih =>
    obtain ⟨n, hn⟩ := Nat.exists_eq_succ_of_ne_zero (Nat.ne_of_gt (spreadChar_pos c))
    have hlength : (Scan.spread (c :: front)).length = n + (Scan.spread front).length + 1 := by
      rw [Scan.spread_cons, List.length_append, hn]
      omega
    have hrest : n + (Scan.spread front).length + 1 - (Scan.spreadChar c).length = (Scan.spread front).length := by
      omega
    rw [hlength, List.cons_append, cut?, if_pos (by omega), hrest, ih]
    rfl

/-- A cut is between two characters. -/
theorem of_cut? {text : List Char} {n : Nat} {before rest : List Char} (h : cut? text n = some (before, rest)) :
    text = before ++ rest ∧ n = (Scan.spread before).length := by
  fun_induction cut? text n generalizing before rest with
  | case1 text => cases h; exact ⟨rfl, rfl⟩
  | case2 => cases h
  | case3 c text n hle ih =>
    obtain ⟨⟨before', rest'⟩, hcut, heq⟩ := Option.map_eq_some_iff.1 h
    cases heq
    obtain ⟨rfl, hn⟩ := ih hcut
    refine ⟨rfl, ?_⟩
    rw [Scan.spread_cons, List.length_append]
    omega
  | case4 => cases h

/-- Inside a character nothing can be cut. -/
theorem cut?_inside (front text : List Char) (c : Char) {k : Nat} (hk : 0 < k) (hc : k < (Scan.spreadChar c).length) :
    cut? (front ++ c :: text) ((Scan.spread front).length + k) = none := by
  induction front with
  | nil =>
    obtain ⟨n, rfl⟩ := Nat.exists_eq_succ_of_ne_zero (Nat.ne_of_gt hk)
    rw [Scan.spread_nil, List.length_nil, Nat.zero_add, List.nil_append, cut?, if_neg (by omega)]
  | cons d front ih =>
    obtain ⟨n, hn⟩ := Nat.exists_eq_succ_of_ne_zero (Nat.ne_of_gt (spreadChar_pos d))
    have hlength : (Scan.spread (d :: front)).length + k = n + (Scan.spread front).length + k + 1 := by
      rw [Scan.spread_cons, List.length_append, hn]
      omega
    have hrest : n + (Scan.spread front).length + k + 1 - (Scan.spreadChar d).length =
      (Scan.spread front).length + k := by omega
    rw [hlength, List.cons_append, cut?, if_pos (by omega), hrest, ih]
    rfl

theorem slice?_append (front mid text : List Char) :
    slice? (front ++ (mid ++ text)) (Scan.spread front).length ((Scan.spread front).length + (Scan.spread mid).length) =
      some mid := by
  rw [slice?, if_pos (Nat.le_add_right _ _), cut?_append, Nat.add_sub_cancel_left]
  change (cut? (mid ++ text) (Scan.spread mid).length).bind _ = _
  rw [cut?_append]
  rfl

/-- The bytes of a text that has been cut out of the source. -/
theorem bytes_of_slice? {start stop : Nat} {text : List Char} (h : slice? s.source start stop = some text) :
    stop = start + (Scan.spread text).length ∧ s.bytes.drop start = Scan.spread text ++ s.bytes.drop stop := by
  unfold slice? at h
  split at h
  case isFalse => cases h
  case isTrue hle =>
  obtain ⟨⟨before, rest⟩, hbefore, h⟩ := Option.bind_eq_some_iff.1 h
  obtain ⟨⟨text', behind⟩, htext, heq⟩ := Option.bind_eq_some_iff.1 h
  cases heq
  obtain ⟨hsource, rfl⟩ := of_cut? hbefore
  obtain ⟨rfl, hstop⟩ := of_cut? htext
  obtain rfl : stop = (Scan.spread before).length + (Scan.spread text).length := by omega
  refine ⟨rfl, ?_⟩
  rw [bytes, hsource, spread_append, spread_append, List.drop_left, ← List.append_assoc, ← List.length_append,
    List.drop_left]

theorem two_le_length_spreadChar {c : Char} (h : 128 ≤ c.toNat) : 2 ≤ (Scan.spreadChar c).length := by
  have hc : ¬c.val.toNat ≤ 127 := Nat.not_le_of_lt h
  rw [Scan.spreadChar, List.length_map, String.utf8EncodeChar, if_neg hc]
  split
  · exact Nat.le_refl 2
  · split <;> exact Nat.le_add_left 2 _

/-- A byte before an ASCII character is one. -/
theorem ascii_of_spread {text tail : List Char} {b e : Char} (h : Scan.spread text = b :: e :: tail)
    (he : e.toNat < 128) : b.toNat < 128 := by
  cases text with
  | nil => cases h
  | cons c text =>
    by_cases hc : c.toNat < 128
    · rw [Scan.spread_cons_ascii hc] at h
      obtain ⟨rfl, -⟩ := List.cons.inj h
      exact hc
    · have hc := Nat.le_of_not_lt hc
      obtain ⟨-, hall⟩ := Scan.spreadChar_wide hc
      have htwo := two_le_length_spreadChar hc
      rw [Scan.spread_cons] at h
      match hs : Scan.spreadChar c with
      | [] => simp [hs] at htwo
      | [_] => simp [hs] at htwo
      | d :: d' :: ds =>
        rw [hs] at h hall
        obtain ⟨-, h⟩ := List.cons.inj h
        obtain ⟨rfl, -⟩ := List.cons.inj h
        exact absurd (hall d' (by simp)) (Nat.not_le_of_lt he)

end StackScript.ByteScanner
