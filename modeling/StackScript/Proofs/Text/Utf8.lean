import Mathlib.Data.List.Basic
import Mathlib.Tactic.Linarith
import StackScript.Text.Utf8

/-! Bytes read as text. Characters are kept wherever they stand; what is none of one is replaced, as many bytes at a time as
a character could begin with. -/
namespace StackScript.Utf8

/-! ### Sequences of bytes -/

/-- The bytes after a first one, as far as they go: no more than are owed, the next one in a range, and all others any
continuation. -/
def Continues : (owed : ℕ) → (least greatest : UInt8) → List UInt8 → Prop
  | _, _, _, [] => True
  | 0, _, _, _ :: _ => False
  | owed + 1, least, greatest, b :: rest => (least ≤ b ∧ b ≤ greatest) ∧ Continues owed 0x80 0xBF rest

/-- What the payload bits of a first byte and of those after it make up. -/
def value (payload : ℕ) (rest : List UInt8) : ℕ := rest.foldl (fun n b => n * 64 + (b.toNat - 0x80)) payload

theorem lead?_ofNat {n : ℕ} (h : n < 256) : lead? (UInt8.ofNat n) =
    if n < 0x80 then some ⟨n, 0, 0x80, 0xBF⟩
    else if n < 0xC2 then none
    else if n < 0xE0 then some ⟨n - 0xC0, 1, 0x80, 0xBF⟩
    else if n = 0xE0 then some ⟨0, 2, 0xA0, 0xBF⟩
    else if n = 0xED then some ⟨0xD, 2, 0x80, 0x9F⟩
    else if n < 0xF0 then some ⟨n - 0xE0, 2, 0x80, 0xBF⟩
    else if n = 0xF0 then some ⟨0, 3, 0x90, 0xBF⟩
    else if n < 0xF4 then some ⟨n - 0xF0, 3, 0x80, 0xBF⟩
    else if n = 0xF4 then some ⟨4, 3, 0x80, 0x8F⟩
    else none := by
  have hn : (UInt8.ofNat n).toNat = n := UInt8.toNat_ofNat_of_lt' h
  simp only [lead?, UInt8.lt_iff_toNat_lt, ← UInt8.toNat_inj, hn]
  rfl

theorem length_le_of_continues {owed : ℕ} {least greatest : UInt8} {rest : List UInt8}
    (h : Continues owed least greatest rest) : rest.length ≤ owed := by
  induction rest generalizing owed least greatest with
  | nil => exact Nat.zero_le _
  | cons b rest ih =>
    cases owed with
    | zero => exact h.elim
    | succ owed => exact Nat.succ_le_succ (ih h.2)

/-- A first byte and those behind it are all that the first one has announced, and make up a number. -/
def Spells (b : UInt8) (rest : List UInt8) (v : ℕ) : Prop :=
  ∃ l, lead? b = some l ∧ Continues l.following l.least l.greatest rest ∧ rest.length = l.following ∧ value l.payload rest = v

/-- The continuation byte of six bits. -/
def continuation (n : ℕ) : UInt8 := UInt8.ofNat (n % 64 + 128)

theorem toNat_ofNat {n : ℕ} (h : n < 256) : (UInt8.ofNat n).toNat = n := UInt8.toNat_ofNat_of_lt' h

theorem toNat_continuation (n : ℕ) : (continuation n).toNat = n % 64 + 128 := toNat_ofNat (by omega)

theorem value_cons (payload n : ℕ) (rest : List UInt8) :
    value payload (continuation n :: rest) = value (payload * 64 + n % 64) rest := by
  rw [value, List.foldl_cons, toNat_continuation, Nat.add_sub_cancel]
  rfl

theorem continues_cons {owed n : ℕ} {least greatest : UInt8} {rest : List UInt8} (hl : least.toNat ≤ n % 64 + 128)
    (hg : n % 64 + 128 ≤ greatest.toNat) (h : Continues owed 0x80 0xBF rest) :
    Continues (owed + 1) least greatest (continuation n :: rest) := by
  rw [← toNat_continuation] at hl hg
  exact ⟨⟨UInt8.le_iff_toNat_le.2 hl, UInt8.le_iff_toNat_le.2 hg⟩, h⟩

theorem continues_any {owed n : ℕ} {rest : List UInt8} (h : Continues owed 0x80 0xBF rest) :
    Continues (owed + 1) 0x80 0xBF (continuation n :: rest) :=
  continues_cons (show 128 ≤ _ by omega) (show _ ≤ 191 by omega) h

section
variable {v : ℕ}

theorem spells_one (h : v < 0x80) : Spells (UInt8.ofNat v) [] v := by
  have hlead := lead?_ofNat (n := v) (by omega)
  rw [if_pos h] at hlead
  exact ⟨_, hlead, trivial, rfl, rfl⟩

theorem spells_two (hlower : 0x80 ≤ v) (hupper : v < 0x800) :
    Spells (UInt8.ofNat (v / 64 + 192)) [continuation v] v := by
  have hlead := lead?_ofNat (n := v / 64 + 192) (by omega)
  rw [if_neg (by omega), if_neg (by omega), if_pos (by omega), Nat.add_sub_cancel] at hlead
  refine ⟨_, hlead, continues_any trivial, rfl, ?_⟩
  rw [value_cons]
  exact Nat.div_add_mod' v 64

theorem spells_three (hlower : 0x800 ≤ v) (hupper : v < 0x10000) (hvalid : v < 0xD800 ∨ 0xDFFF < v) :
    Spells (UInt8.ofNat (v / 4096 + 224)) [continuation (v / 64), continuation v] v := by
  have hlead := lead?_ofNat (n := v / 4096 + 224) (by omega)
  have hvalue {payload : ℕ} (h : payload = v / 4096) : value payload [continuation (v / 64), continuation v] = v := by
    rw [value_cons, value_cons]
    change (payload * 64 + v / 64 % 64) * 64 + v % 64 = v
    omega
  rw [if_neg (by omega), if_neg (by omega), if_neg (by omega)] at hlead
  by_cases hfirst : v / 4096 = 0
  · rw [if_pos (by omega)] at hlead
    exact ⟨_, hlead, continues_cons (show 160 ≤ _ by omega) (show _ ≤ 191 by omega) (continues_any trivial), rfl,
      hvalue hfirst.symm⟩
  rw [if_neg (by omega)] at hlead
  by_cases hlast : v / 4096 = 13
  · rw [if_pos (by omega)] at hlead
    exact ⟨_, hlead, continues_cons (show 128 ≤ _ by omega) (show _ ≤ 159 by omega) (continues_any trivial), rfl,
      hvalue hlast.symm⟩
  · rw [if_neg (by omega), if_pos (by omega), Nat.add_sub_cancel] at hlead
    exact ⟨_, hlead, continues_any (continues_any trivial), rfl, hvalue rfl⟩

theorem spells_four (hlower : 0x10000 ≤ v) (hupper : v < 0x110000) :
    Spells (UInt8.ofNat (v / 262144 + 240)) [continuation (v / 4096), continuation (v / 64), continuation v] v := by
  have hlead := lead?_ofNat (n := v / 262144 + 240) (by omega)
  have hvalue {payload : ℕ} (h : payload = v / 262144) :
      value payload [continuation (v / 4096), continuation (v / 64), continuation v] = v := by
    rw [value_cons, value_cons, value_cons]
    change ((payload * 64 + v / 4096 % 64) * 64 + v / 64 % 64) * 64 + v % 64 = v
    omega
  rw [if_neg (by omega), if_neg (by omega), if_neg (by omega), if_neg (by omega), if_neg (by omega),
    if_neg (by omega)] at hlead
  by_cases hfirst : v / 262144 = 0
  · rw [if_pos (by omega)] at hlead
    exact ⟨_, hlead, continues_cons (show 144 ≤ _ by omega) (show _ ≤ 191 by omega)
      (continues_any (continues_any trivial)), rfl, hvalue hfirst.symm⟩
  rw [if_neg (by omega)] at hlead
  by_cases hlast : v / 262144 = 4
  · rw [if_neg (by omega), if_pos (by omega)] at hlead
    exact ⟨_, hlead, continues_cons (show 128 ≤ _ by omega) (show _ ≤ 143 by omega)
      (continues_any (continues_any trivial)), rfl, hvalue hlast.symm⟩
  · rw [if_pos (by omega), Nat.add_sub_cancel] at hlead
    exact ⟨_, hlead, continues_any (continues_any (continues_any trivial)), rfl, hvalue rfl⟩

end

/-! ### Characters -/

section
variable {c : Char}

theorem encode_one (h : c.toNat < 0x80) : String.utf8EncodeChar c = [UInt8.ofNat c.toNat] := by
  have hv : c.val.toNat = c.toNat := rfl
  simp only [String.utf8EncodeChar, hv]
  rw [if_pos (by omega)]

theorem encode_two (hlower : 0x80 ≤ c.toNat) (hupper : c.toNat < 0x800) :
    String.utf8EncodeChar c = [UInt8.ofNat (c.toNat / 64 + 192), continuation c.toNat] := by
  have hv : c.val.toNat = c.toNat := rfl
  simp only [String.utf8EncodeChar, hv]
  rw [if_neg (by omega), if_pos (by omega), show c.toNat / 64 % 32 = c.toNat / 64 by omega]
  rfl

theorem encode_three (hlower : 0x800 ≤ c.toNat) (hupper : c.toNat < 0x10000) :
    String.utf8EncodeChar c = [UInt8.ofNat (c.toNat / 4096 + 224), continuation (c.toNat / 64),
      continuation c.toNat] := by
  have hv : c.val.toNat = c.toNat := rfl
  simp only [String.utf8EncodeChar, hv]
  rw [if_neg (by omega), if_neg (by omega), if_pos (by omega), show c.toNat / 4096 % 16 = c.toNat / 4096 by omega]
  rfl

theorem toNat_valid (c : Char) : c.toNat < 0xD800 ∨ 0xDFFF < c.toNat ∧ c.toNat < 0x110000 := c.valid

theorem encode_four (hlower : 0x10000 ≤ c.toNat) : String.utf8EncodeChar c = [UInt8.ofNat (c.toNat / 262144 + 240),
    continuation (c.toNat / 4096), continuation (c.toNat / 64), continuation c.toNat] := by
  have hv : c.val.toNat = c.toNat := rfl
  have hvalid := toNat_valid c
  simp only [String.utf8EncodeChar, hv]
  rw [if_neg (by omega), if_neg (by omega), if_neg (by omega), show c.toNat / 262144 % 8 = c.toNat / 262144 by omega]
  rfl

theorem char_of_valid {v : ℕ} (h : v < 0xD800 ∨ 0xDFFF < v ∧ v < 0x110000) : ∃ c : Char, c.toNat = v :=
  ⟨Char.ofNatAux v h, rfl⟩

end

/-- The bytes of a character are all that the first one announces, and make up its number. -/
theorem exists_spells (c : Char) : ∃ b rest, String.utf8EncodeChar c = b :: rest ∧ Spells b rest c.toNat := by
  have hvalid := toNat_valid c
  obtain h1 | h1 := Nat.lt_or_ge c.toNat 0x80
  · exact ⟨_, _, encode_one h1, spells_one h1⟩
  obtain h2 | h2 := Nat.lt_or_ge c.toNat 0x800
  · exact ⟨_, _, encode_two h1 h2, spells_two h1 h2⟩
  obtain h3 | h3 := Nat.lt_or_ge c.toNat 0x10000
  · exact ⟨_, _, encode_three h2 h3, spells_three h2 h3 (by omega)⟩
  · exact ⟨_, _, encode_four h3, spells_four h3 (by omega)⟩

/-- What the first byte of a sequence can announce. -/
theorem lead?_cases {b : UInt8} {l : Lead} (h : lead? b = some l) :
    (l.following = 0 ∧ b.toNat = l.payload ∧ l.payload < 0x80) ∨
    (l.following = 1 ∧ b.toNat = l.payload + 192 ∧ 2 ≤ l.payload ∧ l.payload < 32 ∧ l.least = 0x80 ∧
      l.greatest = 0xBF) ∨
    (l.following = 2 ∧ b.toNat = l.payload + 224 ∧ l.payload < 16 ∧ l.least = (if l.payload = 0 then 0xA0 else 0x80) ∧
      l.greatest = if l.payload = 13 then 0x9F else 0xBF) ∨
    (l.following = 3 ∧ b.toNat = l.payload + 240 ∧ l.payload ≤ 4 ∧ l.least = (if l.payload = 0 then 0x90 else 0x80) ∧
      l.greatest = if l.payload = 4 then 0x8F else 0xBF) := by
  obtain ⟨n, hn⟩ : ∃ n, b.toNat = n := ⟨_, rfl⟩
  have hlt : n < 256 := hn ▸ b.toNat_lt
  rw [show b = UInt8.ofNat n from UInt8.toNat_inj.1 (hn.trans (toNat_ofNat hlt).symm), lead?_ofNat hlt] at h
  rw [hn]
  split_ifs at h
  all_goals obtain rfl := Option.some.inj h
  all_goals dsimp only
  · exact .inl ⟨rfl, rfl, by omega⟩
  · exact .inr (.inl ⟨rfl, by omega, by omega, by omega, rfl, rfl⟩)
  · exact .inr (.inr (.inl ⟨rfl, by omega, by omega, rfl, rfl⟩))
  · exact .inr (.inr (.inl ⟨rfl, by omega, by omega, rfl, rfl⟩))
  · exact .inr (.inr (.inl ⟨rfl, by omega, by omega, (if_neg (by omega)).symm, (if_neg (by omega)).symm⟩))
  · exact .inr (.inr (.inr ⟨rfl, by omega, by omega, rfl, rfl⟩))
  · exact .inr (.inr (.inr ⟨rfl, by omega, by omega, (if_neg (by omega)).symm, (if_neg (by omega)).symm⟩))
  · exact .inr (.inr (.inr ⟨rfl, by omega, by omega, rfl, rfl⟩))

theorem exists_continuation {b least greatest : UInt8} (hb : least ≤ b ∧ b ≤ greatest) (hl : 128 ≤ least.toNat)
    (hg : greatest.toNat ≤ 191) :
    ∃ n < 64, b = continuation n ∧ least.toNat ≤ n + 128 ∧ n + 128 ≤ greatest.toNat := by
  have hlower := UInt8.le_iff_toNat_le.1 hb.1
  have hupper := UInt8.le_iff_toNat_le.1 hb.2
  refine ⟨b.toNat - 128, by omega, UInt8.toNat_inj.1 ?_, by omega, by omega⟩
  rw [toNat_continuation]
  omega

theorem exists_continuation_any {b : UInt8} (hb : 0x80 ≤ b ∧ b ≤ 0xBF) : ∃ n < 64, b = continuation n := by
  obtain ⟨n, hn, rfl, -⟩ := exists_continuation hb (by decide) (by decide)
  exact ⟨n, hn, rfl⟩

theorem continuation_congr {m n : ℕ} (h : m % 64 = n % 64) : continuation m = continuation n := by
  rw [continuation, continuation, h]

/-! ### The character with a number -/

theorem char_one {p : ℕ} (hp : p < 0x80) : ∃ c : Char, c.toNat = p ∧ String.utf8EncodeChar c = [UInt8.ofNat p] := by
  obtain ⟨c, rfl⟩ := char_of_valid (v := p) (by omega)
  exact ⟨c, rfl, encode_one hp⟩

theorem char_two {p n : ℕ} (hp : 2 ≤ p) (hp' : p < 32) (hn : n < 64) :
    ∃ c : Char, c.toNat = p * 64 + n ∧ String.utf8EncodeChar c = [UInt8.ofNat (p + 192), continuation n] := by
  obtain ⟨c, hc⟩ := char_of_valid (v := p * 64 + n) (by omega)
  refine ⟨c, hc, ?_⟩
  rw [encode_two (by omega) (by omega), continuation_congr (m := c.toNat) (n := n) (by omega),
    show c.toNat / 64 = p by omega]

theorem char_three {p n m : ℕ} (hp : p < 16) (hn : n < 64) (hm : m < 64) (hleast : p = 0 → 32 ≤ n)
    (hgreatest : p = 13 → n < 32) : ∃ c : Char, c.toNat = (p * 64 + n) * 64 + m ∧
      String.utf8EncodeChar c = [UInt8.ofNat (p + 224), continuation n, continuation m] := by
  obtain ⟨c, hc⟩ := char_of_valid (v := (p * 64 + n) * 64 + m) (by omega)
  refine ⟨c, hc, ?_⟩
  rw [encode_three (by omega) (by omega), continuation_congr (m := c.toNat) (n := m) (by omega),
    continuation_congr (m := c.toNat / 64) (n := n) (by omega), show c.toNat / 4096 = p by omega]

theorem char_four {p n m k : ℕ} (hp : p ≤ 4) (hn : n < 64) (hm : m < 64) (hk : k < 64) (hleast : p = 0 → 16 ≤ n)
    (hgreatest : p = 4 → n < 16) : ∃ c : Char, c.toNat = ((p * 64 + n) * 64 + m) * 64 + k ∧
      String.utf8EncodeChar c = [UInt8.ofNat (p + 240), continuation n, continuation m, continuation k] := by
  obtain ⟨c, hc⟩ := char_of_valid (v := ((p * 64 + n) * 64 + m) * 64 + k) (by omega)
  refine ⟨c, hc, ?_⟩
  rw [encode_four (by omega), continuation_congr (m := c.toNat) (n := k) (by omega),
    continuation_congr (m := c.toNat / 64) (n := m) (by omega),
    continuation_congr (m := c.toNat / 4096) (n := n) (by omega), show c.toNat / 262144 = p by omega]

/-- What a first byte announces, if all of it is there, is the bytes of a character. -/
theorem Spells.exists_char {b : UInt8} {rest : List UInt8} {v : ℕ} (h : Spells b rest v) :
    ∃ c : Char, c.toNat = v ∧ String.utf8EncodeChar c = b :: rest := by
  obtain ⟨⟨payload, following, least, greatest⟩, hlead, hcontinues, hlength, hvalue⟩ := h
  have hbyte {n : ℕ} (hn : b.toNat = n) : b = UInt8.ofNat n :=
    UInt8.toNat_inj.1 (by rw [hn, toNat_ofNat (hn ▸ b.toNat_lt)])
  have hcases := lead?_cases hlead
  dsimp only at hcontinues hlength hvalue hcases
  obtain ⟨rfl, hb, hp⟩ | ⟨rfl, hb, hp, hp', rfl, rfl⟩ | ⟨rfl, hb, hp, hl, hg⟩ | ⟨rfl, hb, hp, hl, hg⟩ := hcases
  · obtain rfl := List.eq_nil_of_length_eq_zero hlength
    obtain rfl : payload = v := hvalue
    rw [hbyte hb]
    exact char_one hp
  · obtain ⟨r, rfl⟩ := List.length_eq_one_iff.1 hlength
    obtain ⟨n, hn, rfl⟩ := exists_continuation_any hcontinues.1
    obtain rfl : payload * 64 + n % 64 = v := by rw [← hvalue, value_cons]; rfl
    rw [hbyte hb, Nat.mod_eq_of_lt hn]
    exact char_two hp hp' hn
  · obtain ⟨r, s, rfl⟩ := List.length_eq_two.1 hlength
    obtain ⟨n, hn, rfl, hl', hg'⟩ :=
      exists_continuation hcontinues.1 (by rw [hl]; split_ifs <;> decide) (by rw [hg]; split_ifs <;> decide)
    obtain ⟨m, hm, rfl⟩ := exists_continuation_any hcontinues.2.1
    obtain rfl : (payload * 64 + n % 64) * 64 + m % 64 = v := by rw [← hvalue, value_cons, value_cons]; rfl
    rw [hbyte hb, Nat.mod_eq_of_lt hn, Nat.mod_eq_of_lt hm]
    refine char_three hp hn hm (fun h => ?_) fun h => ?_
    · rw [hl, if_pos h] at hl'
      change 160 ≤ _ at hl'
      omega
    · rw [hg, if_pos h] at hg'
      change _ ≤ 159 at hg'
      omega
  · obtain ⟨r, s, t, rfl⟩ := List.length_eq_three.1 hlength
    obtain ⟨n, hn, rfl, hl', hg'⟩ :=
      exists_continuation hcontinues.1 (by rw [hl]; split_ifs <;> decide) (by rw [hg]; split_ifs <;> decide)
    obtain ⟨m, hm, rfl⟩ := exists_continuation_any hcontinues.2.1
    obtain ⟨k, hk, rfl⟩ := exists_continuation_any hcontinues.2.2.1
    obtain rfl : ((payload * 64 + n % 64) * 64 + m % 64) * 64 + k % 64 = v := by
      rw [← hvalue, value_cons, value_cons, value_cons]
      rfl
    rw [hbyte hb, Nat.mod_eq_of_lt hn, Nat.mod_eq_of_lt hm, Nat.mod_eq_of_lt hk]
    refine char_four hp hn hm hk (fun h => ?_) fun h => ?_
    · rw [hl, if_pos h] at hl'
      change 144 ≤ _ at hl'
      omega
    · rw [hg, if_pos h] at hg'
      change _ ≤ 143 at hg'
      omega

end StackScript.Utf8
