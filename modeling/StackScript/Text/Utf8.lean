/-! Bytes read as text. Well-formed UTF-8 is kept as it is, and each maximal ill-formed part becomes
one replacement character: such a part is the longest start of a well-formed sequence, or a single
byte that starts none. -/
namespace StackScript.Utf8

/-- The character put in place of an ill-formed part. -/
def replacement : Char := '\uFFFD'

/-- What a first byte announces: its own bits, how many bytes follow, and the range of the next one. -/
structure Lead where
  payload : Nat
  following : Nat
  least : UInt8
  greatest : UInt8
  deriving Repr

/-- The leads of well-formed sequences. The narrowed ranges leave out overlong forms, surrogates and
numbers past the last code point. -/
def lead? (b : UInt8) : Option Lead :=
  if b < 0x80 then some ⟨b.toNat, 0, 0x80, 0xBF⟩
  else if b < 0xC2 then none
  else if b < 0xE0 then some ⟨b.toNat - 0xC0, 1, 0x80, 0xBF⟩
  else if b = 0xE0 then some ⟨0, 2, 0xA0, 0xBF⟩
  else if b = 0xED then some ⟨0xD, 2, 0x80, 0x9F⟩
  else if b < 0xF0 then some ⟨b.toNat - 0xE0, 2, 0x80, 0xBF⟩
  else if b = 0xF0 then some ⟨0, 3, 0x90, 0xBF⟩
  else if b < 0xF4 then some ⟨b.toNat - 0xF0, 3, 0x80, 0xBF⟩
  else if b = 0xF4 then some ⟨4, 3, 0x80, 0x8F⟩
  else none

/-- Takes the bytes still owed: the character if they are all there, and what is left otherwise. -/
def follow (payload : Nat) : (owed : Nat) → (least greatest : UInt8) → List UInt8 → Char × List UInt8
  | 0, _, _, rest => (Char.ofNat payload, rest)
  | _ + 1, _, _, [] => (replacement, [])
  | owed + 1, least, greatest, b :: rest =>
    if least ≤ b ∧ b ≤ greatest then
      follow (payload * 64 + (b.toNat - 0x80)) owed 0x80 0xBF rest
    else (replacement, b :: rest)

theorem follow_length_le (payload owed : Nat) (least greatest : UInt8) (bytes : List UInt8) :
    (follow payload owed least greatest bytes).2.length ≤ bytes.length := by
  induction bytes generalizing payload owed least greatest with
  | nil => cases owed <;> simp [follow]
  | cons b rest ih =>
    cases owed with
    | zero => simp [follow]
    | succ owed =>
      rw [follow]
      split
      · exact Nat.le_succ_of_le (ih ..)
      · exact Nat.le_refl _

/-- The character that the bytes start with, and the bytes after it. -/
def next (b : UInt8) (rest : List UInt8) : Char × List UInt8 :=
  match lead? b with
  | some l => follow l.payload l.following l.least l.greatest rest
  | none => (replacement, rest)

theorem next_length_le (b : UInt8) (rest : List UInt8) : (next b rest).2.length ≤ rest.length := by
  unfold next
  split
  · exact follow_length_le ..
  · exact Nat.le_refl _

/-- Reads all bytes, after the characters already read, newest first. -/
def decodeFrom (done : List Char) : List UInt8 → List Char
  | [] => done.reverse
  | b :: rest => decodeFrom ((next b rest).1 :: done) (next b rest).2
termination_by bytes => bytes.length
decreasing_by exact Nat.lt_succ_of_le (next_length_le b rest)

/-- The text of bytes, with each maximal ill-formed part replaced. -/
def decode (bytes : ByteArray) : String :=
  (String.fromUTF8? bytes).getD (String.ofList (decodeFrom [] bytes.toList))

end StackScript.Utf8
