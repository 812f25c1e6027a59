import FramedRelay.Bytes

/-!
# UTF-8

`Utf8.encode` writes a text as bytes and `Utf8.decode?` reads it back, refusing bytes that are
no text (`decode?_encode`, `encode_of_decode?`). `Utf8.decodeLossy` reads any bytes: each longest
piece that starts a character and cannot go on, and each byte that starts none, becomes one U+FFFD.
-/

namespace FramedRelay.Utf8

/-- The bytes of a text. -/
def encode (s : String) : Bytes :=
  s.toList.flatMap String.utf8EncodeChar

/-- The text whose bytes are `bs`, if there is one. -/
def decode? (bs : Bytes) : Option String :=
  String.fromUTF8? bs.toByteArray

theorem toByteArray_encode (s : String) : (encode s).toByteArray = s.toByteArray :=
  (String.toByteArray_ofList (l := s.toList)).symm.trans
    (congrArg String.toByteArray String.ofList_toList)

/-- What has been written is read back. -/
theorem decode?_encode (s : String) : decode? (encode s) = some s := by
  simp only [decode?, toByteArray_encode, String.fromUTF8?]
  rw [dif_pos s.isValidUTF8]
  rfl

theorem encode_injective : Function.Injective encode := fun s t h => by
  simpa [decode?_encode] using congrArg decode? h

/-- Bytes that are decoded to a text are its encoding. -/
theorem encode_of_decode? {bs : Bytes} {s : String} (h : decode? bs = some s) : encode s = bs := by
  simp only [decode?, String.fromUTF8?] at h
  split at h
  · next hvalid =>
    obtain rfl := Option.some.inj h
    have := congrArg (fun b : ByteArray => b.data.toList)
      (toByteArray_encode (String.fromUTF8 bs.toByteArray hvalid))
    simpa [String.fromUTF8] using this
  · cases h

/-! ## Reading past what is no text -/

/-- Where a reader stands between two bytes: between characters, or inside one that still owes
`owed` bytes, the next of them from `low` to `high`, after the payload bits `bits`. -/
inductive Point
  | between
  | within (owed : Nat) (low high : UInt8) (bits : Nat)

/-- The point after the first byte of a character, if the byte can start one that is longer
than one byte. -/
def Point.lead? (b : UInt8) : Option Point :=
  if 0xC2 ≤ b ∧ b ≤ 0xDF then some (.within 1 0x80 0xBF (b.toNat % 32))
  else if b = 0xE0 then some (.within 2 0xA0 0xBF 0)
  else if b = 0xED then some (.within 2 0x80 0x9F 13)
  else if 0xE1 ≤ b ∧ b ≤ 0xEF then some (.within 2 0x80 0xBF (b.toNat % 16))
  else if b = 0xF0 then some (.within 3 0x90 0xBF 0)
  else if b = 0xF4 then some (.within 3 0x80 0x8F 4)
  else if 0xF1 ≤ b ∧ b ≤ 0xF3 then some (.within 3 0x80 0xBF (b.toNat % 8))
  else none

/-- The character that stands for bytes that are no text. -/
def replacement : Char := '\uFFFD'

/-- Reads a byte between characters: the characters it yields and the point after it. -/
def Point.start (b : UInt8) : List Char × Point :=
  if b < 0x80 then ([Char.ofNat b.toNat], .between)
  else match Point.lead? b with
    | some p => ([], p)
    | none => ([replacement], .between)

/-- Reads a byte at a point: the characters it yields and the point after it. -/
def Point.step : Point → UInt8 → List Char × Point
  | .between, b => Point.start b
  | .within owed low high bits, b =>
    if low ≤ b ∧ b ≤ high then
      let bits' := bits * 64 + b.toNat % 64
      if owed ≤ 1 then ([Char.ofNat bits'], .between)
      else ([], .within (owed - 1) 0x80 0xBF bits')
    else
      let (cs, p) := Point.start b
      (replacement :: cs, p)

/-- The characters of `bs` from a point on. -/
def decodeFrom : Point → Bytes → List Char
  | .between, [] => []
  | .within .., [] => [replacement]
  | p, b :: bs => (p.step b).1 ++ decodeFrom (p.step b).2 bs

/-- The text of any bytes, with U+FFFD for what is none. -/
def decodeLossy (bs : Bytes) : String :=
  String.ofList (decodeFrom .between bs)

end FramedRelay.Utf8
