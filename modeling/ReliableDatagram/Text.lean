import ReliableDatagram.Bytes.Basic

/-!
# Text as bytes

Text travels as UTF-8. Reading never fails: every maximal piece that begins a well-formed
character without completing it, and every byte that begins none, reads as one U+FFFD.
-/

namespace ReliableDatagram

namespace Text

/-- The UTF-8 bytes of a text. -/
def encode (s : String) : Bytes := s.toList.flatMap String.utf8EncodeChar

/-- The UTF-8 bytes of a text behind their number; of more than 65535 bytes the first 65535. -/
def encodeSized (s : String) : Bytes :=
  let bytes := (encode s).take 65535
  Bytes.bigEndian 2 bytes.length ++ bytes

/-- The character that the bytes start with, if they start with a well-formed one. -/
def char? (bytes : Bytes) : Option Char :=
  (bytes.take 4).toByteArray.utf8DecodeChar? 0

/-- The ranges in which the bytes after `lead` lie in a well-formed character; none for a byte
that begins no character of several bytes. -/
def followers (lead : UInt8) : List (UInt8 × UInt8) :=
  let any : UInt8 × UInt8 := (0x80, 0xbf)
  -- The narrower ranges exclude overlong forms, surrogates and what lies above U+10FFFF.
  if lead < 0xc2 then []
  else if lead < 0xe0 then [any]
  else if lead = 0xe0 then [(0xa0, 0xbf), any]
  else if lead = 0xed then [(0x80, 0x9f), any]
  else if lead < 0xf0 then [any, any]
  else if lead = 0xf0 then [(0x90, 0xbf), any, any]
  else if lead < 0xf4 then [any, any, any]
  else if lead = 0xf4 then [(0x80, 0x8f), any, any]
  else []

/-- How many of the first bytes lie in their ranges, up to the first that does not. -/
def countWithin : List (UInt8 × UInt8) → Bytes → Nat
  | (lo, hi) :: ranges, b :: bytes =>
    if lo ≤ b ∧ b ≤ hi then countWithin ranges bytes + 1 else 0
  | _, _ => 0

/-- The characters of a byte string, U+FFFD standing for each malformed piece. -/
def chars : Bytes → List Char
  | [] => []
  | b :: rest =>
    match char? (b :: rest) with
    | some c => c :: chars (rest.drop (c.utf8Size - 1))
    | none => '\uFFFD' :: chars (rest.drop (countWithin (followers b) rest))
termination_by bytes => bytes.length
decreasing_by all_goals simp only [List.length_drop, List.length_cons]; omega

/-- The text of a byte string. -/
def decode (bytes : Bytes) : String := String.ofList (chars bytes)

end Text

end ReliableDatagram
