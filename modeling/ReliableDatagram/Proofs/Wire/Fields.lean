import ReliableDatagram.Address
import ReliableDatagram.MessageId
import ReliableDatagram.Proofs.Wire.Decoder

/-!
# Reading back text, addresses and message ids

The fields that control messages and handshake messages are made of, apart from numbers.

* `Text.decode_encode`: well-formed text is read as it was written, although reading takes
  malformed text too;
* `Decoder.delimits_text`, `Address.delimits`, `MessageId.delimits`: text that its length field can
  hold, an address without flow label and scope, and a message id delimit themselves.
-/

namespace ReliableDatagram

/-! ### Text -/

namespace Text

theorem char?_append (c : Char) (rest : Bytes) :
    char? (String.utf8EncodeChar c ++ rest) = some c := by
  have short : (String.utf8EncodeChar c).length ≤ 4 := by
    rw [String.length_utf8EncodeChar]
    exact c.utf8Size_le_four
  rw [char?, List.take_append, List.take_of_length_le short, List.toByteArray_append]
  exact ByteArray.utf8DecodeChar?_utf8EncodeChar_append

theorem chars_append (c : Char) (rest : Bytes) :
    chars (String.utf8EncodeChar c ++ rest) = c :: chars rest := by
  obtain ⟨b, more, bytes⟩ := List.exists_cons_of_ne_nil (String.utf8EncodeChar_ne_nil (c := c))
  have found := char?_append c rest
  have width : c.utf8Size - 1 = more.length := by
    rw [← String.length_utf8EncodeChar, bytes, List.length_cons, Nat.add_sub_cancel]
  rw [bytes, List.cons_append] at found ⊢
  rw [chars, found]
  simp only [width, List.drop_left]

/-- **Text is read as it was written.** -/
theorem decode_encode (s : String) : decode (encode s) = s := by
  have chars_flatMap (l : List Char) : chars (l.flatMap String.utf8EncodeChar) = l := by
    induction l with
    | nil => rw [List.flatMap_nil, chars]
    | cons c l ih => rw [List.flatMap_cons, chars_append, ih]
  rw [decode, encode, chars_flatMap, String.ofList_toList]

theorem length_encode (s : String) : (encode s).length = s.utf8ByteSize := by
  have bytes : s.toByteArray = (encode s).toByteArray := by
    rw [encode, ← List.utf8Encode, ← String.toByteArray_ofList, String.ofList_toList]
  rw [String.utf8ByteSize, bytes, List.size_toByteArray]

end Text

/-- Text of up to 65535 bytes is written as a whole and read back. -/
theorem Decoder.delimits_text {s : String} (short : s.utf8ByteSize ≤ 65535) :
    Delimits text (Text.encodeSized s) s := by
  have short : (Text.encode s).length ≤ 65535 := by rwa [Text.length_encode]
  have length : (UInt16.ofNat (Text.encode s).length).toNat = (Text.encode s).length :=
    UInt16.toNat_ofNat_of_lt' (Nat.lt_succ_of_le short)
  have front := delimits_u16 (UInt16.ofNat (Text.encode s).length)
  have back := (delimits_take length.symm).map Text.decode
  rw [length] at front
  rw [Text.decode_encode] at back
  rw [Text.encodeSized, List.take_of_length_le short]
  exact front.bind back

/-! ### Addresses -/

namespace Address

/-- An address without what tells apart sockets of one host, which does not travel. -/
def Plain : Address → Prop
  | v4 _ _ => True
  | v6 _ _ flow scope => flow = 0 ∧ scope = 0

theorem delimits_v4 (ip : BitVec 32) (port : UInt16) :
    Decoder.Delimits decodeV4
      (Bytes.bigEndian 4 (~~~ip).toNat ++ Bytes.bigEndian 2 port.toNat) (v4 ip port) := by
  have octets : ~~~BitVec.ofNat 32 (~~~ip).toNat = ip := by
    rw [BitVec.ofNat_toNat, BitVec.setWidth_eq, BitVec.not_not]
  refine Decoder.Delimits.ensure (by simp) ((Decoder.delimits_bigEndian (~~~ip).isLt).bind ?_)
  rw [octets]
  exact (Decoder.delimits_u16 port).last _

theorem delimits_v6 (ip : BitVec 128) (port : UInt16) :
    Decoder.Delimits decodeV6
      (Bytes.littleEndian 2 familyV6 ++ (Bytes.bigEndian 2 port.toNat ++ (Bytes.bigEndian 4 0 ++
        (Bytes.bigEndian 16 ip.toNat ++ Bytes.bigEndian 4 0)))) (v6 ip port 0 0) := by
  have zero : Decoder.Delimits Decoder.u32 (Bytes.bigEndian 4 0) 0 :=
    Decoder.delimits_u32 (by decide)
  have octets : BitVec.ofNat 128 ip.toNat = ip := by rw [BitVec.ofNat_toNat, BitVec.setWidth_eq]
  refine (Decoder.delimits_u16LittleEndian (by decide)).bind
    ((Decoder.delimits_u16 port).bind (zero.bind
      ((Decoder.delimits_bigEndian ip.isLt).bind ?_)))
  rw [octets]
  exact zero.last _

/-- **An address without flow label and scope is read back from its encoding.** -/
theorem delimits {a : Address} (plain : a.Plain) : Decoder.Delimits decode a.encode a := by
  cases a with
  | v4 ip port => exact (Decoder.delimits_u8 4).bind (delimits_v4 ip port)
  | v6 ip port flow scope =>
    obtain ⟨rfl, rfl⟩ := plain
    have fields : encode (v6 ip port 0 0) = [6] ++ (Bytes.littleEndian 2 familyV6 ++
        (Bytes.bigEndian 2 port.toNat ++ (Bytes.bigEndian 4 0 ++
          (Bytes.bigEndian 16 ip.toNat ++ Bytes.bigEndian 4 0)))) := by simp [encode]
    rw [fields]
    exact (Decoder.delimits_u8 6).bind (delimits_v6 ip port)

theorem encode_ne_nil (a : Address) : a.encode ≠ [] := by
  cases a <;> simp [encode]

end Address

/-! ### Message ids -/

theorem MessageId.delimits (id : MessageId) : Decoder.Delimits decode [id.code] id := by
  refine (Decoder.delimits_u8 id.code).judge ?_
  rw [ofCode, ofCode?_code]
  exact .pure id

end ReliableDatagram
