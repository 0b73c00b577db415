import ReliableDatagram.Handshake
import ReliableDatagram.Proofs.Wire.Fields

/-!
# Reading back handshake messages

Every message but the first request delimits itself. The first request has no field for the size
that it probes: the size is the length of the packet, so the message is padded to it when written,
from where it begins in the buffer, and everything behind it belongs to it when read.

* `Handshake.delimits`: the messages that delimit themselves;
* `Handshake.decode_encode_openRequest1`: the one that does not;
* `Handshake.decodeBody_badMagic`: other bytes in the place of the magic are found out, wherever in
  the message that is;
* `Handshake.roundTrip_guarded`: the above for every message that can be written.
-/

namespace ReliableDatagram

namespace Decoder

theorem delimits_magic : Delimits Decoder.magic ReliableDatagram.magic () := by
  have width : ReliableDatagram.magic.length = 16 := rfl
  refine (delimits_take width).judge ?_
  rw [if_neg (not_not.2 rfl)]
  exact .pure ()

theorem magic_of_ne {other : Bytes} (width : other.length = 16)
    (h : other ≠ ReliableDatagram.magic) (rest : Bytes) :
    Decoder.magic (other ++ rest) = .error .badMagic rest := by
  rw [Decoder.magic, bind_ok (take_append width), if_pos h]
  rfl

end Decoder

namespace Handshake

/-- A message that can be read back: its addresses are without flow label and scope, its text is not
cut, and it is not longer than the size that it probes. -/
def Fits : Handshake → Prop
  | pong _ _ serverName => serverName.utf8ByteSize ≤ 65535
  | openRequest1 _ mtu => openRequest1Length ≤ mtu.toNat
  | openRequest2 serverAddress _ _ => serverAddress.Plain
  | openReply2 _ clientAddress _ _ => clientAddress.Plain
  | ping .. | openReply1 .. | incompatibleVersion .. => True

/-! ### What a message consists of -/

/-- The bytes between the id of a message and its magic. -/
def front : Handshake → Bytes
  | ping sentAt _ _ => Bytes.bigEndian 8 sentAt.toUInt64.toNat
  | pong pingSentAt serverGuid _ =>
    Bytes.bigEndian 8 pingSentAt.toUInt64.toNat ++ Bytes.bigEndian 8 serverGuid.toNat
  | incompatibleVersion version _ => [version]
  | openRequest1 .. | openReply1 .. | openRequest2 .. | openReply2 .. => []

/-- The position of the magic in the bytes of a message. -/
def magicAt : Handshake → Nat
  | ping .. => 9
  | pong .. => 17
  | incompatibleVersion .. => 2
  | openRequest1 .. | openReply1 .. | openRequest2 .. | openReply2 .. => 1

theorem length_front (m : Handshake) : (m.id.code :: m.front).length = m.magicAt := by
  cases m <;> simp [front, magicAt]

theorem encodeBody_eq (m : Handshake) : ∃ back, m.encodeBody = m.front ++ (magic ++ back) := by
  cases m <;> simp [encodeBody, front]

/-- **A message is written behind what a buffer holds** as it is written alone. -/
theorem appendTo_eq (buffer : Bytes) (m : Handshake) : m.appendTo buffer = buffer ++ m.encode := by
  simp only [encode, appendTo, padTo, List.length_append, List.length_nil, Nat.zero_add,
    Nat.add_sub_add_left, List.nil_append, List.append_assoc]

theorem encode_eq_padded (m : Handshake) : m.encode =
    m.id.code :: m.encodeBody ++ .replicate (m.paddedLength - (m.encodeBody.length + 1)) 0 := by
  simp only [encode, appendTo, padTo, List.length_nil, Nat.zero_add, List.nil_append,
    List.length_cons]

theorem encode_eq {m : Handshake} (h : m.id ≠ .openConnectionRequest1) :
    m.encode = m.id.code :: m.encodeBody := by
  have unpadded : m.paddedLength = 0 := by
    cases m with
    | openRequest1 => exact absurd rfl h
    | _ => rfl
  rw [encode_eq_padded, unpadded, Nat.zero_sub, List.replicate_zero, List.append_nil]

/-! ### Reading back -/

theorem delimits_body {m : Handshake} (fits : m.Fits) (h : m.id ≠ .openConnectionRequest1)
    (length : Nat) : Decoder.Delimits (decodeBody length m.id) m.encodeBody m := by
  cases m with
  | ping sentAt clientGuid openConnectionsOnly =>
    rw [encodeBody, List.append_assoc]
    cases openConnectionsOnly <;>
      exact (Decoder.delimits_i64 sentAt).bind
        (Decoder.delimits_magic.bind ((Decoder.delimits_u64 clientGuid).last _))
  | pong pingSentAt serverGuid serverName =>
    rw [encodeBody, List.append_assoc, List.append_assoc]
    exact (Decoder.delimits_i64 pingSentAt).bind ((Decoder.delimits_u64 serverGuid).bind
      (Decoder.delimits_magic.bind ((Decoder.delimits_text fits).last _)))
  | openRequest1 => exact absurd rfl h
  | openReply1 serverGuid security mtu =>
    rw [encodeBody, List.append_assoc, List.append_assoc]
    exact Decoder.delimits_magic.bind ((Decoder.delimits_u64 serverGuid).bind
      ((Decoder.delimits_bool security).bind ((Decoder.delimits_u16 mtu).last _)))
  | openRequest2 serverAddress mtu clientGuid =>
    rw [encodeBody, List.append_assoc, List.append_assoc]
    exact Decoder.delimits_magic.bind ((Address.delimits fits).bind
      ((Decoder.delimits_u16 mtu).bind ((Decoder.delimits_u64 clientGuid).last _)))
  | openReply2 serverGuid clientAddress mtu security =>
    rw [encodeBody, List.append_assoc, List.append_assoc, List.append_assoc]
    exact Decoder.delimits_magic.bind ((Decoder.delimits_u64 serverGuid).bind
      ((Address.delimits fits).bind ((Decoder.delimits_u16 mtu).bind
        ((Decoder.delimits_bool security).last _))))
  | incompatibleVersion version serverGuid =>
    exact (Decoder.delimits_u8 version).bind
      (Decoder.delimits_magic.bind ((Decoder.delimits_u64 serverGuid).last _))

/-- **Every message but the first request delimits itself.** -/
theorem delimits {m : Handshake} (fits : m.Fits) (h : m.id ≠ .openConnectionRequest1) :
    Decoder.Delimits decode m.encode m := by
  rw [encode_eq h]
  exact .remaining fun length => (MessageId.delimits m.id).bind (delimits_body fits h length)

/-- The first request probes the size of the packet in which it comes, whatever it is padded
with. -/
theorem decode_openRequest1 (version : UInt8) (padding : Bytes) :
    decode (MessageId.openConnectionRequest1.code :: (magic ++ version :: padding)) =
      .ok (openRequest1 version (UInt16.ofNat (min (openRequest1Length + padding.length) 65535)))
        [] := by
  have length : (MessageId.openConnectionRequest1.code :: (magic ++ version :: padding)).length =
      openRequest1Length + padding.length := by
    simp only [magic, openRequest1Length, List.length_cons, List.length_append, List.length_nil]
    omega
  rw [← length]
  exact (Decoder.bind_ok rfl).trans <|
    (Decoder.bind_ok ((MessageId.delimits .openConnectionRequest1).whole _)).trans <|
    (Decoder.bind_ok (Decoder.delimits_magic.whole _)).trans <|
    (Decoder.bind_ok ((Decoder.delimits_u8 version).whole _)).trans (Decoder.bind_ok rfl)

/-- **The first request is as long as the size that it probes**, and is read with that size. -/
theorem decode_encode_openRequest1 {version : UInt8} {mtu : UInt16}
    (long : openRequest1Length ≤ mtu.toNat) :
    decode (openRequest1 version mtu).encode = .ok (openRequest1 version mtu) [] := by
  have size : UInt16.ofNat (min (openRequest1Length + (mtu.toNat - openRequest1Length)) 65535) =
      mtu := by
    have := mtu.toNat_lt
    rw [Nat.add_sub_cancel' long, Nat.min_eq_left (by omega), UInt16.ofNat_toNat]
  have read := decode_openRequest1 version (.replicate (mtu.toNat - openRequest1Length) 0)
  rw [List.length_replicate, size] at read
  rwa [encode_eq_padded]

/-- **Other bytes in the place of the magic** are not read over. -/
theorem decodeBody_badMagic (length : Nat) (m : Handshake) {other : Bytes}
    (width : other.length = 16) (h : other ≠ magic) (rest : Bytes) :
    decodeBody length m.id (m.front ++ (other ++ rest)) = .error .badMagic rest := by
  have bad {α : Type} {f : Unit → Decoder α} :
      (Decoder.magic >>= f) (other ++ rest) = .error .badMagic rest :=
    Decoder.bind_error (Decoder.magic_of_ne width h rest)
  cases m with
  | ping sentAt clientGuid openConnectionsOnly =>
    cases openConnectionsOnly <;>
      exact (Decoder.bind_ok ((Decoder.delimits_i64 sentAt).whole _)).trans bad
  | pong pingSentAt serverGuid serverName =>
    rw [front, List.append_assoc]
    exact (Decoder.bind_ok ((Decoder.delimits_i64 pingSentAt).whole _)).trans <|
      (Decoder.bind_ok ((Decoder.delimits_u64 serverGuid).whole _)).trans bad
  | incompatibleVersion version serverGuid =>
    exact (Decoder.bind_ok ((Decoder.delimits_u8 version).whole _)).trans bad
  | openRequest1 | openReply1 | openRequest2 | openReply2 => exact bad

/-- **The round trip of a message**, in whatever buffer it is written. All messages but the first
request delimit themselves, and none is read without its magic. -/
theorem roundTrip_guarded {m : Handshake} (fits : m.Fits) :
    (∀ buffer, m.appendTo buffer = buffer ++ m.encode) ∧ decode m.encode = .ok m [] ∧
      (m.id ≠ .openConnectionRequest1 → Decoder.Delimits decode m.encode m) ∧
      (m.encode.drop m.magicAt).take 16 = magic ∧
      ∀ other : Bytes, other.length = 16 → other ≠ magic →
        decode (m.encode.take m.magicAt ++ other ++ m.encode.drop (m.magicAt + 16)) =
          .error .badMagic (m.encode.drop (m.magicAt + 16)) := by
  obtain ⟨back, body⟩ := m.encodeBody_eq
  obtain ⟨rest, bytes⟩ : ∃ rest, m.encode = m.id.code :: m.front ++ (magic ++ rest) :=
    ⟨_, by rw [encode_eq_padded, body, ← List.cons_append, List.append_assoc, List.append_assoc]⟩
  have before : m.encode.take m.magicAt = m.id.code :: m.front := by
    rw [bytes, List.take_left' m.length_front]
  have behind : m.encode.drop m.magicAt = magic ++ rest := by
    rw [bytes, List.drop_left' m.length_front]
  refine ⟨fun buffer => appendTo_eq buffer m, ?_, delimits fits, ?_, fun other width h => ?_⟩
  · by_cases h : m.id = .openConnectionRequest1
    · cases m with
      | openRequest1 version mtu => exact decode_encode_openRequest1 fits
      | ping sentAt clientGuid openConnectionsOnly => cases openConnectionsOnly <;> cases h
      | _ => cases h
    · exact (delimits fits h).alone
  · rw [behind]
    rfl
  · have behind : m.encode.drop (m.magicAt + 16) = rest := by
      rw [← List.drop_drop, behind]
      rfl
    rw [before, behind, List.append_assoc]
    exact (Decoder.bind_ok rfl).trans <|
      (Decoder.bind_ok ((MessageId.delimits m.id).whole _)).trans
        (decodeBody_badMagic _ m width h rest)

/-- A server with a name that is not all ASCII is found, and its answer is not read with zeroes in
the place of the magic. -/
theorem roundTrip_guarded_name :
    let m : Handshake := .pong (-5) 7 "Größe 日本"
    m.Fits ∧ decode m.encode = .ok m [] ∧ Decoder.Delimits decode m.encode m ∧
      decode (m.encode.take 17 ++ .replicate 16 0 ++ m.encode.drop 33) =
        .error .badMagic (m.encode.drop 33) := by
  intro m
  have fits : m.Fits := by unfold Fits; decide
  obtain ⟨-, read, delimits, -, guarded⟩ := roundTrip_guarded fits
  exact ⟨fits, read, delimits (by decide), guarded _ (by decide) (by decide)⟩

end Handshake

end ReliableDatagram
