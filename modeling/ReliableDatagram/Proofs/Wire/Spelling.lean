import ReliableDatagram.Proofs.Wire.Packet

/-!
# The spellings of a datagram

A datagram can be spelled in several ways.  Its reader does not look at the two lowest bits of its
header, nor at the four lowest bits of the first byte of a packet; it takes a delivery with a
receipt for the guarantee behind it; and it rounds the length of a payload up to whole bytes.
The writer knows one spelling of all these.

So a datagram that is read from any bytes at all and then written again need not give these bytes.
The danger is in the guarantee: it says which indices follow, and if it came out as another, the
packet would be written with other indices than were read.  `Frame.exists_encode_of_decode` says
that nothing is lost: the bytes that are written are just as many, are read as the same datagram,
and differ from those that came at the named places only (`Packet.Respelled`).

Spellings also tell which bytes can not be read: those in which some packets are spelled, and bytes
are left that begin with no other (`Datagram.decode_error_iff`).
-/

namespace ReliableDatagram

/-! ### Packets -/

namespace Packet

/-- Two spellings of a packet.  The first bytes agree in the part flag, and in the guarantee unless
the first of them has the code of a delivery with a receipt; the lengths in bits agree if the first
of them is one of whole bytes; and all the other bytes agree. -/
inductive Respelled : Bytes → Bytes → Prop
  | intro {flags flags' : UInt8} {bits bits' : UInt16} (rest : Bytes)
    (part : flags' &&& partFlag = flags &&& partFlag)
    (code : flags >>> 5 < 5 → flags' >>> 5 = flags >>> 5)
    (length : bits.toNat % 8 = 0 → bits' = bits) :
    Respelled (flags :: (Bytes.bigEndian 2 bits.toNat ++ rest))
      (flags' :: (Bytes.bigEndian 2 bits'.toNat ++ rest))

theorem partFlag_cases (flags : UInt8) :
    flags &&& partFlag = 0 ∨ flags &&& partFlag = partFlag := by
  revert flags
  decide +kernel

theorem code_eq {code : UInt8} {g : Guarantee} (low : code < 5)
    (h : (Delivery.ofCode? code).map Delivery.guarantee = some g) : g.code = code := by
  have all : ∀ code : UInt8, code < 5 →
      ((Delivery.ofCode? code).map fun delivery => delivery.guarantee.code) = some code := by
    decide +kernel
  obtain ⟨delivery, known, rfl⟩ := Option.map_eq_some_iff.1 h
  simpa [known] using all code low

theorem flags_shiftRight (p : Packet) : p.flags >>> 5 = p.header.guarantee.code := by
  unfold flags
  cases p.part.isSome <;> cases p.header.guarantee <;> rfl

/-- What a packet is written as differs from any other spelling of it in what means nothing. -/
theorem Spells.respelled {flags : UInt8} {bits : UInt16} {p : Packet} (h : Spells flags bits p)
    {written : Bytes} (encoded : p.encode = some written) :
    Respelled (spelling flags bits p) written := by
  obtain ⟨bits', whole, rfl⟩ := encode_eq_some_iff.1 encoded
  refine .intro _ ?_ (fun low => ?_) fun even => UInt16.toNat_inj.1 ?_
  · have same : p.flags &&& partFlag = 0 ↔ flags &&& partFlag = 0 :=
      (spells_flags whole).part.trans h.part.symm
    rcases partFlag_cases flags with none | some
    · rw [none, same.2 none]
    · rw [some]
      refine (partFlag_cases p.flags).resolve_left fun none => ?_
      exact absurd ((same.1 none).symm.trans some) (by decide)
  · rw [flags_shiftRight, code_eq low h.guarantee]
  · have rounded := h.length
    omega

theorem Respelled.length_eq {read written : Bytes} (h : Respelled read written) :
    written.length = read.length := by
  cases h
  simp

theorem Respelled.length_flatten {fronts fronts' : List Bytes}
    (h : List.Forall₂ Respelled fronts fronts') :
    fronts'.flatten.length = fronts.flatten.length := by
  induction h with
  | nil => rfl
  | cons respelled _ ih =>
    rw [List.flatten_cons, List.length_append, respelled.length_eq, ih, List.flatten_cons,
      List.length_append]

theorem respelled_of_delimits {packets : List Packet} {fronts fronts' : List Bytes}
    (there : List.Forall₂ (Decoder.Delimits decode) fronts packets)
    (encoded : List.Forall₂ (fun front p => p.encode = some front) fronts' packets) :
    List.Forall₂ Respelled fronts fronts' := by
  induction there generalizing fronts' with
  | nil =>
    cases encoded
    exact .nil
  | cons read there ih =>
    cases encoded with
    | cons written encoded =>
      obtain ⟨flags, bits, spells, -, -, rfl⟩ := exists_spelling_of_delimits read
      exact .cons (spells.respelled written) (ih encoded)

end Packet

/-! ### Datagrams -/

/-- The reader of a datagram ignores the two lowest bits of the header, which are written as zero,
and keeps all others. -/
theorem Frame.header_of_flags {header flags : UInt8} (valid : header &&& validFlag ≠ 0)
    (ack : header &&& ackFlag = 0) (nack : header &&& nackFlag = 0)
    (h : header &&& (ackFlag ||| nackFlag ||| vestigialFlags) = flags) :
    flags &&& vestigialFlags = flags ∧ (validFlag ||| flags) >>> 2 = header >>> 2 := by
  subst h
  revert header
  decide +kernel

namespace Datagram

theorem fieldsFit_of_delimits {d : Datagram} {fronts : List Bytes}
    (there : List.Forall₂ (Decoder.Delimits Packet.decode) fronts d.packets)
    (flags : d.flags &&& Frame.vestigialFlags = d.flags) (number : d.number < 2 ^ 24) :
    d.FieldsFit ∧ d.onWire = d := by
  have each {p : Packet} (hp : p ∈ d.packets) : p.Fits ∧ p.onWire = p := by
    obtain ⟨front, -, delimits⟩ := exists_of_mem_forall₂ there hp
    obtain ⟨-, -, -, fits, unasked, -⟩ := Packet.exists_spelling_of_delimits delimits
    exact ⟨fits, Packet.onWire_eq unasked⟩
  refine ⟨⟨flags, number, fun p hp => (each hp).1⟩, ?_⟩
  have same : d.packets.map Packet.onWire = d.packets :=
    (List.map_congr_left fun p hp => (each hp).2).trans (List.map_id _)
  rw [onWire, same]

end Datagram

/-! ### Writing again what was read -/

/-- **What is read as a datagram can be written again** if the payloads are not too long for it: in
as many bytes, from which the same datagram is read, and which differ from those that came in the
two lowest bits of the header and where the packets are spelled differently. -/
theorem Frame.exists_encode_of_decode {d : Datagram} {bytes rest : Bytes}
    (h : Frame.decode bytes = .ok (.datagram d) rest)
    (short : ∀ p ∈ d.packets, p.payload.length ≤ 8191) :
    ∃ written, (Frame.datagram d).encode = some written ∧ written.length = bytes.length ∧
      Frame.decode written = .ok (.datagram d) [] ∧
      ∃ (header header' : UInt8) (number : Bytes) (fronts fronts' : List Bytes),
        number.length = 3 ∧ bytes = header :: (number ++ fronts.flatten) ∧
        written = header' :: (number ++ fronts'.flatten) ∧ header' >>> 2 = header >>> 2 ∧
        List.Forall₂ (Decoder.Delimits Packet.decode) fronts d.packets ∧
        List.Forall₂ Packet.Respelled fronts fronts' := by
  obtain ⟨header, fronts, rfl, -, valid, ack, nack, flags, number, there⟩ :=
    exists_fronts_of_decode h
  obtain ⟨vestigial, same⟩ := header_of_flags valid ack nack flags
  obtain ⟨fits, onWire⟩ := Datagram.fieldsFit_of_delimits there vestigial number
  obtain ⟨written, encoded⟩ := Option.isSome_iff_exists.1 (Datagram.encode_isSome short)
  have read := decode_encode_datagram fits encoded
  rw [onWire] at read
  obtain ⟨packets, hpackets, rfl⟩ := Datagram.encode_eq_some_iff.1 encoded
  obtain ⟨fronts', each, rfl⟩ := Datagram.exists_fronts_of_encodeAll hpackets
  have respelled := Packet.respelled_of_delimits there each
  refine ⟨_, encoded, ?_, read, header, validFlag ||| d.flags, Bytes.triad d.number, fronts,
    fronts', Bytes.length_triad _, rfl, rfl, same, there, respelled⟩
  simp [Packet.Respelled.length_flatten respelled]

/-- Every bit without a meaning is set in a datagram of two packets, which are deliveries with a
receipt: a payload of nine bits, and a part on an order channel.  It is written without them. -/
theorem Frame.exists_encode_of_decode_receipts :
    let bytes : Bytes :=
      [0x97, 1, 2, 3] ++ [0xcf, 0, 9, 5, 0, 0, 0xaa, 0xbb] ++
        [0xff, 0, 8, 6, 0, 0, 7, 0, 0, 1, 0, 0, 0, 2, 0, 3, 0, 0, 0, 1, 0xcc]
    let written : Bytes :=
      [0x94, 1, 2, 3] ++ [0x40, 0, 16, 5, 0, 0, 0xaa, 0xbb] ++
        [0x70, 0, 8, 6, 0, 0, 7, 0, 0, 1, 0, 0, 0, 2, 0, 3, 0, 0, 0, 1, 0xcc]
    let d : Datagram :=
      { flags := 0x14
        number := 0x030201
        packets :=
          [{ header := .reliable 5, payload := [0xaa, 0xbb] },
            { header := .reliableOrdered 6 { order := 7, channel := 1 }
              part := some { split := 3, index := 1, count := 2 }
              payload := [0xcc] }] }
    Frame.decode bytes = .ok (.datagram d) [] ∧ (∀ p ∈ d.packets, p.payload.length ≤ 8191) ∧
      (Frame.datagram d).encode = some written ∧ written.length = bytes.length ∧
      Frame.decode written = .ok (.datagram d) [] := by
  intro bytes written d
  have read : Frame.decode bytes = .ok (.datagram d) [] := rfl
  have short : ∀ p ∈ d.packets, p.payload.length ≤ 8191 := by decide
  have spelt : (Frame.datagram d).encode = some written := by decide
  obtain ⟨_, encoded, length, again, -⟩ := exists_encode_of_decode read short
  cases spelt.symm.trans encoded
  exact ⟨read, short, spelt, length, again⟩

/-! ### Bytes that are no datagram -/

namespace Packet

/-- These bytes are a spelling of some packet. -/
def Spelled (front : Bytes) : Prop :=
  ∃ flags bits p, Spells flags bits p ∧ p.Fits ∧ front = spelling flags bits p

theorem spelled_iff {front : Bytes} : Spelled front ↔ ∃ p, Decoder.Delimits decode front p := by
  constructor
  · rintro ⟨flags, bits, p, spells, fits, rfl⟩
    exact ⟨_, spells.delimits fits⟩
  · rintro ⟨p, h⟩
    obtain ⟨flags, bits, spells, fits, -, spelt⟩ := exists_spelling_of_delimits h
    exact ⟨flags, bits, p, spells, fits, spelt⟩

theorem exists_of_spelled {fronts : List Bytes} (h : ∀ front ∈ fronts, Spelled front) :
    ∃ packets, List.Forall₂ (Decoder.Delimits decode) fronts packets := by
  induction fronts with
  | nil => exact ⟨[], .nil⟩
  | cons front fronts ih =>
    obtain ⟨spelled, others⟩ := List.forall_mem_cons.1 h
    obtain ⟨p, delimits⟩ := spelled_iff.1 spelled
    obtain ⟨packets, there⟩ := ih others
    exact ⟨p :: packets, .cons delimits there⟩

theorem decode_error_iff {bytes : Bytes} :
    (∃ e left, decode bytes = .error e left) ↔
      ∀ front rest, Spelled front → bytes ≠ front ++ rest := by
  constructor
  · rintro ⟨e, left, error⟩ front rest spelled rfl
    obtain ⟨p, delimits⟩ := spelled_iff.1 spelled
    cases error.symm.trans (delimits.whole rest)
  · intro none
    cases read : decode bytes with
    | ok p rest =>
      obtain ⟨front, delimits, -, split⟩ := cuts_decode read
      exact absurd split (none front rest (spelled_iff.2 ⟨p, delimits⟩))
    | error e left => exact ⟨e, left, rfl⟩

end Packet

namespace Datagram

/-- Bytes are left behind some packets that begin with no other. -/
def Interrupted (bytes : Bytes) : Prop :=
  ∃ (fronts : List Bytes) (bad : Bytes), (∀ front ∈ fronts, Packet.Spelled front) ∧ bad ≠ [] ∧
    bytes = fronts.flatten ++ bad ∧ ∀ front rest, Packet.Spelled front → bad ≠ front ++ rest

/-- The bytes behind a header do not hold the number, or what follows it are not all packets. -/
def Broken (body : Bytes) : Prop := body.length < 3 ∨ Interrupted (body.drop 3)

theorem packets_error_iff {bytes : Bytes} :
    (∃ e left, Decoder.toEnd Packet.decode bytes = .error e left) ↔ Interrupted bytes := by
  constructor
  · rintro ⟨e, left, error⟩
    obtain ⟨fronts, packets, there, ⟨-, read⟩ | ⟨bad, e, left, some, split, first, -⟩⟩ :=
      Packet.cuts_decode.toEnd_cases bytes
    · cases error.symm.trans read
    · refine ⟨fronts, bad, fun front hfront => ?_, some, split,
        Packet.decode_error_iff.1 ⟨e, left, first⟩⟩
      obtain ⟨p, -, delimits⟩ := exists_of_mem_forall₂ there.flip hfront
      exact Packet.spelled_iff.2 ⟨p, delimits⟩
  · rintro ⟨fronts, bad, spelled, some, rfl, none⟩
    obtain ⟨packets, there⟩ := Packet.exists_of_spelled spelled
    obtain ⟨e, left, error⟩ := Packet.decode_error_iff.2 none
    exact ⟨e, left, Packet.cuts_decode.toEnd_error there some error⟩

/-- **Bytes that can not be read as a datagram** are broken, and all broken bytes are found out. -/
theorem decode_error_iff (header : UInt8) (body : Bytes) :
    (∃ e left, decode (header :: body) = .error e left) ↔ Broken body := by
  rw [decode, Decoder.bind_ok (Decoder.u8_cons header body)]
  rcases Nat.lt_or_ge body.length 3 with short | enough
  · have error : Decoder.triad body = .error (.truncated 3 body.length) body :=
      Decoder.map_error (Decoder.take_eq_error short)
    exact iff_of_true ⟨_, _, Decoder.bind_error error⟩ (Or.inl short)
  have number : Decoder.triad body = .ok _ (body.drop 3) :=
    Decoder.map_ok (Decoder.take_eq_ok enough)
  rw [Decoder.bind_ok number, Broken, or_iff_right (Nat.not_lt.2 enough), ← packets_error_iff]
  exact Decoder.map_error_iff _

end Datagram

end ReliableDatagram
