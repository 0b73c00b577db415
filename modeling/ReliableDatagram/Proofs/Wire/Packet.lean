import ReliableDatagram.Frame
import ReliableDatagram.Proofs.Lists
import ReliableDatagram.Proofs.Wire.Decoder

/-!
# Reading back packets and datagrams

* `Packet.delimits`: a packet whose indices fit into their fields is read back from its encoding,
  which delimits itself, except that its receipt does not travel (`Packet.onWire`);
* `Frame.decode_encode_datagram`: so is a datagram of such packets, which end with the bytes;
* `Packet.length_encode`, `Datagram.length_encode`: the lengths that are computed are those of the
  encodings, and `Datagram.encode_isSome`: there is one if the payloads are not too long;
* `Frame.datagram_roundTrip`: the above for every datagram that can be written;
* `Packet.exists_spelling_of_decode`, `Frame.exists_fronts_of_decode`: what is read was written in
  one of the ways in which a packet is read (`Packet.Spells`), and fits into its fields.
-/

namespace ReliableDatagram

/-! ### Packets -/

/-- The indices of a place fit into their fields. -/
def Place.Fits (p : Place) : Prop := p.order < 2 ^ 24

/-- The indices of a header fit into their fields. -/
def Header.Fits : Header → Prop
  | .unreliable => True
  | .unreliableSequenced sequence place => sequence < 2 ^ 24 ∧ place.Fits
  | .reliable message => message < 2 ^ 24
  | .reliableOrdered message place => message < 2 ^ 24 ∧ place.Fits
  | .reliableSequenced message sequence place =>
    message < 2 ^ 24 ∧ sequence < 2 ^ 24 ∧ place.Fits

namespace Header.Fits

variable {h : Header} (fits : h.Fits) {n : Nat}

include fits

theorem message_lt (hn : h.message? = some n) : n < 2 ^ 24 := by
  cases h <;> cases hn
  · exact fits
  · exact fits.1
  · exact fits.1

theorem sequence_lt (hn : h.sequence? = some n) : n < 2 ^ 24 := by
  cases h <;> cases hn
  · exact fits.1
  · exact fits.2.1

theorem place_fits {place : Place} (hplace : h.place? = some place) : place.Fits := by
  cases h <;> cases hplace
  · exact fits.2
  · exact fits.2
  · exact fits.2.2

end Header.Fits

/-- The numbers of a part fit into their fields. -/
def Part.Fits (p : Part) : Prop := p.index < 2 ^ 32 ∧ p.count < 2 ^ 32

@[simp] theorem Place.length_encode (p : Place) : p.encode.length = 4 := by
  simp [encode]

@[simp] theorem Header.length_encode (h : Header) : h.encode.length = h.length := by
  cases h <;> simp [encode, length]

@[simp] theorem Part.length_encode (p : Part) : p.encode.length = 10 := by
  simp [encode]

theorem Place.delimits {p : Place} (fits : p.Fits) :
    Decoder.Delimits Place.decode p.encode p :=
  (Decoder.delimits_triad fits).bind ((Decoder.delimits_u8 p.channel).last _)

theorem Header.delimits {h : Header} (fits : h.Fits) :
    Decoder.Delimits (Header.decode h.guarantee) h.encode h := by
  cases h with
  | unreliable => exact .pure _
  | unreliableSequenced sequence place =>
    obtain ⟨hs, hp⟩ := fits
    exact (Decoder.delimits_triad hs).bind ((Place.delimits hp).last _)
  | reliable message => exact (Decoder.delimits_triad fits).last _
  | reliableOrdered message place =>
    obtain ⟨hm, hp⟩ := fits
    exact (Decoder.delimits_triad hm).bind ((Place.delimits hp).last _)
  | reliableSequenced message sequence place =>
    obtain ⟨hm, hs, hp⟩ := fits
    rw [encode, List.append_assoc]
    exact (Decoder.delimits_triad hm).bind
      ((Decoder.delimits_triad hs).bind ((Place.delimits hp).last _))

theorem Part.delimits {p : Part} (fits : p.Fits) : Decoder.Delimits Part.decode p.encode p := by
  obtain ⟨hi, hc⟩ := fits
  rw [encode, List.append_assoc]
  exact (Decoder.delimits_bigEndian hc).bind
    ((Decoder.delimits_u16 p.split).bind ((Decoder.delimits_bigEndian hi).last _))

namespace Packet

/-- A packet has a payload, and its numbers fit into their fields. -/
structure Fits (p : Packet) : Prop where
  header : p.header.Fits
  part : ∀ part ∈ p.part, part.Fits
  payload : p.payload ≠ []

/-- A packet as the peer reads it, without its receipt. -/
def onWire (p : Packet) : Packet := { p with receipt := none }

theorem onWire_eq {p : Packet} (unasked : p.receipt = none) : p.onWire = p := by
  cases p
  cases unasked
  rfl

@[simp] theorem header_onWire (p : Packet) : p.onWire.header = p.header := rfl

@[simp] theorem part_onWire (p : Packet) : p.onWire.part = p.part := rfl

@[simp] theorem payload_onWire (p : Packet) : p.onWire.payload = p.payload := rfl

/-- The bytes that say a packet behind this first byte and this length in bits. -/
def spelling (flags : UInt8) (bits : UInt16) (p : Packet) : Bytes :=
  flags :: (Bytes.bigEndian 2 bits.toNat ++
    (p.header.encode ++ ((p.part.map Part.encode).getD [] ++ p.payload)))

/-- A first byte and a length in bits that announce a packet. There are several: the four lowest
bits of the first byte mean nothing, a delivery with a receipt stands for its guarantee, and the
length is rounded up to whole bytes. -/
structure Spells (flags : UInt8) (bits : UInt16) (p : Packet) : Prop where
  guarantee : (Delivery.ofCode? (flags >>> 5)).map Delivery.guarantee = some p.header.guarantee
  part : flags &&& partFlag = 0 ↔ p.part = none
  length : (bits.toNat + 7) / 8 = p.payload.length

theorem encode_eq_some_iff {p : Packet} {bytes : Bytes} :
    p.encode = some bytes ↔
      ∃ bits : UInt16, bits.toNat = 8 * p.payload.length ∧ spelling p.flags bits p = bytes := by
  simp only [encode, bind, Option.bind_eq_some_iff, Narrow.toUInt16?_eq_some_iff, pure,
    Option.some.injEq, spelling, List.cons_append, List.append_assoc]

/-- A packet is written in one of the ways in which it is read. -/
theorem spells_flags {p : Packet} {bits : UInt16} (h : bits.toNat = 8 * p.payload.length) :
    Spells p.flags bits p where
  guarantee := by
    unfold flags
    cases p.part.isSome <;> cases p.header.guarantee <;> rfl
  part := by
    rw [← Option.not_isSome_iff_eq_none]
    unfold flags
    cases p.part.isSome <;> cases p.header.guarantee <;> decide
  length := by omega

theorem length_spelling (flags : UInt8) (bits : UInt16) (p : Packet) :
    (spelling flags bits p).length = p.length := by
  have part : ((p.part.map Part.encode).getD []).length = if p.part.isSome then 10 else 0 := by
    cases p.part <;> simp
  simp only [spelling, List.length_append, List.length_cons, Bytes.length_bigEndian,
    Header.length_encode, part, length, headerLength]
  omega

theorem decodeGuarantee_eq {flags : UInt8} {g : Guarantee}
    (h : (Delivery.ofCode? (flags >>> 5)).map Delivery.guarantee = some g) (bytes : Bytes) :
    decodeGuarantee flags bytes = .ok g bytes := by
  obtain ⟨delivery, known, rfl⟩ := Option.map_eq_some_iff.1 h
  simp only [decodeGuarantee, Delivery.ofCode, known]
  rfl

theorem delimits_length {bits : UInt16} (pos : 0 < (bits.toNat + 7) / 8) :
    Decoder.Delimits decodeLength (Bytes.bigEndian 2 bits.toNat) ((bits.toNat + 7) / 8) := by
  have nonzero : bits ≠ 0 := by
    rintro rfl
    simp at pos
  refine (Decoder.delimits_u16 bits).judge ?_
  simp only [if_neg nonzero]
  exact .pure _

theorem delimits_part {flags : UInt8} {part : Option Part}
    (flag : flags &&& partFlag = 0 ↔ part = none) (fits : ∀ p ∈ part, p.Fits) {α : Type}
    {next : Option Part → Decoder α} {bytes : Bytes} {a : α}
    (h : Decoder.Delimits (next part) bytes a) :
    Decoder.Delimits
      (if flags &&& partFlag = 0 then pure none >>= next else some <$> Part.decode >>= next)
      ((part.map Part.encode).getD [] ++ bytes) a := by
  cases part with
  | none =>
    rw [if_pos (flag.2 rfl)]
    exact (Decoder.Delimits.pure none).bind h
  | some part =>
    rw [if_neg (mt flag.1 (Option.some_ne_none part))]
    exact ((Part.delimits (fits part rfl)).map some).bind h

/-- **A packet is read from all of its spellings**, which delimit themselves. -/
theorem Spells.delimits {flags : UInt8} {bits : UInt16} {p : Packet} (h : Spells flags bits p)
    (fits : p.Fits) : Decoder.Delimits decode (spelling flags bits p) p.onWire := by
  have pos : 0 < (bits.toNat + 7) / 8 := h.length ▸ List.length_pos_iff.2 fits.payload
  exact (Decoder.delimits_u8 flags).bind <|
    (Decoder.Delimits.of_idle (decodeGuarantee_eq h.guarantee)).bind <|
    (delimits_length pos).bind <| (Header.delimits fits.header).bind <|
    delimits_part h.part fits.part <| (Decoder.delimits_take h.length.symm).last _

/-- **A packet is read back from its encoding**, which delimits itself. -/
theorem delimits {p : Packet} (fits : p.Fits) {bytes : Bytes} (h : p.encode = some bytes) :
    Decoder.Delimits decode bytes p.onWire := by
  obtain ⟨bits, hbits, rfl⟩ := encode_eq_some_iff.1 h
  exact (spells_flags hbits).delimits fits

theorem length_encode {p : Packet} {bytes : Bytes} (h : p.encode = some bytes) :
    bytes.length = p.length := by
  obtain ⟨bits, -, rfl⟩ := encode_eq_some_iff.1 h
  exact length_spelling _ _ p

/-- There is an encoding as long as the length field holds the length of the payload in bits. -/
theorem exists_encode {p : Packet} (short : p.payload.length ≤ 8191) :
    ∃ bytes, p.encode = some bytes := by
  have bits : (UInt16.ofNat (8 * p.payload.length)).toNat = 8 * p.payload.length := by
    rw [UInt16.toNat_ofNat']
    omega
  exact ⟨_, encode_eq_some_iff.2 ⟨_, bits, rfl⟩⟩

end Packet

/-! ### What is read was written -/

theorem Place.eq_append_of_decode {p : Place} {bytes rest : Bytes}
    (h : Place.decode bytes = .ok p rest) : bytes = p.encode ++ rest ∧ p.Fits := by
  obtain ⟨order, middle, horder, h⟩ := Decoder.exists_of_bind h
  obtain ⟨channel, middle, hchannel, h⟩ := Decoder.exists_of_bind h
  cases h
  obtain ⟨rfl, lt⟩ := Decoder.eq_append_of_triad horder
  obtain rfl := Decoder.eq_cons_of_u8 hchannel
  exact ⟨by simp [encode], lt⟩

theorem Header.eq_append_of_decode {g : Guarantee} {header : Header} {bytes rest : Bytes}
    (h : Header.decode g bytes = .ok header rest) :
    bytes = header.encode ++ rest ∧ header.guarantee = g ∧ header.Fits := by
  cases g with
  | unreliable =>
    cases h
    exact ⟨rfl, rfl, trivial⟩
  | unreliableSequenced =>
    obtain ⟨sequence, _, hsequence, h⟩ := Decoder.exists_of_bind h
    obtain ⟨place, _, hplace, h⟩ := Decoder.exists_of_bind h
    cases h
    obtain ⟨rfl, hs⟩ := Decoder.eq_append_of_triad hsequence
    obtain ⟨rfl, hp⟩ := Place.eq_append_of_decode hplace
    exact ⟨by simp [encode], rfl, hs, hp⟩
  | reliable =>
    obtain ⟨message, _, hmessage, h⟩ := Decoder.exists_of_bind h
    cases h
    obtain ⟨rfl, hm⟩ := Decoder.eq_append_of_triad hmessage
    exact ⟨rfl, rfl, hm⟩
  | reliableOrdered =>
    obtain ⟨message, _, hmessage, h⟩ := Decoder.exists_of_bind h
    obtain ⟨place, _, hplace, h⟩ := Decoder.exists_of_bind h
    cases h
    obtain ⟨rfl, hm⟩ := Decoder.eq_append_of_triad hmessage
    obtain ⟨rfl, hp⟩ := Place.eq_append_of_decode hplace
    exact ⟨by simp [encode], rfl, hm, hp⟩
  | reliableSequenced =>
    obtain ⟨message, _, hmessage, h⟩ := Decoder.exists_of_bind h
    obtain ⟨sequence, _, hsequence, h⟩ := Decoder.exists_of_bind h
    obtain ⟨place, _, hplace, h⟩ := Decoder.exists_of_bind h
    cases h
    obtain ⟨rfl, hm⟩ := Decoder.eq_append_of_triad hmessage
    obtain ⟨rfl, hs⟩ := Decoder.eq_append_of_triad hsequence
    obtain ⟨rfl, hp⟩ := Place.eq_append_of_decode hplace
    exact ⟨by simp [encode], rfl, hm, hs, hp⟩

theorem Part.eq_append_of_decode {p : Part} {bytes rest : Bytes}
    (h : Part.decode bytes = .ok p rest) : bytes = p.encode ++ rest ∧ p.Fits := by
  obtain ⟨count, _, hcount, h⟩ := Decoder.exists_of_bind h
  obtain ⟨split, _, hsplit, h⟩ := Decoder.exists_of_bind h
  obtain ⟨index, _, hindex, h⟩ := Decoder.exists_of_bind h
  cases h
  obtain ⟨rfl, hc⟩ := Decoder.eq_append_of_bigEndian hcount
  obtain rfl := Decoder.eq_append_of_u16 hsplit
  obtain ⟨rfl, hi⟩ := Decoder.eq_append_of_bigEndian hindex
  exact ⟨by simp [encode], hi, hc⟩

namespace Packet

theorem of_decodeGuarantee {flags : UInt8} {g : Guarantee} {bytes rest : Bytes}
    (h : decodeGuarantee flags bytes = .ok g rest) :
    rest = bytes ∧ (Delivery.ofCode? (flags >>> 5)).map Delivery.guarantee = some g := by
  unfold decodeGuarantee Delivery.ofCode at h
  cases known : Delivery.ofCode? (flags >>> 5) with
  | none =>
    rw [known] at h
    cases h
  | some delivery =>
    rw [known] at h
    cases h
    exact ⟨rfl, rfl⟩

theorem eq_append_of_decodeLength {n : Nat} {bytes rest : Bytes}
    (h : decodeLength bytes = .ok n rest) :
    ∃ bits : UInt16, bytes = Bytes.bigEndian 2 bits.toNat ++ rest ∧ (bits.toNat + 7) / 8 = n ∧
      0 < n := by
  obtain ⟨bits, middle, hbits, h⟩ := Decoder.exists_of_bind h
  by_cases zero : bits = 0
  · rw [if_pos zero] at h
    cases h
  · rw [if_neg zero] at h
    cases h
    have : bits.toNat ≠ 0 := fun e => zero (UInt16.toNat_inj.1 e)
    exact ⟨bits, Decoder.eq_append_of_u16 hbits, rfl, by omega⟩

theorem eq_append_of_decodePart {flags : UInt8} {α : Type} {next : Option Part → Decoder α} {a : α}
    {bytes rest : Bytes}
    (h : (if flags &&& partFlag = 0 then pure none >>= next else some <$> Part.decode >>= next)
      bytes = .ok a rest) :
    ∃ (part : Option Part) (back : Bytes), bytes = (part.map Part.encode).getD [] ++ back ∧
      next part back = .ok a rest ∧ (flags &&& partFlag = 0 ↔ part = none) ∧
      ∀ p ∈ part, p.Fits := by
  split_ifs at h with flag
  · obtain ⟨_, _, hnone, h⟩ := Decoder.exists_of_bind h
    cases hnone
    exact ⟨none, _, rfl, h, iff_of_true flag rfl, nofun⟩
  · obtain ⟨_, back, hsome, h⟩ := Decoder.exists_of_bind h
    obtain ⟨part, hpart, rfl⟩ := Decoder.exists_of_map hsome
    obtain ⟨written, fits⟩ := Part.eq_append_of_decode hpart
    refine ⟨some part, back, written, h, iff_of_false flag (Option.some_ne_none part), ?_⟩
    rintro p ⟨⟩
    exact fits

/-- **What is read as a packet is one of its spellings.** -/
theorem exists_spelling_of_decode {p : Packet} {bytes rest : Bytes}
    (h : decode bytes = .ok p rest) :
    ∃ flags bits, Spells flags bits p ∧ p.Fits ∧ p.receipt = none ∧
      bytes = spelling flags bits p ++ rest := by
  obtain ⟨flags, _, hflags, h⟩ := Decoder.exists_of_bind h
  obtain ⟨guarantee, _, hguarantee, h⟩ := Decoder.exists_of_bind h
  obtain ⟨length, _, hlength, h⟩ := Decoder.exists_of_bind h
  obtain ⟨header, _, hheader, h⟩ := Decoder.exists_of_bind h
  obtain ⟨part, _, hpart, h, flag, partFits⟩ := eq_append_of_decodePart h
  obtain ⟨payload, _, hpayload, h⟩ := Decoder.exists_of_bind h
  cases h
  obtain rfl := Decoder.eq_cons_of_u8 hflags
  obtain ⟨rfl, known⟩ := of_decodeGuarantee hguarantee
  obtain ⟨bits, rfl, rounded, pos⟩ := eq_append_of_decodeLength hlength
  obtain ⟨rfl, rfl, fits⟩ := Header.eq_append_of_decode hheader
  subst hpart
  obtain ⟨rfl, width⟩ := Decoder.eq_append_of_take hpayload
  refine ⟨flags, bits, ⟨known, flag, rounded.trans width.symm⟩, ⟨fits, partFits, ?_⟩, rfl, ?_⟩
  · exact List.length_pos_iff.1 (width ▸ pos)
  · simp [spelling]

theorem exists_spelling_of_delimits {p : Packet} {front : Bytes}
    (h : Decoder.Delimits decode front p) :
    ∃ flags bits, Spells flags bits p ∧ p.Fits ∧ p.receipt = none ∧
      front = spelling flags bits p := by
  have spelling := exists_spelling_of_decode h.alone
  simpa only [List.append_nil] using spelling

theorem cuts_decode : Decoder.Cuts decode := by
  intro bytes p rest h
  obtain ⟨flags, bits, spells, fits, unasked, rfl⟩ := exists_spelling_of_decode h
  have same : p.onWire = p := onWire_eq unasked
  exact ⟨spelling flags bits p, same ▸ spells.delimits fits, List.cons_ne_nil _ _, rfl⟩

end Packet

/-! ### Datagrams -/

namespace Datagram

/-- A datagram as the peer reads it. -/
def onWire (d : Datagram) : Datagram := { d with packets := d.packets.map Packet.onWire }

/-- A datagram has no flags but those without a meaning, and all its numbers fit into their
fields. -/
structure FieldsFit (d : Datagram) : Prop where
  flags : d.flags &&& Frame.vestigialFlags = d.flags
  number : d.number < 2 ^ 24
  packets : ∀ p ∈ d.packets, p.Fits

/-- A datagram without flags, all of whose numbers fit into their fields. -/
structure Fits (d : Datagram) : Prop where
  flags : d.flags = 0
  number : d.number < 2 ^ 24
  packets : ∀ p ∈ d.packets, p.Fits

theorem Fits.fieldsFit {d : Datagram} (fits : d.Fits) : d.FieldsFit where
  flags := by
    rw [fits.flags]
    decide
  number := fits.number
  packets := fits.packets

theorem exists_fronts_of_encodeAll {packets : List Packet} {bytes : Bytes}
    (h : Packet.encodeAll packets = some bytes) :
    ∃ fronts, List.Forall₂ (fun front p => p.encode = some front) fronts packets ∧
      bytes = fronts.flatten := by
  induction packets generalizing bytes with
  | nil =>
    cases h
    exact ⟨[], .nil, rfl⟩
  | cons p packets ih =>
    simp only [Packet.encodeAll, bind, Option.bind_eq_some_iff, pure, Option.some.injEq] at h
    obtain ⟨front, hfront, back, hback, rfl⟩ := h
    obtain ⟨fronts, there, rfl⟩ := ih hback
    exact ⟨front :: fronts, .cons hfront there, rfl⟩

theorem decode_packets {packets : List Packet} (fits : ∀ p ∈ packets, p.Fits) {bytes : Bytes}
    (h : Packet.encodeAll packets = some bytes) :
    Decoder.toEnd Packet.decode bytes = .ok (packets.map Packet.onWire) [] := by
  obtain ⟨fronts, there, rfl⟩ := exists_fronts_of_encodeAll h
  refine Packet.cuts_decode.toEnd_flatten ?_
  clear h
  induction there with
  | nil => exact .nil
  | cons encoded there ih =>
    exact .cons (Packet.delimits (fits _ List.mem_cons_self) encoded)
      (ih fun q hq => fits q (List.mem_cons_of_mem _ hq))

theorem length_encodeAll {packets : List Packet} {bytes : Bytes}
    (h : Packet.encodeAll packets = some bytes) : bytes.length = Packet.totalLength packets := by
  obtain ⟨fronts, there, rfl⟩ := exists_fronts_of_encodeAll h
  clear h
  induction there with
  | nil => rfl
  | cons encoded there ih =>
    rw [List.flatten_cons, List.length_append, Packet.length_encode encoded, ih,
      Packet.totalLength]

theorem encode_eq_some_iff {d : Datagram} {bytes : Bytes} :
    d.encode = some bytes ↔ ∃ packets, Packet.encodeAll d.packets = some packets ∧
      (Frame.validFlag ||| d.flags) :: Bytes.triad d.number ++ packets = bytes := by
  simp only [encode, bind, Option.bind_eq_some_iff, pure, Option.some.injEq]

theorem length_encode {d : Datagram} {bytes : Bytes} (h : d.encode = some bytes) :
    bytes.length = d.length := by
  obtain ⟨packets, hpackets, rfl⟩ := encode_eq_some_iff.1 h
  rw [List.length_append, List.length_cons, Bytes.length_triad, length_encodeAll hpackets, length,
    headerLength]

theorem exists_encodeAll {packets : List Packet} (short : ∀ p ∈ packets, p.payload.length ≤ 8191) :
    ∃ bytes, Packet.encodeAll packets = some bytes := by
  induction packets with
  | nil => exact ⟨[], rfl⟩
  | cons p packets ih =>
    obtain ⟨front, hfront⟩ := Packet.exists_encode (short p List.mem_cons_self)
    obtain ⟨back, hback⟩ := ih fun q hq => short q (List.mem_cons_of_mem _ hq)
    simp [Packet.encodeAll, hfront, hback]

theorem encode_isSome {d : Datagram} (short : ∀ p ∈ d.packets, p.payload.length ≤ 8191) :
    (Frame.datagram d).encode.isSome = true := by
  obtain ⟨bytes, hbytes⟩ := exists_encodeAll short
  simp [Frame.encode, Datagram.encode, hbytes]

end Datagram

theorem Frame.flags_header {flags : UInt8} (h : flags &&& vestigialFlags = flags) :
    (validFlag ||| flags) &&& validFlag ≠ 0 ∧ (validFlag ||| flags) &&& ackFlag = 0 ∧
      (validFlag ||| flags) &&& nackFlag = 0 ∧
      (validFlag ||| flags) &&& (ackFlag ||| nackFlag ||| vestigialFlags) = flags := by
  revert flags
  decide +kernel

theorem Datagram.decode_encode {d : Datagram} (fits : d.FieldsFit) {bytes : Bytes}
    (h : d.encode = some bytes) : decode bytes = .ok d.onWire [] := by
  obtain ⟨packets, hpackets, rfl⟩ := encode_eq_some_iff.1 h
  have hread := decode_packets fits.packets hpackets
  obtain ⟨-, -, -, kept⟩ := Frame.flags_header fits.flags
  rw [decode, List.cons_append, Decoder.bind_ok (Decoder.u8_cons _ _),
    Decoder.bind_ok ((Decoder.delimits_triad fits.number).whole _),
    Decoder.bind_ok hread, kept]
  rfl

theorem Frame.decode_encode_datagram {d : Datagram} (fits : d.FieldsFit) {bytes : Bytes}
    (h : (Frame.datagram d).encode = some bytes) :
    Frame.decode bytes = .ok (.datagram d.onWire) [] := by
  have read := Datagram.decode_encode fits h
  obtain ⟨packets, -, rfl⟩ := Datagram.encode_eq_some_iff.1 h
  obtain ⟨valid, ack, nack, -⟩ := flags_header fits.flags
  rw [List.cons_append] at read ⊢
  simp only [decode, if_neg valid, if_neg (not_not.2 ack), if_neg (not_not.2 nack)]
  exact Decoder.map_ok read

/-- **A datagram is read back from its encoding.** -/
theorem Frame.decode_datagram {d : Datagram} (fits : d.Fits) {bytes : Bytes}
    (h : (Frame.datagram d).encode = some bytes) :
    Frame.decode bytes = .ok (.datagram d.onWire) [] := decode_encode_datagram fits.fieldsFit h

/-- **A datagram that can be written is read back**, and so is each of its packets from bytes that
delimit themselves. The encodings are as long as announced. -/
theorem Frame.datagram_roundTrip {d : Datagram} (fits : d.FieldsFit)
    (short : ∀ p ∈ d.packets, p.payload.length ≤ 8191) :
    (∃ bytes, (Frame.datagram d).encode = some bytes ∧ bytes.length = d.length ∧
      Frame.decode bytes = .ok (.datagram d.onWire) []) ∧
    ∀ p ∈ d.packets, ∃ bytes, p.encode = some bytes ∧ bytes.length = p.length ∧
      Decoder.Delimits Packet.decode bytes p.onWire := by
  obtain ⟨bytes, encoded⟩ := Option.isSome_iff_exists.1 (Datagram.encode_isSome short)
  refine ⟨⟨bytes, encoded, Datagram.length_encode encoded, decode_encode_datagram fits encoded⟩,
    fun p hp => ?_⟩
  obtain ⟨bytes, encoded⟩ := Packet.exists_encode (short p hp)
  exact ⟨bytes, encoded, Packet.length_encode encoded, Packet.delimits (fits.packets p hp) encoded⟩

/-- A datagram with two of the flags is read back with them: of its three packets one asks for a
receipt, one is on a channel that does not exist, and one is a part with the greatest numbers. -/
theorem Frame.datagram_roundTrip_mixed :
    let top := 2 ^ 24 - 1
    let place : Place := { order := top, channel := 255 }
    let d : Datagram :=
      { flags := 0x14
        number := top
        packets :=
          [{ header := .reliable 0, payload := [0], receipt := some 7 },
            { header := .unreliableSequenced top place, payload := [1, 2] },
            { header := .reliableSequenced top 1 place
              part := some { split := 65535, index := 2 ^ 32 - 1, count := 2 ^ 32 - 1 }
              payload := .replicate 8191 3 }] }
    d.FieldsFit ∧ (∀ p ∈ d.packets, p.payload.length ≤ 8191) ∧
      (∃ bytes, (Frame.datagram d).encode = some bytes ∧ bytes.length = 8237 ∧
        Frame.decode bytes = .ok (.datagram d.onWire) []) ∧
      ∀ p ∈ d.packets, ∃ bytes, p.encode = some bytes ∧
        Decoder.Delimits Packet.decode bytes p.onWire := by
  intro top place d
  have each {P : Packet → Prop} (first : P d.packets[0]) (second : P d.packets[1])
      (third : P d.packets[2]) : ∀ p ∈ d.packets, P p :=
    List.forall_mem_cons.2 ⟨first, List.forall_mem_cons.2 ⟨second,
      List.forall_mem_singleton.2 third⟩⟩
  have long : (List.replicate 8191 (3 : UInt8)).length = 8191 := List.length_replicate
  have order : place.Fits := by unfold Place.Fits; decide
  have fits : d.FieldsFit :=
    ⟨by decide, by decide, each ⟨Nat.two_pow_pos 24, nofun, nofun⟩
      ⟨⟨by decide, order⟩, nofun, nofun⟩
      ⟨⟨by decide, by decide, order⟩, by rintro part ⟨⟩; exact ⟨by decide, by decide⟩,
        mt (List.replicate_eq_nil_iff _).1 (by decide)⟩⟩
  have short : ∀ p ∈ d.packets, p.payload.length ≤ 8191 :=
    each (by decide) (by decide) long.le
  obtain ⟨⟨bytes, encoded, length, read⟩, parts⟩ := Frame.datagram_roundTrip fits short
  refine ⟨fits, short, ⟨bytes, encoded, length.trans ?_, read⟩, fun p hp => ?_⟩
  · simp [d, Datagram.length, Datagram.headerLength, Packet.totalLength, Packet.length,
      Packet.headerLength, Header.length, -List.reduceReplicate]
  · obtain ⟨bytes, encoded, -, delimits⟩ := parts p hp
    exact ⟨bytes, encoded, delimits⟩

/-- The number of a datagram and the indices of its packets fit into their fields. -/
structure Datagram.IndicesFit (d : Datagram) : Prop where
  number : d.number < 2 ^ 24
  headers : ∀ p ∈ d.packets, p.header.Fits

/-- **What is read as a datagram**: a header, which is that of no acknowledgement, the number, and
packets up to the end. -/
theorem Frame.exists_fronts_of_decode {d : Datagram} {bytes rest : Bytes}
    (h : Frame.decode bytes = .ok (.datagram d) rest) :
    ∃ (header : UInt8) (fronts : List Bytes),
      bytes = header :: (Bytes.triad d.number ++ fronts.flatten) ∧ rest = [] ∧
      header &&& validFlag ≠ 0 ∧ header &&& ackFlag = 0 ∧ header &&& nackFlag = 0 ∧
      header &&& (ackFlag ||| nackFlag ||| vestigialFlags) = d.flags ∧ d.number < 2 ^ 24 ∧
      List.Forall₂ (Decoder.Delimits Packet.decode) fronts d.packets := by
  cases bytes with
  | nil => cases h
  | cons header bytes =>
    unfold Frame.decode at h
    simp only at h
    split_ifs at h with invalid ack nack <;> obtain ⟨_, read, e⟩ := Decoder.exists_of_map h <;>
      cases e
    obtain ⟨_, _, hheader, read⟩ := Decoder.exists_of_bind read
    obtain ⟨number, back, hnumber, read⟩ := Decoder.exists_of_bind read
    obtain ⟨packets, _, hpackets, read⟩ := Decoder.exists_of_bind read
    cases read
    cases hheader
    obtain ⟨rfl, lt⟩ := Decoder.eq_append_of_triad hnumber
    obtain ⟨fronts, items, there, ⟨rfl, all⟩ | ⟨bad, e, left, -, rfl, -, error⟩⟩ :=
      Packet.cuts_decode.toEnd_cases back
    · cases all.symm.trans hpackets
      exact ⟨header, fronts, rfl, rfl, invalid, not_not.1 ack, not_not.1 nack, rfl, lt, there⟩
    · cases error.symm.trans hpackets

/-- **The indices of a datagram that is read fit into their fields.** -/
theorem Frame.indicesFit_of_decode {d : Datagram} {bytes rest : Bytes}
    (h : Frame.decode bytes = .ok (.datagram d) rest) : d.IndicesFit := by
  obtain ⟨-, fronts, -, -, -, -, -, -, number, there⟩ := exists_fronts_of_decode h
  refine ⟨number, fun p hp => ?_⟩
  obtain ⟨front, -, delimits⟩ := exists_of_mem_forall₂ there hp
  obtain ⟨-, -, -, fits, -⟩ := Packet.exists_spelling_of_delimits delimits
  exact fits.header

end ReliableDatagram
