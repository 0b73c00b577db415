import ReliableDatagram.Proofs.Host.Welcome
import ReliableDatagram.Proofs.Wire.Records
import ReliableDatagram.Proofs.Wire.Spelling

/-!
# Bytes that can not be decoded

A frame is decoded packet by packet and an acknowledgement record by record, so an error may come
when much has been read that makes sense.  None of it must have an effect: if the first packets of
such a frame were handled, or if it counted as a sign of life, then anyone who can make up a frame
with a mistake at its end could keep a session alive.  A host decides about a packet when it has
been decoded as a whole.

* `Frame.decode_error_iff`: where the mistake in a frame may be;
* `Host.unmoved_counted`, `Host.unmoved_blockMalformed`: what a host changes when it lets a packet
  fall, without and with a block of its sender;
* `Host.dispatch_malformed`, `Host.dispatch_unanswered`: which packets it lets fall;
* `Host.Log.disregarded_run`: the above over every run.
-/

namespace ReliableDatagram

/-! ### Frames -/

/-- The mistake in bytes that start like a frame is in the packets of a datagram, or in the records
of an acknowledgement. -/
def Frame.Broken : Bytes → Prop
  | [] => True
  | header :: body =>
    if header &&& (ackFlag ||| nackFlag) = 0 then Datagram.Broken body
    else Acknowledgement.Broken body

theorem Frame.kind_iff (header : UInt8) :
    header &&& (ackFlag ||| nackFlag) = 0 ↔ header &&& ackFlag = 0 ∧ header &&& nackFlag = 0 := by
  revert header
  decide +kernel

/-- **Where the mistake may be** in bytes that start like a frame and can not be decoded. -/
theorem Frame.decode_error_iff {bytes : Bytes} (start : startsLikeFrame bytes = true) :
    (∃ e left, decode bytes = .error e left) ↔ Broken bytes := by
  cases bytes with
  | nil => cases start
  | cons header body =>
    have valid : header &&& validFlag ≠ 0 := bne_iff_ne.1 start
    simp only [decode, if_neg valid, Broken, kind_iff]
    by_cases ack : header &&& ackFlag = 0
    · by_cases nack : header &&& nackFlag = 0
      · rw [if_neg (not_not.2 ack), if_neg (not_not.2 nack), if_pos ⟨ack, nack⟩,
          Decoder.map_error_iff, Datagram.decode_error_iff]
      · rw [if_neg (not_not.2 ack), if_pos nack, if_neg (mt And.right nack),
          Decoder.map_error_iff, Acknowledgement.decode_error_iff]
    · rw [if_pos ack, if_neg (mt And.left ack), Decoder.map_error_iff,
        Acknowledgement.decode_error_iff]

/-- A message that only a server sends. -/
def Handshake.isFromServer : Handshake → Bool
  | pong .. | openReply1 .. | openReply2 .. | incompatibleVersion .. => true
  | ping .. | openRequest1 .. | openRequest2 .. => false

namespace Host

variable {env : Environment} {h : Host} {now : Instant} {peer : Address} {bytes : Bytes}

/-! ### What a host changes when it lets a packet fall -/

/-- A packet from an IP address has been counted, the block of the address may have changed, and
nothing else has happened. -/
structure Unmoved (h : Host) (ip : Ip) (out : Host × List Action) : Prop where
  rest : out.1 = { h with gate := out.1.gate }
  actions : out.2 = []
  others : ∀ other, other ≠ ip → out.1.gate.entry other = h.gate.entry other
  count : out.1.gate.countOf ip = h.gate.countOf ip + 1

theorem unmoved_counted (h : Host) (peer : Address) : h.Unmoved peer.ip (h.counted peer, []) where
  rest := rfl
  actions := rfl
  others := (Gate.local_count peer.ip).other h.gate
  count := by
    change (h.gate.count peer.ip).countOf peer.ip = _
    rw [Gate.countOf_count, if_pos rfl]

theorem unmoved_blockMalformed (h : Host) (now : Instant) (peer : Address) :
    h.Unmoved peer.ip ((h.counted peer).blockMalformed now peer, []) where
  rest := rfl
  actions := rfl
  others other away := ((Gate.local_block peer.ip _ now).other _ other away).trans
    ((Gate.local_count peer.ip).other h.gate other away)
  count := Gate.countOf_block.trans (h.unmoved_counted peer).count

theorem isBlocked_counted (h : Host) (peer : Address) (time : Instant) :
    (h.counted peer).gate.isBlocked peer.ip time = false := Gate.isBlocked_count_self

theorem isBlocked_blockMalformed (h : Host) (now : Instant) (peer : Address) (time : Instant) :
    ((h.counted peer).blockMalformed now peer).gate.isBlocked peer.ip time = true ↔
      time < now + h.env.settings.malformedBlockDuration := by
  refine Gate.isBlocked_block.trans ?_
  rw [isBlocked_counted, or_iff_right Bool.false_ne_true, and_iff_right rfl]
  rfl

/-! ### Which packets a host lets fall -/

/-- A packet can not be decoded as what it is taken for, and it does not just have an id that is not
known. -/
def Malformed (h : Host) (peer : Address) (bytes : Bytes) : Prop :=
  h.TakesForFrame peer bytes ∧ (∃ e left, Frame.decode bytes = .error e left) ∨
    ¬h.TakesForFrame peer bytes ∧
      ∃ e left, Handshake.decode bytes = .error e left ∧ ∀ id, e ≠ .unknownMessageId id

/-- A packet that is not for a session has an id that is not known, or it is a message that only a
server sends. -/
def Unanswered (h : Host) (peer : Address) (bytes : Bytes) : Prop :=
  ¬h.TakesForFrame peer bytes ∧
    ((∃ id left, Handshake.decode bytes = .error (.unknownMessageId id) left) ∨
      ∃ m rest, Handshake.decode bytes = .ok m rest ∧ m.isFromServer = true)

theorem isMalformed_iff (admits : h.closing = false) (some : bytes ≠ []) :
    h.isMalformed peer bytes = true ↔ h.Malformed peer bytes := by
  have there : bytes.isEmpty = false := List.isEmpty_eq_false_iff.2 some
  simp only [isMalformed, there, admits, Bool.not_false, Bool.true_and, Malformed, TakesForFrame,
    Bool.and_eq_true]
  split_ifs with frame
  · simp only [frame, Frame.isMalformed, and_self, true_and, not_true, false_and, or_false]
    cases Frame.decode bytes <;> simp
  · simp only [frame, Handshake.isMalformed, false_and, not_false_eq_true, true_and, false_or]
    cases Handshake.decode bytes with
    | ok m rest => simp
    | error e left => cases e <;> simp

/-- **A malformed packet** brings a block, and nothing else. -/
theorem dispatch_malformed (c : h.registry.Consistent) (admits : h.closing = false)
    (some : bytes ≠ []) (malformed : h.Malformed peer bytes) :
    h.dispatch now peer bytes = (h.blockMalformed now peer, []) := by
  obtain ⟨⟨session, start⟩, e, left, error⟩ | ⟨other, e, left, error, known⟩ := malformed
  · obtain ⟨s, registered⟩ := Option.isSome_iff_exists.1 session
    obtain rfl := c.peer_eq peer s registered
    have there : bytes.isEmpty = false := List.isEmpty_eq_false_iff.2 some
    simp only [dispatch, there, registered, start, receiveFrame, Session.receive, error,
      Bool.false_eq_true, if_true, if_false]
  · rw [dispatch_of_not_takesForFrame some other, receiveHandshake]
    -- an id that is not known is the one mistake that brings no block
    cases e with
    | unknownMessageId id => exact absurd rfl (known id)
    | _ => simp only [admits, error, Bool.false_eq_true, if_false]

/-- **A packet that is not answered** does nothing at all. -/
theorem dispatch_unanswered (admits : h.closing = false) (some : bytes ≠ [])
    (unanswered : h.Unanswered peer bytes) : h.dispatch now peer bytes = (h, []) := by
  obtain ⟨other, silent⟩ := unanswered
  rw [dispatch_of_not_takesForFrame some other, receiveHandshake]
  simp only [admits, Bool.false_eq_true, if_false]
  obtain ⟨id, left, error⟩ | ⟨m, rest, decoded, fromServer⟩ := silent
  · rw [error]
  · rw [decoded]
    cases m <;> first | rfl | cases fromServer

namespace Log

/-- What becomes of a packet that makes no sense. -/
structure Disregarded (t : Log) (now : Instant) (peer : Address) (bytes : Bytes)
    (out : Host × List Action) : Prop where
  malformed : t.host.Malformed peer bytes → t.host.Unmoved peer.ip out
  blocked : t.host.Malformed peer bytes → ∀ time, out.1.gate.isBlocked peer.ip time = true ↔
    time < now + t.host.env.settings.malformedBlockDuration
  /-- A frame is malformed wherever in its packets or records the mistake is. -/
  broken : t.host.TakesForFrame peer bytes → (t.host.Malformed peer bytes ↔ Frame.Broken bytes)
  unanswered : t.host.Unanswered peer bytes → t.host.Unmoved peer.ip out
  free : t.host.Unanswered peer bytes → ∀ time, out.1.gate.isBlocked peer.ip time = false

/-- **A packet that makes no sense touches no session** and is not answered, over every run of a
host that is not closing: it is counted, and its sender is blocked if it is malformed. -/
theorem disregarded_run (new : Host.new env = .ok h) (inputs : List Input) (some : bytes ≠ [])
    (admits : (run h inputs).host.closing = false)
    (free : (run h inputs).host.gate.isBlocked peer.ip now = false)
    (room : (run h inputs).host.gate.countOf peer.ip < env.settings.packetLimit) :
    Disregarded (run h inputs) now peer bytes ((run h inputs).host.receive now peer bytes) := by
  obtain ⟨same, lineage⟩ := lineage_run new inputs
  rw [← same] at room
  generalize run h inputs = t at *
  -- counting a packet changes nothing that it is decided by
  have blocks (malformed : t.host.Malformed peer bytes) : t.host.receive now peer bytes =
      ((t.host.counted peer).blockMalformed now peer, []) :=
    (receive_of_passes free room bytes).trans
      (dispatch_malformed (h := t.host.counted peer) lineage.consistent admits some malformed)
  have ignores (unanswered : t.host.Unanswered peer bytes) : t.host.receive now peer bytes =
      (t.host.counted peer, []) :=
    (receive_of_passes free room bytes).trans
      (dispatch_unanswered (h := t.host.counted peer) admits some unanswered)
  constructor
  case malformed => exact fun malformed => blocks malformed ▸ t.host.unmoved_blockMalformed now peer
  case blocked =>
    intro malformed time
    rw [blocks malformed]
    exact t.host.isBlocked_blockMalformed now peer time
  case broken =>
    intro frame
    rw [Malformed, ← Frame.decode_error_iff frame.2]
    simp [frame]
  case unanswered => exact fun unanswered => ignores unanswered ▸ t.host.unmoved_counted peer
  case free =>
    intro unanswered time
    rw [ignores unanswered]
    exact t.host.isBlocked_counted peer time

/-- The first packet of a datagram would end the session, and the second is cut short; the same
message outside of a datagram has no id that is known there. -/
theorem disregarded_run_farewell :
    let env : Environment := { settings := { serverGuid := 1 }, epoch := ⟨0⟩, port := 19132 }
    let peer : Address := .v4 0x7f000001 40000
    let request : Handshake := .openRequest2 (.v4 0x7f000001 19132) 1400 7
    let farewell : Bytes := [0x15]
    let datagram : Bytes := [0x84, 0, 0, 0] ++ [0x40, 0, 8, 0, 0, 0, 0x15] ++ [0x40, 0, 8]
    ∃ h, Host.new env = .ok h ∧
      let t := run h [.packet ⟨0⟩ peer request.encode]
      let out := t.host.receive ⟨1⟩ peer datagram
      let out' := t.host.receive ⟨1⟩ peer farewell
      (t.host.registry.sessions.get? peer).isSome = true ∧ Frame.Broken datagram ∧
        t.host.Unmoved peer.ip out ∧
        (∀ time, out.1.gate.isBlocked peer.ip time = true ↔ time < ⟨5000001⟩) ∧
        t.host.Unmoved peer.ip out' ∧ ∀ time, out'.1.gate.isBlocked peer.ip time = false := by
  intro env peer request farewell datagram
  have new : Host.new env = .ok _ := rfl
  refine ⟨_, new, ?_⟩
  intro t out out'
  have session : (t.host.registry.sessions.get? peer).isSome = true := by decide +kernel
  have admits : t.host.closing = false := by decide +kernel
  have free : t.host.gate.isBlocked peer.ip ⟨1⟩ = false := by decide +kernel
  have room : t.host.gate.countOf peer.ip < env.settings.packetLimit := by decide +kernel
  have cut : Disregarded t ⟨1⟩ peer datagram out :=
    disregarded_run new _ (List.cons_ne_nil _ _) admits free room
  have stray : Disregarded t ⟨1⟩ peer farewell out' :=
    disregarded_run new _ (List.cons_ne_nil _ _) admits free room
  have frame : t.host.TakesForFrame peer datagram := ⟨session, rfl⟩
  have malformed : t.host.Malformed peer datagram :=
    (isMalformed_iff admits (List.cons_ne_nil _ _)).1 (by decide +kernel)
  have unanswered : t.host.Unanswered peer farewell :=
    ⟨mt And.right (by decide), .inl ⟨_, _, rfl⟩⟩
  have stop : (⟨1⟩ : Instant) + env.settings.malformedBlockDuration = ⟨5000001⟩ := by decide
  have blocked := cut.blocked malformed
  rw [(lineage_run new _).1, stop] at blocked
  exact ⟨session, (cut.broken frame).1 malformed, cut.malformed malformed, blocked,
    stray.unanswered unanswered, stray.free unanswered⟩

end Log

end Host

end ReliableDatagram
