import ReliableDatagram.Proofs.Link.Transfer

/-!
# Messages of two parts

What a new sender makes of unreliable messages that do not fit into one packet, but into two: every
message goes out at once, in two datagrams, and draws nothing but their numbers and the number that
both of its parts name.  So a run of any length that sends such messages can be told in closed form.

* `Link.run_halves`: the datagrams of such a run, and the sender after it.
-/

namespace ReliableDatagram

variable {limits : SenderLimits}

theorem Piece.parts_two (split : UInt16) {length : Nat} {payload : Bytes}
    (long : length < payload.length) (short : payload.length ≤ 2 * length) :
    Piece.parts split length payload =
      [{ part := some { split, index := 0, count := 2 }, payload := payload.take length },
        { part := some { split, index := 1, count := 2 }, payload := payload.drop length }] := by
  have count : (payload.length + length - 1) / length = 2 := by
    rw [Nat.div_eq_iff (by omega)]
    omega
  have rest : (payload.drop length).take length = payload.drop length := by
    rw [List.take_of_length_le]
    rw [List.length_drop]
    omega
  rw [parts, count]
  simp only [chunks, rest]
  rfl

namespace Message

variable {m : Message}

/-- A message that makes two parts and for which no indices are drawn. -/
structure Halves (limits : SenderLimits) (m : Message) : Prop where
  delivery : m.delivery = .unreliable
  receipt : m.receipt = none
  long : limits.maxPartLength < m.payload.length
  short : m.payload.length ≤ 2 * limits.maxPartLength

/-- One of the two packets of such a message. -/
def half (limits : SenderLimits) (split : UInt16) (m : Message) (index : Nat) : Packet where
  header := .unreliable
  part := some { split, index, count := 2 }
  payload := if index = 0 then m.payload.take limits.maxPartLength
    else m.payload.drop limits.maxPartLength

namespace Halves

variable (h : m.Halves limits)

include h

theorem length_half (split : UInt16) (index : Nat) :
    (m.half limits split index).payload.length ≤ limits.maxPartLength := by
  have := h.short
  unfold half
  split_ifs
  · exact List.length_take_le _ _
  · rw [List.length_drop]
    omega

theorem payload_ne_nil : m.payload ≠ [] := by
  have := h.long
  rw [← List.length_pos_iff]
  omega

theorem isSendable : m.isSendable = true := by
  rw [Message.isSendable, h.delivery, List.isEmpty_eq_false_iff.2 h.payload_ne_nil]
  rfl

end Halves

end Message

namespace Sender

/-- A sender that has drawn nothing but numbers of datagrams and of split messages, and has nothing
left to do. -/
def idle (n : Nat) (last : UInt16) : Sender :=
  { empty with nextDatagram := n, lastSplit := last }

variable {m : Message} (h : m.Halves limits)

include h

theorem enqueue_half (now : Instant) (n index : Nat) (last split : UInt16) :
    (idle n last).enqueue limits now true (m.half limits split index) =
      (idle (n + 1) last, [{ number := n, packets := [m.half limits split index] }]) := by
  have fits : ¬ limits.maxBatchLength <
      (idle n last).batchLength + (m.half limits split index).length := by
    have length := h.length_half split index
    have long := h.long
    have short := h.short
    have part : limits.maxPartLength = limits.mtu.toNat - 60 := rfl
    have batch : limits.maxBatchLength = limits.mtu.toNat - 36 := rfl
    change ¬ limits.maxBatchLength < 4 + (13 + (m.half limits split index).payload.length)
    omega
  have room : (idle n last).makeRoom limits now (m.half limits split index) =
      (idle n last, []) := if_neg fits
  rw [enqueue_eq, if_pos rfl, room]
  rfl

theorem send_halves (now : Instant) (n : Nat) (last : UInt16) :
    (idle n last).send limits now m true =
      .ok (idle (n + 2) (last + 1),
        [{ number := n, packets := [m.half limits (last + 1) 0] },
          { number := n + 1, packets := [m.half limits (last + 1) 1] }]) := by
  have stamp : (idle n last).stamp m = .ok (idle n last, {}) := by
    rw [Sender.stamp, h.delivery]
    rfl
  have cut : (idle n last).cut limits m = (idle n (last + 1),
      [{ part := some { split := last + 1, index := 0, count := 2 },
          payload := (m.half limits (last + 1) 0).payload },
        { part := some { split := last + 1, index := 1, count := 2 },
          payload := (m.half limits (last + 1) 1).payload }]) := by
    rw [cut_eq, if_pos h.long, if_pos h.long, Piece.parts_two _ h.long h.short]
    rfl
  have one (k index : Nat) : sendPiece limits now m {} true (idle k (last + 1))
      { part := some { split := last + 1, index, count := 2 },
        payload := (m.half limits (last + 1) index).payload } =
      (idle (k + 1) (last + 1),
        [{ number := k, packets := [m.half limits (last + 1) index] }]) := by
    rw [← enqueue_half h now k index, sendPiece, h.delivery, h.receipt]
    rfl
  rw [send, if_neg (mt List.isEmpty_iff.1 h.payload_ne_nil), stamp]
  simp only [bind, Except.bind, pure, Except.pure, cut, runAll_cons, one]
  rfl

end Sender

namespace Link

variable {messages : List Message} (halves : ∀ m ∈ messages, m.Halves limits)

include halves

/-- **Messages of two parts** go out in two datagrams each, and both parts name the number of the
message in 16 bits. -/
theorem run_halves (bounds : ReceiverLimits) (now : Instant) :
    let l := run limits bounds (messages.map fun m => .send now m true)
    l.sender = .idle (2 * messages.length) (.ofNat messages.length) ∧
      l.sent.length = 2 * messages.length ∧
      ∀ k m, messages[k]? = some m → ∀ j < 2, l.sent[2 * k + j]? =
        some { number := 2 * k + j, packets := [m.half limits (.ofNat (k + 1)) j] } := by
  induction messages using List.reverseRecOn with
  | nil => exact ⟨rfl, rfl, fun k m h => by cases h⟩
  | append_singleton messages m ih =>
    obtain ⟨sender, length, sent⟩ := ih fun m hm => halves m (List.mem_append_left _ hm)
    have last := halves m (List.mem_append_right _ (List.mem_singleton_self m))
    have send := Sender.send_halves last now (2 * messages.length) (.ofNat messages.length)
    rw [← sender] at send
    rw [List.map_append, List.map_singleton, run_concat, List.length_append, List.length_singleton]
    generalize run limits bounds (messages.map fun m => .send now m true) = l at *
    simp only [step, send, transmit]
    refine ⟨?_, ?_, fun k m' hk j hj => ?_⟩
    · rw [UInt16.ofNat_add]
      rfl
    · rw [List.length_append, length]
      rfl
    · rcases Nat.lt_or_ge k messages.length with hlt | hge
      · rw [List.getElem?_append_left hlt] at hk
        rw [List.getElem?_append_left (by omega)]
        exact sent k m' hk j hj
      · rw [List.getElem?_append_right hge] at hk
        obtain ⟨hk0, rfl⟩ := List.getElem?_eq_some_iff.1 hk
        obtain rfl : k = messages.length := by
          rw [List.length_singleton] at hk0
          omega
        rw [List.getElem?_append_right (by omega), length, Nat.add_sub_cancel_left,
          UInt16.ofNat_add]
        interval_cases j <;> simp

theorem posted_halves (bounds : ReceiverLimits) (now : Instant) :
    (run limits bounds (messages.map fun m => .send now m true)).posted.map Posting.message =
      messages := by
  rw [posted_run, List.filterMap_map]
  change (messages.filterMap fun m => some m).filter _ = _
  rw [List.filterMap_some, List.filter_eq_self.2 fun m hm => (halves m hm).isSendable]

theorem flush_halves (bounds : ReceiverLimits) (now : Instant) :
    run limits bounds ((messages.map fun m => .send now m true) ++ [.flush now]) =
      run limits bounds (messages.map fun m => .send now m true) := by
  refine (run_concat ..).trans (step_flush_of_empty limits bounds now ?_)
  rw [(run_halves halves bounds now).1]
  rfl

end Link

end ReliableDatagram
