import ReliableDatagram.Control
import ReliableDatagram.Proofs.Wire.Fields

/-!
# Reading back control messages

The list of addresses in a control message has no mark for its end: it ends where nothing but two
timestamps is left, although addresses have two different lengths. A reader that expects at least as
many addresses as were written gets the message with its list filled up
(`Control.decode_encode_filled`).

No message of the application reads as a control message: the ids of the two do not overlap
(`Control.not_isUser_of_decode`).
-/

namespace ReliableDatagram

/-- Bytes that start with an id of the application's own can not be read. -/
theorem MessageId.decode_of_isUser {b : UInt8} {bytes : Bytes} (h : isUser b = true) :
    decode (b :: bytes) = .error (.unknownMessageId b) bytes := by
  have unknown : ofCode? b = none := by
    cases hb : ofCode? b with
    | none => rfl
    | some id =>
      have code : id.code = b := by simpa using List.find?_some hb
      rw [← code, not_isUser_code] at h
      cases h
  rw [decode, Decoder.bind_ok (Decoder.u8_cons b bytes)]
  simp only [ofCode, unknown]
  rfl

namespace Control

theorem not_isUser_of_decode {n : Nat} {b : UInt8} {bytes rest : Bytes} {m : Control}
    (h : Control.decode n (b :: bytes) = .ok m rest) : MessageId.isUser b = false := by
  by_contra user
  rw [Bool.not_eq_false] at user
  rw [Control.decode, Decoder.bind_error (MessageId.decode_of_isUser user)] at h
  cases h

/-! ### Lists of addresses -/

/-- The addresses in the list of a message. -/
def systemAddresses : Control → List Address
  | connectionAccepted _ _ systemAddresses _ _ | newConnection _ systemAddresses _ _ =>
    systemAddresses
  | _ => []

/-- All addresses of a message. -/
def addresses : Control → List Address
  | connectionAccepted address _ systemAddresses _ _ | newConnection address systemAddresses _ _ =>
    address :: systemAddresses
  | _ => []

/-- A message whose list of addresses, if it has one, is filled up to a length. -/
def filled (n : Nat) : Control → Control
  | connectionAccepted address systemIndex systemAddresses pingSentAt pongSentAt =>
    connectionAccepted address systemIndex (systemAddresses.rightpad n .unspecified) pingSentAt
      pongSentAt
  | newConnection address systemAddresses pingSentAt pongSentAt =>
    newConnection address (systemAddresses.rightpad n .unspecified) pingSentAt pongSentAt
  | m => m

theorem filled_of_length_le {n : Nat} {m : Control} (h : n ≤ m.systemAddresses.length) :
    m.filled n = m := by
  have same {l : List Address} (h : n ≤ l.length) : l.rightpad n .unspecified = l := by
    rw [List.rightpad, Nat.sub_eq_zero_of_le h, List.replicate_zero, List.append_nil]
  cases m with
  | connectionAccepted address systemIndex list t t' =>
    exact congrArg (connectionAccepted address systemIndex · t t') (same h)
  | newConnection address list t t' => exact congrArg (newConnection address · t t') (same h)
  | ping | pong | connectionRequest | disconnection => rfl

@[simp] theorem length_encodeTime (t : Int64) : (encodeTime t).length = 8 := by simp [encodeTime]

theorem decodeAddresses_succ {n : Nat} {more : Bool} {a : Address} {others : List Address}
    {bytes behind rest : Bytes} (look : Decoder.holds (timestampsLength + 1) bytes = .ok more bytes)
    (first : (if more then Address.decode else pure Address.unspecified) bytes = .ok a behind)
    (next : decodeAddresses n behind = .ok others rest) :
    decodeAddresses (n + 1) bytes = .ok (a :: others) rest := by
  cases more <;>
    exact (Decoder.bind_ok look).trans ((Decoder.bind_ok first).trans (Decoder.bind_ok next))

/-- **Addresses are read until only the timestamps are left.** Every address makes what is left
longer than these, whatever kind it is of. -/
theorem decodeAddresses_append {n : Nat} {list : List Address} (plain : ∀ a ∈ list, a.Plain)
    (enough : list.length ≤ n) {times : Bytes} (trailing : times.length = timestampsLength) :
    decodeAddresses n (list.flatMap Address.encode ++ times) =
      .ok (list.rightpad n .unspecified) times := by
  induction n generalizing list with
  | zero =>
    obtain rfl := List.eq_nil_of_length_eq_zero (Nat.le_zero.1 enough)
    rfl
  | succ n ih =>
    cases list with
    | nil =>
      have ended : Decoder.holds (timestampsLength + 1) times = .ok false times := by
        simp [Decoder.holds, trailing]
      exact decodeAddresses_succ ended rfl (ih plain (Nat.zero_le n))
    | cons a list =>
      have more (rest : Bytes) :
          Decoder.holds (timestampsLength + 1) (a.encode ++ (rest ++ times)) =
            .ok true (a.encode ++ (rest ++ times)) := by
        have := List.length_pos_iff.2 a.encode_ne_nil
        simp only [Decoder.holds, Decoder.hasAtLeast_eq, List.length_append, trailing]
        rw [decide_eq_true (by omega)]
      have first := (Address.delimits (plain a List.mem_cons_self)).whole
        (list.flatMap Address.encode ++ times)
      have others := ih (fun b hb => plain b (List.mem_cons_of_mem _ hb))
        (Nat.le_of_succ_le_succ enough)
      have longer : (a :: list).rightpad (n + 1) .unspecified =
          a :: list.rightpad n .unspecified := by simp [List.rightpad]
      rw [List.flatMap_cons, List.append_assoc, longer]
      exact decodeAddresses_succ (more _) first others

/-! ### Messages -/

/-- **A control message is read back** by a reader that expects at least as many addresses as it
has: those that were not written are unspecified, and nothing is left. -/
theorem decode_encode_filled {m : Control} (plain : ∀ a ∈ m.addresses, a.Plain) {n : Nat}
    (enough : m.systemAddresses.length ≤ n) :
    decode n m.encode = .ok (m.filled n) [] ∧
      (m.systemAddresses.length = n → decode n m.encode = .ok m []) := by
  have times {f : Int64 → Int64 → Control} (t t' : Int64) :
      Decoder.Delimits (do
        let pingSentAt ← Decoder.i64
        let pongSentAt ← Decoder.i64
        return f pingSentAt pongSentAt) (encodeTime t ++ encodeTime t') (f t t') :=
    (Decoder.delimits_i64 t).bind ((Decoder.delimits_i64 t').last _)
  have trailing (t t' : Int64) : (encodeTime t ++ encodeTime t').length = timestampsLength := by
    rw [List.length_append, length_encodeTime, length_encodeTime]
    rfl
  have read : decode n m.encode = .ok (m.filled n) [] := by
    cases m with
    | ping t =>
      exact ((MessageId.delimits .connectedPing).bind ((Decoder.delimits_i64 t).last _)).alone
    | pong t t' => exact ((MessageId.delimits .connectedPong).bind (times t t')).alone
    | connectionRequest guid t security =>
      rw [encode, encodeBody, List.append_assoc]
      exact ((MessageId.delimits .connectionRequest).bind ((Decoder.delimits_u64 guid).bind
        ((Decoder.delimits_i64 t).bind ((Decoder.delimits_bool security).last _)))).alone
    | connectionAccepted address systemIndex list t t' =>
      obtain ⟨first, others⟩ := List.forall_mem_cons.1 plain
      have list := decodeAddresses_append others enough (trailing t t')
      simp only [encode, encodeBody, List.append_assoc]
      exact (Decoder.bind_ok ((MessageId.delimits .connectionRequestAccepted).whole _)).trans <|
        (Decoder.bind_ok ((Address.delimits first).whole _)).trans <|
        (Decoder.bind_ok ((Decoder.delimits_u16 systemIndex).whole _)).trans <|
        (Decoder.bind_ok list).trans (times t t').alone
    | newConnection address list t t' =>
      obtain ⟨first, others⟩ := List.forall_mem_cons.1 plain
      have list := decodeAddresses_append others enough (trailing t t')
      simp only [encode, encodeBody, List.append_assoc]
      exact (Decoder.bind_ok ((MessageId.delimits .newIncomingConnection).whole _)).trans <|
        (Decoder.bind_ok ((Address.delimits first).whole _)).trans <|
        (Decoder.bind_ok list).trans (times t t').alone
    | disconnection =>
      exact ((MessageId.delimits .disconnectionNotification).last fun _ => disconnection).alone
  refine ⟨read, fun all => ?_⟩
  rw [read, filled_of_length_le all.ge]

/-- A list of both kinds of addresses is read as it was written by a reader that expects two, and
filled up by one that expects four. -/
theorem decode_encode_filled_mixed :
    let home : Address := .v6 1 19132 0 0
    let accepted (list : List Address) : Control := .connectionAccepted home 7 list (-1) 2
    let m := accepted [.v4 0x7f000001 80, home]
    (∀ a ∈ m.addresses, a.Plain) ∧ m.systemAddresses.length ≤ 4 ∧ decode 2 m.encode = .ok m [] ∧
      decode 4 m.encode =
        .ok (accepted [.v4 0x7f000001 80, home, .unspecified, .unspecified]) [] := by
  intro home accepted m
  have plain : ∀ a ∈ m.addresses, a.Plain :=
    List.forall_mem_cons.2 ⟨⟨rfl, rfl⟩, List.forall_mem_cons.2 ⟨trivial,
      List.forall_mem_singleton.2 ⟨rfl, rfl⟩⟩⟩
  have enough : m.systemAddresses.length ≤ 4 := by decide
  exact ⟨plain, enough, (decode_encode_filled plain (Nat.le_refl 2)).2 rfl,
    (decode_encode_filled plain enough).1⟩

end Control

end ReliableDatagram
