import ReliableDatagram.Proofs.Receiver.Drained
import ReliableDatagram.Proofs.Receiver.Window

/-!
# Ordered packets of any peer

A peer may repeat order indices under different message indices, leave some out, and send more early
packets than a stream may hold.  The ordered packets of a channel come out numbered from zero on all
the same, since the stream counts what it puts out and not what comes.  And nothing that could come
out waits: the packet that is due brings all with it that follow on.

* `Stream.release_run`: what is released is all that follows on without a gap;
* `Receiver.Due`: a packet that is handled is the next one on its channel, or completes it;
* `Receiver.comesInTurn_run`: which ordered packets come out, over every run, and when.
-/

namespace ReliableDatagram

namespace Stream

/-- **All that follows on is released**: the packet after the last one is not held. -/
theorem release_run (next : Nat) (held : IndexMap Packet) :
    ∃ rest run, release held.size next held = (next + run.length, rest, run) ∧
      ∀ k ≤ run.length, held[next + k]? = run[k]? := by
  have gap := release_stops next (Nat.le_refl held.size)
  obtain ⟨rest, run, hrun, hheld, hrest⟩ := release_eq held.size next held
  refine ⟨rest, run, hrun, fun k hk => ?_⟩
  rcases Nat.lt_or_eq_of_le hk with lt | rfl
  · rw [List.getElem?_eq_getElem lt]
    exact hheld k _ (List.getElem?_eq_getElem lt)
  · rw [hrun] at gap
    simp only [hrest, lt_irrefl, and_false, if_false] at gap
    rw [gap, List.getElem?_eq_none (Nat.le_refl _)]

theorem acceptOrdered_next (capacity : Nat) {s : Stream} {order : Nat} (next : order = s.nextOrder)
    (p : Packet) :
    ∃ run, (s.acceptOrdered capacity order p).2 = p :: run ∧
      (s.acceptOrdered capacity order p).1.nextOrder = order + 1 + run.length ∧
      ∀ k ≤ run.length, s.held[order + 1 + k]? = run[k]? := by
  obtain ⟨rest, run, hrun, hheld⟩ := release_run (order + 1) s.held
  rw [acceptOrdered, if_pos next, hrun]
  exact ⟨run, rfl, rfl, hheld⟩

end Stream

namespace Receiver

variable {limits : ReceiverLimits} {r : Receiver} {p w : Packet} {c : Channel}

/-- A packet that is handled passes the filter and makes an ordered packet whole that is the next
one on its channel. -/
structure Due (limits : ReceiverLimits) (r : Receiver) (c : Channel) (p w : Packet) : Prop where
  fresh : ∀ n, p.header.message? = some n → (r.messages.insert n).2 = true
  whole : (r.reassembly.add limits.maxParts limits.maxAssemblies p).2 = some w
  ordered : w.isOrderedOn c = true
  next : w.order = (r.streams.get c).nextOrder

/-- **The packet that is due comes out at once**, with all that follow on. -/
theorem Due.accept (due : r.Due limits c p w) :
    ∃ run, (r.accept limits p).2 = w :: run ∧
      ((r.accept limits p).1.streams.get c).nextOrder = w.order + 1 + run.length ∧
      ∀ k ≤ run.length, (r.streams.get c).held[w.order + 1 + k]? = run[k]? := by
  obtain ⟨streams, delivered⟩ := accept_of_whole due.fresh due.whole
  obtain ⟨run, out, nextOrder, held⟩ := Stream.acceptOrdered_next limits.window due.next w
  rw [PerChannel.deliver_ordered due.ordered] at streams delivered
  refine ⟨run, delivered.trans out, ?_, held⟩
  rw [streams, PerChannel.get_set, if_pos rfl]
  exact nextOrder

theorem exists_released (limits : ReceiverLimits) (inputs : List Input) :
    ∃ packets, Digested limits packets (runAll (handle limits) (empty limits) inputs).1 ∧
      (released limits packets).2 = (runAll (handle limits) (empty limits) inputs).2 := by
  refine runAll_history (P := fun _ (r : Receiver) out =>
    ∃ packets, Digested limits packets r ∧ (released limits packets).2 = out)
    ⟨[], digested_empty, rfl⟩ inputs ?_
  rintro - i r out - ⟨packets, digested, rfl⟩
  exact ⟨_, digested.handle i⟩

/-- The ordered packets of a channel come out in turn. -/
structure InTurn (limits : ReceiverLimits) (c : Channel) (r : Receiver) (delivered : List Packet) :
    Prop where
  orders : (delivered.filter (·.isOrderedOn c)).map Packet.order =
    List.range (r.streams.get c).nextOrder
  /-- What is held is early, under its own order index. -/
  held : ∀ (k : Nat) (q : Packet), (r.streams.get c).held[k]? = some q →
    q.isOrderedOn c = true ∧ q.order = k ∧ (r.streams.get c).nextOrder < k
  /-- As soon as the packet that is due is handled, it comes out, and behind it all that is held
  then and follows on without a gap. -/
  prompt : ∀ d, r.admits d.number = true → ∀ front p back, d.packets = front ++ p :: back →
    ∀ r' before, runAll (accept limits) (r.noteArrival d.number) front = (r', before) →
      ∀ w, r'.Due limits c p w →
        ∃ run after, (r.receive limits d).2 = before ++ w :: (run ++ after) ∧
          ∀ k ≤ run.length, (r'.streams.get c).held[w.order + 1 + k]? = run[k]?

/-- **Ordered packets come out in turn**, whatever a peer sends: over every run those of a channel
have the order indices from zero up to the one that the channel expects, and none of them waits
longer than it has to. -/
theorem comesInTurn_run (limits : ReceiverLimits) (inputs : List Input) (c : Channel) :
    let s := runAll (handle limits) (empty limits) inputs
    s.1.InTurn limits c s.2 := by
  intro s
  obtain ⟨packets, digested, out⟩ := exists_released limits inputs
  have streamed := streamed_released limits packets
  have early : ((released limits packets).1.get c).Early :=
    PerChannel.early_runAll limits.window (wholes limits packets).2 c
  rw [← digested.streams] at early streamed
  rw [out] at streamed
  constructor
  case orders => exact streamed.orders c
  case held =>
    intro k q hq
    obtain ⟨-, ordered, order⟩ := streamed.held c k q hq
    exact ⟨ordered, order, early k q hq⟩
  case prompt =>
    intro d admits front p back packets r before handled w due
    obtain ⟨run, come, -, held⟩ := due.accept
    refine ⟨run, (runAll (accept limits) (r.accept limits p).1 back).2, ?_, held⟩
    rw [receive, if_pos admits, packets, runAll_append, handled, runAll_cons, come,
      List.cons_append]

/-- Order index one comes twice, the second time as a split message, and two is left out.  Zero
brings what came last under one with it, and comes again in vain. -/
theorem comesInTurn_run_repeated :
    let limits : ReceiverLimits := { window := 8, maxParts := 8, maxAssemblies := 1 }
    let c : Channel := ⟨3, by decide⟩
    let packet (message order : Nat) (payload : Bytes) (part : Option Part) : Packet :=
      { header := .reliableOrdered message { order, channel := 3 }, part, payload }
    let inputs : List Input :=
      [.arrival { number := 0, packets := [packet 5 1 [1] none, packet 0 1 [2] (some ⟨9, 0, 2⟩)] },
        .update,
        .arrival { number := 2, packets := [packet 2 3 [4] none, packet 1 1 [3] (some ⟨9, 1, 2⟩)] }]
    let p := packet 3 0 [0] none
    let d : Datagram := { number := 3, packets := [p, packet 4 0 [5] none] }
    let s := runAll (handle limits) (empty limits) inputs
    s.1.InTurn limits c s.2 ∧ (s.1.noteArrival 3).Due limits c p p ∧
      (∃ run after, (s.1.receive limits d).2 = p :: (run ++ after) ∧
        ∀ k ≤ run.length, ((s.1.noteArrival 3).streams.get c).held[1 + k]? = run[k]?) ∧
      (s.1.receive limits d).2.map (fun p => (p.order, p.payload)) = [(0, [0]), (1, [2, 3])] := by
  intro limits c packet inputs p d s
  have inTurn : s.1.InTurn limits c s.2 := comesInTurn_run limits inputs c
  have due : (s.1.noteArrival 3).Due limits c p p := by
    refine ⟨fun n hn => ?_, by decide +kernel, by decide +kernel, by decide +kernel⟩
    obtain rfl : 3 = n := Option.some.inj hn
    decide +kernel
  have out := inTurn.prompt d (by decide +kernel) [] _ _ rfl _ [] rfl _ due
  exact ⟨inTurn, due, out, by decide +kernel⟩

end Receiver

end ReliableDatagram
