import ReliableDatagram.Proofs.Sender.Traffic

/-!
# The indices of what was sent

`Sender.Numbered` relates the counters of a sender to all that was posted: the message indices of
earlier messages lie below those of later ones, and so do the indices on each order channel, on
which the ordered messages are numbered without a gap.

* `Sender.Numbered.post`, `Sender.Numbered.advance`: every operation keeps it;
* `Sender.Numbered.split_ne`: as long as the number of a split message does not wrap, no two of
  them have the same;
* `Sender.Numbered.eq_of_message`, `Sender.Numbered.eq_of_order`: what the indices tell about a
  packet;
* `Posting.labelled`: the packets of all messages, each under the positions of its message and its
  piece, which tell apart packets that are equal.
-/

namespace ReliableDatagram

namespace Posting

/-- The indices of a message lie below those of a later one. -/
structure Before (q q' : Posting) : Prop where
  message : q.guarantee.isReliable → q'.guarantee.isReliable → q.first + q.pieces.length ≤ q'.first
  ordered : ∀ c, q.isOrderedOn c → q'.isOrderedOn c ∨ q'.isSequencedOn c → q.order < q'.order
  /-- A sequenced message shares its order index with the next ordered one. -/
  sequenced : ∀ c, q.isSequencedOn c → q'.isOrderedOn c → q.order ≤ q'.order
  sequence : ∀ c, q.isSequencedOn c → q'.isSequencedOn c → q.sequence < q'.sequence

/-- The indices of a message lie below the counters of a sender. -/
structure Below (q : Posting) (s : Sender) : Prop where
  message : q.guarantee.isReliable → q.first + q.pieces.length ≤ s.nextMessage
  ordered : ∀ c, q.isOrderedOn c → q.order < s.nextOrder.get c
  sequenced : ∀ c, q.isSequencedOn c → q.order ≤ s.nextOrder.get c
  sequence : ∀ c, q.isSequencedOn c → q.sequence < s.nextSequence.get c

theorem hasChannel_of_isOrderedOn {q : Posting} {c : Channel} (h : q.isOrderedOn c = true) :
    q.guarantee.hasChannel = true :=
  Guarantee.hasChannel_of_isOrdered (isOrderedOn_iff.1 h).1

theorem hasChannel_of_isSequencedOn {q : Posting} {c : Channel} (h : q.isSequencedOn c = true) :
    q.guarantee.hasChannel = true :=
  Guarantee.hasChannel_of_isSequenced (isSequencedOn_iff.1 h).1

theorem not_isSequencedOn_of_isOrderedOn {q : Posting} {c d : Channel}
    (h : q.isOrderedOn c = true) : q.isSequencedOn d = false := by
  obtain ⟨ho, -⟩ := isOrderedOn_iff.1 h
  unfold isSequencedOn
  revert ho
  cases q.guarantee <;> simp [Guarantee.isOrdered, Guarantee.isSequenced]

/-! ### Labels -/

/-- The packets of all messages, each under the positions of its message and of its piece. -/
def labelled (posted : List Posting) : List ((Nat × Nat) × Packet) :=
  posted.zipIdx.flatMap fun (q, i) => q.packets.zipIdx.map fun (p, j) => ((i, j), p)

variable {posted : List Posting}

theorem map_snd_labelled : (labelled posted).map Prod.snd = posted.flatMap packets := by
  have packets (x : Posting × Nat) :
      (x.1.packets.zipIdx.map fun (p, j) => ((x.2, j), p)).map Prod.snd = x.1.packets := by
    rw [List.map_map]
    exact List.zipIdx_map_fst ..
  calc
    (labelled posted).map Prod.snd = posted.zipIdx.flatMap fun x => x.1.packets := by
      rw [labelled, List.map_flatMap]
      exact List.flatMap_congr fun x _ => packets x
    _ = (posted.zipIdx.map Prod.fst).flatMap Posting.packets := by rw [List.flatMap_map]
    _ = posted.flatMap Posting.packets := by rw [List.zipIdx_map_fst]

theorem mem_labelled {i j : Nat} {p : Packet} :
    ((i, j), p) ∈ labelled posted ↔ ∃ q, posted[i]? = some q ∧ q.packets[j]? = some p := by
  simp only [labelled, List.mem_flatMap, List.mem_map, Prod.exists, Prod.mk.injEq,
    List.mem_zipIdx_iff_getElem?]
  constructor
  · rintro ⟨q, i, hq, p, j, hp, ⟨rfl, rfl⟩, rfl⟩
    exact ⟨q, hq, hp⟩
  · rintro ⟨q, hq, hp⟩
    exact ⟨q, i, hq, p, j, hp, ⟨rfl, rfl⟩, rfl⟩

theorem nodup_labelled : ((labelled posted).map Prod.fst).Nodup := by
  -- positions in a list are all different
  have positions {α : Type} (l : List α) : l.zipIdx.Pairwise fun x y => x.2 ≠ y.2 := by
    have : (l.zipIdx.map Prod.snd).Nodup := by
      rw [List.zipIdx_map_snd]
      exact List.nodup_range'
    rwa [List.Nodup, List.pairwise_map] at this
  rw [labelled, List.map_flatMap, List.nodup_flatMap]
  constructor
  · rintro ⟨q, i⟩ -
    rw [List.map_map, List.Nodup, List.pairwise_map]
    exact (positions q.packets).imp fun h e => h (Prod.mk.inj e).2
  · refine (positions posted).imp fun h => ?_
    rintro ⟨i, j⟩ hx hy
    simp only [List.mem_map] at hx hy
    obtain ⟨_, ⟨_, -, rfl⟩, hx⟩ := hx
    obtain ⟨_, ⟨_, -, rfl⟩, hy⟩ := hy
    exact h ((Prod.mk.inj hx).1.trans (Prod.mk.inj hy).1.symm)

end Posting

namespace Sender

variable {limits : SenderLimits} {s s' s'' : Sender} {posted : List Posting} {q : Posting}

theorem Posts.order_of_ordered (p : s.Posts limits q s') {c : Channel}
    (hc : q.isOrderedOn c = true) : q.order = s.nextOrder.get c :=
  p.order c (Posting.isOrderedOn_iff.1 hc).2 (Posting.hasChannel_of_isOrderedOn hc)

theorem Posts.order_of_sequenced (p : s.Posts limits q s') {c : Channel}
    (hc : q.isSequencedOn c = true) : q.order = s.nextOrder.get c :=
  p.order c (Posting.isSequencedOn_iff.1 hc).2 (Posting.hasChannel_of_isSequencedOn hc)

/-- How the counters of a sender relate to what was posted. -/
structure Numbered (limits : SenderLimits) (s : Sender) (posted : List Posting) : Prop where
  formed : ∀ q ∈ posted, q.Formed limits
  below : ∀ q ∈ posted, q.Below s
  before : posted.Pairwise Posting.Before
  /-- The reliable packets are numbered without a gap. -/
  messages : (posted.flatMap Posting.packets).filterMap (·.header.message?) =
    List.range s.nextMessage
  /-- The ordered messages of a channel are numbered without a gap. -/
  orders : ∀ c, (posted.filter (·.isOrderedOn c)).map Posting.order = List.range (s.nextOrder.get c)
  splits : (posted.filter (·.isSplit limits)).map Posting.split =
    (List.range' 1 (posted.filter (·.isSplit limits)).length).map UInt16.ofNat
  lastSplit : s.lastSplit = UInt16.ofNat (posted.filter (·.isSplit limits)).length

theorem numbered_empty : Numbered limits empty [] where
  formed _ h := absurd h List.not_mem_nil
  below _ h := absurd h List.not_mem_nil
  before := .nil
  messages := rfl
  orders c := by simp [empty]
  splits := rfl
  lastSplit := rfl

/-- What was posted stays below the counters. -/
theorem below_of_advances (h : s.Advances s') (hq : q.Below s) : q.Below s' := by
  obtain ⟨-, hm, ho, hs, -⟩ := h
  constructor
  · rw [hm]
    exact hq.message
  · rw [ho]
    exact hq.ordered
  · rw [ho]
    exact hq.sequenced
  · rw [hs]
    exact hq.sequence

namespace Numbered

theorem advance (n : s.Numbered limits posted) (h : s.Advances s') :
    s'.Numbered limits posted where
  formed := n.formed
  below q hq := below_of_advances h (n.below q hq)
  before := n.before
  messages := by rw [h.nextMessage, n.messages]
  orders c := by rw [h.nextOrder, n.orders c]
  splits := n.splits
  lastSplit := h.lastSplit.trans n.lastSplit

/-- **A new message gets indices above all those drawn before.** -/
theorem post (n : s.Numbered limits posted) (p : s.Posts limits q s')
    (h : s'.Hands q q.pieces s'') : s''.Numbered limits (posted ++ [q]) := by
  constructor
  case formed =>
    intro r hr
    rcases List.mem_append.1 hr with hr | hr
    · exact n.formed r hr
    · rw [List.mem_singleton.1 hr]
      exact p.formed
  case below =>
    intro r hr
    rcases List.mem_append.1 hr with hr | hr
    · have b := n.below r hr
      constructor
      · intro hrel
        have := b.message hrel
        rw [h.nextMessage, p.nextMessage]
        split_ifs <;> omega
      · intro c hc
        have := b.ordered c hc
        rw [h.nextOrder, p.nextOrder]
        split_ifs <;> omega
      · intro c hc
        have := b.sequenced c hc
        rw [h.nextOrder, p.nextOrder]
        split_ifs <;> omega
      · intro c hc
        have := b.sequence c hc
        rw [h.nextSequence, p.nextSequence]
        split_ifs <;> omega
    · rw [List.mem_singleton.1 hr]
      constructor
      · intro hrel
        rw [h.nextMessage, if_pos hrel, p.nextMessage, p.first]
      · intro c hc
        rw [h.nextOrder, p.nextOrder, if_pos hc, p.order_of_ordered hc]
        exact Nat.lt_succ_self _
      · intro c hc
        rw [h.nextOrder, p.nextOrder, p.order_of_sequenced hc]
        split_ifs <;> omega
      · intro c hc
        rw [h.nextSequence, p.nextSequence, if_pos hc, p.sequence c hc]
        exact Nat.lt_succ_self _
  case before =>
    refine List.pairwise_append.2 ⟨n.before, List.pairwise_singleton _ _, fun r hr r' hr' => ?_⟩
    rw [List.mem_singleton.1 hr']
    have b := n.below r hr
    constructor
    · intro hrel _
      rw [p.first]
      exact b.message hrel
    · rintro c hc (hc' | hc')
      · rw [p.order_of_ordered hc']
        exact b.ordered c hc
      · rw [p.order_of_sequenced hc']
        exact b.ordered c hc
    · intro c hc hc'
      rw [p.order_of_ordered hc']
      exact b.sequenced c hc
    · intro c hc hc'
      rw [p.sequence c hc']
      exact b.sequence c hc
  case messages =>
    rw [List.flatMap_append, List.flatMap_singleton, List.filterMap_append, n.messages,
      Posting.filterMap_message?_packets, h.nextMessage, p.nextMessage, p.first]
    split_ifs
    · rw [List.range_eq_range', List.range_eq_range', ← List.range'_append_1, Nat.zero_add]
    · rw [List.append_nil]
  case orders =>
    intro c
    rw [List.filter_append, List.map_append, n.orders c, h.nextOrder, p.nextOrder]
    by_cases hc : q.isOrderedOn c = true
    · rw [if_pos hc, List.range_succ, List.filter_cons_of_pos hc, List.filter_nil,
        List.map_singleton, p.order_of_ordered hc]
    · rw [if_neg hc, List.filter_cons_of_neg hc, List.filter_nil, List.map_nil, List.append_nil]
  case splits =>
    rw [List.filter_append, List.map_append, n.splits, List.length_append]
    by_cases hs : q.isSplit limits = true
    · rw [List.filter_cons_of_pos hs, List.filter_nil, List.map_singleton, List.length_singleton,
        List.range'_1_concat, List.map_append, List.map_singleton, p.split, p.lastSplit, if_pos hs,
        n.lastSplit, Nat.add_comm 1, UInt16.ofNat_add]
      rfl
    · rw [List.filter_cons_of_neg hs, List.filter_nil, List.map_nil, List.append_nil,
        List.length_nil, Nat.add_zero]
  case lastSplit =>
    rw [List.filter_append, List.length_append, h.lastSplit, p.lastSplit, n.lastSplit]
    by_cases hs : q.isSplit limits = true
    · rw [if_pos hs, List.filter_cons_of_pos hs, List.filter_nil, List.length_singleton,
        UInt16.ofNat_add]
      rfl
    · rw [if_neg hs, List.filter_cons_of_neg hs, List.filter_nil, List.length_nil, Nat.add_zero]

variable (n : s.Numbered limits posted)

include n

/-- **Split messages have different numbers** as long as there are not more than there are
numbers. -/
theorem split_ne (few : (posted.filter (·.isSplit limits)).length ≤ 65536) :
    posted.Pairwise fun q q' => q.isSplit limits → q'.isSplit limits → q.split ≠ q'.split := by
  -- the numbers from 1 on, of which at most the last one wraps, to zero
  have distinct : ((posted.filter (·.isSplit limits)).map Posting.split).Nodup := by
    rw [n.splits]
    refine List.Nodup.map_on (fun a ha b hb hab => ?_) List.nodup_range'
    rw [List.mem_range'_1] at ha hb
    have := congrArg UInt16.toNat hab
    rw [UInt16.toNat_ofNat', UInt16.toNat_ofNat'] at this
    omega
  rw [List.Nodup, List.pairwise_map, List.pairwise_filter] at distinct
  exact distinct

omit n in
theorem length_ordered_le (nonempty : ∀ q ∈ posted, 0 < q.pieces.length) (c : Channel) :
    (posted.filter (·.isOrderedOn c)).length ≤
      ((posted.flatMap Posting.packets).filterMap (·.header.message?)).length := by
  induction posted with
  | nil => exact Nat.le_refl 0
  | cons q posted ih =>
    have rest := ih fun q' hq' => nonempty q' (List.mem_cons_of_mem _ hq')
    have pos := nonempty q List.mem_cons_self
    rw [List.flatMap_cons, List.filterMap_append, List.length_append,
      Posting.filterMap_message?_packets]
    by_cases hc : q.isOrderedOn c = true
    · have reliable : q.guarantee.isReliable = true := by
        obtain ⟨ho, -⟩ := Posting.isOrderedOn_iff.1 hc
        revert ho
        cases q.guarantee <;> decide
      rw [List.filter_cons_of_pos hc, if_pos reliable, List.length_cons, List.length_range',
        Nat.add_comm q.pieces.length]
      exact Nat.add_le_add rest pos
    · rw [List.filter_cons_of_neg hc]
      exact Nat.le_add_left_of_le rest

theorem before_of_lt {i i' : Nat} (hlt : i < i') {q q' : Posting} (hq : posted[i]? = some q)
    (hq' : posted[i']? = some q') : q.Before q' := by
  obtain ⟨hi, rfl⟩ := List.getElem?_eq_some_iff.1 hq
  obtain ⟨hi', rfl⟩ := List.getElem?_eq_some_iff.1 hq'
  exact List.pairwise_iff_getElem.1 n.before i i' hi hi' hlt

/-- **A message index tells which piece of which message a packet is.** -/
theorem eq_of_message {i i' j j' : Nat} {q q' : Posting} (hq : posted[i]? = some q)
    (hq' : posted[i']? = some q') (hj : j < q.pieces.length) (hj' : j' < q'.pieces.length)
    (hr : q.guarantee.isReliable = true) (hr' : q'.guarantee.isReliable = true)
    (e : q.first + j = q'.first + j') : i = i' ∧ j = j' := by
  rcases Nat.lt_trichotomy i i' with hlt | rfl | hlt
  · have := (n.before_of_lt hlt hq hq').message hr hr'
    omega
  · obtain rfl := Option.some.inj (hq.symm.trans hq')
    exact ⟨rfl, by omega⟩
  · have := (n.before_of_lt hlt hq' hq).message hr' hr
    omega

/-- **An order index tells which ordered message of its channel a packet is.** -/
theorem eq_of_order {i i' : Nat} {q q' : Posting} {c : Channel} (hq : posted[i]? = some q)
    (hq' : posted[i']? = some q') (ho : q.isOrderedOn c = true) (ho' : q'.isOrderedOn c = true)
    (e : q.order = q'.order) : i = i' := by
  rcases Nat.lt_trichotomy i i' with hlt | rfl | hlt
  · exact absurd e (Nat.ne_of_lt ((n.before_of_lt hlt hq hq').ordered c ho (.inl ho')))
  · rfl
  · exact absurd e.symm (Nat.ne_of_lt ((n.before_of_lt hlt hq' hq).ordered c ho' (.inl ho)))

end Numbered

end Sender

end ReliableDatagram
