import ReliableDatagram.Proofs.Receiver.Reassembly
import ReliableDatagram.Proofs.Sender.Numbering
import ReliableDatagram.Proofs.Wire.Packet

/-!
# Messages made whole again

What reassembly makes of the packets of posted messages, if no packet comes to it twice and no two
split messages share a number.

* `Posting.Assembles`: which messages have come out, and what the assemblies hold;
* `Posting.Assembles.feed`: one packet keeps this;
* `Posting.Distinct.exists_assembles`: what comes out of a run are messages that were posted, no
  message twice;
* `Posting.whole_comes`, `Posting.Distinct.part_kept`: what becomes of a packet that comes.
-/

namespace ReliableDatagram

namespace Posting

/-- A packet is a message as it was posted: whole, and under the header of one of its packets. -/
structure Carried (q : Posting) (p : Packet) : Prop where
  payload : p.payload = q.message.payload
  header : ∃ j < q.pieces.length, p.header = q.header j
  part : p.part = none

/-- A packet is the message at a position of a list of postings. -/
def CarriedAt (posted : List Posting) (i : Nat) (p : Packet) : Prop :=
  ∃ q, posted[i]? = some q ∧ q.Carried p

/-- A packet under the positions of its message and of its piece. -/
abbrev Labelled := (Nat × Nat) × Packet

/-- An assembly holds pieces of the message at a position, all of which have come. -/
structure Held (done : List Labelled) (i : Nat) (q : Posting) (a : Assembly) : Prop where
  valid : a.Valid
  count : a.count = q.pieces.length
  slots : ∀ (j : Nat) (payload : Bytes), a.slots[j]? = some (some payload) →
    (i, j) ∈ done.map Prod.fst ∧ (q.pieces.map Piece.payload)[j]? = some payload

/-- What reassembly has made of the packets that have come. -/
structure Assembles (limits : SenderLimits) (posted : List Posting) (done : List Labelled)
    (r : Reassembly) (ids : List Nat) (out : List Packet) : Prop where
  assembly : ∀ split a, r.assemblies.get? split = some a → ∃ (i : Nat) (q : Posting),
    posted[i]? = some q ∧ q.isSplit limits = true ∧ q.split = split ∧ q.Held done i a
  carried : List.Forall₂ (CarriedAt posted) ids out
  nodup : ids.Nodup
  /-- Every piece of a message that has come out has come. -/
  complete : ∀ i ∈ ids, ∀ q, posted[i]? = some q → ∀ j < q.pieces.length,
    (i, j) ∈ done.map Prod.fst
  /-- No message that has come out is in assembly. -/
  closed : ∀ i ∈ ids, ∀ q, posted[i]? = some q → q.isSplit limits = true →
    r.assemblies.get? q.split = none

variable {limits : SenderLimits} {bounds : ReceiverLimits} {posted : List Posting}
  {done : List Labelled} {r : Reassembly} {ids : List Nat} {out : List Packet}

theorem Held.mono {i : Nat} {q : Posting} {a : Assembly} (h : q.Held done i a) (x : Labelled) :
    q.Held (done ++ [x]) i a where
  valid := h.valid
  count := h.count
  slots j payload hj := by
    obtain ⟨hdone, hpiece⟩ := h.slots j payload hj
    rw [List.map_append]
    exact ⟨List.mem_append_left _ hdone, hpiece⟩

theorem held_empty (done : List Labelled) (i : Nat) (q : Posting) :
    q.Held done i (.empty q.pieces.length) where
  valid := Assembly.valid_empty _
  count := rfl
  slots j payload hj := absurd hj (Assembly.getElem?_empty _ j payload)

theorem Held.store {i j : Nat} {q : Posting} {a : Assembly} {piece : Piece} (h : q.Held done i a)
    (hj : q.pieces[j]? = some piece) (p : Packet) :
    q.Held (done ++ [((i, j), p)]) i (a.store j piece.payload) := by
  obtain ⟨hlt, hpiece⟩ := List.getElem?_eq_some_iff.1 hj
  have hcount : j < a.count := h.count.symm ▸ hlt
  refine ⟨h.valid.store hcount _, h.count, fun k payload hk => ?_⟩
  rw [Assembly.getElem?_store (h.valid.length.symm ▸ hcount)] at hk
  split_ifs at hk with hkj
  · cases hk
    subst hkj
    rw [List.map_append, List.getElem?_map, hj]
    exact ⟨List.mem_append_right _ (List.mem_singleton_self _), rfl⟩
  · exact (h.mono _).slots k payload hk

theorem assembles_empty : Assembles limits posted [] .empty [] [] where
  assembly split a h := by simp [Reassembly.empty] at h
  carried := .nil
  nodup := .nil
  complete i h := absurd h List.not_mem_nil
  closed i h := absurd h List.not_mem_nil

theorem eq_of_split_eq
    (distinct : posted.Pairwise fun q q' => q.isSplit limits → q'.isSplit limits →
      q.split ≠ q'.split)
    {i i' : Nat} {q q' : Posting} (hq : posted[i]? = some q) (hq' : posted[i']? = some q')
    (hs : q.isSplit limits = true) (hs' : q'.isSplit limits = true) (e : q.split = q'.split) :
    i = i' := by
  obtain ⟨hi, hqi⟩ := List.getElem?_eq_some_iff.1 hq
  obtain ⟨hi', hqi'⟩ := List.getElem?_eq_some_iff.1 hq'
  rw [List.pairwise_iff_getElem] at distinct
  rcases Nat.lt_trichotomy i i' with hlt | hii | hlt
  · have := distinct i i' hi hi' hlt
    rw [hqi, hqi'] at this
    exact absurd e (this hs hs')
  · exact hii
  · have := distinct i' i hi' hi hlt
    rw [hqi, hqi'] at this
    exact absurd e.symm (this hs' hs)

namespace Assembles

variable (h : Assembles limits posted done r ids out)
  (distinct : posted.Pairwise fun q q' => q.isSplit limits → q'.isSplit limits → q.split ≠ q'.split)

include h

theorem mono (x : Labelled) : Assembles limits posted (done ++ [x]) r ids out where
  assembly split a ha := by
    obtain ⟨i, q, hq, hs, hsplit, held⟩ := h.assembly split a ha
    exact ⟨i, q, hq, hs, hsplit, held.mono x⟩
  carried := h.carried
  nodup := h.nodup
  complete i hi q hq j hj := by
    rw [List.map_append]
    exact List.mem_append_left _ (h.complete i hi q hq j hj)
  closed := h.closed

/-- A message comes out, a piece of which has come only now. -/
theorem emit {i j : Nat} {q : Posting} {p w : Packet} (fresh : (i, j) ∉ done.map Prod.fst)
    (hq : posted[i]? = some q) (hj : j < q.pieces.length) (hw : q.Carried w)
    (all : ∀ k < q.pieces.length, (i, k) ∈ (done ++ [((i, j), p)]).map Prod.fst)
    {r' : Reassembly} (sub : ∀ split a, r'.assemblies.get? split = some a →
      r.assemblies.get? split = some a)
    (gone : q.isSplit limits = true → r'.assemblies.get? q.split = none) :
    Assembles limits posted (done ++ [((i, j), p)]) r' (ids ++ [i]) (out ++ [w]) := by
  have h' := h.mono ((i, j), p)
  constructor
  case assembly => exact fun split a ha => h'.assembly split a (sub split a ha)
  case carried => exact List.rel_append h.carried (.cons ⟨q, hq, hw⟩ .nil)
  case nodup =>
    refine List.nodup_append.2 ⟨h.nodup, List.nodup_singleton i, ?_⟩
    rintro k hk _ hi rfl
    rw [List.mem_singleton.1 hi] at hk
    exact fresh (h.complete i hk q hq j hj)
  case complete =>
    intro k hk q' hq' n hn
    rcases List.mem_append.1 hk with hk | hk
    · exact h'.complete k hk q' hq' n hn
    · obtain rfl := List.mem_singleton.1 hk
      obtain rfl := Option.some.inj (hq.symm.trans hq')
      exact all n hn
  case closed =>
    intro k hk q' hq' hs'
    rcases List.mem_append.1 hk with hk | hk
    · have none := h.closed k hk q' hq' hs'
      cases ha : r'.assemblies.get? q'.split with
      | none => rfl
      | some a => exact absurd (sub _ a ha) (by simp [none])
    · obtain rfl := List.mem_singleton.1 hk
      obtain rfl := Option.some.inj (hq.symm.trans hq')
      exact gone hs'

include distinct

variable (bounds)

/-- The assembly of a split message, if there is one, holds pieces of that message. -/
theorem held {i : Nat} {q : Posting} (hq : posted[i]? = some q) (hs : q.isSplit limits = true)
    {a : Assembly} (ha : r.assemblies.get? q.split = some a) : q.Held done i a := by
  obtain ⟨i', q', hq', hs', hsplit, held⟩ := h.assembly q.split a ha
  obtain rfl := eq_of_split_eq distinct hq hq' hs hs' hsplit.symm
  obtain rfl := Option.some.inj (hq.symm.trans hq')
  exact held

theorem held_getD {i : Nat} {q : Posting} (hq : posted[i]? = some q)
    (hs : q.isSplit limits = true) :
    q.Held done i ((r.assemblies.get? q.split).getD (.empty q.pieces.length)) := by
  cases ha : r.assemblies.get? q.split with
  | none => exact held_empty done i q
  | some a => exact h.held distinct hq hs ha

/-- **One packet of a message comes to reassembly.** -/
theorem feed (formed : ∀ q ∈ posted, q.Formed limits) {i j : Nat} {p : Packet}
    (mem : ((i, j), p) ∈ labelled posted)
    (fresh : (i, j) ∉ done.map Prod.fst) :
    (∀ w ∈ (r.feed bounds p.onWire).2, CarriedAt posted i w) ∧
      Assembles limits posted (done ++ [((i, j), p)]) (r.feed bounds p.onWire).1
        (ids ++ (r.feed bounds p.onWire).2.map fun _ => i)
        (out ++ (r.feed bounds p.onWire).2) := by
  obtain ⟨q, hq, hp⟩ := mem_labelled.1 mem
  rw [getElem?_packets, Option.map_eq_some_iff] at hp
  obtain ⟨piece, hpiece, rfl⟩ := hp
  have f := formed q (List.mem_of_getElem? hq)
  obtain ⟨hj, -⟩ := List.getElem?_eq_some_iff.1 hpiece
  by_cases hs : q.isSplit limits = true
  · have hpart := f.part_eq hs hpiece
    have held : q.Held (done ++ [((i, j), q.packet piece j)]) i
        (r.assembly { split := q.split, index := j, count := q.pieces.length } piece.payload) :=
      (h.held_getD distinct hq hs).store hpiece _
    rcases Reassembly.feed_of_part bounds r (p := (q.packet piece j).onWire) hpart
      with ⟨-, hfeed⟩ | ⟨-, -, hfeed⟩ | ⟨-, hcomplete, hfeed⟩
    · -- the part is refused: it has come, and nothing else has changed
      rw [hfeed]
      refine ⟨fun w hw => absurd hw List.not_mem_nil, ?_⟩
      rw [List.map_nil, List.append_nil, List.append_nil]
      exact h.mono _
    · -- the part is stored, and others are missing
      rw [hfeed]
      refine ⟨fun w hw => absurd hw List.not_mem_nil, ?_⟩
      rw [List.map_nil, List.append_nil, List.append_nil]
      refine ⟨fun split a ha => ?_, h.carried, h.nodup, (h.mono _).complete,
        fun k hk q' hq' hs' => ?_⟩
      · rw [Table.get?_insert] at ha
        split_ifs at ha with hsplit
        · cases ha
          exact ⟨i, q, hq, hs, hsplit.symm, held⟩
        · exact (h.mono _).assembly split a ha
      · rw [Table.get?_insert, if_neg fun e => fresh ?_]
        · exact h.closed k hk q' hq' hs'
        · obtain rfl := eq_of_split_eq distinct hq' hq hs' hs e
          exact h.complete k hk q hq j hj
    · -- the last part: the slots hold all the pieces of the message
      have content := held.valid.content_eq hcomplete (q.pieces.map Piece.payload)
        (by rw [List.length_map, held.count]) fun k payload hk => (held.slots k payload hk).2
      have carried : q.Carried { header := q.header j, payload := _ } :=
        ⟨content.trans (f.flatten_payloads (List.mem_of_getElem? hpiece)), ⟨j, hj, rfl⟩, rfl⟩
      rw [hfeed]
      refine ⟨fun w hw => List.mem_singleton.1 hw ▸ ⟨q, hq, carried⟩,
        h.emit fresh hq hj carried (fun k hk => ?_) (fun split a ha => ?_) fun _ => ?_⟩
      · obtain ⟨payload, hk⟩ := held.valid.exists_getElem? hcomplete (held.count.symm ▸ hk)
        exact (held.slots k payload hk).1
      · rw [Table.get?_erase] at ha
        split_ifs at ha
        exact ha
      · rw [Table.get?_erase, if_pos rfl]
  · have hwhole := f.eq_whole hs
    have hj0 : j = 0 := by
      rw [hwhole, List.length_singleton] at hj
      omega
    subst hj0
    obtain rfl : piece = .whole q.message.payload := by
      rw [hwhole] at hpiece
      exact (Option.some.inj hpiece).symm
    have carried : q.Carried (q.packet (.whole q.message.payload) 0).onWire :=
      ⟨rfl, ⟨0, hj, rfl⟩, rfl⟩
    rw [Reassembly.feed_of_no_part rfl]
    refine ⟨fun w hw => List.mem_singleton.1 hw ▸ ⟨q, hq, carried⟩,
      h.emit fresh hq hj carried (fun k hk => ?_) (fun _ _ => id) fun h => absurd h hs⟩
    rw [hwhole, List.length_singleton, Nat.lt_one_iff] at hk
    rw [hk, List.map_append]
    exact List.mem_append_right _ (List.mem_singleton_self _)

/-- **What is held stays held** until its message comes out. -/
theorem feed_keeps (formed : ∀ q ∈ posted, q.Formed limits) {i i' j j' : Nat} {q q' : Posting}
    {piece piece' : Piece} (hq : posted[i]? = some q) (hq' : posted[i']? = some q')
    (hs : q.isSplit limits = true) (hpiece : q.pieces[j]? = some piece)
    (hpiece' : q'.pieces[j']? = some piece') (hr : r.Holds q.split j piece.payload) :
    (i = i' ∧ (r.feed bounds (q'.packet piece' j').onWire).2 ≠ []) ∨
      (r.feed bounds (q'.packet piece' j').onWire).1.Holds q.split j piece.payload := by
  obtain ⟨a, ha, hslot⟩ := hr
  have f' := formed q' (List.mem_of_getElem? hq')
  by_cases hi : i = i'
  · -- another part of the same message
    subst hi
    obtain rfl := Option.some.inj (hq.symm.trans hq')
    have held := h.held distinct hq hs ha
    obtain ⟨hj', -⟩ := List.getElem?_eq_some_iff.1 hpiece'
    rcases Reassembly.feed_of_part bounds r
      (p := (q.packet piece' j').onWire) (f'.part_eq hs hpiece')
      with ⟨-, hfeed⟩ | ⟨-, -, hfeed⟩ | ⟨-, -, hfeed⟩
    · rw [hfeed]
      exact .inr ⟨a, ha, hslot⟩
    · rw [hfeed]
      refine .inr ⟨_, Table.get?_insert_self _ _ _, ?_⟩
      rw [Reassembly.assembly, ha, Option.getD_some,
        Assembly.getElem?_store (by rw [held.valid.length, held.count]; exact hj')]
      split_ifs with hj
      · simp only at hj
        subst hj
        obtain rfl := Option.some.inj (hpiece.symm.trans hpiece')
        rfl
      · exact hslot
    · rw [hfeed]
      exact .inl ⟨rfl, List.cons_ne_nil _ _⟩
  · -- a part of another message, which has another number
    refine .inr ⟨a, ?_, hslot⟩
    rw [Reassembly.get?_feed, ha]
    intro part hpart e
    have hs' := (f'.isSplit_iff hpiece').2 (Option.isSome_iff_exists.2 ⟨part, hpart⟩)
    rw [show part = _ from Option.some.inj (hpart.symm.trans (f'.part_eq hs' hpiece'))] at e
    exact hi (eq_of_split_eq distinct hq hq' hs hs' e.symm)

/-- **A part that comes is held**, unless its message comes out or there is no room for it. -/
theorem feed_stores (formed : ∀ q ∈ posted, q.Formed limits) {i j : Nat} {q : Posting}
    {piece : Piece} (hq : posted[i]? = some q) (hs : q.isSplit limits = true)
    (hpiece : q.pieces[j]? = some piece) (few : q.pieces.length < bounds.maxParts) :
    (r.feed bounds (q.packet piece j).onWire).2 ≠ [] ∨
      (r.feed bounds (q.packet piece j).onWire).1.Holds q.split j piece.payload ∨
      r.Full bounds q.split := by
  have f := formed q (List.mem_of_getElem? hq)
  have held := h.held_getD distinct hq hs
  obtain ⟨hj, -⟩ := List.getElem?_eq_some_iff.1 hpiece
  rcases Reassembly.feed_of_part bounds r (p := (q.packet piece j).onWire)
    (f.part_eq hs hpiece) with ⟨hrefused, -⟩ | ⟨-, -, hfeed⟩ | ⟨-, -, hfeed⟩
  · rcases Reassembly.refuses_iff.1 hrefused with hmany | hlast | ⟨a, ha, hcount⟩ | hroom
    · exact absurd few (Nat.not_lt.2 hmany)
    · exact absurd hj (Nat.not_lt.2 hlast)
    · exact absurd (h.held distinct hq hs ha).count hcount
    · exact .inr (.inr hroom)
  · rw [hfeed]
    refine .inr (.inl ⟨_, Table.get?_insert_self _ _ _, ?_⟩)
    rw [Reassembly.assembly,
      Assembly.getElem?_store (by rw [held.valid.length, held.count]; exact hj), if_pos rfl]
    rfl
  · rw [hfeed]
    exact .inl (List.cons_ne_nil _ _)

end Assembles

/-- The packets of a run come from posted messages, and none comes twice. -/
structure Distinct (posted : List Posting) (packets : List Labelled) : Prop where
  mem : ∀ x ∈ packets, x ∈ labelled posted
  nodup : (packets.map Prod.fst).Nodup

/-- What reassembly makes of labelled packets. -/
def assembled (bounds : ReceiverLimits) (packets : List Labelled) : Reassembly × List Packet :=
  runAll (Reassembly.feed bounds) .empty (packets.map fun x => x.2.onWire)

theorem assembled_concat (packets : List Labelled) (x : Labelled) :
    assembled bounds (packets ++ [x]) =
      (((assembled bounds packets).1.feed bounds x.2.onWire).1,
        (assembled bounds packets).2 ++
          ((assembled bounds packets).1.feed bounds x.2.onWire).2) := by
  rw [assembled, List.map_append, List.map_singleton, runAll_concat]
  rfl

variable (bounds) in
/-- **A message that is not split comes out** when its packet comes. -/
theorem whole_comes (formed : ∀ q ∈ posted, q.Formed limits) {packets : List Labelled}
    {i j : Nat} {q : Posting} {piece : Piece}
    (mem : ((i, j), q.packet piece j) ∈ packets) (hq : posted[i]? = some q)
    (hpiece : q.pieces[j]? = some piece) (hs : ¬ q.isSplit limits = true) :
    ∃ w ∈ (assembled bounds packets).2, CarriedAt posted i w := by
  have hwhole := (formed q (List.mem_of_getElem? hq)).eq_whole hs
  obtain ⟨hj, -⟩ := List.getElem?_eq_some_iff.1 hpiece
  obtain rfl : piece = .whole q.message.payload := by
    rw [hwhole] at hpiece
    exact List.mem_singleton.1 (List.mem_of_getElem? hpiece)
  obtain ⟨front, back, rfl⟩ := List.append_of_mem mem
  refine ⟨(q.packet (.whole q.message.payload) j).onWire, ?_, q, hq, rfl, ⟨j, hj, rfl⟩, rfl⟩
  rw [assembled, List.map_append, List.map_cons, runAll_append, runAll_cons,
    Reassembly.feed_of_no_part rfl]
  exact List.mem_append_right _ (List.mem_append_left _ (List.mem_singleton_self _))

namespace Distinct

variable {packets : List Labelled}
  (distinct : posted.Pairwise fun q q' => q.isSplit limits → q'.isSplit limits → q.split ≠ q'.split)
  (formed : ∀ q ∈ posted, q.Formed limits)

theorem front {x : Labelled} (d : Distinct posted (packets ++ [x])) :
    Distinct posted packets ∧ x ∈ labelled posted ∧ x.1 ∉ packets.map Prod.fst := by
  obtain ⟨mem, nodup⟩ := d
  rw [List.map_append, List.map_singleton] at nodup
  obtain ⟨hfront, -, hx⟩ := List.nodup_append.1 nodup
  refine ⟨⟨fun y hy => mem y (List.mem_append_left _ hy), hfront⟩,
    mem x (List.mem_append_right _ (List.mem_singleton_self x)), fun hmem => ?_⟩
  exact hx x.1 hmem x.1 (List.mem_singleton_self _) rfl

include distinct formed

variable (bounds)

/-- **What comes out of reassembly are posted messages, no message twice.** -/
theorem exists_assembles (d : Distinct posted packets) :
    ∃ ids, Assembles limits posted packets (assembled bounds packets).1 ids
      (assembled bounds packets).2 := by
  induction packets using List.reverseRecOn with
  | nil => exact ⟨[], assembles_empty⟩
  | append_singleton packets x ih =>
    obtain ⟨d', mem, fresh⟩ := d.front
    obtain ⟨ids, h⟩ := ih d'
    rw [assembled_concat]
    exact ⟨_, (h.feed bounds distinct formed mem fresh).2⟩

/-- **A part is kept or refused**: its message has come out, or its assembly holds it, or there was
no room for another assembly when the part came. -/
theorem part_kept {i j : Nat} {q : Posting} {piece : Piece} (d : Distinct posted packets)
    (mem : ((i, j), q.packet piece j) ∈ packets) (hq : posted[i]? = some q)
    (hpiece : q.pieces[j]? = some piece) (hs : q.isSplit limits = true)
    (few : q.pieces.length < bounds.maxParts) :
    (∃ w ∈ (assembled bounds packets).2, CarriedAt posted i w) ∨
      (assembled bounds packets).1.Holds q.split j piece.payload ∨
      ∃ front back, packets = front ++ ((i, j), q.packet piece j) :: back ∧
        (assembled bounds front).1.Full bounds q.split := by
  induction packets using List.reverseRecOn with
  | nil => cases mem
  | append_singleton packets x ih =>
    obtain ⟨d', hx, fresh⟩ := d.front
    obtain ⟨ids, h⟩ := d'.exists_assembles bounds distinct formed
    obtain ⟨⟨i', j'⟩, p'⟩ := x
    obtain ⟨emitted, -⟩ := h.feed bounds distinct formed hx fresh
    rw [assembled_concat]
    have comes (hi : i = i')
        (hne : ((assembled bounds packets).1.feed bounds p'.onWire).2 ≠ []) :
        ∃ w ∈ (assembled bounds packets).2 ++
          ((assembled bounds packets).1.feed bounds p'.onWire).2, CarriedAt posted i w := by
      obtain ⟨w, hw⟩ := List.exists_mem_of_ne_nil _ hne
      exact ⟨w, List.mem_append_right _ hw, hi ▸ emitted w hw⟩
    rcases List.mem_append.1 mem with hmem | hmem
    · rcases ih d' hmem with ⟨w, hw, carried⟩ | holds | ⟨front, back, hback, full⟩
      · exact .inl ⟨w, List.mem_append_left _ hw, carried⟩
      · obtain ⟨q', hq', hp'⟩ := mem_labelled.1 hx
        rw [getElem?_packets, Option.map_eq_some_iff] at hp'
        obtain ⟨piece', hpiece', rfl⟩ := hp'
        rcases h.feed_keeps bounds distinct formed hq hq' hs hpiece hpiece' holds
          with ⟨hi, hne⟩ | holds
        · exact .inl (comes hi hne)
        · exact .inr (.inl holds)
      · exact .inr (.inr ⟨front, back ++ [((i', j'), p')], by simp [hback], full⟩)
    · obtain ⟨hlabel, rfl⟩ := Prod.mk.inj (List.mem_singleton.1 hmem)
      obtain ⟨rfl, rfl⟩ := Prod.mk.inj hlabel
      rcases h.feed_stores bounds distinct formed hq hs hpiece few
        with hne | holds | full
      · exact .inl (comes rfl hne)
      · exact .inr (.inl holds)
      · exact .inr (.inr ⟨packets, [], rfl, full⟩)

end Distinct

end Posting

end ReliableDatagram
