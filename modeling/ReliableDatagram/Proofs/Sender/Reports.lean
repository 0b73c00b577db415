import ReliableDatagram.Proofs.Sender.Log
import ReliableDatagram.Proofs.Sender.Receipts

/-!
# When a receipt is reported

A receipt waits for the packets of its message that were not released yet.  A packet that is sent
again is noted again; this changes nothing, since only packets that were not released are.  So a
receipt stops waiting once, in the acknowledgement that releases the last packet of its message.

* `Sender.Settles`: what acknowledged packets do to the receipts, and which receipts they settle;
* `Sender.Log.Tallied`: what the receipts wait for, and which were reported, over a history;
* `Sender.Log.reports_run`: if no receipt is used for two messages, a receipt is reported once, by
  the acknowledgement that completes its message.
-/

namespace ReliableDatagram

/-- A packet that settles something is reliable, and has a receipt. -/
theorem Packet.due_eq_some_iff {p : Packet} {x : Nat × Nat} :
    p.due = some x ↔ p.receipt = some x.1 ∧ p.header.message? = some x.2 := by
  obtain ⟨receipt, n⟩ := x
  unfold Packet.due
  cases p.receipt <;> cases p.header.message? <;> simp

namespace Sender

variable {limits : SenderLimits} {now : Instant} {s s' s'' : Sender}

/-! ### Waiting -/

/-- No receipt waits for nothing. -/
def Occupied (s : Sender) : Prop :=
  ∀ receipt, s.awaited[receipt]? ≠ none → ∃ n, s.Waits (receipt, n)

theorem occupied_congr (h : s'.awaited = s.awaited) (occupied : s.Occupied) : s'.Occupied := by
  intro receipt hr
  obtain ⟨n, hn⟩ := occupied receipt (h ▸ hr)
  exact ⟨n, (waits_congr h _).2 hn⟩

/-- **A packet that is noted** is waited for, and nothing else is that was not. -/
theorem waits_await_iff {p : Packet} {x : Nat × Nat} :
    (s.await p).Waits x ↔ s.Waits x ∨ p.due = some x := by
  refine ⟨fun h => ?_, waits_await⟩
  unfold await at h
  split at h
  · rename_i receipt n hreceipt hn
    obtain ⟨indices, hindices, hm⟩ := h
    rw [IndexMap.getElem?_insert] at hindices
    split_ifs at hindices with hx
    · cases hindices
      rcases IndexSet.mem_insert.1 hm with hm | hm
      · exact .inr (Packet.due_eq_some_iff.2 ⟨hx ▸ hreceipt, hm ▸ hn⟩)
      · rw [Std.ExtTreeMap.getD_eq_getD_getElem?] at hm
        cases hold : s.awaited[receipt]? with
        | none => simp [hold] at hm
        | some old =>
          rw [hold, Option.getD_some] at hm
          exact .inl ⟨old, hx ▸ hold, hm⟩
    · exact .inl ⟨indices, hindices, hm⟩
  · exact .inl h

theorem occupied_await (occupied : s.Occupied) (p : Packet) : (s.await p).Occupied := by
  intro receipt hr
  by_cases h : s.awaited[receipt]? = none
  · -- the receipt is new, so it is the one of the packet
    unfold await at hr
    split at hr
    · rename_i receipt' n hreceipt hn
      rw [IndexMap.getElem?_insert] at hr
      split_ifs at hr with hx
      · exact ⟨n, waits_await (.inr (Packet.due_eq_some_iff.2 ⟨hx ▸ hreceipt, hn⟩))⟩
      · exact absurd h hr
    · exact absurd h hr
  · obtain ⟨n, hn⟩ := occupied receipt h
    exact ⟨n, waits_await (.inl hn)⟩

/-- From one sender to the other some packets were noted. -/
structure Notes (s : Sender) (packets : List Packet) (s' : Sender) : Prop where
  waits : ∀ x, s'.Waits x ↔ s.Waits x ∨ ∃ p ∈ packets, p.due = some x
  occupied : s'.Occupied

theorem Notes.refl (occupied : s.Occupied) : s.Notes [] s := ⟨fun x => by simp, occupied⟩

theorem Notes.enqueue {packets : List Packet} (h : s.Notes packets s') (limits : SenderLimits)
    (now : Instant) (urgent : Bool) (p : Packet) :
    s.Notes (packets ++ [p]) (s'.enqueue limits now urgent p).1 where
  waits x := by
    rw [waits_congr (awaited_enqueue urgent s' p), waits_await_iff, h.waits]
    simp only [List.mem_append, List.mem_singleton, or_and_right, exists_or, exists_eq_left,
      or_assoc]
  occupied := occupied_congr (awaited_enqueue urgent s' p) (occupied_await h.occupied p)

theorem notes_hand (occupied : s.Occupied) {q : Posting} (limits : SenderLimits) (now : Instant)
    (urgent : Bool) (first : q.first = s.nextMessage) :
    s.Notes q.packets (s.hand limits now urgent q).1 := by
  have keep (t : Sender) (queued : List Packet) (_ : List Datagram) (nextMessage : Nat)
      (urgent : Bool) (p : Packet) (h : s.Notes queued t) :
      s.Notes (queued ++ [p]) (enqueue limits now urgent { t with nextMessage } p).1 := by
    have same : s.Notes queued { t with nextMessage } := ⟨h.waits, h.occupied⟩
    exact same.enqueue limits now urgent p
  exact hand_induction (P := fun t queued _ => s.Notes queued t) keep urgent first []
    (Notes.refl occupied)

theorem notes_update (occupied : s.Occupied) (limits : SenderLimits) (now : Instant) :
    s.Notes (s.backlog.take limits.resendBudget) (s.update limits now).1 := by
  have resent : s.Notes (s.backlog.take limits.resendBudget) (s.resend limits now).1 := by
    refine runAll_history (P := fun done t _ => s.Notes done t) ?_ _ ?_
    · exact ⟨(Notes.refl occupied).waits, occupied⟩
    · intro done p t _ _ h
      exact h.enqueue limits now false p
  have same : (s.update limits now).1.awaited = (s.resend limits now).1.awaited :=
    (awaited_flush now _).trans (awaited_reject _ _)
  exact ⟨fun x => (waits_congr same x).trans (resent.waits x), occupied_congr same resent.occupied⟩

/-! ### Settling -/

/-- From one sender to the other some packets were settled; the receipts that come out are those
that waited and do not wait any more. -/
structure Settles (s : Sender) (packets : List Packet) (s' : Sender) (out : List Nat) : Prop where
  waits : ∀ x, s'.Waits x ↔ s.Waits x ∧ ∀ p ∈ packets, p.due ≠ some x
  occupied : s'.Occupied
  nodup : out.Nodup
  mem_out : ∀ receipt, receipt ∈ out ↔
    (∃ n, s.Waits (receipt, n)) ∧ ∀ n, ¬ s'.Waits (receipt, n)

theorem Settles.refl (occupied : s.Occupied) : s.Settles [] s [] where
  waits x := by simp
  occupied := occupied
  nodup := .nil
  mem_out receipt := by
    simp only [List.not_mem_nil, false_iff, not_and, not_forall, not_not, imp_self]

theorem Settles.trans {packets packets' : List Packet} {out out' : List Nat}
    (h : s.Settles packets s' out) (h' : s'.Settles packets' s'' out') :
    s.Settles (packets ++ packets') s'' (out ++ out') where
  waits x := by
    rw [h'.waits, h.waits, and_assoc, List.forall_mem_append]
  occupied := h'.occupied
  nodup := by
    refine List.nodup_append.2 ⟨h.nodup, h'.nodup, ?_⟩
    rintro receipt hr _ hr' rfl
    obtain ⟨⟨n, hn⟩, -⟩ := (h'.mem_out receipt).1 hr'
    exact ((h.mem_out receipt).1 hr).2 n hn
  mem_out receipt := by
    have back (n : Nat) (hn : s''.Waits (receipt, n)) : s'.Waits (receipt, n) :=
      ((h'.waits _).1 hn).1
    rw [List.mem_append, h.mem_out, h'.mem_out]
    constructor
    · rintro (⟨some_, none_⟩ | ⟨⟨n, hn⟩, none_⟩)
      · exact ⟨some_, fun n hn => none_ n (back n hn)⟩
      · exact ⟨⟨n, ((h.waits _).1 hn).1⟩, none_⟩
    · rintro ⟨some_, none_⟩
      by_cases middle : ∃ n, s'.Waits (receipt, n)
      · exact .inr ⟨middle, none_⟩
      · exact .inl ⟨some_, not_exists.1 middle⟩

theorem settles_of_idle (occupied : s.Occupied) {p : Packet}
    (idle : ∀ x, p.due = some x → ¬ s.Waits x) : s.Settles [p] s [] where
  waits x := by
    rw [List.forall_mem_singleton]
    exact ⟨fun h => ⟨h, fun e => idle x e h⟩, And.left⟩
  occupied := occupied
  nodup := .nil
  mem_out := (Settles.refl occupied).mem_out

theorem settles_last (occupied : s.Occupied) {p : Packet} {receipt n : Nat} {indices : IndexSet}
    (due : p.due = some (receipt, n)) (h : s.awaited[receipt]? = some indices)
    (only : ∀ m ∈ indices, m = n) :
    s.Settles [p] { s with awaited := s.awaited.erase receipt } [receipt] := by
  have after (x : Nat × Nat) :
      ({ s with awaited := s.awaited.erase receipt } : Sender).Waits x ↔
        x.1 ≠ receipt ∧ s.Waits x := by
    simp only [Waits, IndexMap.getElem?_erase]
    by_cases hx : x.1 = receipt <;> simp [hx]
  constructor
  case waits =>
    rintro ⟨r, m⟩
    rw [after, List.forall_mem_singleton, due, Ne, Ne, Option.some.injEq, Prod.mk.injEq]
    constructor
    · rintro ⟨hne, hw⟩
      exact ⟨hw, fun e => hne e.1.symm⟩
    · rintro ⟨hw, hne⟩
      refine ⟨fun hr => hne ⟨hr.symm, ?_⟩, hw⟩
      obtain ⟨indices', h', hm⟩ := hw
      simp only at hr hm
      rw [hr, h] at h'
      cases h'
      exact (only m hm).symm
  case occupied =>
    intro r hr
    simp only [IndexMap.getElem?_erase] at hr
    split_ifs at hr with hne
    · exact absurd rfl hr
    · obtain ⟨m, hm⟩ := occupied r hr
      exact ⟨m, (after (r, m)).2 ⟨hne, hm⟩⟩
  case nodup => exact List.nodup_singleton _
  case mem_out =>
    intro r
    rw [List.mem_singleton]
    constructor
    · rintro rfl
      have some_ : s.awaited[r]? ≠ none := by
        rw [h]
        exact Option.some_ne_none _
      exact ⟨occupied r some_, fun m hm => ((after (r, m)).1 hm).1 rfl⟩
    · rintro ⟨⟨m, hm⟩, none_⟩
      by_contra hne
      exact none_ m ((after (r, m)).2 ⟨hne, hm⟩)

theorem settles_other (occupied : s.Occupied) {p : Packet} {receipt n : Nat} {indices : IndexSet}
    (due : p.due = some (receipt, n)) (h : s.awaited[receipt]? = some indices)
    (other : ∃ m ∈ indices, m ≠ n) :
    s.Settles [p] { s with awaited := s.awaited.insert receipt (indices.erase n) } [] := by
  have after (x : Nat × Nat) :
      ({ s with awaited := s.awaited.insert receipt (indices.erase n) } : Sender).Waits x ↔
        s.Waits x ∧ ¬ (receipt = x.1 ∧ n = x.2) := by
    obtain ⟨r, m⟩ := x
    by_cases hr : r = receipt
    · subst hr
      simp only [Waits, IndexMap.getElem?_insert, if_true, h, Option.some.injEq, exists_eq_left',
        IndexSet.mem_erase, true_and]
      rw [and_comm, Ne, eq_comm]
    · simp only [Waits, IndexMap.getElem?_insert, if_neg hr, Ne.symm hr, false_and, not_false_iff,
        and_true]
  have waiting : ∃ m, ({ s with
      awaited := s.awaited.insert receipt (indices.erase n) } : Sender).Waits (receipt, m) := by
    obtain ⟨m, hm, hne⟩ := other
    exact ⟨m, (after (receipt, m)).2 ⟨⟨indices, h, hm⟩, fun e => hne e.2.symm⟩⟩
  constructor
  case waits =>
    rintro ⟨r, m⟩
    rw [after, List.forall_mem_singleton, due, Ne, Option.some.injEq, Prod.mk.injEq]
  case occupied =>
    intro r hr
    by_cases hr' : r = receipt
    · exact hr' ▸ waiting
    · simp only [IndexMap.getElem?_insert, if_neg hr'] at hr
      obtain ⟨m, hm⟩ := occupied r hr
      exact ⟨m, (after (r, m)).2 ⟨hm, fun e => hr' e.1.symm⟩⟩
  case nodup => exact .nil
  case mem_out =>
    intro r
    simp only [List.not_mem_nil, false_iff, not_and, not_forall, not_not]
    rintro ⟨m, hm⟩
    by_cases hr : r = receipt
    · exact hr ▸ waiting
    · exact ⟨m, (after (r, m)).2 ⟨hm, fun e => hr e.1.symm⟩⟩

/-- **Settling one packet.**  The last index that its receipt waits for brings the receipt out. -/
theorem settles_settle (occupied : s.Occupied) (p : Packet) :
    s.Settles [p] (s.settle p).1 (s.settle p).2 := by
  unfold settle
  split
  · rename_i receipt n hreceipt hn
    have due : p.due = some (receipt, n) := Packet.due_eq_some_iff.2 ⟨hreceipt, hn⟩
    cases hindices : s.awaited[receipt]? with
    | none =>
      refine settles_of_idle occupied fun x hx => ?_
      rintro ⟨indices, h, -⟩
      obtain rfl := Option.some.inj (due.symm.trans hx)
      rw [hindices] at h
      cases h
    | some indices =>
      simp only
      split_ifs with hempty
      · refine settles_last occupied due hindices fun m hm => ?_
        by_contra hne
        exact Std.ExtTreeSet.eq_empty_iff_forall_not_mem.1 (Std.ExtTreeSet.isEmpty_iff.1 hempty) m
          (IndexSet.mem_erase.2 ⟨hne, hm⟩)
      · refine settles_other occupied due hindices ?_
        by_contra hall
        push Not at hall
        refine hempty (Std.ExtTreeSet.isEmpty_iff.2
          (Std.ExtTreeSet.eq_empty_iff_forall_not_mem.2 fun m hm => ?_))
        obtain ⟨hne, hm⟩ := IndexSet.mem_erase.1 hm
        exact hne (hall m hm)
  · rename_i hnone
    refine settles_of_idle occupied fun x hx => ?_
    obtain ⟨hreceipt, hn⟩ := Packet.due_eq_some_iff.1 hx
    exact absurd hn (hnone x.1 x.2 hreceipt)

/-- **An acknowledgement settles the packets that it releases.** -/
theorem settles_acknowledge (occupied : s.Occupied) (numbers : List Nat) :
    s.Settles (runAll land s numbers).2 (s.acknowledge numbers).1 (s.acknowledge numbers).2 := by
  refine acknowledge_history (P := fun done t out => s.Settles done t out) (.refl occupied) numbers
    ?_
  intro done t out n h
  have landed : t.Settles [] (t.land n).1 [] := by
    have idle := Settles.refl h.occupied
    exact ⟨fun x => (waits_congr (awaited_land t n) x).trans (idle.waits x),
      occupied_congr (awaited_land t n) h.occupied, .nil, fun r => by
        simp only [waits_congr (awaited_land t n)]
        exact idle.mem_out r⟩
  have settled :
      (t.land n).1.Settles (t.land n).2 (t.acknowledgeOne n).1 (t.acknowledgeOne n).2 := by
    refine runAll_history (P := fun done u out => (t.land n).1.Settles done u out)
      (.refl landed.occupied) _ ?_
    intro done p u out _ hu
    exact hu.trans (settles_settle hu.occupied p)
  exact h.trans (landed.trans settled)

/-! ### Over a history -/

namespace Log

variable {t : Log}

/-- All the packets of a reliable message were released, and it has some. -/
structure Settled (t : Log) (q : Posting) : Prop where
  reliable : q.guarantee.isReliable = true
  nonempty : q.packets ≠ []
  released : ∀ p ∈ q.packets, p ∈ t.released

/-- No receipt is used for two messages. -/
def Unshared (t : Log) : Prop := (t.posted.filterMap (·.message.receipt)).Nodup

instance (t : Log) : Decidable t.Unshared := inferInstanceAs (Decidable (List.Nodup _))

/-- What the receipts wait for are the packets that were not released; those that do not wait any
more were reported. -/
structure Tallied (t : Log) : Prop where
  waits : ∀ x, t.sender.Waits x ↔ ∃ p ∈ t.queued, p.due = some x ∧ p ∉ t.released
  occupied : t.sender.Occupied
  nodup : t.reported.Nodup
  mem_reported : ∀ receipt, receipt ∈ t.reported ↔
    (∃ p ∈ t.queued, ∃ n, p.due = some (receipt, n)) ∧ ∀ n, ¬ t.sender.Waits (receipt, n)

theorem tallied_empty : empty.Tallied where
  waits x := by
    constructor
    · rintro ⟨indices, h, -⟩
      simp [empty, Sender.empty] at h
    · rintro ⟨p, hp, -⟩
      exact absurd hp List.not_mem_nil
  occupied receipt h := by simp [empty, Sender.empty] at h
  nodup := .nil
  mem_reported receipt := by simp [empty, queued]

theorem exists_of_due {p : Packet} {x : Nat × Nat} (hp : p ∈ t.queued) (hx : p.due = some x) :
    ∃ q ∈ t.posted, p ∈ q.packets ∧ q.message.receipt = some x.1 ∧
      q.guarantee.isReliable = true := by
  obtain ⟨q, hq, hpq⟩ := List.mem_flatMap.1 hp
  obtain ⟨hreceipt, hn⟩ := Packet.due_eq_some_iff.1 hx
  obtain ⟨j, piece, hj, rfl⟩ := Posting.mem_packets.1 hpq
  refine ⟨q, hq, hpq, hreceipt, ?_⟩
  have index : (q.header j).message? = some x.2 := hn
  rw [Posting.message?_header] at index
  split_ifs at index with hr
  exact hr

theorem exists_due {q : Posting} {receipt : Nat} (hr : q.guarantee.isReliable = true)
    (hreceipt : q.message.receipt = some receipt) {p : Packet} (hp : p ∈ q.packets) :
    ∃ n, p.due = some (receipt, n) := by
  obtain ⟨j, piece, hj, rfl⟩ := Posting.mem_packets.1 hp
  exact ⟨q.first + j, Packet.due_eq_some_iff.2
    ⟨hreceipt, Posting.message?_header_of_reliable q hr j⟩⟩

theorem Unshared.eq (unshared : t.Unshared) {q q' : Posting} {receipt : Nat} (hq : q ∈ t.posted)
    (hq' : q' ∈ t.posted) (hr : q.message.receipt = some receipt)
    (hr' : q'.message.receipt = some receipt) : q = q' :=
  eq_of_nodup_filterMap unshared hq hq' hr hr'

/-- A packet whose index no packet had before was not released. -/
theorem Valid.not_mem_released_of_new (v : t.Valid limits) {packets : List Packet}
    (apart : (t.queued.filterMap (·.header.message?)).Disjoint
      (packets.filterMap (·.header.message?)))
    {p : Packet} (hp : p ∈ packets) : p ∉ t.released := by
  intro hr
  obtain ⟨old, reliable⟩ :=
    v.mem_queued_of_place (List.mem_append_left _ (List.mem_append_right _ hr))
  obtain ⟨n, hn⟩ := Option.isSome_iff_exists.1 reliable
  exact apart (List.mem_filterMap.2 ⟨p, old, hn⟩) (List.mem_filterMap.2 ⟨p, hp, hn⟩)

theorem due_ne_of_unused {q : Posting}
    (apart : (t.posted.filterMap (·.message.receipt)).Disjoint
      ([q].filterMap (·.message.receipt)))
    {p p' : Packet} {receipt n n' : Nat} (hp : p ∈ q.packets) (hx : p.due = some (receipt, n))
    (hp' : p' ∈ t.queued) : p'.due ≠ some (receipt, n') := by
  intro hx'
  have hreceipt := (Packet.due_eq_some_iff.1 hx).1
  obtain ⟨j, piece, -, rfl⟩ := Posting.mem_packets.1 hp
  obtain ⟨q', hq', -, hreceipt', -⟩ := exists_of_due hp' hx'
  exact apart (List.mem_filterMap.2 ⟨q', hq', hreceipt'⟩)
    (List.mem_filterMap.2 ⟨q, List.mem_singleton_self q, hreceipt⟩)

namespace Tallied

variable (tallied : t.Tallied)

include tallied

theorem keep {t' : Log} (waits : ∀ x, t'.sender.Waits x ↔ t.sender.Waits x)
    (occupied : t'.sender.Occupied) (queued : t'.queued = t.queued)
    (released : t'.released = t.released) (reported : t'.reported = t.reported) : t'.Tallied where
  waits x := by rw [waits, queued, released, tallied.waits]
  occupied := occupied
  nodup := by rw [reported]; exact tallied.nodup
  mem_reported receipt := by
    rw [reported, queued, tallied.mem_reported]
    simp only [waits]

theorem congr {t' : Log} (awaited : t'.sender.awaited = t.sender.awaited)
    (queued : t'.queued = t.queued) (released : t'.released = t.released)
    (reported : t'.reported = t.reported) : t'.Tallied :=
  tallied.keep (waits_congr awaited) (occupied_congr awaited tallied.occupied) queued released
    reported

/-- **What is sent again is waited for already.** -/
theorem update (v : t.Valid limits) (now : Instant) : (t.step limits (.update now)).Tallied := by
  have notes := notes_update tallied.occupied limits now
  refine tallied.keep (fun x => (notes.waits x).trans (or_iff_left_of_imp ?_)) notes.occupied rfl
    rfl rfl
  rintro ⟨p, hp, hx⟩
  have held : p ∈ t.sender.custody :=
    List.mem_append_left _ (List.mem_append_right _ (List.take_subset _ _ hp))
  have place : p ∈ t.places := List.mem_append_left _ (List.mem_append_left _ held)
  exact (tallied.waits x).2 ⟨p, (v.mem_queued_of_place place).1, hx, v.not_mem_released held⟩

/-- Packets join that were not released before and whose receipts were not used before. -/
theorem join {t' : Log} {packets : List Packet}
    (waits : ∀ x, t'.sender.Waits x ↔ t.sender.Waits x ∨ ∃ p ∈ packets, p.due = some x)
    (occupied : t'.sender.Occupied) (queued : t'.queued = t.queued ++ packets)
    (released : t'.released = t.released) (reported : t'.reported = t.reported)
    (new : ∀ p ∈ packets, ∀ x, p.due = some x → p ∉ t.released)
    (unused : ∀ p ∈ packets, ∀ p' ∈ t.queued, ∀ receipt n n',
      p.due = some (receipt, n) → p'.due ≠ some (receipt, n')) : t'.Tallied := by
  constructor
  case waits =>
    intro x
    rw [waits, tallied.waits, queued, released]
    constructor
    · rintro (⟨p, hp, hx, hr⟩ | ⟨p, hp, hx⟩)
      · exact ⟨p, List.mem_append_left _ hp, hx, hr⟩
      · exact ⟨p, List.mem_append_right _ hp, hx, new p hp x hx⟩
    · rintro ⟨p, hp, hx, hr⟩
      exact (List.mem_append.1 hp).imp (fun hp => ⟨p, hp, hx, hr⟩) fun hp => ⟨p, hp, hx⟩
  case occupied => exact occupied
  case nodup =>
    rw [reported]
    exact tallied.nodup
  case mem_reported =>
    intro receipt
    rw [reported, tallied.mem_reported, queued]
    by_cases mine : ∃ p ∈ packets, ∃ n, p.due = some (receipt, n)
    · obtain ⟨p, hp, n, hx⟩ := mine
      refine iff_of_false ?_ ?_
      · rintro ⟨⟨p', hp', n', hx'⟩, -⟩
        exact unused p hp p' hp' receipt n n' hx hx'
      · rintro ⟨-, none_⟩
        exact none_ n ((waits _).2 (.inr ⟨p, hp, hx⟩))
    · have others (n : Nat) : t'.sender.Waits (receipt, n) ↔ t.sender.Waits (receipt, n) := by
        rw [waits]
        exact or_iff_left fun ⟨p, hp, hx⟩ => mine ⟨p, hp, n, hx⟩
      simp only [others]
      refine and_congr_left fun _ => ⟨?_, ?_⟩
      · rintro ⟨p, hp, hx⟩
        exact ⟨p, List.mem_append_left _ hp, hx⟩
      · rintro ⟨p, hp, hx⟩
        exact ⟨p, (List.mem_append.1 hp).resolve_right fun hp => mine ⟨p, hp, hx⟩, hx⟩

/-- **A message that is sent** is waited for, if it has a receipt. -/
theorem send (v : t.Valid limits) {now : Instant} {m : Message} {urgent : Bool}
    (unshared : (t.step limits (.send now m urgent)).Unshared) :
    (t.step limits (.send now m urgent)).Tallied := by
  have v' := v.send now m urgent
  rcases send_cases limits t now m urgent with ⟨-, h⟩ | ⟨-, s, q, -, p, h⟩ <;>
    rw [h] at unshared v' ⊢
  · exact tallied
  · have awaited : s.awaited = t.sender.awaited := by rw [p.others]
    have notes := notes_hand (occupied_congr awaited tallied.occupied) limits now urgent
      (p.first.trans p.nextMessage.symm)
    have queued : ({ t.transmit (s.hand limits now urgent q) with
        posted := t.posted ++ [q] } : Log).queued = t.queued ++ q.packets := by
      rw [Log.queued, List.flatMap_append, List.flatMap_singleton]
      rfl
    have distinct := v'.nodup_indices
    rw [queued, List.filterMap_append] at distinct
    rw [Unshared, List.filterMap_append] at unshared
    refine tallied.join (fun x => ?_) notes.occupied queued rfl rfl ?_ ?_
    · rw [← waits_congr awaited, ← notes.waits]
      rfl
    · intro p hp x hx
      exact v.not_mem_released_of_new (List.disjoint_of_nodup_append distinct) hp
    · intro p hp p' hp' receipt n n' hx
      exact due_ne_of_unused (List.disjoint_of_nodup_append unshared) hp hx hp'

/-- **An acknowledgement reports the receipts that it settles.** -/
theorem ack (v : t.Valid limits) (numbers : List Nat) :
    (t.step limits (.ack numbers)).Tallied := by
  have settles := settles_acknowledge tallied.occupied numbers
  have landed (p : Packet) (hp : p ∈ (runAll land t.sender numbers).2) : p ∈ t.queued := by
    obtain ⟨-, d, hd, -, hdp⟩ := (v.conveys.landAll numbers).2 p hp
    exact v.conveys.packets d hd p hdp
  have before (x : Nat × Nat) (h : (t.sender.acknowledge numbers).1.Waits x) : t.sender.Waits x :=
    ((settles.waits x).1 h).1
  constructor
  case waits =>
    intro x
    refine (settles.waits x).trans ?_
    rw [tallied.waits]
    constructor
    · rintro ⟨⟨p, hp, hx, hr⟩, none_⟩
      refine ⟨p, hp, hx, fun h => ?_⟩
      exact (List.mem_append.1 h).elim hr fun h => none_ p h hx
    · rintro ⟨p, hp, hx, hr⟩
      refine ⟨⟨p, hp, hx, fun h => hr (List.mem_append_left _ h)⟩, fun p' hp' hx' => ?_⟩
      -- a packet with the same index is the same packet
      obtain ⟨-, hn⟩ := Packet.due_eq_some_iff.1 hx
      obtain ⟨-, hn'⟩ := Packet.due_eq_some_iff.1 hx'
      obtain rfl := eq_of_nodup_filterMap v.nodup_indices hp (landed p' hp') hn hn'
      exact hr (List.mem_append_right _ hp')
  case occupied => exact settles.occupied
  case nodup =>
    refine List.nodup_append.2 ⟨tallied.nodup, settles.nodup, ?_⟩
    rintro receipt hr _ hr' rfl
    obtain ⟨⟨n, hn⟩, -⟩ := (settles.mem_out receipt).1 hr'
    exact ((tallied.mem_reported receipt).1 hr).2 n hn
  case mem_reported =>
    intro receipt
    refine List.mem_append.trans ?_
    rw [tallied.mem_reported, settles.mem_out]
    constructor
    · rintro (⟨some_, none_⟩ | ⟨⟨n, hn⟩, none_⟩)
      · exact ⟨some_, fun n hn => none_ n (before _ hn)⟩
      · obtain ⟨p, hp, hx, -⟩ := (tallied.waits _).1 hn
        exact ⟨⟨p, hp, n, hx⟩, none_⟩
    · rintro ⟨some_, none_⟩
      by_cases waiting : ∃ n, t.sender.Waits (receipt, n)
      · exact .inr ⟨waiting, none_⟩
      · exact .inl ⟨some_, not_exists.1 waiting⟩

/-- **A receipt was reported exactly if its message was released.** -/
theorem mem_reported_iff (unshared : t.Unshared) {receipt : Nat} : receipt ∈ t.reported ↔
    ∃ q ∈ t.posted, q.message.receipt = some receipt ∧ t.Settled q := by
  rw [tallied.mem_reported]
  constructor
  · rintro ⟨⟨p, hp, n, hx⟩, none_⟩
    obtain ⟨q, hq, hpq, hreceipt, hr⟩ := exists_of_due hp hx
    refine ⟨q, hq, hreceipt, hr, List.ne_nil_of_mem hpq, fun p' hp' => ?_⟩
    by_contra held
    obtain ⟨n', hx'⟩ := exists_due hr hreceipt hp'
    exact none_ n' ((tallied.waits _).2 ⟨p', List.mem_flatMap.2 ⟨q, hq, hp'⟩, hx', held⟩)
  · rintro ⟨q, hq, hreceipt, settled⟩
    obtain ⟨p, hp⟩ := List.exists_mem_of_ne_nil _ settled.nonempty
    obtain ⟨n, hx⟩ := exists_due settled.reliable hreceipt hp
    refine ⟨⟨p, List.mem_flatMap.2 ⟨q, hq, hp⟩, n, hx⟩, fun n' waiting => ?_⟩
    obtain ⟨p', hp', hx', held⟩ := (tallied.waits _).1 waiting
    obtain ⟨q', hq', hpq', hreceipt', -⟩ := exists_of_due hp' hx'
    obtain rfl := unshared.eq hq hq' hreceipt hreceipt'
    exact held (settled.released p' hpq')

end Tallied

theorem posted_step (limits : SenderLimits) (t : Log) (i : Input) :
    t.posted <+: (t.step limits i).posted := by
  cases i with
  | send now m urgent =>
    rcases send_cases limits t now m urgent with ⟨-, h⟩ | ⟨-, s, q, -, -, h⟩ <;> rw [h]
    exact List.prefix_append _ _
  | flush now => exact List.prefix_refl _
  | ack numbers => exact List.prefix_refl _
  | nack numbers => exact List.prefix_refl _
  | update now => exact List.prefix_refl _

/-- **What the receipts wait for, over every run** in which none is used for two messages. -/
theorem tallied_run (limits : SenderLimits) (inputs : List Input)
    (unshared : (run limits inputs).Unshared) : (run limits inputs).Tallied := by
  induction inputs using List.reverseRecOn with
  | nil => exact tallied_empty
  | append_singleton inputs i ih =>
    have v := valid_run limits inputs
    rw [run_concat] at unshared ⊢
    have before := (posted_step limits (run limits inputs) i).sublist.filterMap
      (·.message.receipt)
    have tallied := ih (unshared.sublist before)
    cases i with
    | send now m urgent => exact tallied.send v unshared
    | flush now => exact tallied.congr (awaited_flush now _) rfl rfl rfl
    | ack numbers => exact tallied.ack v numbers
    | nack numbers => exact tallied.congr (awaited_reject _ numbers) rfl rfl rfl
    | update now => exact tallied.update v now

/-! ### What a run reports -/

/-- The receipts of a history were reported when they were due. -/
structure Reports (limits : SenderLimits) (t : Log) : Prop where
  once : t.reported.Nodup
  mem_reported : ∀ receipt, receipt ∈ t.reported ↔
    ∃ q ∈ t.posted, q.message.receipt = some receipt ∧ t.Settled q
  /-- A receipt that was reported is forgotten. -/
  forgotten : ∀ receipt ∈ t.reported, t.sender.awaited[receipt]? = none
  /-- Every packet of a message that was released was acknowledged in a datagram that carried it,
  and was not given up. -/
  acknowledged : ∀ q ∈ t.posted, t.Settled q → ∀ p ∈ q.packets,
    p ∉ t.discarded ∧ ∃ d ∈ t.sent, d.number ∈ t.acked ∧ p ∈ d.packets
  /-- The acknowledgement that reports a receipt is the one that releases the last packet of its
  message. -/
  due : ∀ numbers receipt, receipt ∈ (t.sender.acknowledge numbers).2 ↔
    ∃ q ∈ t.posted, q.message.receipt = some receipt ∧ ¬ t.Settled q ∧
      (t.step limits (.ack numbers)).Settled q

/-- **A receipt is reported once, when its message is complete.**  Over every run of a sender in
which no receipt is used for two messages, an acknowledgement reports the receipts of the reliable
messages whose last packet it releases, and no others. -/
theorem reports_run (limits : SenderLimits) (inputs : List Input)
    (unshared : (run limits inputs).Unshared) : (run limits inputs).Reports limits := by
  have v := valid_run limits inputs
  have tallied := tallied_run limits inputs unshared
  constructor
  case once => exact tallied.nodup
  case mem_reported => exact fun receipt => tallied.mem_reported_iff unshared
  case forgotten =>
    intro receipt hr
    by_contra waiting
    obtain ⟨n, hn⟩ := tallied.occupied receipt waiting
    exact ((tallied.mem_reported receipt).1 hr).2 n hn
  case acknowledged =>
    intro q _ settled p hp
    have released := settled.released p hp
    exact ⟨v.not_mem_discarded released, v.released p released⟩
  case due =>
    intro numbers receipt
    have tallied' := tallied.ack v numbers
    have distinct := List.nodup_append.1 tallied'.nodup
    -- what comes out was not reported before, and has been reported afterwards
    have out : receipt ∈ ((run limits inputs).sender.acknowledge numbers).2 ↔
        receipt ∈ ((run limits inputs).step limits (.ack numbers)).reported ∧
          receipt ∉ (run limits inputs).reported := by
      constructor
      · exact fun hr => ⟨List.mem_append_right _ hr, fun h => distinct.2.2 receipt h receipt hr rfl⟩
      · exact fun ⟨hr, hold⟩ => (List.mem_append.1 hr).resolve_left hold
    rw [out, tallied'.mem_reported_iff unshared, tallied.mem_reported_iff unshared]
    constructor
    · rintro ⟨⟨q, hq, hreceipt, settled⟩, before⟩
      exact ⟨q, hq, hreceipt, fun h => before ⟨q, hq, hreceipt, h⟩, settled⟩
    · rintro ⟨q, hq, hreceipt, before, settled⟩
      refine ⟨⟨q, hq, hreceipt, settled⟩, ?_⟩
      rintro ⟨q', hq', hreceipt', settled'⟩
      exact before (unshared.eq hq' hq hreceipt' hreceipt ▸ settled')

/-- A run in which a part of a split message is sent again and acknowledged late, after the datagram
that carried it first. -/
theorem reports_run_resent :
    let limits : SenderLimits :=
      { mtu := 400, window := 8, resendBudget := 16, resendTimeout := .ofMillis 8000 }
    let now : Instant := ⟨0⟩
    let m : Message :=
      { delivery := .reliableWithReceipt, payload := .replicate 400 7, receipt := some 5 }
    let t := run limits
      [.send now m false, .ack [1], .nack [0], .update now, .ack [0], .ack [2, 1]]
    t.Unshared ∧ t.Reports limits ∧ t.sent.map Datagram.number = [0, 1, 2] ∧ t.reported = [5] :=
  ⟨by decide +kernel, reports_run _ _ (by decide +kernel), by decide +kernel, by decide +kernel⟩

end Log

end Sender

end ReliableDatagram
