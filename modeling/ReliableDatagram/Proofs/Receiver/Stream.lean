import ReliableDatagram.Proofs.Packet
import ReliableDatagram.Proofs.Receiver.Stages

/-!
# The streams of a receiver

* `Stream.release_eq`: what is released follows on without a gap;
* `PerChannel.deliver_sequenced`, `PerChannel.deliver_ordered`: what becomes of a packet that has a
  channel;
* `PerChannel.Streamed`: what has come out of a run of the streams.  Packets come out at most as
  often as they came, and the ordered ones of a channel by their order indices from zero on;
* `PerChannel.pairwise_sequence_iff`: when the sequenced packets of a channel come out in order;
* `PerChannel.ordered_kept`: an ordered packet comes out or is held, unless its stream is full.
-/

namespace ReliableDatagram

namespace Stream

/-- What is released are held packets that follow on without a gap, which are not held any more. -/
theorem release_eq (n next : Nat) (held : IndexMap Packet) :
    ∃ rest run, release n next held = (next + run.length, rest, run) ∧
      (∀ (k : Nat) (q : Packet), run[k]? = some q → held[next + k]? = some q) ∧
      ∀ m : Nat, rest[m]? = if next ≤ m ∧ m < next + run.length then none else held[m]? := by
  induction n generalizing next held with
  | zero =>
    refine ⟨held, [], rfl, fun k q hk => by simp at hk, fun m => ?_⟩
    rw [if_neg (by simp only [List.length_nil]; omega)]
  | succ n ih =>
    unfold release
    cases h : held[next]? with
    | none =>
      refine ⟨held, [], rfl, fun k q hk => by simp at hk, fun m => ?_⟩
      rw [if_neg (by simp only [List.length_nil]; omega)]
    | some p =>
      obtain ⟨rest, run, hrun, held', hrest⟩ := ih (next + 1) (held.erase next)
      refine ⟨rest, p :: run, ?_, fun k q hk => ?_, fun m => ?_⟩
      · simp only [hrun, List.length_cons]
        rw [Nat.add_assoc, Nat.add_comm 1]
      · cases k with
        | zero => exact h.trans hk
        | succ k =>
          have := held' k q (by simpa using hk)
          rw [IndexMap.getElem?_erase, if_neg (by omega)] at this
          rw [← this, Nat.add_assoc, Nat.add_comm 1]
      · rw [hrest, IndexMap.getElem?_erase, List.length_cons]
        by_cases hm : m = next
        · subst hm
          rw [if_neg (by omega), if_pos rfl, if_pos (by omega)]
        · rw [if_neg hm]
          congr 1
          simp only [eq_iff_iff]
          omega

/-- **An ordered packet** comes out, with those that follow on, or is dropped, or is held. -/
theorem acceptOrdered_cases (capacity : Nat) (s : Stream) (order : Nat) (p : Packet) :
    (order = s.nextOrder ∧ ∃ rest run, s.acceptOrdered capacity order p =
        ({ nextOrder := order + 1 + run.length, nextSequence := 0, held := rest }, p :: run) ∧
        (∀ (k : Nat) (q : Packet), run[k]? = some q → s.held[order + 1 + k]? = some q) ∧
        ∀ m : Nat, rest[m]? =
          if order + 1 ≤ m ∧ m < order + 1 + run.length then none else s.held[m]?) ∨
      ((order < s.nextOrder ∨ order ≠ s.nextOrder ∧ capacity ≤ s.held.size) ∧
        s.acceptOrdered capacity order p = (s, [])) ∨
      ((s.nextOrder < order ∧ s.held.size < capacity) ∧
        s.acceptOrdered capacity order p = ({ s with held := s.held.insert order p }, [])) := by
  unfold acceptOrdered
  by_cases hnext : order = s.nextOrder
  · obtain ⟨rest, run, hrun, hheld, hrest⟩ := release_eq s.held.size (order + 1) s.held
    refine .inl ⟨hnext, rest, run, ?_, hheld, hrest⟩
    rw [if_pos hnext, hrun]
  · rw [if_neg hnext]
    by_cases hdrop : order < s.nextOrder ∨ capacity ≤ s.held.size
    · rw [if_pos hdrop]
      exact .inr (.inl ⟨hdrop.imp_right (⟨hnext, ·⟩), rfl⟩)
    · rw [if_neg hdrop]
      exact .inr (.inr ⟨by omega, rfl⟩)

/-- A stream has put out the ordered packet with an order index, or holds it. -/
def Has (s : Stream) (order : Nat) : Prop :=
  order < s.nextOrder ∨ ∃ p, s.held[order]? = some p

end Stream

namespace PerChannel

variable {capacity : Nat} {streams : PerChannel Stream} {p : Packet} {c : Channel}

/-! ### One packet -/

theorem handle_eq (streams : PerChannel Stream) {b : UInt8} (h : Channel.ofByte? b = some c)
    (f : Stream → Stream × List Packet) :
    streams.handle b f = (streams.set c (f (streams.get c)).1, (f (streams.get c)).2) := by
  rw [handle, h]

theorem set_get (streams : PerChannel Stream) (c : Channel) :
    streams.set c (streams.get c) = streams := by
  obtain ⟨values⟩ := streams
  simp only [set, get, PerChannel.mk.injEq]
  exact Vector.set_getElem_self _

theorem deliver_plain (h : p.header.guarantee.hasChannel = false) :
    streams.deliver capacity p = (streams, [p]) := by
  unfold deliver
  cases hp : p.header <;> rw [hp] at h <;> first | rfl | cases h

/-- **A sequenced packet** comes out at once, unless it is stale. -/
theorem deliver_sequenced (h : p.isSequencedOn c = true) :
    streams.deliver capacity p =
      if p.sequence < (streams.get c).nextSequence ∨ p.order < (streams.get c).nextOrder then
        (streams, [])
      else
        (streams.set c { streams.get c with nextSequence := p.sequence + 1 }, [p]) := by
  obtain ⟨hs, place, hplace, hc⟩ := Packet.isSequencedOn_iff.1 h
  unfold deliver
  cases hp : p.header <;> rw [hp] at hs hplace <;>
    simp only [Header.guarantee, Guarantee.isSequenced, Header.place?, Bool.false_eq_true,
      Option.some.injEq] at hs hplace
  all_goals
    subst hplace
    simp only [handle_eq streams hc, Stream.acceptSequenced, Packet.sequence, Packet.order, hp,
      Header.sequence?, Header.place?, Option.getD_some]
    split_ifs
    · rw [set_get]
    · rfl

theorem deliver_ordered (h : p.isOrderedOn c = true) :
    streams.deliver capacity p =
      (streams.set c ((streams.get c).acceptOrdered capacity p.order p).1,
        ((streams.get c).acceptOrdered capacity p.order p).2) := by
  obtain ⟨ho, place, hplace, hc⟩ := Packet.isOrderedOn_iff.1 h
  unfold deliver
  cases hp : p.header <;> rw [hp] at ho hplace <;>
    simp only [Header.guarantee, Guarantee.isOrdered, Header.place?, Bool.false_eq_true,
      Option.some.injEq] at ho hplace
  subst hplace
  simp only [handle_eq streams hc, Packet.order, hp, Header.place?, Option.getD_some]

theorem deliver_nowhere (h : p.header.guarantee.hasChannel = true)
    (hs : ∀ c, p.isSequencedOn c = false) (ho : ∀ c, p.isOrderedOn c = false) :
    streams.deliver capacity p = (streams, []) := by
  have nowhere {place : Place} (hplace : p.header.place? = some place) :
      Channel.ofByte? place.channel = none := by
    by_contra hne
    obtain ⟨c, hc⟩ := Option.ne_none_iff_exists'.1 hne
    have hs := hs c
    have ho := ho c
    simp only [Packet.isSequencedOn, Packet.isOrderedOn, hplace, Option.any_some, hc, decide_true,
      Bool.and_true] at hs ho
    simp [Guarantee.hasChannel, hs, ho] at h
  unfold deliver
  cases hp : p.header <;> rw [hp] at h nowhere
  · cases h
  · simp [handle, nowhere rfl]
  · cases h
  · simp [handle, nowhere rfl]
  · simp [handle, nowhere rfl]

theorem classify (p : Packet) : p.header.guarantee.hasChannel = false ∨
    (∃ c, p.isSequencedOn c = true) ∨ (∃ c, p.isOrderedOn c = true) ∨
    (p.header.guarantee.hasChannel = true ∧ (∀ c, p.isSequencedOn c = false) ∧
      ∀ c, p.isOrderedOn c = false) := by
  by_cases hchannel : p.header.guarantee.hasChannel = true
  · by_cases hs : ∃ c, p.isSequencedOn c = true
    · exact .inr (.inl hs)
    · by_cases ho : ∃ c, p.isOrderedOn c = true
      · exact .inr (.inr (.inl ho))
      · push Not at hs ho
        exact .inr (.inr (.inr ⟨hchannel, by simpa using hs, by simpa using ho⟩))
  · exact .inl (by simpa using hchannel)

/-! ### A run -/

/-- What has come out since the last ordered packet of a channel did. -/
def since (c : Channel) (out : List Packet) : List Packet :=
  out.rtakeWhile fun p => !p.isOrderedOn c

theorem since_append {out more : List Packet} (h : ∀ p ∈ more, p.isOrderedOn c = false) :
    since c (out ++ more) = since c out ++ more := by
  induction more using List.reverseRecOn with
  | nil => simp
  | append_singleton more p ih =>
    rw [← List.append_assoc, since, List.rtakeWhile_concat_pos, ← since,
      ih fun q hq => h q (List.mem_append_left _ hq), List.append_assoc]
    rw [h p (List.mem_append_right _ (List.mem_singleton_self p))]
    rfl

theorem since_append_ordered {out more : List Packet} (hne : more ≠ [])
    (h : ∀ p ∈ more, p.isOrderedOn c = true) : since c (out ++ more) = [] := by
  obtain ⟨front, p, rfl⟩ := (List.eq_nil_or_concat' more).resolve_left hne
  rw [← List.append_assoc, since, List.rtakeWhile_concat_neg]
  rw [h p (List.mem_append_right _ (List.mem_singleton_self p))]
  decide

/-- What has come out of the streams, of packets that have come. -/
structure Streamed (done : List Packet) (streams : PerChannel Stream) (out : List Packet) :
    Prop where
  mem : ∀ p ∈ out, p ∈ done
  channel : ∀ p ∈ out, p.header.guarantee.isOrdered = true → ∃ c, p.isOrderedOn c = true
  /-- What is not ordered comes out at once or never. -/
  prompt : (out.filter (!·.header.guarantee.isOrdered)).Sublist
    (done.filter (!·.header.guarantee.isOrdered))
  /-- What is ordered comes out in order. -/
  orders : ∀ c, (out.filter (·.isOrderedOn c)).map Packet.order =
    List.range (streams.get c).nextOrder
  held : ∀ (c : Channel) (k : Nat) (p : Packet), (streams.get c).held[k]? = some p →
    p ∈ done ∧ p.isOrderedOn c = true ∧ p.order = k
  recent : ∀ (c : Channel) (n : Nat), n < (streams.get c).nextSequence ↔
    ∃ p ∈ since c out, p.isSequencedOn c = true ∧ n ≤ p.sequence

variable {done out : List Packet}

theorem streamed_empty : Streamed [] (.replicate .empty) [] where
  mem _ h := absurd h List.not_mem_nil
  channel _ h := absurd h List.not_mem_nil
  prompt := .slnil
  orders c := by simp [Stream.empty]
  held c k p h := by simp [Stream.empty] at h
  recent c n := by simp [Stream.empty, since]

namespace Streamed

variable (h : Streamed done streams out)

include h

theorem drop (p : Packet) : Streamed (done ++ [p]) streams out where
  mem q hq := List.mem_append_left _ (h.mem q hq)
  channel := h.channel
  prompt := by
    rw [List.filter_append]
    exact h.prompt.trans (List.sublist_append_left _ _)
  orders := h.orders
  held d k q hq := ⟨List.mem_append_left _ (h.held d k q hq).1, (h.held d k q hq).2⟩
  recent := h.recent

/-- A packet that is not ordered comes out, and the streams change in no more than the sequence
indices that they expect. -/
theorem prompt_out {p : Packet} {streams' : PerChannel Stream}
    (ho : p.header.guarantee.isOrdered = false)
    (nextOrder : ∀ d, (streams'.get d).nextOrder = (streams.get d).nextOrder)
    (held : ∀ d, (streams'.get d).held = (streams.get d).held)
    (nextSequence : ∀ d n, n < (streams'.get d).nextSequence ↔
      n < (streams.get d).nextSequence ∨ p.isSequencedOn d = true ∧ n ≤ p.sequence) :
    Streamed (done ++ [p]) streams' (out ++ [p]) := by
  have unordered (d : Channel) : p.isOrderedOn d = false := by
    rw [Packet.isOrderedOn, ho, Bool.false_and]
  constructor
  case mem =>
    intro q hq
    exact (List.mem_append.1 hq).elim (fun hq => List.mem_append_left _ (h.mem q hq))
      (List.mem_append_right _)
  case channel =>
    intro q hq hqo
    rcases List.mem_append.1 hq with hq | hq
    · exact h.channel q hq hqo
    · rw [List.mem_singleton.1 hq, ho] at hqo
      cases hqo
  case prompt =>
    rw [List.filter_append, List.filter_append]
    exact h.prompt.append (.refl _)
  case orders =>
    intro d
    rw [List.filter_append, List.filter_cons_of_neg (by simp [unordered d]), List.filter_nil,
      List.append_nil, nextOrder]
    exact h.orders d
  case held =>
    intro d k q hq
    rw [held] at hq
    exact ⟨List.mem_append_left _ (h.held d k q hq).1, (h.held d k q hq).2⟩
  case recent =>
    intro d n
    rw [since_append fun q hq => List.mem_singleton.1 hq ▸ unordered d, nextSequence, h.recent]
    simp only [List.mem_append, List.mem_singleton, or_and_right, exists_or, exists_eq_left]

theorem hold {p : Packet} (hp : p.isOrderedOn c = true) :
    Streamed (done ++ [p])
      (streams.set c { streams.get c with held := (streams.get c).held.insert p.order p }) out where
  mem := (h.drop p).mem
  channel := h.channel
  prompt := (h.drop p).prompt
  orders d := by
    rw [PerChannel.get_set]
    split_ifs with hd
    · subst hd
      exact h.orders d
    · exact h.orders d
  held d k q hq := by
    rw [PerChannel.get_set] at hq
    split_ifs at hq with hd
    · subst hd
      rw [IndexMap.getElem?_insert] at hq
      split_ifs at hq with hk
      · cases hq
        exact ⟨List.mem_append_right _ (List.mem_singleton_self p), hp, hk.symm⟩
      · exact (h.drop p).held d k q hq
    · exact (h.drop p).held d k q hq
  recent d n := by
    rw [PerChannel.get_set]
    split_ifs with hd
    · subst hd
      exact h.recent d n
    · exact h.recent d n

theorem release {p : Packet} (hp : p.isOrderedOn c = true)
    (next : p.order = (streams.get c).nextOrder) {run : List Packet} {rest : IndexMap Packet}
    (hrun : ∀ (k : Nat) (q : Packet), run[k]? = some q →
      (streams.get c).held[p.order + 1 + k]? = some q)
    (hrest : ∀ (k : Nat) (q : Packet), rest[k]? = some q → (streams.get c).held[k]? = some q) :
    Streamed (done ++ [p])
      (streams.set c { nextOrder := p.order + 1 + run.length, nextSequence := 0, held := rest })
      (out ++ p :: run) := by
  have released (q : Packet) (hq : q ∈ p :: run) : q ∈ done ++ [p] ∧ q.isOrderedOn c = true := by
    rcases List.mem_cons.1 hq with rfl | hq
    · exact ⟨List.mem_append_right _ (List.mem_singleton_self q), hp⟩
    · obtain ⟨k, hk⟩ := List.mem_iff_getElem?.1 hq
      obtain ⟨hmem, ho, -⟩ := h.held c _ q (hrun k q hk)
      exact ⟨List.mem_append_left _ hmem, ho⟩
  -- what comes out is numbered from `p` on
  have orders : (p :: run).map Packet.order = List.range' p.order (run.length + 1) := by
    refine List.ext_getElem? fun k => ?_
    cases k with
    | zero => simp [List.range']
    | succ k =>
      rw [List.map_cons, List.getElem?_cons_succ, List.getElem?_map, List.range'_succ,
        List.getElem?_cons_succ]
      cases hk : run[k]? with
      | none =>
        rw [List.getElem?_eq_none (by simpa using List.getElem?_eq_none_iff.1 hk)]
        rfl
      | some q =>
        rw [List.getElem?_range' (List.getElem?_eq_some_iff.1 hk).1, Option.map_some,
          (h.held c _ q (hrun k q hk)).2.2, Nat.one_mul]
  -- and belongs to no other channel
  have other {d : Channel} (hd : d ≠ c) (q : Packet) (hq : q ∈ p :: run) :
      q.isOrderedOn d = false := by
    rw [Bool.eq_false_iff]
    exact fun hqd => hd (Packet.eq_of_isOrderedOn hqd (released q hq).2)
  constructor
  case mem =>
    intro q hq
    rcases List.mem_append.1 hq with hq | hq
    · exact List.mem_append_left _ (h.mem q hq)
    · exact (released q hq).1
  case channel =>
    intro q hq hqo
    rcases List.mem_append.1 hq with hq | hq
    · exact h.channel q hq hqo
    · exact ⟨c, (released q hq).2⟩
  case prompt =>
    have none (l : List Packet) (hl : ∀ q ∈ l, q.isOrderedOn c = true) :
        l.filter (!·.header.guarantee.isOrdered) = [] := by
      refine List.filter_eq_nil_iff.2 fun q hq => ?_
      simp [(Packet.isOrderedOn_iff.1 (hl q hq)).1]
    rw [List.filter_append, none _ fun q hq => (released q hq).2, List.append_nil,
      List.filter_append, none [p] fun q hq => List.mem_singleton.1 hq ▸ hp, List.append_nil]
    exact h.prompt
  case orders =>
    intro d
    rw [List.filter_append, List.map_append, h.orders d, PerChannel.get_set]
    by_cases hd : d = c
    · subst hd
      rw [List.filter_eq_self.2 fun q hq => (released q hq).2, orders, next, if_pos rfl,
        List.range_eq_range', List.range_eq_range', Nat.add_assoc, Nat.add_comm 1]
      have := @List.range'_append_1 0 (streams.get d).nextOrder (run.length + 1)
      rwa [Nat.zero_add] at this
    · rw [List.filter_eq_nil_iff.2 fun q hq => by simp [other hd q hq], List.map_nil,
        List.append_nil, if_neg hd]
  case held =>
    intro d k q hq
    rw [PerChannel.get_set] at hq
    split_ifs at hq with hd
    · subst hd
      exact (h.drop p).held d k q (hrest k q hq)
    · exact (h.drop p).held d k q hq
  case recent =>
    intro d n
    rw [PerChannel.get_set]
    by_cases hd : d = c
    · subst hd
      rw [if_pos rfl, since_append_ordered (List.cons_ne_nil p run) fun q hq => (released q hq).2]
      simp
    · rw [if_neg hd, since_append (other hd), h.recent]
      have (q : Packet) (hq : q ∈ p :: run) : ¬ q.isSequencedOn d = true := by
        rw [Packet.isSequencedOn_eq_false (released q hq).2]
        decide
      constructor
      · rintro ⟨q, hq, hqd⟩
        exact ⟨q, List.mem_append_left _ hq, hqd⟩
      · rintro ⟨q, hq, hqs, hqn⟩
        rcases List.mem_append.1 hq with hq | hq
        · exact ⟨q, hq, hqs, hqn⟩
        · exact absurd hqs (this q hq)

/-- **One packet comes to the streams.** -/
theorem deliver (p : Packet) : Streamed (done ++ [p]) (streams.deliver capacity p).1
    (out ++ (streams.deliver capacity p).2) := by
  rcases classify p with hplain | ⟨c, hs⟩ | ⟨c, ho⟩ | ⟨hchannel, hs, ho⟩
  · rw [deliver_plain hplain]
    obtain ⟨hs, ho⟩ : p.header.guarantee.isSequenced = false ∧
        p.header.guarantee.isOrdered = false := by
      simpa [Guarantee.hasChannel] using hplain
    refine h.prompt_out ho (fun _ => rfl) (fun _ => rfl) fun d n => ?_
    simp [Packet.isSequencedOn, hs]
  · rw [deliver_sequenced hs]
    split_ifs with hstale
    · rw [List.append_nil]
      exact h.drop p
    · have ho : p.header.guarantee.isOrdered = false := by
        rw [Bool.eq_false_iff]
        intro ho
        have := (Packet.isSequencedOn_iff.1 hs).1
        rw [Guarantee.isSequenced_eq_false ho] at this
        cases this
      refine h.prompt_out ho (fun d => ?_) (fun d => ?_) fun d n => ?_ <;>
        rw [PerChannel.get_set] <;> split_ifs with hd
      · rw [hd]
      · rfl
      · rw [hd]
      · rfl
      · subst hd
        simp only [hs, true_and]
        omega
      · have : p.isSequencedOn d = false := by
          rw [Bool.eq_false_iff]
          exact fun hsd => hd (Packet.eq_of_isSequencedOn hsd hs)
        simp [this]
  · rw [deliver_ordered ho]
    rcases Stream.acceptOrdered_cases capacity (streams.get c) p.order p
      with ⟨hnext, rest, run, haccept, hrun, hrest⟩ | ⟨-, haccept⟩ | ⟨-, haccept⟩ <;> rw [haccept]
    · refine h.release ho hnext hrun fun k q hk => ?_
      rw [hrest] at hk
      split_ifs at hk
      exact hk
    · rw [List.append_nil, PerChannel.set_get]
      exact h.drop p
    · rw [List.append_nil]
      exact h.hold ho
  · rw [deliver_nowhere hchannel hs ho, List.append_nil]
    exact h.drop p

/-- **Nothing comes out more often than it came.** -/
theorem subperm : out.Subperm done := by
  refine List.subperm_iff_count.2 fun p => ?_
  by_cases ho : p.header.guarantee.isOrdered = true
  · -- the order indices of what comes out of a channel are all different
    by_cases hp : p ∈ out
    · obtain ⟨c, hc⟩ := h.channel p hp ho
      have nodup : (out.filter (·.isOrderedOn c)).Nodup := by
        refine List.Nodup.of_map Packet.order ?_
        rw [h.orders c]
        exact List.nodup_range
      calc
        out.count p = (out.filter (·.isOrderedOn c)).count p := (List.count_filter hc).symm
        _ ≤ 1 := List.nodup_iff_count_le_one.1 nodup p
        _ ≤ done.count p := List.one_le_count_iff.2 (h.mem p hp)
    · rw [List.count_eq_zero_of_not_mem hp]
      exact Nat.zero_le _
  · have hp : (!p.header.guarantee.isOrdered) = true := by simpa using ho
    rw [← List.count_filter (p := fun q : Packet => !q.header.guarantee.isOrdered) hp,
      ← List.count_filter (l := done) (p := fun q : Packet => !q.header.guarantee.isOrdered) hp]
    exact h.prompt.count_le p

theorem nextOrder_le {b : Nat} (below : ∀ p ∈ done, p.order < b) (c : Channel) :
    (streams.get c).nextOrder ≤ b := by
  by_contra hlt
  have mem := List.mem_range.2 (Nat.lt_of_not_le hlt)
  rw [← h.orders c] at mem
  obtain ⟨p, hp, e⟩ := List.mem_map.1 mem
  exact absurd e (Nat.ne_of_lt (below p (h.mem p (List.mem_filter.1 hp).1)))

theorem nextSequence_le {b : Nat} (below : ∀ p ∈ done, p.sequence < b) (c : Channel) :
    (streams.get c).nextSequence ≤ b := by
  by_contra hlt
  obtain ⟨p, hp, -, hle⟩ := (h.recent c b).1 (Nat.lt_of_not_le hlt)
  have mem : p ∈ out := (List.rtakeWhile_suffix _ _).subset hp
  exact absurd hle (Nat.not_le.2 (below p (h.mem p mem)))

end Streamed

/-- **What comes out of new streams.** -/
theorem streamed_runAll (capacity : Nat) (packets : List Packet) :
    Streamed packets (runAll (deliver capacity) (.replicate .empty) packets).1
      (runAll (deliver capacity) (.replicate .empty) packets).2 :=
  runAll_history (P := Streamed) streamed_empty packets fun _ p _ _ _ h => h.deliver p

/-! ### Sequenced packets -/

/-- What new streams put out for some packets. -/
def output (capacity : Nat) (packets : List Packet) : List Packet :=
  (runAll (deliver capacity) (.replicate .empty) packets).2

/-- A sequenced packet is found stale after some packets have come out: an ordered packet with its
order index or a greater one has, or a sequenced packet with its sequence index or a greater one
has, since the last ordered packet. -/
def Stale (c : Channel) (out : List Packet) (q : Packet) : Prop :=
  (∃ p ∈ out, p.isOrderedOn c = true ∧ q.order ≤ p.order) ∨
    ∃ p ∈ since c out, p.isSequencedOn c = true ∧ q.sequence ≤ p.sequence

theorem Streamed.stale_iff (h : Streamed done streams out) (q : Packet) :
    q.sequence < (streams.get c).nextSequence ∨ q.order < (streams.get c).nextOrder ↔
      Stale c out q := by
  have order : q.order < (streams.get c).nextOrder ↔
      ∃ p ∈ out, p.isOrderedOn c = true ∧ q.order ≤ p.order := by
    rw [← List.mem_range, ← h.orders c, List.mem_map]
    constructor
    · rintro ⟨p, hp, e⟩
      obtain ⟨hp, hc⟩ := List.mem_filter.1 hp
      exact ⟨p, hp, hc, Nat.le_of_eq e.symm⟩
    · rintro ⟨p, hp, hc, hle⟩
      have hlt : p.order < (streams.get c).nextOrder := by
        rw [← List.mem_range, ← h.orders c]
        exact List.mem_map_of_mem (List.mem_filter.2 ⟨hp, hc⟩)
      rw [← List.mem_map, h.orders c, List.mem_range]
      exact Nat.lt_of_le_of_lt hle hlt
  rw [h.recent, order, or_comm]
  rfl

/-- A sequenced packet comes out when it comes or never. -/
theorem Streamed.eq_of_mem_deliver (h : Streamed done streams out) {p q : Packet}
    (mem : q ∈ (streams.deliver capacity p).2) (hq : q.isSequencedOn c = true) : q = p := by
  rcases classify p with hplain | ⟨d, hs⟩ | ⟨d, ho⟩ | ⟨hchannel, hs, ho⟩
  · rw [deliver_plain hplain] at mem
    exact List.mem_singleton.1 mem
  · rw [deliver_sequenced hs] at mem
    split_ifs at mem
    · cases mem
    · exact List.mem_singleton.1 mem
  · rw [deliver_ordered ho] at mem
    rcases Stream.acceptOrdered_cases capacity (streams.get d) p.order p
      with ⟨-, rest, run, haccept, hrun, -⟩ | ⟨-, haccept⟩ | ⟨-, haccept⟩ <;> rw [haccept] at mem
    · rcases List.mem_cons.1 mem with rfl | mem
      · rfl
      · obtain ⟨k, hk⟩ := List.mem_iff_getElem?.1 mem
        have := Packet.isSequencedOn_eq_false (d := c) (h.held d _ q (hrun k q hk)).2.1
        rw [hq] at this
        cases this
    · cases mem
    · cases mem
  · rw [deliver_nowhere hchannel hs ho] at mem
    cases mem

theorem output_concat (packets : List Packet) (p : Packet) :
    output capacity (packets ++ [p]) = output capacity packets ++
      ((runAll (deliver capacity) (.replicate .empty) packets).1.deliver capacity p).2 := by
  rw [output, runAll_concat]
  rfl

theorem output_prefix_append (capacity : Nat) (front back : List Packet) :
    output capacity front <+: output capacity (front ++ back) := by
  rw [output, output, runAll_append]
  exact List.prefix_append _ _

/-- **The sequenced packets of a channel come out in order exactly if every one that was overtaken
is found stale.** -/
theorem pairwise_sequence_iff (capacity : Nat) (c : Channel) (packets : List Packet) :
    ((output capacity packets).filter (·.isSequencedOn c)).Pairwise
        (fun p q => p.sequence ≤ q.sequence) ↔
      ∀ front q back, packets = front ++ q :: back → q.isSequencedOn c = true →
        (∃ p ∈ output capacity front, p.isSequencedOn c = true ∧ q.sequence < p.sequence) →
        Stale c (output capacity front) q := by
  constructor
  · rintro sorted front q back rfl hq ⟨p, hp, hpc, hlt⟩
    by_contra fresh
    have streamed := streamed_runAll capacity front
    -- a packet that is not stale comes out, behind the one that overtook it
    have come : output capacity (front ++ [q]) = output capacity front ++ [q] := by
      rw [output_concat, deliver_sequenced hq, if_neg (mt (streamed.stale_iff q).1 fresh)]
    have pre : output capacity front ++ [q] <+: output capacity (front ++ q :: back) := by
      have := output_prefix_append capacity (front ++ [q]) back
      rwa [come, List.append_assoc, List.singleton_append] at this
    have sorted' := sorted.sublist (pre.sublist.filter _)
    rw [List.filter_append, List.pairwise_append] at sorted'
    have := sorted'.2.2 p (List.mem_filter.2 ⟨hp, hpc⟩) q
      (List.mem_filter.2 ⟨List.mem_singleton_self q, hq⟩)
    exact absurd hlt (Nat.not_lt.2 this)
  · intro caught
    induction packets using List.reverseRecOn with
    | nil => exact .nil
    | append_singleton packets a ih =>
      have sorted := ih fun front q back hback hq =>
        caught front q (back ++ [a]) (by simp [hback]) hq
      have streamed := streamed_runAll capacity packets
      rw [output_concat, List.filter_append, List.pairwise_append]
      by_cases ha : a.isSequencedOn c = true
      · rw [deliver_sequenced ha]
        split_ifs with hstale
        · exact ⟨sorted, .nil, fun p _ q hq => by cases hq⟩
        · refine ⟨sorted, List.pairwise_singleton .. |>.filter _, fun p hp q hq => ?_⟩
          obtain ⟨hp, hpc⟩ := List.mem_filter.1 hp
          rw [List.mem_singleton.1 (List.mem_filter.1 hq).1]
          by_contra hlt
          exact hstale ((streamed.stale_iff a).2
            (caught packets a [] rfl ha ⟨p, hp, hpc, Nat.lt_of_not_le hlt⟩))
      · -- a packet that is not sequenced brings out no sequenced one
        have none : (((runAll (deliver capacity) (.replicate .empty) packets).1.deliver capacity
            a).2.filter (·.isSequencedOn c)) = [] := by
          refine List.filter_eq_nil_iff.2 fun q hq hqc => ha ?_
          rwa [← streamed.eq_of_mem_deliver hq hqc]
        rw [none]
        exact ⟨sorted, .nil, fun p _ q hq => by cases hq⟩

/-! ### Ordered packets -/

/-- **What a stream has it keeps** until it puts it out. -/
theorem deliver_has {order : Nat} (h : (streams.get c).Has order) (p : Packet) :
    ((streams.deliver capacity p).1.get c).Has order := by
  rcases classify p with hplain | ⟨d, hs⟩ | ⟨d, ho⟩ | ⟨hchannel, hs, ho⟩
  · rwa [deliver_plain hplain]
  · rw [deliver_sequenced hs]
    split_ifs
    · exact h
    · rw [PerChannel.get_set]
      split_ifs with hd
      · subst hd
        exact h
      · exact h
  · rw [deliver_ordered ho, PerChannel.get_set]
    split_ifs with hd
    · subst hd
      rcases Stream.acceptOrdered_cases capacity (streams.get c) p.order p
        with ⟨hnext, rest, run, haccept, -, hrest⟩ | ⟨-, haccept⟩ | ⟨-, haccept⟩ <;> rw [haccept]
      · rcases h with hlt | ⟨q, hq⟩
        · refine .inl ?_
          simp only
          omega
        · by_cases hrun : p.order + 1 ≤ order ∧ order < p.order + 1 + run.length
          · exact .inl hrun.2
          · refine .inr ⟨q, ?_⟩
            simp only
            rw [hrest, if_neg hrun, hq]
      · exact h
      · refine h.imp_right fun ⟨q, hq⟩ => ?_
        simp only
        rw [IndexMap.getElem?_insert]
        split_ifs
        · exact ⟨p, rfl⟩
        · exact ⟨q, hq⟩
    · exact h
  · rwa [deliver_nowhere hchannel hs ho]

/-- An ordered packet that comes is had then, unless it is early and the stream holds as many as it
may. -/
theorem has_deliver (capacity : Nat) (streams : PerChannel Stream) (hp : p.isOrderedOn c = true) :
    ((streams.deliver capacity p).1.get c).Has p.order ∨
      (streams.get c).nextOrder < p.order ∧ capacity ≤ (streams.get c).held.size := by
  rw [deliver_ordered hp, PerChannel.get_set, if_pos rfl]
  rcases Stream.acceptOrdered_cases capacity (streams.get c) p.order p
    with ⟨-, rest, run, haccept, -⟩ | ⟨hdrop, haccept⟩ | ⟨-, haccept⟩ <;> rw [haccept]
  · refine .inl (.inl ?_)
    simp only
    omega
  · rcases hdrop with hlt | ⟨hne, hfull⟩
    · exact .inl (.inl hlt)
    · by_cases hlt : p.order < (streams.get c).nextOrder
      · exact .inl (.inl hlt)
      · exact .inr ⟨by omega, hfull⟩
  · refine .inl (.inr ⟨p, ?_⟩)
    simp only
    rw [IndexMap.getElem?_insert, if_pos rfl]

/-- **An ordered packet that comes is kept**, unless its stream is full when it comes. -/
theorem ordered_kept (capacity : Nat) {packets : List Packet} (mem : p ∈ packets)
    (hp : p.isOrderedOn c = true) :
    ((runAll (deliver capacity) (.replicate .empty) packets).1.get c).Has p.order ∨
      ∃ front back, packets = front ++ p :: back ∧
        ((runAll (deliver capacity) (.replicate .empty) front).1.get c).nextOrder < p.order ∧
        capacity ≤ ((runAll (deliver capacity) (.replicate .empty) front).1.get c).held.size := by
  induction packets using List.reverseRecOn with
  | nil => cases mem
  | append_singleton packets a ih =>
    rw [runAll_concat]
    rcases List.mem_append.1 mem with mem | mem
    · rcases ih mem with has | ⟨front, back, rfl, hlt, hfull⟩
      · exact .inl (deliver_has has a)
      · exact .inr ⟨front, back ++ [a], by simp, hlt, hfull⟩
    · obtain rfl := List.mem_singleton.1 mem
      rcases has_deliver capacity (runAll (deliver capacity) (.replicate .empty) packets).1 hp
        with has | ⟨hlt, hfull⟩
      · exact .inl has
      · exact .inr ⟨packets, [], rfl, hlt, hfull⟩

theorem Streamed.of_has (h : Streamed done streams out) {order : Nat}
    (has : (streams.get c).Has order) :
    (∃ p ∈ out, p.isOrderedOn c = true ∧ p.order = order) ∨
      ∃ p, (streams.get c).held[order]? = some p := by
  refine has.imp_left fun hlt => ?_
  rw [← List.mem_range, ← h.orders c, List.mem_map] at hlt
  obtain ⟨p, hp, e⟩ := hlt
  obtain ⟨hp, hc⟩ := List.mem_filter.1 hp
  exact ⟨p, hp, hc, e⟩

/-- **An early packet that comes to a full stream is dropped.** -/
theorem deliver_full (hp : p.isOrderedOn c = true) (early : (streams.get c).nextOrder < p.order)
    (full : capacity ≤ (streams.get c).held.size) : streams.deliver capacity p = (streams, []) := by
  rw [deliver_ordered hp]
  rcases Stream.acceptOrdered_cases capacity (streams.get c) p.order p
    with ⟨hnext, -⟩ | ⟨-, haccept⟩ | ⟨⟨-, hroom⟩, -⟩
  · exact absurd hnext (Nat.ne_of_gt early)
  · rw [haccept, set_get]
  · exact absurd full (Nat.not_le.2 hroom)

theorem mem_output_of_plain {packets : List Packet} (mem : p ∈ packets)
    (h : p.header.guarantee.hasChannel = false) : p ∈ output capacity packets := by
  obtain ⟨front, back, rfl⟩ := List.append_of_mem mem
  have come : p ∈ output capacity (front ++ [p]) := by
    rw [output_concat, deliver_plain h]
    exact List.mem_append_right _ (List.mem_singleton_self p)
  have := (output_prefix_append capacity (front ++ [p]) back).subset come
  rwa [List.append_assoc, List.singleton_append] at this

end PerChannel

/-- **What a receiver releases of its whole packets.** -/
theorem Receiver.streamed_released (limits : ReceiverLimits) (packets : List Packet) :
    PerChannel.Streamed (wholes limits packets).2 (released limits packets).1
      (released limits packets).2 :=
  PerChannel.streamed_runAll limits.window (wholes limits packets).2

end ReliableDatagram
