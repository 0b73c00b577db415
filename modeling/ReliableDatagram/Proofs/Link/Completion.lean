import ReliableDatagram.Proofs.Link.Wholes
import ReliableDatagram.Proofs.Lists

/-!
# All messages are made whole again

If every packet of the posted messages comes to reassembly once, in any order, and the bounds of the
receiver have room for all of them, then every message comes out once, and no assembly is left.

* `Posting.Gathers`: reassembly has kept every packet that has come;
* `Posting.Distinct.all_come`: all messages come out;
* `Posting.come_in_line`: messages whose packets come one after another come out one after another,
  and need room for one assembly only.
-/

namespace ReliableDatagram

theorem Table.eq_empty {κ α : Type} [DecidableEq κ] {t : Table κ α} (h : ∀ k, t.get? k = none) :
    t = ∅ := by
  obtain ⟨entries, distinct⟩ := t
  cases entries with
  | nil => rfl
  | cons e entries =>
    have := Table.get?_eq_none_iff.1 (h e.1)
    exact absurd List.mem_cons_self this

/-- **No complete assembly stays** in reassembly: a packet that completes one takes it out. -/
theorem Reassembly.feed_incomplete {r : Reassembly}
    (incomplete : ∀ split a, r.assemblies.get? split = some a → a.isComplete = false)
    (bounds : ReceiverLimits) (p : Packet) :
    ∀ split a, (r.feed bounds p).1.assemblies.get? split = some a → a.isComplete = false := by
  intro split a ha
  cases hpart : p.part with
  | none =>
    rw [feed_of_no_part hpart] at ha
    exact incomplete split a ha
  | some part =>
    rcases feed_of_part bounds r hpart with ⟨-, hf⟩ | ⟨-, hc, hf⟩ | ⟨-, -, hf⟩ <;> rw [hf] at ha
    · exact incomplete split a ha
    · rw [Table.get?_insert] at ha
      split_ifs at ha
      · cases ha
        exact hc
      · exact incomplete split a ha
    · rw [Table.get?_erase] at ha
      split_ifs at ha
      exact incomplete split a ha

namespace Posting

variable {limits : SenderLimits} {bounds : ReceiverLimits} {posted : List Posting}
  {done : List Labelled} {r : Reassembly} {ids : List Nat} {out : List Packet}

/-- The bounds of a receiver have room for all messages at once. -/
structure Fits (limits : SenderLimits) (bounds : ReceiverLimits) (posted : List Posting) :
    Prop where
  parts : ∀ q ∈ posted, q.isSplit limits = true → q.pieces.length < bounds.maxParts
  assemblies : (posted.filter (·.isSplit limits)).length ≤ bounds.maxAssemblies

instance : Decidable (Fits limits bounds posted) :=
  decidable_of_iff ((∀ q ∈ posted, q.isSplit limits = true → q.pieces.length < bounds.maxParts) ∧
      (posted.filter (·.isSplit limits)).length ≤ bounds.maxAssemblies)
    ⟨fun ⟨parts, assemblies⟩ => ⟨parts, assemblies⟩, fun h => ⟨h.parts, h.assemblies⟩⟩

/-- Reassembly has kept every packet that has come, and no assembly that is complete. -/
structure Gathers (limits : SenderLimits) (posted : List Posting) (done : List Labelled)
    (r : Reassembly) (ids : List Nat) : Prop where
  kept : ∀ i j, (i, j) ∈ done.map Prod.fst → ∀ q piece, posted[i]? = some q →
    q.pieces[j]? = some piece →
    i ∈ ids ∨ q.isSplit limits = true ∧ r.Holds q.split j piece.payload
  incomplete : ∀ split a, r.assemblies.get? split = some a → a.isComplete = false

theorem gathers_empty : Gathers limits posted [] .empty [] where
  kept _ _ h := absurd h List.not_mem_nil
  incomplete split a h := by simp [Reassembly.empty] at h

section

variable (h : Assembles limits posted done r ids out)
  (distinct : posted.Pairwise fun q q' => q.isSplit limits → q'.isSplit limits → q.split ≠ q'.split)

include h

/-- **There is room for another assembly**, since no two messages in assembly have the same
number. -/
theorem Assembles.not_full (fits : Fits limits bounds posted) {i : Nat} {q : Posting}
    (hq : posted[i]? = some q) (hs : q.isSplit limits = true) : ¬ r.Full bounds q.split := by
  rintro ⟨hnone, hfull⟩
  have splits : q.split :: r.assemblies.keys ⊆
      (posted.filter (·.isSplit limits)).map Posting.split := by
    refine List.cons_subset.2 ⟨List.mem_map_of_mem (List.mem_filter.2
      ⟨List.mem_of_getElem? hq, hs⟩), fun split hsplit => ?_⟩
    obtain ⟨a, ha⟩ := Option.ne_none_iff_exists'.1 (mt Table.get?_eq_none_iff.1 (not_not.2 hsplit))
    obtain ⟨i', q', hq', hs', rfl, -⟩ := h.assembly split a ha
    exact List.mem_map_of_mem (List.mem_filter.2 ⟨List.mem_of_getElem? hq', hs'⟩)
  have nodup : (q.split :: r.assemblies.keys).Nodup :=
    List.nodup_cons.2 ⟨Table.get?_eq_none_iff.1 hnone, r.assemblies.distinct⟩
  have few := (nodup.subperm splits).length_le
  have size : r.assemblies.keys.length = r.size := List.length_map _
  rw [List.length_cons, List.length_map, size] at few
  have := fits.assemblies
  omega

include distinct

/-- **One packet of a message is gathered.** -/
theorem Gathers.feed (g : Gathers limits posted done r ids) (fits : Fits limits bounds posted)
    (formed : ∀ q ∈ posted, q.Formed limits) {i j : Nat} {p : Packet}
    (mem : ((i, j), p) ∈ labelled posted) :
    Gathers limits posted (done ++ [((i, j), p)]) (r.feed bounds p.onWire).1
      (ids ++ (r.feed bounds p.onWire).2.map fun _ => i) := by
  obtain ⟨q, hq, hp⟩ := mem_labelled.1 mem
  rw [getElem?_packets, Option.map_eq_some_iff] at hp
  obtain ⟨piece, hpiece, rfl⟩ := hp
  have f := formed q (List.mem_of_getElem? hq)
  -- a message of which something comes out is the one whose packet comes
  have comes (hne : (r.feed bounds (q.packet piece j).onWire).2 ≠ []) :
      i ∈ ids ++ (r.feed bounds (q.packet piece j).onWire).2.map fun _ => i := by
    obtain ⟨w, hw⟩ := List.exists_mem_of_ne_nil _ hne
    exact List.mem_append_right _ (List.mem_map.2 ⟨w, hw, rfl⟩)
  constructor
  case kept =>
    intro i' j' hij q' piece' hq' hpiece'
    rw [List.map_append] at hij
    rcases List.mem_append.1 hij with hij | hij
    · rcases g.kept i' j' hij q' piece' hq' hpiece' with hi | ⟨hs', holds⟩
      · exact .inl (List.mem_append_left _ hi)
      · rcases h.feed_keeps bounds distinct formed hq' hq hs' hpiece' hpiece holds
          with ⟨rfl, hne⟩ | holds
        · exact .inl (comes hne)
        · exact .inr ⟨hs', holds⟩
    · obtain ⟨rfl, rfl⟩ := Prod.mk.inj (List.mem_singleton.1 hij)
      obtain rfl := Option.some.inj (hq.symm.trans hq')
      obtain rfl := Option.some.inj (hpiece.symm.trans hpiece')
      by_cases hs : q.isSplit limits = true
      · rcases h.feed_stores bounds distinct formed hq hs hpiece
          (fits.parts q (List.mem_of_getElem? hq) hs) with hne | holds | full
        · exact .inl (comes hne)
        · exact .inr ⟨hs, holds⟩
        · exact absurd full (h.not_full fits hq hs)
      · have none : piece.part = none := by
          rw [← Option.not_isSome_iff_eq_none]
          exact mt (f.isSplit_iff hpiece).2 hs
        refine .inl (comes ?_)
        rw [Reassembly.feed_of_no_part none]
        exact List.cons_ne_nil _ _
  case incomplete => exact Reassembly.feed_incomplete g.incomplete bounds _

/-- **A message all of whose packets have been gathered has come out.** -/
theorem Gathers.mem_ids (g : Gathers limits posted done r ids)
    (formed : ∀ q ∈ posted, q.Formed limits) (pos : 0 < limits.maxPartLength) {i : Nat}
    {q : Posting} (hq : posted[i]? = some q)
    (all : ∀ j < q.pieces.length, (i, j) ∈ done.map Prod.fst) : i ∈ ids := by
  by_contra hi
  have held (j : Nat) (hj : j < q.pieces.length) :
      q.isSplit limits = true ∧ r.Holds q.split j q.pieces[j].payload :=
    (g.kept i j (all j hj) q _ hq (List.getElem?_eq_getElem hj)).resolve_left hi
  have some_ := (formed q (List.mem_of_getElem? hq)).pieces_pos pos
  obtain ⟨hs, a, ha, -⟩ := held 0 some_
  have assembly := h.held distinct hq hs ha
  -- every slot of the assembly is filled, so it would not be there any more
  have filled : a.slots.countP Option.isSome = a.slots.length := by
    rw [List.countP_eq_length]
    intro slot hslot
    obtain ⟨j, hj, rfl⟩ := List.mem_iff_getElem.1 hslot
    obtain ⟨-, a', ha', hslot'⟩ := held j (by rwa [← assembly.count, ← assembly.valid.length])
    obtain rfl := Option.some.inj (ha.symm.trans ha')
    rw [List.getElem?_eq_getElem hj] at hslot'
    rw [Option.some.inj hslot']
    rfl
  have complete : a.isComplete = true := by
    rw [Assembly.isComplete, assembly.valid.filled, filled, assembly.valid.length]
    exact decide_eq_true (Nat.le_refl _)
  rw [g.incomplete q.split a ha] at complete
  cases complete

end

namespace Distinct

variable {packets : List Labelled}
  (distinct : posted.Pairwise fun q q' => q.isSplit limits → q'.isSplit limits → q.split ≠ q'.split)
  (formed : ∀ q ∈ posted, q.Formed limits)

include distinct formed

theorem exists_gathers (fits : Fits limits bounds posted) (d : Distinct posted packets) :
    ∃ ids,
      Assembles limits posted packets (assembled bounds packets).1 ids
        (assembled bounds packets).2 ∧
      Gathers limits posted packets (assembled bounds packets).1 ids := by
  induction packets using List.reverseRecOn with
  | nil => exact ⟨[], assembles_empty, gathers_empty⟩
  | append_singleton packets x ih =>
    obtain ⟨d', mem, fresh⟩ := d.front
    obtain ⟨ids, h, g⟩ := ih d'
    rw [assembled_concat]
    exact ⟨_, (h.feed bounds distinct formed mem fresh).2, g.feed h distinct fits formed mem⟩

/-- **All messages come out once**, if all their packets come, in any order, and nothing is left in
assembly. -/
theorem all_come (fits : Fits limits bounds posted) (pos : 0 < limits.maxPartLength)
    (d : Distinct posted packets) (all : ∀ x ∈ labelled posted, x.1 ∈ packets.map Prod.fst) :
    (∃ ids : List Nat, ids.Perm (List.range posted.length) ∧
      List.Forall₂ (CarriedAt posted) ids (assembled bounds packets).2) ∧
      (assembled bounds packets).1 = .empty := by
  obtain ⟨ids, h, g⟩ := d.exists_gathers distinct formed fits
  have come (i : Nat) (q : Posting) (hq : posted[i]? = some q) : i ∈ ids := by
    refine g.mem_ids h distinct formed pos hq fun j hj => ?_
    have mem : ((i, j), q.packet q.pieces[j] j) ∈ labelled posted :=
      mem_labelled.2 ⟨q, hq, by rw [getElem?_packets, List.getElem?_eq_getElem hj]; rfl⟩
    exact all _ mem
  refine ⟨⟨ids, ?_, h.carried⟩, ?_⟩
  · refine (List.perm_ext_iff_of_nodup h.nodup List.nodup_range).2 fun i => ?_
    rw [List.mem_range]
    constructor
    · intro hi
      obtain ⟨w, -, q, hq, -⟩ := exists_of_mem_forall₂ h.carried.flip hi
      exact (List.getElem?_eq_some_iff.1 hq).1
    · exact fun hi => come i _ (List.getElem?_eq_getElem hi)
  · have none (split : UInt16) : (assembled bounds packets).1.assemblies.get? split = none := by
      by_contra hne
      obtain ⟨a, ha⟩ := Option.ne_none_iff_exists'.1 hne
      obtain ⟨i, q, hq, hs, rfl, -⟩ := h.assembly split a ha
      exact hne (h.closed i (come i q hq) q hq hs)
    exact congrArg Reassembly.mk (Table.eq_empty none)

end Distinct

/-! ### One message after another -/

theorem distinct_labelled (posted : List Posting) : Distinct posted (labelled posted) :=
  ⟨fun _ => id, nodup_labelled⟩

/-- **A message comes out whole** when its packets have come, if nothing is in assembly before. -/
theorem Formed.comes {q : Posting} (f : q.Formed limits) (pos : 0 < limits.maxPartLength)
    (parts : q.isSplit limits = true → q.pieces.length < bounds.maxParts)
    (room : 1 ≤ bounds.maxAssemblies) :
    ∃ w, q.Carried w ∧
      runAll (Reassembly.feed bounds) .empty (q.packets.map Packet.onWire) = (.empty, [w]) := by
  have fits : Fits limits bounds [q] := by
    refine ⟨fun q' hq' => List.mem_singleton.1 hq' ▸ parts, ?_⟩
    exact (List.length_filter_le _ [q]).trans room
  have packets : (labelled [q]).map (fun x => x.2.onWire) = q.packets.map Packet.onWire := by
    have := congrArg (List.map Packet.onWire) (map_snd_labelled : (labelled [q]).map Prod.snd = _)
    rwa [List.map_map, List.flatMap_singleton] at this
  obtain ⟨⟨ids, perm, carried⟩, empty⟩ := (distinct_labelled [q]).all_come
    (List.pairwise_singleton _ q) (fun q' hq' => List.mem_singleton.1 hq' ▸ f) fits pos
    fun x hx => List.mem_map_of_mem hx
  rw [assembled, packets] at carried empty
  obtain rfl : ids = [0] := List.perm_singleton.1 perm
  obtain ⟨w, rest, ⟨q', hq', hw⟩, hrest, out⟩ := List.forall₂_cons_left_iff.1 carried
  obtain rfl := List.forall₂_nil_left_iff.1 hrest
  obtain rfl : q = q' := Option.some.inj hq'
  exact ⟨w, hw, Prod.ext empty out⟩

/-- **Messages whose packets come one after another come out one after another.** -/
theorem come_in_line (formed : ∀ q ∈ posted, q.Formed limits) (pos : 0 < limits.maxPartLength)
    (parts : ∀ q ∈ posted, q.isSplit limits = true → q.pieces.length < bounds.maxParts)
    (room : 1 ≤ bounds.maxAssemblies) :
    ∃ out, List.Forall₂ Carried posted out ∧ runAll (Reassembly.feed bounds) .empty
      ((posted.flatMap Posting.packets).map Packet.onWire) = (.empty, out) := by
  induction posted with
  | nil => exact ⟨[], .nil, rfl⟩
  | cons q posted ih =>
    obtain ⟨w, hw, one⟩ := (formed q List.mem_cons_self).comes pos
      (parts q List.mem_cons_self) room
    obtain ⟨out, carried, rest⟩ := ih (fun q' hq' => formed q' (List.mem_cons_of_mem _ hq'))
      fun q' hq' => parts q' (List.mem_cons_of_mem _ hq')
    refine ⟨w :: out, .cons hw carried, ?_⟩
    rw [List.flatMap_cons, List.map_append, runAll_append, one, rest]
    rfl

end Posting

end ReliableDatagram
