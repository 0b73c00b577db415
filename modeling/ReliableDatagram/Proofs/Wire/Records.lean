import ReliableDatagram.Proofs.Wire.Acknowledgement
import ReliableDatagram.Proofs.Wire.Decoder

/-!
# What is read of an acknowledgement

Whatever bytes come, an acknowledgement is read record by record, and the reader stops for one of
four reasons: it has read as many records as were announced, nothing is left, it has as many numbers
as it takes, or the record that it has begun to read is cut short, which is the only error behind
the count.  It stops in the middle of a record for the last reason only, and whichever comes first.

* `Acknowledgement.Begins`: the reader has read some records and begins another one;
* `Acknowledgement.Reads.decodeRecords`, `Acknowledgement.Begins.decodeRecords_cutShort`: what the
  reader answers when it ends after a record and inside one;
* `Acknowledgement.reads_or_cutShort`: one of the two happens;
* `Acknowledgement.decode_error_iff`, `Acknowledgement.decode_iff`: both for all bytes, with the
  bounds on what is read;
* `Frame.decode_ack`, `Frame.decode_nack`: what is read back from an acknowledgement are numbers
  that it was written for.
-/

namespace ReliableDatagram

namespace Acknowledgement

/-- A record: a run of numbers by its first and its last one, or one number behind another tag. -/
inductive Record
  | run (first last : Nat)
  | single (tag : UInt8) (number : Nat)

/-- The number of bytes behind the tag of a record. -/
def bytesBehind (tag : UInt8) : Nat := if tag = 0 then 6 else 3

/-- A record has begun that the bytes do not finish. -/
def CutShort (bytes : Bytes) : Prop :=
  ∃ tag more, bytes = tag :: more ∧ more.length < bytesBehind tag

namespace Record

/-- The numbers of a record fit into their fields, and the tag of a run stands for nothing else. -/
def Fits : Record → Prop
  | run first last => first < 2 ^ 24 ∧ last < 2 ^ 24
  | single tag number => tag ≠ 0 ∧ number < 2 ^ 24

/-- The bytes of a record. -/
def bytes : Record → Bytes
  | run first last => 0 :: (Bytes.triad first ++ Bytes.triad last)
  | single tag number => tag :: Bytes.triad number

/-- The numbers that a record stands for, in increasing order; a run stands for no number that is
more than 512 above its first one. -/
def numbers : Record → List Nat
  | run first last => (Finset.Icc first (min last (first + 512))).sort (· ≤ ·)
  | single _ number => [number]

theorem numbers_run (first last : Nat) : (run first last).numbers = expand first last := by
  have interval : (expand first last).toFinset = Finset.Icc first (min last (first + 512)) := by
    ext n
    rw [List.mem_toFinset, expand, List.mem_range'_1, Finset.mem_Icc, maxReach]
    omega
  rw [numbers, ← interval]
  exact (List.toFinset_sort (· ≤ ·) List.nodup_range').2 List.pairwise_le_range'

theorem lt_of_mem_numbers {r : Record} (fits : r.Fits) {n : Nat} (h : n ∈ r.numbers) :
    n < 2 ^ 24 := by
  cases r with
  | run first last =>
    rw [numbers, Finset.mem_sort, Finset.mem_Icc] at h
    have := fits.2
    omega
  | single tag number => exact List.mem_singleton.1 h ▸ fits.2

theorem bytes_ne_nil (r : Record) : r.bytes ≠ [] := by
  cases r <;> exact List.cons_ne_nil _ _

/-- **A record is read as the numbers that it stands for**, and delimits itself. -/
theorem delimits {r : Record} (fits : r.Fits) :
    Decoder.Delimits decodeRecord r.bytes r.numbers := by
  cases r with
  | run first last =>
    rw [numbers_run]
    exact (Decoder.delimits_u8 0).bind
      ((Decoder.delimits_triad fits.1).bind ((Decoder.delimits_triad fits.2).last _))
  | single tag number =>
    refine (Decoder.delimits_u8 tag).bind ?_
    rw [if_neg fits.1]
    exact (Decoder.delimits_triad fits.2).last _

theorem exists_bytes_eq {tag : UInt8} {more : Bytes} (length : more.length = bytesBehind tag) :
    ∃ r : Record, r.Fits ∧ r.bytes = tag :: more := by
  unfold bytesBehind at length
  split_ifs at length with zero
  · subst zero
    have front : (more.take 3).length = 3 := List.length_take_of_le (by omega)
    have back : (more.drop 3).length = 3 := by rw [List.length_drop, length]
    obtain ⟨same, lt⟩ := Bytes.triad_ofLittleEndian front
    obtain ⟨same', lt'⟩ := Bytes.triad_ofLittleEndian back
    refine ⟨run _ _, ⟨lt, lt'⟩, ?_⟩
    rw [bytes, same, same', List.take_append_drop]
  · obtain ⟨same, lt⟩ := Bytes.triad_ofLittleEndian length
    exact ⟨single tag _, ⟨zero, lt⟩, by rw [bytes, same]⟩

/-- What is left begins with a record or is cut short. -/
theorem exists_append_or_cutShort {body : Bytes} (left : body ≠ []) :
    (∃ (r : Record) (rest : Bytes), r.Fits ∧ body = r.bytes ++ rest) ∨ CutShort body := by
  obtain ⟨tag, more, rfl⟩ := List.exists_cons_of_ne_nil left
  rcases Nat.lt_or_ge more.length (bytesBehind tag) with short | enough
  · exact .inr ⟨tag, more, rfl, short⟩
  · obtain ⟨r, fits, bytes⟩ := exists_bytes_eq (List.length_take_of_le enough)
    refine .inl ⟨r, more.drop (bytesBehind tag), fits, ?_⟩
    rw [bytes, List.cons_append, List.take_append_drop]

end Record

theorem CutShort.decodeRecord {body : Bytes} (cut : CutShort body) :
    ∃ e left, decodeRecord body = .error e left := by
  obtain ⟨tag, more, rfl, short⟩ := cut
  -- they are the front of a record that goes on with zeroes
  have filled : (more ++ List.replicate (bytesBehind tag - more.length) (0 : UInt8)).length =
      bytesBehind tag := by
    rw [List.length_append, List.length_replicate]
    omega
  obtain ⟨r, fits, bytes⟩ := Record.exists_bytes_eq filled
  obtain ⟨needed, left, -, error⟩ := (Record.delimits fits).short (tag :: more)
    (.replicate (bytesBehind tag - more.length) 0) bytes
    (mt (List.replicate_eq_nil_iff _).1 (by omega))
  exact ⟨_, _, error⟩

/-! ### The records that are begun -/

variable {count room : Nat} {body rest : Bytes} {r : Record} {records : List Record}

/-- A reader that takes some number of records and has room for some numbers has read records and
begins another one: it has not read as many as it takes, bytes are left, and it has still room.  It
has begun each of the records that it has read in the same way. -/
structure Begins (count room : Nat) (body : Bytes) (records : List Record) (rest : Bytes) :
    Prop where
  fits : ∀ r ∈ records, r.Fits
  split : body = records.flatMap Record.bytes ++ rest
  announced : records.length < count
  left : rest ≠ []
  room : (records.flatMap Record.numbers).length < room

/-- The reader has read these records, each of which it has begun, and begins no other. -/
structure Reads (count room : Nat) (body : Bytes) (records : List Record) (rest : Bytes) :
    Prop where
  fits : ∀ r ∈ records, r.Fits
  split : body = records.flatMap Record.bytes ++ rest
  begun : ∀ front r back, records = front ++ r :: back →
    Begins count room body front ((r :: back).flatMap Record.bytes ++ rest)
  ends : ¬Begins count room body records rest

theorem begins_nil :
    Begins count room body [] rest ↔ body = rest ∧ 0 < count ∧ rest ≠ [] ∧ 0 < room :=
  ⟨fun h => ⟨h.split, h.announced, h.left, h.room⟩,
    fun ⟨split, announced, left, room⟩ => ⟨nofun, split, announced, left, room⟩⟩

/-- Behind the first record the reader goes on with one record less and the room that is left. -/
theorem begins_cons (fits : r.Fits) :
    Begins (count + 1) room (r.bytes ++ body) (r :: records) rest ↔
      Begins count (room - r.numbers.length) body records rest := by
  constructor
  · rintro ⟨all, split, announced, left, more⟩
    rw [List.flatMap_cons, List.length_append] at more
    refine ⟨fun q hq => all q (List.mem_cons_of_mem _ hq), ?_, ?_, left, by omega⟩
    · rwa [List.flatMap_cons, List.append_assoc, List.append_cancel_left_eq] at split
    · exact Nat.lt_of_succ_lt_succ announced
  · rintro ⟨all, split, announced, left, more⟩
    refine ⟨List.forall_mem_cons.2 ⟨fits, all⟩, ?_, Nat.succ_lt_succ announced, left, ?_⟩
    · rw [split, List.flatMap_cons, List.append_assoc]
    · rw [List.flatMap_cons, List.length_append]
      omega

theorem reads_cons (fits : r.Fits) (space : 0 < room) :
    Reads (count + 1) room (r.bytes ++ body) (r :: records) rest ↔
      Reads count (room - r.numbers.length) body records rest := by
  constructor
  · rintro ⟨all, split, begun, ends⟩
    refine ⟨fun q hq => all q (List.mem_cons_of_mem _ hq), ?_, ?_, mt (begins_cons fits).2 ends⟩
    · rwa [List.flatMap_cons, List.append_assoc, List.append_cancel_left_eq] at split
    · rintro front q back rfl
      exact (begins_cons fits).1 (begun (r :: front) q back rfl)
  · rintro ⟨all, split, begun, ends⟩
    have whole : r.bytes ++ body = (r :: records).flatMap Record.bytes ++ rest := by
      rw [split, List.flatMap_cons, List.append_assoc]
    refine ⟨List.forall_mem_cons.2 ⟨fits, all⟩, whole, ?_, mt (begins_cons fits).1 ends⟩
    intro front q back h
    cases front with
    | nil =>
      cases h
      refine begins_nil.2 ⟨whole, Nat.succ_pos count, ?_, space⟩
      simp [r.bytes_ne_nil]
    | cons r' front =>
      cases h
      exact (begins_cons fits).2 (begun front q back rfl)

/-! ### What the reader answers -/

theorem decodeRecords_of_not_begins (h : ¬Begins count room body [] body) :
    decodeRecords count room body = .ok [] body := by
  cases count with
  | zero => rfl
  | succ count =>
    have ended : room = 0 ∨ body.isEmpty = true := by
      rw [begins_nil] at h
      rw [List.isEmpty_iff]
      by_contra goesOn
      push Not at goesOn
      exact h ⟨rfl, Nat.succ_pos count, goesOn.2, Nat.pos_of_ne_zero goesOn.1⟩
    rw [decodeRecords, Decoder.bind_ok (x := Decoder.atEnd) rfl]
    simp only [ended, if_true]
    rfl

theorem decodeRecords_of_begins (h : Begins (count + 1) room body [] body) :
    decodeRecords (count + 1) room body =
      (decodeRecord >>= fun numbers =>
        decodeRecords count (room - (numbers.take room).length) >>= fun others =>
          pure (numbers.take room ++ others)) body := by
  have goesOn : ¬(room = 0 ∨ body.isEmpty = true) := by
    rw [List.isEmpty_iff]
    exact not_or.2 ⟨Nat.ne_of_gt h.room, h.left⟩
  rw [decodeRecords, Decoder.bind_ok (x := Decoder.atEnd) rfl]
  simp only [goesOn, if_false]

theorem decodeRecords_append (fits : r.Fits) (space : 0 < room) (body : Bytes) :
    decodeRecords (count + 1) room (r.bytes ++ body) =
      ((r.numbers.take room ++ ·) <$> decodeRecords count (room - r.numbers.length)) body := by
  have begins : Begins (count + 1) room (r.bytes ++ body) [] (r.bytes ++ body) :=
    begins_nil.2 ⟨rfl, Nat.succ_pos count, by simp [r.bytes_ne_nil], space⟩
  have used : room - (r.numbers.take room).length = room - r.numbers.length := by
    rw [List.length_take]
    omega
  rw [decodeRecords_of_begins begins, Decoder.bind_ok ((Record.delimits fits).whole body), used]
  cases others : decodeRecords count (room - r.numbers.length) body with
  | ok numbers rest => rw [Decoder.bind_ok others, Decoder.map_ok others, Decoder.pure_eq]
  | error e left => rw [Decoder.bind_error others, Decoder.map_error others]

/-- **The numbers of the records that are read**, as far as there is room. -/
theorem Reads.decodeRecords (h : Reads count room body records rest) :
    decodeRecords count room body = .ok ((records.flatMap Record.numbers).take room) rest := by
  induction records generalizing count room body with
  | nil =>
    obtain rfl : body = rest := h.split
    rw [decodeRecords_of_not_begins h.ends, List.flatMap_nil, List.take_nil]
  | cons r records ih =>
    obtain ⟨-, announced, -, space⟩ := begins_nil.1 (h.begun [] r records rfl)
    obtain ⟨count, rfl⟩ := Nat.exists_eq_succ_of_ne_zero (Nat.ne_of_gt announced)
    have fits := h.fits r List.mem_cons_self
    have split := h.split
    rw [List.flatMap_cons, List.append_assoc] at split
    subst split
    have others := ih ((reads_cons fits space).1 h)
    rw [decodeRecords_append fits space, Decoder.map_ok others, List.flatMap_cons,
      List.take_append]

/-- **A record that is begun and cut short** is an error of the whole. -/
theorem Begins.decodeRecords_cutShort (h : Begins count room body records rest)
    (cut : CutShort rest) :
    ∃ e left, Acknowledgement.decodeRecords count room body = .error e left := by
  induction records generalizing count room body with
  | nil =>
    obtain rfl : body = rest := h.split
    obtain ⟨count, rfl⟩ := Nat.exists_eq_succ_of_ne_zero (Nat.ne_of_gt h.announced)
    obtain ⟨e, left, error⟩ := cut.decodeRecord
    exact ⟨e, left, (decodeRecords_of_begins h).trans (Decoder.bind_error error)⟩
  | cons r records ih =>
    obtain ⟨count, rfl⟩ :=
      Nat.exists_eq_succ_of_ne_zero (Nat.ne_of_gt (Nat.zero_lt_of_lt h.announced))
    have fits := h.fits r List.mem_cons_self
    have split := h.split
    rw [List.flatMap_cons, List.append_assoc] at split
    subst split
    obtain ⟨e, left, error⟩ := ih ((begins_cons fits).1 h)
    refine ⟨e, left, ?_⟩
    rw [decodeRecords_append fits (Nat.zero_lt_of_lt h.room), Decoder.map_error error]

/-- **The reader ends after a record or inside one.** -/
theorem reads_or_cutShort (count room : Nat) (body : Bytes) :
    ∃ records rest, Reads count room body records rest ∨
      Begins count room body records rest ∧ CutShort rest := by
  induction count generalizing room body with
  | zero => exact ⟨[], body, .inl ⟨nofun, rfl, by simp, fun h => Nat.not_lt_zero _ h.announced⟩⟩
  | succ count ih =>
    by_cases begins : Begins (count + 1) room body [] body
    · rcases Record.exists_append_or_cutShort begins.left with ⟨r, back, fits, rfl⟩ | cut
      · obtain ⟨records, rest, h⟩ := ih (room - r.numbers.length) back
        refine ⟨r :: records, rest, h.imp (reads_cons fits begins.room).2 fun ⟨more, cut⟩ => ?_⟩
        exact ⟨(begins_cons fits).2 more, cut⟩
      · exact ⟨[], body, .inr ⟨begins, cut⟩⟩
    · exact ⟨[], body, .inl ⟨nofun, rfl, by simp, begins⟩⟩

/-! ### All bytes -/

theorem decode_of_short {bytes : Bytes} (short : bytes.length < 2) :
    decode bytes = .error (.truncated 2 bytes.length) bytes :=
  Decoder.bind_error (Decoder.map_error (Decoder.map_error (Decoder.take_eq_error short)))

theorem decode_of_counted {bytes : Bytes} (enough : 2 ≤ bytes.length) :
    decode bytes = decodeRecords (Bytes.ofBigEndian (bytes.take 2)) 4096 (bytes.drop 2) := by
  have lt := Bytes.ofBigEndian_lt (bytes.take 2)
  rw [List.length_take_of_le enough] at lt
  have count := UInt16.toNat_ofNat_of_lt' lt
  have read : Decoder.u16 bytes =
      .ok (UInt16.ofNat (Bytes.ofBigEndian (bytes.take 2))) (bytes.drop 2) :=
    Decoder.map_ok (Decoder.map_ok (Decoder.take_eq_ok enough))
  rw [decode, Decoder.bind_ok read, count]
  rfl

/-- The count is not there, or a record is begun that is cut short. -/
def Broken (bytes : Bytes) : Prop :=
  bytes.length < 2 ∨ ∃ records rest,
    Begins (Bytes.ofBigEndian (bytes.take 2)) 4096 (bytes.drop 2) records rest ∧ CutShort rest

/-- **Bytes that can not be read** are broken, and all broken bytes are found out. -/
theorem decode_error_iff (bytes : Bytes) :
    (∃ e left, decode bytes = .error e left) ↔ Broken bytes := by
  rcases Nat.lt_or_ge bytes.length 2 with short | enough
  · exact iff_of_true ⟨_, _, decode_of_short short⟩ (.inl short)
  rw [decode_of_counted enough]
  constructor
  · rintro ⟨e, left, error⟩
    obtain ⟨records, rest, reads | ⟨begins, cut⟩⟩ :=
      reads_or_cutShort (Bytes.ofBigEndian (bytes.take 2)) 4096 (bytes.drop 2)
    · cases error.symm.trans reads.decodeRecords
    · exact .inr ⟨records, rest, begins, cut⟩
  · rintro (short | ⟨records, rest, begins, cut⟩)
    · exact absurd short (Nat.not_lt.2 enough)
    · exact begins.decodeRecords_cutShort cut

/-- **What is read of an acknowledgement**, whatever bytes come. Reading fails exactly if the count
is not there or a record is begun that is cut short; otherwise what is read are the first 4096
numbers of the records, and none of them needs more than 24 bits. -/
theorem decode_iff (bytes : Bytes) :
    let count := Bytes.ofBigEndian (bytes.take 2)
    let body := bytes.drop 2
    ((∃ e left, decode bytes = .error e left) ↔
      bytes.length < 2 ∨
        ∃ records rest, Begins count 4096 body records rest ∧ CutShort rest) ∧
    ∀ numbers rest, decode bytes = .ok numbers rest →
      (∃ records, Reads count 4096 body records rest ∧
        numbers = (records.flatMap Record.numbers).take 4096) ∧
      numbers.length ≤ 4096 ∧ ∀ n ∈ numbers, n < 2 ^ 24 := by
  intro count body
  refine ⟨decode_error_iff bytes, fun numbers rest h => ?_⟩
  have whole : ¬Broken bytes := by
    rw [← decode_error_iff]
    rintro ⟨e, left, error⟩
    cases error.symm.trans h
  have enough : 2 ≤ bytes.length := Nat.not_lt.1 (mt Or.inl whole)
  obtain ⟨records, rest', reads | cut⟩ := reads_or_cutShort count 4096 body
  · cases ((decode_of_counted enough).trans reads.decodeRecords).symm.trans h
    refine ⟨⟨records, reads, rfl⟩, List.length_take_le _ _, fun n hn => ?_⟩
    obtain ⟨r, hr, hn⟩ := List.mem_flatMap.1 (List.mem_of_mem_take hn)
    exact Record.lt_of_mem_numbers (reads.fits r hr) hn
  · exact absurd (.inr ⟨records, rest', cut⟩) whole

/-- Nine long runs are announced, and the last one that is there is cut short.  Behind seven runs it
is begun, which is an error; behind eight there is no room for its numbers. -/
theorem decode_iff_capped :
    let run : Bytes := [0, 0, 0, 0, 0xff, 0xff, 0]
    let bytes (n : Nat) : Bytes := [0, 9] ++ (List.replicate n run).flatten ++ [0, 1]
    (∃ e left, decode (bytes 7) = .error e left) ∧
      ∃ numbers, decode (bytes 8) = .ok numbers [0, 1] ∧ numbers.length = 4096 ∧
        ∀ n ∈ numbers, n < 2 ^ 24 := by
  intro run bytes
  have length (n : Nat) :
      ((List.replicate n (Record.run 0 65535)).flatMap Record.numbers).length = n * 513 := by
    simp [List.length_flatMap, Record.numbers_run, expand, maxReach]
  have begins : Begins 9 4096 ((bytes 7).drop 2) (List.replicate 7 (.run 0 65535)) [0, 1] :=
    { fits := fun r hr => List.eq_of_mem_replicate hr ▸ ⟨by decide, by decide⟩
      split := rfl
      announced := by decide
      left := List.cons_ne_nil _ _
      room := by rw [length]; decide }
  have error := (decode_iff (bytes 7)).1.2 (.inr ⟨_, _, begins, 0, [1], rfl, by decide⟩)
  have reads : Reads 9 4096 ((bytes 8).drop 2) (List.replicate 8 (.run 0 65535)) [0, 1] :=
    { fits := fun r hr => List.eq_of_mem_replicate hr ▸ ⟨by decide, by decide⟩
      split := rfl
      begun := fun front r back h => by
        obtain ⟨eight, hfront, hback⟩ := List.append_eq_replicate_iff.1 h.symm
        rw [List.length_cons] at eight
        refine ⟨fun q hq => ?_, ?_, by omega, by simp, ?_⟩
        · rw [hfront] at hq
          exact List.eq_of_mem_replicate hq ▸ ⟨by decide, by decide⟩
        · rw [← List.append_assoc, ← List.flatMap_append, ← h]
          rfl
        · rw [hfront, length]
          omega
      ends := fun h => by
        have := h.room
        rw [length] at this
        omega }
  have read : decode (bytes 8) = .ok _ [0, 1] :=
    (decode_of_counted (by decide)).trans reads.decodeRecords
  obtain ⟨-, -, small⟩ := (decode_iff (bytes 8)).2 _ _ read
  refine ⟨error, _, read, ?_, small⟩
  rw [List.length_take, length]
  rfl

/-! ### Reading back -/

namespace Record

/-- The record in which a run is written. -/
def ofRun (run : Nat × Nat) : Record :=
  if run.1 = run.2 then single 1 run.1 else .run run.1 run.2

theorem bytes_ofRun (run : Nat × Nat) : (ofRun run).bytes = encodeRun run := by
  obtain ⟨first, last⟩ := run
  simp only [ofRun, encodeRun]
  split_ifs <;> rfl

theorem numbers_ofRun (run : Nat × Nat) : (ofRun run).numbers = expand run.1 run.2 := by
  unfold ofRun
  split_ifs with one
  · simp [numbers, expand, one]
  · exact numbers_run _ _

theorem fits_ofRun {run : Nat × Nat} (fits : run.1 < 2 ^ 24 ∧ run.2 < 2 ^ 24) :
    (ofRun run).Fits := by
  unfold ofRun
  split_ifs
  · exact ⟨by decide, fits.1⟩
  · exact fits

end Record

theorem decodeRecords_flatMap {runs : List (Nat × Nat)}
    (fits : ∀ run ∈ runs, run.1 < 2 ^ 24 ∧ run.2 < 2 ^ 24) (room : Nat) :
    ∃ rest, decodeRecords runs.length room (runs.flatMap encodeRun) =
      .ok ((runs.flatMap fun run => expand run.1 run.2).take room) rest := by
  induction runs generalizing room with
  | nil => exact ⟨[], by simp [decodeRecords]⟩
  | cons run runs ih =>
    rw [List.length_cons]
    rcases Nat.eq_zero_or_pos room with rfl | space
    · refine ⟨_, decodeRecords_of_not_begins fun h => ?_⟩
      exact Nat.not_lt_zero _ h.room
    · obtain ⟨rest, others⟩ := ih (fun r hr => fits r (List.mem_cons_of_mem _ hr))
        (room - (expand run.1 run.2).length)
      refine ⟨rest, ?_⟩
      rw [← Record.numbers_ofRun] at others
      rw [List.flatMap_cons, ← Record.bytes_ofRun,
        decodeRecords_append (Record.fits_ofRun (fits run List.mem_cons_self)) space,
        Decoder.map_ok others, List.flatMap_cons, List.take_append, Record.numbers_ofRun]

theorem decode_records {runs : List (Nat × Nat)}
    (fits : ∀ run ∈ runs, run.1 < 2 ^ 24 ∧ run.2 < 2 ^ 24) (few : runs.length ≤ 65535) :
    ∃ rest, decode (Bytes.bigEndian 2 runs.length ++ runs.flatMap encodeRun) =
      .ok ((runs.flatMap fun run => expand run.1 run.2).take maxNumbers) rest := by
  have count : (UInt16.ofNat runs.length).toNat = runs.length :=
    UInt16.toNat_ofNat_of_lt' (Nat.lt_succ_of_le few)
  have read := (Decoder.delimits_u16 (UInt16.ofNat runs.length)).whole (runs.flatMap encodeRun)
  rw [count] at read
  obtain ⟨rest, hrest⟩ := decodeRecords_flatMap fits maxNumbers
  exact ⟨rest, by rw [decode, Decoder.bind_ok read, count, hrest]⟩

theorem expand_subset_span (run : Nat × Nat) : expand run.1 run.2 ⊆ span run := by
  intro n hn
  rw [expand, List.mem_range'_1] at hn
  rw [mem_span]
  omega

/-- **What is read back from an acknowledgement are numbers that it was written for.** -/
theorem decode_encode {numbers : List Nat} (fits : ∀ n ∈ numbers, n < 2 ^ 24) {bytes : Bytes}
    (h : encode numbers = some bytes) :
    ∃ out rest, decode bytes = .ok out rest ∧ out ⊆ numbers := by
  obtain ⟨few, rfl⟩ := encode_eq_some_iff.1 h
  obtain ⟨rest, read⟩ := decode_records (fun _ => lt_of_mem_runs fits) few
  refine ⟨_, rest, read, fun n hn => ?_⟩
  obtain ⟨run, hrun, hn⟩ := List.mem_flatMap.1 (List.mem_of_mem_take hn)
  exact mem_iff_mem_span_runs.2 ⟨run, hrun, expand_subset_span run hn⟩

end Acknowledgement

namespace Frame

theorem decode_ack {numbers : List Nat} (fits : ∀ n ∈ numbers, n < 2 ^ 24) {bytes : Bytes}
    (h : (ack numbers).encode = some bytes) :
    ∃ out rest, decode bytes = .ok (ack out) rest ∧ out ⊆ numbers := by
  rw [encode, Option.map_eq_map, Option.map_eq_some_iff] at h
  obtain ⟨body, hbody, rfl⟩ := h
  obtain ⟨out, rest, hout, hsub⟩ := Acknowledgement.decode_encode fits hbody
  exact ⟨out, rest, Decoder.map_ok hout, hsub⟩

theorem decode_nack {numbers : List Nat} (fits : ∀ n ∈ numbers, n < 2 ^ 24) {bytes : Bytes}
    (h : (nack numbers).encode = some bytes) :
    ∃ out rest, decode bytes = .ok (nack out) rest ∧ out ⊆ numbers := by
  rw [encode, Option.map_eq_map, Option.map_eq_some_iff] at h
  obtain ⟨body, hbody, rfl⟩ := h
  obtain ⟨out, rest, hout, hsub⟩ := Acknowledgement.decode_encode fits hbody
  exact ⟨out, rest, Decoder.map_ok hout, hsub⟩

end Frame

end ReliableDatagram
