import ReliableDatagram.Bytes.Lemmas
import ReliableDatagram.Decoder.Basic

/-!
# Reading back what was written

A decoder that reads a value from exactly the bytes that were written for it (`Decoder.Delimits`)
needs no mark for their end: whatever follows is left over, and bytes that end early are found to be
truncated.  The property passes from the fields to what is composed of them (`Delimits.bind`,
`Delimits.map`), and every reader of a number has it for numbers that fit into its field.

`Decoder.exists_of_bind` and `Decoder.exists_of_map` go the other way, from what was read to the
reads that it is composed of; what is read fits into its field, and was written there.  Where that
determines the bytes of an item (`Decoder.Cuts`), reading items to the end finds out whether the
bytes consist of items (`Decoder.Cuts.toEnd_cases`).
-/

namespace ReliableDatagram

namespace Decoder

variable {α β : Type}

theorem bind_ok {x : Decoder α} {f : α → Decoder β} {a : α} {bytes rest : Bytes}
    (h : x bytes = .ok a rest) : (x >>= f) bytes = f a rest := by
  change EStateM.bind x f bytes = _
  simp only [EStateM.bind, h]

theorem bind_error {x : Decoder α} {f : α → Decoder β} {e : DecodeError} {bytes rest : Bytes}
    (h : x bytes = .error e rest) : (x >>= f) bytes = .error e rest := by
  change EStateM.bind x f bytes = _
  simp only [EStateM.bind, h]

theorem map_ok {x : Decoder α} {f : α → β} {a : α} {bytes rest : Bytes}
    (h : x bytes = .ok a rest) : (f <$> x) bytes = .ok (f a) rest := by
  change EStateM.map f x bytes = _
  simp only [EStateM.map, h]

theorem map_error {x : Decoder α} {f : α → β} {e : DecodeError} {bytes rest : Bytes}
    (h : x bytes = .error e rest) : (f <$> x) bytes = .error e rest := by
  change EStateM.map f x bytes = _
  simp only [EStateM.map, h]

theorem map_error_iff {x : Decoder α} (f : α → β) {bytes : Bytes} :
    (∃ e left, (f <$> x) bytes = .error e left) ↔ ∃ e left, x bytes = .error e left := by
  cases read : x bytes with
  | ok a rest =>
    rw [map_ok read]
    exact iff_of_false nofun nofun
  | error e left =>
    rw [map_error read]
    exact iff_of_true ⟨e, left, rfl⟩ ⟨e, left, rfl⟩

@[simp] theorem pure_eq (a : α) (bytes : Bytes) : (pure a : Decoder α) bytes = .ok a bytes := rfl

theorem u8_cons (b : UInt8) (rest : Bytes) : u8 (b :: rest) = .ok b rest := rfl

/-! ### Encodings that delimit themselves -/

/-- The decoder reads the value from these bytes and not beyond: whatever follows them is left, and
bytes that end before them are too few for one of the reads. -/
structure Delimits (x : Decoder α) (bytes : Bytes) (a : α) : Prop where
  whole : ∀ rest, x (bytes ++ rest) = .ok a rest
  short : ∀ front back, bytes = front ++ back → back ≠ [] → ∃ needed left,
    left.length < needed ∧ x front = .error (.truncated needed left.length) left

namespace Delimits

variable {x : Decoder α} {f : α → Decoder β} {front back : Bytes} {a : α} {b : β}

theorem of_idle (h : ∀ bytes, x bytes = .ok a bytes) : Delimits x [] a where
  whole := h
  short _ _ split missing := absurd (List.append_eq_nil_iff.1 split.symm).2 missing

theorem pure (a : α) : Delimits (pure a) [] a := of_idle fun _ => rfl

theorem alone (h : Delimits x front a) : x front = .ok a [] := by
  have read := h.whole []
  rwa [List.append_nil] at read

/-- **One after the other.** Bytes that end early end inside the first part or inside the second. -/
theorem bind (first : Delimits x front a) (second : Delimits (f a) back b) :
    Delimits (x >>= f) (front ++ back) b where
  whole rest := by rw [List.append_assoc, bind_ok (first.whole _), second.whole]
  short early lost split missing := by
    rcases List.append_eq_append_iff.1 split with ⟨inside, rfl, hback⟩ | ⟨cut, rfl, rfl⟩
    · obtain ⟨needed, left, few, error⟩ := second.short inside lost hback missing
      exact ⟨needed, left, few, (bind_ok (first.whole inside)).trans error⟩
    · by_cases hcut : cut = []
      · -- the first part is there as a whole, and nothing of the second
        subst hcut
        obtain ⟨needed, left, few, error⟩ := second.short [] back rfl missing
        rw [List.append_nil] at first
        exact ⟨needed, left, few, (bind_ok first.alone).trans error⟩
      · obtain ⟨needed, left, few, error⟩ := first.short early cut rfl hcut
        exact ⟨needed, left, few, bind_error error⟩

theorem judge (first : Delimits x front a) (second : Delimits (f a) [] b) :
    Delimits (x >>= f) front b := by
  have all := first.bind second
  rwa [List.append_nil] at all

theorem last (h : Delimits x front a) (g : α → β) :
    Delimits (x >>= fun a => Pure.pure (g a)) front (g a) :=
  h.judge (.pure (g a))

theorem map (h : Delimits x front a) (g : α → β) : Delimits (g <$> x) front (g a) where
  whole rest := map_ok (h.whole rest)
  short early lost split missing := by
    obtain ⟨needed, left, few, error⟩ := h.short early lost split missing
    exact ⟨needed, left, few, map_error error⟩

end Delimits

theorem delimits_take {bytes : Bytes} {n : Nat} (width : bytes.length = n) :
    Delimits (take n) bytes bytes where
  whole _ := take_append width
  short front back split missing := by
    have few : front.length < n := by
      have := List.length_pos_iff.2 missing
      rw [← width, split, List.length_append]
      omega
    exact ⟨n, front, few, take_eq_error few⟩

theorem delimits_u8 (b : UInt8) : Delimits u8 [b] b where
  whole _ := rfl
  short front back split missing := by
    cases front with
    | nil => exact ⟨1, [], Nat.one_pos, rfl⟩
    | cons c front =>
      obtain ⟨-, none⟩ := List.cons.inj split
      exact absurd (List.append_eq_nil_iff.1 none.symm).2 missing

theorem delimits_bigEndian {k n : Nat} (h : n < 256 ^ k) :
    Delimits (bigEndian k) (Bytes.bigEndian k n) n := by
  have read := (delimits_take (Bytes.length_bigEndian k n)).map Bytes.ofBigEndian
  rwa [Bytes.ofBigEndian_bigEndian, Nat.mod_eq_of_lt h] at read

theorem delimits_littleEndian {k n : Nat} (h : n < 256 ^ k) :
    Delimits (littleEndian k) (Bytes.littleEndian k n) n := by
  have read := (delimits_take (Bytes.length_littleEndian k n)).map Bytes.ofLittleEndian
  rwa [Bytes.ofLittleEndian_littleEndian, Nat.mod_eq_of_lt h] at read

theorem delimits_u16 (n : UInt16) : Delimits u16 (Bytes.bigEndian 2 n.toNat) n := by
  have read := (delimits_bigEndian (k := 2) n.toNat_lt).map UInt16.ofNat
  rwa [UInt16.ofNat_toNat] at read

theorem delimits_u16LittleEndian {n : Nat} (h : n < 2 ^ 16) :
    Delimits u16LittleEndian (Bytes.littleEndian 2 n) (UInt16.ofNat n) :=
  (delimits_littleEndian (k := 2) h).map UInt16.ofNat

theorem delimits_u32 {n : Nat} (h : n < 2 ^ 32) :
    Delimits u32 (Bytes.bigEndian 4 n) (UInt32.ofNat n) :=
  (delimits_bigEndian (k := 4) h).map UInt32.ofNat

theorem delimits_u64 (n : UInt64) : Delimits u64 (Bytes.bigEndian 8 n.toNat) n := by
  have read := (delimits_bigEndian (k := 8) n.toNat_lt).map UInt64.ofNat
  rwa [UInt64.ofNat_toNat] at read

theorem delimits_i64 (n : Int64) : Delimits i64 (Bytes.bigEndian 8 n.toUInt64.toNat) n :=
  (delimits_u64 n.toUInt64).map UInt64.toInt64

theorem delimits_bool (b : Bool) : Delimits bool (Bytes.ofBool b) b := by
  have read := (delimits_u8 (if b then 1 else 0)).map (· != 0)
  cases b <;> exact read

theorem delimits_triad {n : Nat} (h : n < 2 ^ 24) : Delimits triad (Bytes.triad n) n :=
  delimits_littleEndian (k := 3) h

/-! ### Looking ahead -/

namespace Delimits

variable {x : Decoder α} {bytes : Bytes} {a : α}

/-- Requiring the bytes of a value before they are read changes what is missing of bytes that end
early, and nothing else. -/
theorem ensure {n : Nat} (width : bytes.length = n) (h : Delimits x bytes a) :
    Delimits (Decoder.ensure n >>= fun _ => x) bytes a where
  whole rest := by
    have there : Decoder.ensure n (bytes ++ rest) = .ok () (bytes ++ rest) := by
      rw [ensure_eq, if_pos (by rw [List.length_append]; omega)]
    rw [bind_ok there, h.whole]
  short front back split missing := by
    have few : front.length < n := by
      have := List.length_pos_iff.2 missing
      rw [← width, split, List.length_append]
      omega
    refine ⟨n, front, few, bind_error ?_⟩
    rw [ensure_eq, if_neg (Nat.not_le.2 few)]

theorem remaining {f : Nat → Decoder α} (h : ∀ n, Delimits (f n) bytes a) :
    Delimits (Decoder.remaining >>= f) bytes a where
  whole rest := (bind_ok rfl).trans ((h _).whole rest)
  short front back split missing := by
    obtain ⟨needed, left, few, error⟩ := (h front.length).short front back split missing
    exact ⟨needed, left, few, (bind_ok rfl).trans error⟩

end Delimits

/-! ### What is read -/

theorem exists_of_bind {x : Decoder α} {f : α → Decoder β} {b : β} {bytes rest : Bytes}
    (h : (x >>= f) bytes = .ok b rest) :
    ∃ a middle, x bytes = .ok a middle ∧ f a middle = .ok b rest := by
  cases hx : x bytes with
  | ok a middle => exact ⟨a, middle, rfl, (bind_ok hx).symm.trans h⟩
  | error e middle =>
    rw [bind_error hx] at h
    cases h

theorem exists_of_map {x : Decoder α} {f : α → β} {b : β} {bytes rest : Bytes}
    (h : (f <$> x) bytes = .ok b rest) : ∃ a, x bytes = .ok a rest ∧ f a = b := by
  change EStateM.map f x bytes = _ at h
  unfold EStateM.map at h
  cases hx : x bytes with
  | ok a middle =>
    rw [hx] at h
    cases h
    exact ⟨a, rfl, rfl⟩
  | error e middle =>
    rw [hx] at h
    cases h

theorem eq_cons_of_u8 {b : UInt8} {bytes rest : Bytes} (h : u8 bytes = .ok b rest) :
    bytes = b :: rest := by
  cases bytes with
  | nil => cases h
  | cons c bytes =>
    cases h
    rfl

theorem eq_append_of_take {n : Nat} {taken bytes rest : Bytes} (h : take n bytes = .ok taken rest) :
    bytes = taken ++ rest ∧ taken.length = n := by
  rcases Nat.lt_or_ge bytes.length n with short | enough
  · rw [take_eq_error short] at h
    cases h
  · rw [take_eq_ok enough] at h
    cases h
    exact ⟨(List.take_append_drop n bytes).symm, List.length_take_of_le enough⟩

theorem eq_append_of_bigEndian {k n : Nat} {bytes rest : Bytes}
    (h : bigEndian k bytes = .ok n rest) : bytes = Bytes.bigEndian k n ++ rest ∧ n < 256 ^ k := by
  obtain ⟨taken, htaken, rfl⟩ := exists_of_map h
  obtain ⟨rfl, rfl⟩ := eq_append_of_take htaken
  exact ⟨by rw [Bytes.bigEndian_ofBigEndian], Bytes.ofBigEndian_lt taken⟩

theorem eq_append_of_u16 {n : UInt16} {bytes rest : Bytes} (h : u16 bytes = .ok n rest) :
    bytes = Bytes.bigEndian 2 n.toNat ++ rest := by
  obtain ⟨m, hm, rfl⟩ := exists_of_map h
  obtain ⟨rfl, lt⟩ := eq_append_of_bigEndian hm
  rw [UInt16.toNat_ofNat_of_lt' lt]

theorem eq_append_of_triad {n : Nat} {bytes rest : Bytes} (h : triad bytes = .ok n rest) :
    bytes = Bytes.triad n ++ rest ∧ n < 2 ^ 24 := by
  obtain ⟨taken, htaken, rfl⟩ := exists_of_map h
  obtain ⟨rfl, width⟩ := eq_append_of_take htaken
  obtain ⟨same, lt⟩ := Bytes.triad_ofLittleEndian width
  exact ⟨by rw [same], lt⟩

/-! ### One item after another -/

/-- Whatever the decoder reads stands at the front in bytes of its own. -/
def Cuts (item : Decoder α) : Prop :=
  ∀ ⦃bytes a rest⦄, item bytes = .ok a rest →
    ∃ front, Delimits item front a ∧ front ≠ [] ∧ bytes = front ++ rest

section Items

variable {item : Decoder α} {a : α} {items : List α} {front rest : Bytes} {fronts : List Bytes}

theorem upTo_succ {bytes : Bytes} (left : bytes ≠ []) (n : Nat) :
    upTo item (n + 1) bytes =
      (item >>= fun a => upTo item n >>= fun others => pure (a :: others)) bytes := by
  have more : atEnd bytes = .ok false bytes := by simp [atEnd, left]
  rw [upTo, bind_ok more]
  rfl

theorem Cuts.ne_nil (cuts : Cuts item) (h : Delimits item front a) : front ≠ [] := by
  rintro rfl
  obtain ⟨front, -, some, none⟩ := cuts h.alone
  exact some (List.append_eq_nil_iff.1 none.symm).1

theorem Cuts.upTo_append (cuts : Cuts item) (there : List.Forall₂ (Delimits item) fronts items)
    (rest : Bytes) (n : Nat) :
    upTo item (fronts.length + n) (fronts.flatten ++ rest) =
      ((items ++ ·) <$> upTo item n) rest := by
  induction there with
  | nil =>
    rw [List.length_nil, Nat.zero_add, List.flatten_nil, List.nil_append]
    cases h : upTo item n rest with
    | ok others left => rw [map_ok h, List.nil_append]
    | error e left => rw [map_error h]
  | @cons front a fronts items h there ih =>
    have left : (front :: fronts).flatten ++ rest ≠ [] := by simp [cuts.ne_nil h]
    rw [List.length_cons, Nat.add_right_comm, upTo_succ left, List.flatten_cons, List.append_assoc,
      bind_ok (h.whole _)]
    cases hrest : upTo item n rest with
    | ok others left =>
      rw [map_ok hrest] at ih ⊢
      rw [bind_ok ih]
      rfl
    | error e left =>
      rw [map_error hrest] at ih ⊢
      rw [bind_error ih]

theorem Cuts.length_le (cuts : Cuts item) (there : List.Forall₂ (Delimits item) fronts items) :
    fronts.length ≤ fronts.flatten.length := by
  induction there with
  | nil => exact Nat.le_refl _
  | cons h there ih =>
    have := List.length_pos_iff.2 (cuts.ne_nil h)
    rw [List.length_cons, List.flatten_cons, List.length_append]
    omega

theorem Cuts.toEnd_flatten (cuts : Cuts item) (there : List.Forall₂ (Delimits item) fronts items) :
    toEnd item fronts.flatten = .ok items [] := by
  obtain ⟨n, length⟩ := Nat.exists_eq_add_of_le (cuts.length_le there)
  have read := cuts.upTo_append there [] n
  have ended : upTo item n [] = .ok [] [] := by cases n <;> rfl
  rw [List.append_nil, map_ok ended, List.append_nil, ← length] at read
  exact read

/-- An error in the bytes behind some items is an error of the whole. -/
theorem Cuts.toEnd_error (cuts : Cuts item) (there : List.Forall₂ (Delimits item) fronts items)
    {bad left : Bytes} {e : DecodeError} (some : bad ≠ []) (error : item bad = .error e left) :
    toEnd item (fronts.flatten ++ bad) = .error e left := by
  have enough : fronts.length + 1 ≤ (fronts.flatten ++ bad).length := by
    have := cuts.length_le there
    have := List.length_pos_iff.2 some
    rw [List.length_append]
    omega
  obtain ⟨n, length⟩ := Nat.exists_eq_add_of_le enough
  have error : upTo item (n + 1) bad = .error e left := by
    rw [upTo_succ some, bind_error error]
  have read := cuts.upTo_append there bad (n + 1)
  rw [map_error error, ← Nat.add_assoc, Nat.add_right_comm, ← length] at read
  exact read

/-- **What reading to the end comes to**: items up to the end of the bytes, or items up to bytes
that are none. -/
theorem Cuts.toEnd_cases (cuts : Cuts item) (bytes : Bytes) :
    ∃ fronts items, List.Forall₂ (Delimits item) fronts items ∧
      ((bytes = fronts.flatten ∧ toEnd item bytes = .ok items []) ∨
        ∃ bad e left, bad ≠ [] ∧ bytes = fronts.flatten ++ bad ∧ item bad = .error e left ∧
          toEnd item bytes = .error e left) := by
  have main (n : Nat) (bytes : Bytes) (enough : bytes.length ≤ n) :
      ∃ fronts items, List.Forall₂ (Delimits item) fronts items ∧
        ((bytes = fronts.flatten ∧ upTo item n bytes = .ok items []) ∨
          ∃ bad e left, bad ≠ [] ∧ bytes = fronts.flatten ++ bad ∧ item bad = .error e left ∧
            upTo item n bytes = .error e left) := by
    induction n generalizing bytes with
    | zero =>
      obtain rfl := List.length_eq_zero_iff.1 (Nat.le_zero.1 enough)
      exact ⟨[], [], .nil, .inl ⟨rfl, rfl⟩⟩
    | succ n ih =>
      by_cases left : bytes = []
      · subst left
        exact ⟨[], [], .nil, .inl ⟨rfl, rfl⟩⟩
      rw [upTo_succ left]
      cases first : item bytes with
      | error e after =>
        exact ⟨[], [], .nil, .inr ⟨bytes, e, after, left, rfl, first, bind_error first⟩⟩
      | ok a after =>
        rw [bind_ok first]
        obtain ⟨front, delimits, some, rfl⟩ := cuts first
        have shorter : after.length ≤ n := by
          have := List.length_pos_iff.2 some
          rw [List.length_append] at enough
          omega
        obtain ⟨fronts, items, there, ⟨rfl, read⟩ | ⟨bad, e, lost, some, rfl, error, read⟩⟩ :=
          ih after shorter
        · exact ⟨front :: fronts, a :: items, .cons delimits there, .inl ⟨rfl, bind_ok read⟩⟩
        · refine ⟨front :: fronts, a :: items, .cons delimits there, .inr ?_⟩
          exact ⟨bad, e, lost, some, by simp, error, bind_error read⟩
  exact main bytes.length bytes (Nat.le_refl _)

end Items

end Decoder

end ReliableDatagram
