/-!
# Time

Nothing reads a clock: every operation that depends on the time is handed an `Instant`, a point on
a time axis in microseconds. Instants need not increase from one operation to the next, so the time
passed since a later instant counts as zero.
-/

namespace ReliableDatagram

/-- A length of time. -/
structure Span where
  micros : Nat
  deriving DecidableEq, Repr, Inhabited

/-- A point in time. There is no last one: that a sum is beyond the range of a clock, where the
program stops, is left out. -/
structure Instant where
  micros : Nat
  deriving DecidableEq, Repr, Inhabited

namespace Span

/-- A length of time in milliseconds. -/
def ofMillis (ms : Nat) : Span := ⟨1000 * ms⟩

/-- The whole milliseconds of a length of time. -/
def millis (d : Span) : Nat := d.micros / 1000

instance : LT Span := ⟨fun d e => d.micros < e.micros⟩

instance (d e : Span) : Decidable (d < e) := inferInstanceAs (Decidable (d.micros < e.micros))

theorem lt_iff {d e : Span} : d < e ↔ d.micros < e.micros := Iff.rfl

@[simp] theorem millis_ofMillis (ms : Nat) : (ofMillis ms).millis = ms := by
  simp [ofMillis, millis]

end Span

namespace Instant

instance : HAdd Instant Span Instant := ⟨fun t d => ⟨t.micros + d.micros⟩⟩

instance : LT Instant := ⟨fun t u => t.micros < u.micros⟩

instance : LE Instant := ⟨fun t u => t.micros ≤ u.micros⟩

instance (t u : Instant) : Decidable (t < u) := inferInstanceAs (Decidable (t.micros < u.micros))

instance (t u : Instant) : Decidable (t ≤ u) := inferInstanceAs (Decidable (t.micros ≤ u.micros))

theorem lt_iff {t u : Instant} : t < u ↔ t.micros < u.micros := Iff.rfl

theorem le_iff {t u : Instant} : t ≤ u ↔ t.micros ≤ u.micros := Iff.rfl

@[simp] theorem micros_add (t : Instant) (d : Span) : (t + d).micros = t.micros + d.micros := rfl

/-- The time passed at `now` since `t`, which is zero before `t`. -/
def since (now t : Instant) : Span := ⟨now.micros - t.micros⟩

/-- The greatest timestamp, that of every instant that is too late for one of its own. -/
def lastTimestamp : Nat := 0x7fffffffffffffff

/-- The timestamp of an instant: its whole milliseconds since `epoch`, zero before it. -/
def timestamp (now epoch : Instant) : Int64 :=
  Int64.ofNat (min (now.since epoch).millis lastTimestamp)

theorem toInt_timestamp (now epoch : Instant) :
    (now.timestamp epoch).toInt = min (now.since epoch).millis lastTimestamp := by
  rw [timestamp, Int64.toInt_ofNat_of_lt]
  exact Nat.lt_of_le_of_lt (Nat.min_le_right ..) (by decide)

end Instant

end ReliableDatagram
