import ReliableDatagram.Proofs.Receiver.Capacity

/-!
# What a window of message indices accepts

A window remembers its beginning and the indices above it that it has accepted; what it has accepted
below it forgets.  Nothing is lost by that: the beginning is the least index that was not accepted,
so the window answers like one that remembers everything and has no beginning of its own.

* `MessageWindow.valid_insertAll`, `MessageWindow.tight_insertAll`: what a window has accepted and
  what it remembers, after any indices were offered to it;
* `MessageWindow.Refines.of_valid`: such a window answers as what it has accepted says;
* `MessageWindow.refines_run`: so does a new window, over every run.
-/

namespace ReliableDatagram

namespace MessageWindow

variable {width : Nat} {w : MessageWindow} {past : List Nat}

/-- The indices that were accepted, of those that were offered. -/
def accepted (indices : List Nat) (answers : List Bool) : List Nat :=
  ((indices.zip answers).filter Prod.snd).map Prod.fst

/-- The indices that a new window has accepted when these were offered to it. -/
def history (width : Nat) (indices : List Nat) : List Nat :=
  accepted indices ((ofWidth width).insertAll indices).2

/-! ### One index after another -/

theorem length_insertAll (w : MessageWindow) (indices : List Nat) :
    (w.insertAll indices).2.length = indices.length := by
  induction indices generalizing w with
  | nil => rfl
  | cons n indices ih => exact congrArg (· + 1) (ih (w.insert n).1)

theorem insertAll_append (w : MessageWindow) (front back : List Nat) :
    w.insertAll (front ++ back) =
      (((w.insertAll front).1.insertAll back).1,
        (w.insertAll front).2 ++ ((w.insertAll front).1.insertAll back).2) := by
  induction front generalizing w with
  | nil => rfl
  | cons n front ih => simp only [List.cons_append, insertAll, ih]

theorem insertAll_singleton (w : MessageWindow) (n : Nat) :
    w.insertAll [n] = ((w.insert n).1, [(w.insert n).2]) := rfl

theorem accepted_append {front : List Nat} {answers : List Bool}
    (length : answers.length = front.length) (back : List Nat) (others : List Bool) :
    accepted (front ++ back) (answers ++ others) =
      accepted front answers ++ accepted back others := by
  simp only [accepted, List.zip_append length.symm, List.filter_append, List.map_append]

/-- Every index that is offered is accepted or changes nothing. -/
theorem Valid.insert_accepted (v : w.Valid width past) (n : Nat) :
    (w.insert n).1.Valid width (past ++ accepted [n] [(w.insert n).2]) := by
  rcases v.insert n with ⟨-, refused⟩ | ⟨-, answer, more⟩
  · rw [refused]
    simpa [accepted] using v
  · rw [answer]
    exact more

theorem valid_insertAll (width : Nat) (indices : List Nat) :
    ((ofWidth width).insertAll indices).1.Valid width (history width indices) := by
  unfold history
  induction indices using List.reverseRecOn with
  | nil => exact valid_ofWidth width
  | append_singleton front n ih =>
    rw [insertAll_append, insertAll_singleton, accepted_append (length_insertAll _ _)]
    exact ih.insert_accepted n

theorem tight_insertAll (width : Nat) (indices : List Nat) :
    ((ofWidth width).insertAll indices).1.Tight width := by
  induction indices using List.reverseRecOn with
  | nil => exact ⟨(Nat.zero_add width).symm, fun n hn => absurd hn Std.ExtTreeSet.not_mem_empty⟩
  | append_singleton front n ih =>
    rw [insertAll_append, insertAll_singleton]
    exact ih.insert n

/-! ### The least index that was not accepted -/

theorem insert_of_lt {n : Nat} (beyond : w.last < n) : w.insert n = (w, false) := by
  rw [MessageWindow.insert, if_pos (.inr (.inl beyond))]

/-- A window answers like one that remembers all that was accepted: it reaches from the least index
that was not up to its width above it. -/
structure Refines (width : Nat) (w : MessageWindow) (past : List Nat) : Prop where
  first : IsLeast {n | n ∉ past} w.first
  last : w.last = w.first + width
  insert_iff : ∀ n, (w.insert n).2 = true ↔ n ∉ past ∧ n ≤ w.first + width
  /-- No index was accepted twice. -/
  nodup : past.Nodup
  /-- What was accepted below the beginning is forgotten. -/
  remembers : ∀ n, n ∈ w.seen ↔ n ∈ past ∧ w.first < n

theorem Refines.of_valid (v : w.Valid width past) (tight : w.Tight width) :
    w.Refines width past where
  first := by
    refine ⟨fun old => ?_, fun n new => ?_⟩
    · rcases (v.seen_iff w.first).2 old with below | remembered
      · exact Nat.lt_irrefl _ below
      · exact Nat.lt_irrefl _ (tight.inside _ remembered).1
    · by_contra below
      exact new ((v.seen_iff n).1 (.inl (Nat.lt_of_not_le below)))
  last := v.width
  insert_iff n := by
    rw [← v.width]
    rcases v.insert n with ⟨reason, refused⟩ | ⟨new, answer, -⟩
    · rw [refused]
      refine iff_of_false Bool.false_ne_true fun ⟨new, inside⟩ => ?_
      exact reason.elim new (Nat.not_lt.2 inside)
    · refine iff_of_true answer ⟨new, ?_⟩
      by_contra beyond
      rw [insert_of_lt (Nat.lt_of_not_le beyond)] at answer
      cases answer
  nodup := v.nodup
  remembers n := by
    rw [← v.seen_iff]
    refine ⟨fun remembered => ⟨.inr remembered, (tight.inside n remembered).1⟩, ?_⟩
    rintro ⟨below | remembered, above⟩
    · exact absurd above (Nat.lt_asymm below)
    · exact remembered

/-- **A window refines one that remembers everything**, over every run: an index is accepted iff it
was not accepted before and is not farther above the least index that was not than the window is
wide. -/
theorem refines_run (width : Nat) (indices : List Nat) :
    ((ofWidth width).insertAll indices).1.Refines width (history width indices) ∧
      ∀ n, ((ofWidth width).insertAll (indices ++ [n])).2 =
        ((ofWidth width).insertAll indices).2 ++
          [decide (n ∉ history width indices ∧
            n ≤ ((ofWidth width).insertAll indices).1.first + width)] := by
  have refines : ((ofWidth width).insertAll indices).1.Refines width (history width indices) :=
    .of_valid (valid_insertAll width indices) (tight_insertAll width indices)
  refine ⟨refines, fun n => ?_⟩
  have answer := refines.insert_iff n
  rw [← decide_eq_true_iff (p := _ ∧ _), ← Bool.eq_iff_iff] at answer
  rw [insertAll_append, insertAll_singleton, answer]

/-- The upper end belongs to the window, and moves with the first index that closes a gap. -/
example : ((ofWidth 4).insertAll [4, 5, 2, 1, 0, 1, 7, 8]).2 =
    [true, false, true, true, true, false, true, false] := by decide +kernel

end MessageWindow

end ReliableDatagram
