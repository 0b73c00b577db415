import Mathlib
import ReliableDatagram.Transition

/-!
# Runs with a history

* `runAll_history`: a relation between the inputs so far, the state and the outputs so far that
  every step extends holds of a whole run;
* `mem_runAll`: every output of a run is put out at one of its inputs;
* `split_of_runAll`: what was put out before it was put out at the inputs before that one.
-/

namespace ReliableDatagram

variable {σ α ω : Type} {step : σ → α → σ × List ω}

@[simp] theorem runAll_singleton (step : σ → α → σ × List ω) (s : σ) (a : α) :
    runAll step s [a] = step s a := by
  simp [runAll_cons]

theorem runAll_concat (step : σ → α → σ × List ω) (s : σ) (front : List α) (a : α) :
    runAll step s (front ++ [a]) =
      ((step (runAll step s front).1 a).1,
        (runAll step s front).2 ++ (step (runAll step s front).1 a).2) := by
  rw [runAll_append, runAll_singleton]

/-- **A history that every step extends.**  `P done s out` relates the inputs so far, the state
they lead to and what was put out. -/
theorem runAll_history {P : List α → σ → List ω → Prop} {s : σ} (start : P [] s [])
    (inputs : List α)
    (keep : ∀ done a s out, done ++ [a] <+: inputs → P done s out →
      P (done ++ [a]) (step s a).1 (out ++ (step s a).2)) :
    P inputs (runAll step s inputs).1 (runAll step s inputs).2 := by
  induction inputs using List.reverseRecOn with
  | nil => exact start
  | append_singleton front a ih =>
    rw [runAll_concat]
    refine keep front a _ _ (List.prefix_refl _) (ih fun done b t out hd => ?_)
    exact keep done b t out (hd.trans (List.prefix_append _ _))

theorem length_runAll_le (one : ∀ s a, (step s a).2.length ≤ 1) (s : σ) (inputs : List α) :
    (runAll step s inputs).2.length ≤ inputs.length := by
  induction inputs generalizing s with
  | nil => exact Nat.le_refl 0
  | cons a inputs ih =>
    have := one s a
    have := ih (step s a).1
    rw [runAll_cons, List.length_append, List.length_cons]
    omega

theorem mem_runAll {s : σ} {inputs : List α} {o : ω} (h : o ∈ (runAll step s inputs).2) :
    ∃ front a back, inputs = front ++ a :: back ∧ o ∈ (step (runAll step s front).1 a).2 := by
  induction inputs generalizing s with
  | nil => cases h
  | cons a inputs ih =>
    rw [runAll_cons] at h
    rcases List.mem_append.1 h with h | h
    · exact ⟨[], a, inputs, rfl, h⟩
    · obtain ⟨front, b, back, rfl, hb⟩ := ih h
      exact ⟨a :: front, b, back, rfl, hb⟩

theorem mem_runAll_iff {s : σ} {inputs : List α} {o : ω} :
    o ∈ (runAll step s inputs).2 ↔
      ∃ front a back, inputs = front ++ a :: back ∧ o ∈ (step (runAll step s front).1 a).2 := by
  refine ⟨mem_runAll, ?_⟩
  rintro ⟨front, a, back, rfl, h⟩
  rw [runAll_append, runAll_cons]
  exact List.mem_append_right _ (List.mem_append_left _ h)

theorem runAll_of_idle {s : σ} {front : List α} {a : α}
    (h : step (runAll step s front).1 a = ((runAll step s front).1, [])) (back : List α) :
    runAll step s (front ++ a :: back) = runAll step s (front ++ back) := by
  rw [runAll_append, runAll_append, runAll_cons, h, List.nil_append]

/-- Inputs may be changed where a step changes no more than its outputs by it. -/
theorem runAll_map {f : α → α} {g : ω → ω}
    (same : ∀ s a, step s (f a) = ((step s a).1, (step s a).2.map g)) (s : σ) (inputs : List α) :
    runAll step s (inputs.map f) = ((runAll step s inputs).1, (runAll step s inputs).2.map g) := by
  induction inputs generalizing s with
  | nil => rfl
  | cons a inputs ih => rw [List.map_cons, runAll_cons, same, ih, runAll_cons, List.map_append]

/-- What is put out at an input stands behind what was put out before. -/
theorem exists_runAll_eq {s : σ} {front : List α} {a : α} {o : ω}
    (h : (step (runAll step s front).1 a).2 = [o]) (back : List α) :
    ∃ rest, (runAll step s (front ++ a :: back)).2 = (runAll step s front).2 ++ o :: rest := by
  rw [runAll_append, runAll_cons, h]
  exact ⟨_, rfl⟩

/-- **Where an output comes from**, if every step puts out one at most: the outputs before it are
those of the inputs before its own. -/
theorem split_of_runAll (one : ∀ s a, (step s a).2.length ≤ 1) {s : σ} {inputs : List α}
    {front back : List ω} {o : ω} (h : (runAll step s inputs).2 = front ++ o :: back) :
    ∃ before a after, inputs = before ++ a :: after ∧ (runAll step s before).2 = front ∧
      (step (runAll step s before).1 a).2 = [o] := by
  induction inputs generalizing s front with
  | nil => simp at h
  | cons a inputs ih =>
    rw [runAll_cons] at h
    cases hout : (step s a).2 with
    | nil =>
      rw [hout, List.nil_append] at h
      obtain ⟨before, b, after, rfl, hfront, hb⟩ := ih h
      exact ⟨a :: before, b, after, rfl, by rw [runAll_cons, hout, hfront, List.nil_append], hb⟩
    | cons x rest =>
      have := one s a
      rw [hout, List.length_cons] at this
      obtain rfl := List.eq_nil_of_length_eq_zero (l := rest) (by omega)
      rw [hout, List.singleton_append] at h
      cases front with
      | nil =>
        obtain rfl := List.head_eq_of_cons_eq h
        exact ⟨[], a, inputs, rfl, rfl, hout⟩
      | cons y front =>
        obtain ⟨rfl, hrest⟩ := List.cons.inj h
        obtain ⟨before, b, after, rfl, hfront, hb⟩ := ih hrest
        exact ⟨a :: before, b, after, rfl, by rw [runAll_cons, hout, hfront, List.singleton_append],
          hb⟩

end ReliableDatagram
