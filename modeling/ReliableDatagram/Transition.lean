/-!
# Steps with output

A component is a value of its state type, and each of its operations returns the next state and
what it puts out. `runAll` feeds a list of inputs to one operation: outputs appear in the order of
the inputs that caused them (`runAll_append`), and what every step keeps the run keeps
(`runAll_induction`).
-/

namespace ReliableDatagram

variable {σ α ω : Type}

/-- Feeds the inputs to `step` one after another and collects what the steps put out. -/
def runAll (step : σ → α → σ × List ω) : σ → List α → σ × List ω
  | s, [] => (s, [])
  | s, a :: inputs =>
    let (s₁, out₁) := step s a
    let (s₂, out₂) := runAll step s₁ inputs
    (s₂, out₁ ++ out₂)

@[simp] theorem runAll_nil (step : σ → α → σ × List ω) (s : σ) : runAll step s [] = (s, []) := rfl

theorem runAll_cons (step : σ → α → σ × List ω) (s : σ) (a : α) (inputs : List α) :
    runAll step s (a :: inputs) =
      ((runAll step (step s a).1 inputs).1,
        (step s a).2 ++ (runAll step (step s a).1 inputs).2) := rfl

theorem runAll_append (step : σ → α → σ × List ω) (s : σ) (front back : List α) :
    runAll step s (front ++ back) =
      ((runAll step (runAll step s front).1 back).1,
        (runAll step s front).2 ++ (runAll step (runAll step s front).1 back).2) := by
  induction front generalizing s with
  | nil => rfl
  | cons a front ih => simp [runAll_cons, ih]

/-- What holds at the start and is kept by every step holds at the end. -/
theorem runAll_induction {step : σ → α → σ × List ω} {P : σ → Prop} {inputs : List α} {s : σ}
    (start : P s) (keep : ∀ s, P s → ∀ a ∈ inputs, P (step s a).1) :
    P (runAll step s inputs).1 := by
  induction inputs generalizing s with
  | nil => exact start
  | cons a inputs ih =>
    rw [runAll_cons]
    exact ih (keep s start a List.mem_cons_self) fun s hs b hb =>
      keep s hs b (List.mem_cons_of_mem _ hb)

end ReliableDatagram
