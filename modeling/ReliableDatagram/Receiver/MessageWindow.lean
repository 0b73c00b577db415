import ReliableDatagram.IndexSet

/-!
# The window of message indices

A filter that lets every index pass at most once. It accepts the indices from `first` to `last`
that it has not seen, and remembers those it has seen from `first` on; as soon as `first` has been
seen the window moves past all that follow on without a gap, so it never remembers more indices
than it is wide.
-/

namespace ReliableDatagram

/-- A window of indices. -/
structure MessageWindow where
  first : Nat
  /-- The greatest index inside the window. -/
  last : Nat
  /-- The indices inside the window that were accepted. -/
  seen : IndexSet
  deriving DecidableEq

namespace MessageWindow

/-- The window at the beginning, which reaches from 0 to its width. -/
def ofWidth (width : Nat) : MessageWindow := { first := 0, last := width, seen := ∅ }

/-- The window moved past the seen indices at its beginning, of which there are at most `n`. -/
def slide : Nat → MessageWindow → MessageWindow
  | 0, w => w
  | n + 1, w =>
    if w.first ∈ w.seen then
      slide n { first := w.first + 1, last := w.last + 1, seen := w.seen.erase w.first }
    else w

/-- Offers an index to the window and tells whether it is accepted: whether it lies in the window
and was not accepted before. -/
def insert (w : MessageWindow) (n : Nat) : MessageWindow × Bool :=
  if n < w.first ∨ w.last < n ∨ n ∈ w.seen then (w, false)
  else
    let seen := w.seen.insert n
    (slide seen.size { w with seen }, true)

/-- Offers indices one after another and lists the answers. -/
def insertAll (w : MessageWindow) : List Nat → MessageWindow × List Bool
  | [] => (w, [])
  | n :: indices =>
    let (w₁, accepted) := w.insert n
    let (w₂, others) := w₁.insertAll indices
    (w₂, accepted :: others)

end MessageWindow

end ReliableDatagram
