import Mathlib.Tactic.SplitIfs
import ReliableDatagram.Host.Gate

/-!
# What a gate remembers about one address

A gate keeps its blocks and its counts in tables over all IP addresses, but what it does for one
address looks at the entries of this address and changes no others.

* `Gate.local_check`, `Gate.check_congr`: whether a packet may pass depends on what the gate
  remembers about its address alone;
* `Gate.entry_tick_congr`: so does what a tick leaves of it.
-/

namespace ReliableDatagram

namespace Gate

/-- What a gate remembers about an address: when its block ends, and its count. -/
def entry (g : Gate) (ip : Ip) : Option Instant × Option Nat :=
  (g.blockedUntil.get? ip, g.counts.get? ip)

/-- Something that is done for one address looks at its entry and changes no other. -/
structure Local (ip : Ip) (f : Gate → Gate) : Prop where
  other : ∀ g other, other ≠ ip → (f g).entry other = g.entry other
  own : ∀ g g', g.entry ip = g'.entry ip → (f g).entry ip = (f g').entry ip

variable {ip : Ip} {g g' : Gate}

theorem Local.congr {f : Gate → Gate} (l : Local ip f) {any : Ip}
    (same : g.entry any = g'.entry any) : (f g).entry any = (f g').entry any := by
  by_cases h : any = ip
  · subst h
    exact l.own g g' same
  · rw [l.other g any h, l.other g' any h, same]

theorem local_block (ip : Ip) (duration : Span) (now : Instant) :
    Local ip (·.block ip duration now) where
  other g other h := by
    simp only [block]
    split
    · simp only [entry, Table.get?_insert_of_ne _ h]
    · split
      · simp only [entry, Table.get?_insert_of_ne _ h]
      · rfl
  own g g' same := by
    obtain ⟨blocked, counts⟩ := Prod.mk.inj same
    simp only [block, blocked]
    split
    · simp only [entry, Table.get?_insert_self, counts]
    · split
      · simp only [entry, Table.get?_insert_self, counts]
      · exact same

theorem local_unblock (ip : Ip) : Local ip (·.unblock ip) where
  other g other h := by simp only [entry, unblock, Table.get?_erase_of_ne _ h]
  own g g' same := by simp only [entry, unblock, Table.get?_erase_self, (Prod.mk.inj same).2]

theorem local_count (ip : Ip) : Local ip (·.count ip) where
  other g other h := by
    simp only [entry, count, Table.get?_erase_of_ne _ h, Table.get?_insert_of_ne _ h]
  own g g' same := by
    simp only [entry, count, Table.get?_erase_self, Table.get?_insert_self, (Prod.mk.inj same).2]

/-! ### Checks -/

variable (limit : Nat) (duration : Span) (now : Instant)

theorem isBlocked_congr (same : g.entry ip = g'.entry ip) :
    g.isBlocked ip now = g'.isBlocked ip now := by
  unfold isBlocked
  rw [(Prod.mk.inj same).1]

theorem countOf_congr (same : g.entry ip = g'.entry ip) : g.countOf ip = g'.countOf ip := by
  unfold countOf
  rw [(Prod.mk.inj same).2]

theorem check_congr (same : g.entry ip = g'.entry ip) :
    (g.check limit duration ip now).2 = (g'.check limit duration ip now).2 := by
  have counted := countOf_congr ((local_count ip).own g g' same)
  simp only [check, isBlocked_congr now same, counted]
  split_ifs <;> rfl

/-- A check is done for the address of the packet alone. -/
theorem local_check (ip : Ip) : Local ip fun g => (g.check limit duration ip now).1 where
  other g other h := by
    simp only [check]
    split_ifs
    · rfl
    · exact ((local_block ip duration now).other _ other h).trans
        ((local_count ip).other g other h)
    · exact (local_count ip).other g other h
  own g g' same := by
    have counted := (local_count ip).own g g' same
    simp only [check, isBlocked_congr now same, countOf_congr counted]
    split_ifs
    · exact same
    · exact (local_block ip duration now).own _ _ counted
    · exact counted

theorem entry_tick_congr (same : g.entry ip = g'.entry ip) :
    (g.tick now).entry ip = (g'.tick now).entry ip := by
  simp only [entry, tick, Table.get?_filter, (Prod.mk.inj same).1]

end Gate

end ReliableDatagram
