import Mathlib

/-!
# Sublists up to order

`l.Subperm m` says that the items of `l` are among those of `m`, no item more often than there.

* `exists_of_subperm_map`: items taken from a mapped list can be taken before they are mapped;
* `prefix_of_map_range`: items that are numbered from zero on, among items that are all numbered
  from zero on, are the first of them.
-/

namespace ReliableDatagram

variable {α β : Type}

theorem subperm_map (f : α → β) {l m : List α} (h : l.Subperm m) : (l.map f).Subperm (m.map f) := by
  obtain ⟨l', perm, sub⟩ := h
  exact ⟨l'.map f, perm.map f, sub.map f⟩

theorem subperm_flatMap (f : α → List β) {l m : List α} (h : l.Subperm m) :
    (l.flatMap f).Subperm (m.flatMap f) := by
  obtain ⟨l', perm, sub⟩ := h
  exact ⟨l'.flatMap f, perm.flatMap_right f, sub.flatMap f⟩

theorem nodup_of_subperm {l m : List α} (h : l.Subperm m) (hm : m.Nodup) : l.Nodup := by
  obtain ⟨l', perm, sub⟩ := h
  exact perm.nodup (hm.sublist sub)

theorem exists_of_subperm_map {f : α → β} {l : List β} {m : List α} (h : l.Subperm (m.map f)) :
    ∃ k : List α, k.Subperm m ∧ k.map f = l := by
  induction l generalizing m with
  | nil => exact ⟨[], List.nil_subperm, rfl⟩
  | cons b l ih =>
    obtain ⟨a, ha, rfl⟩ := List.mem_map.1 (h.subset List.mem_cons_self)
    obtain ⟨front, back, rfl⟩ := List.append_of_mem ha
    have first : List.Perm (front ++ a :: back) (a :: (front ++ back)) := List.perm_middle
    obtain ⟨k, hk, rfl⟩ := ih (m := front ++ back)
      (List.subperm_cons _ |>.1 (h.trans (first.map f).subperm))
    exact ⟨a :: k, ((List.subperm_cons a).2 hk).trans first.symm.subperm, rfl⟩

theorem exists_of_mem_forall₂ {R : α → β → Prop} {l : List α} {m : List β} {b : β}
    (h : List.Forall₂ R l m) (hb : b ∈ m) : ∃ a ∈ l, R a b := by
  induction h with
  | nil => cases hb
  | @cons a b' l m hab _ ih =>
    rcases List.mem_cons.1 hb with rfl | hb
    · exact ⟨a, List.mem_cons_self, hab⟩
    · obtain ⟨a', ha', hab'⟩ := ih hb
      exact ⟨a', List.mem_cons_of_mem _ ha', hab'⟩

theorem split_of_append {l m front back : List α} {a : α} (h : l ++ m = front ++ a :: back) :
    (∃ mid, l = front ++ a :: mid ∧ back = mid ++ m) ∨
      ∃ mid, front = l ++ mid ∧ m = mid ++ a :: back := by
  rcases List.append_eq_append_iff.1 h with ⟨mid, hf, hm⟩ | ⟨mid, hl, hm⟩
  · exact .inr ⟨mid, hf, hm⟩
  · cases mid with
    | nil => exact .inr ⟨[], by simpa using hl.symm, hm.symm⟩
    | cons b mid =>
      obtain ⟨rfl, hback⟩ := List.cons.inj hm
      exact .inl ⟨mid, hl, hback⟩

theorem exists_append_of_forall₂ {R : α → β → Prop} {l : List α} {front back : List β} {b : β}
    (h : List.Forall₂ R l (front ++ b :: back)) : ∃ front' a back', l = front' ++ a :: back' ∧
      List.Forall₂ R front' front ∧ R a b ∧ List.Forall₂ R back' back := by
  have before := List.forall₂_take_append l front (b :: back) h
  have after := List.forall₂_drop_append l front (b :: back) h
  obtain ⟨a, back', hab, hback, hdrop⟩ := List.forall₂_cons_right_iff.1 after
  exact ⟨l.take front.length, a, back', hdrop ▸ (List.take_append_drop front.length l).symm,
    before, hab, hback⟩

theorem exists_middle_of_forall₂ {R : α → β → Prop} {ids : List α} {front back : List β} {b : β}
    (h : List.Forall₂ R ids (front ++ b :: back)) (nodup : ids.Nodup) :
    ∃ a ∈ ids, R a b ∧ ∀ b' ∈ front ++ back, ∃ a', a' ≠ a ∧ R a' b' := by
  obtain ⟨front', a, back', rfl, before, hab, after⟩ := exists_append_of_forall₂ h
  rw [List.nodup_middle, List.nodup_cons] at nodup
  refine ⟨a, List.mem_append_right _ List.mem_cons_self, hab, fun b' hb' => ?_⟩
  obtain ⟨a', ha', hab'⟩ := exists_of_mem_forall₂ (List.rel_append before after) hb'
  refine ⟨a', ?_, hab'⟩
  rintro rfl
  exact nodup.1 ha'

/-- What relates to a list relates part by part. -/
theorem exists_forall₂_of_subperm {R : α → β → Prop} {ids : List α} {l m : List β}
    (h : List.Forall₂ R ids m) (sub : l.Subperm m) :
    ∃ ids', ids'.Subperm ids ∧ List.Forall₂ R ids' l := by
  have length := h.length_eq
  obtain ⟨k, hk, rfl⟩ := exists_of_subperm_map (l := l) (f := Prod.snd) (m := ids.zip m)
    (by rwa [List.map_snd_zip length.symm.le])
  refine ⟨k.map Prod.fst, ?_, ?_⟩
  · have := subperm_map Prod.fst hk
    rwa [List.map_fst_zip length.le] at this
  · rw [List.forall₂_map_left_iff, List.forall₂_map_right_iff, List.forall₂_same]
    exact fun x hx => (List.forall₂_iff_zip.1 h).2 (hk.subset hx)

theorem subperm_of_filter {f : α → β} {l : List β} {m : List α} (p : α → Bool) (q : β → Bool)
    (pos : (l.filter q).Subperm ((m.filter p).map f))
    (neg : (l.filter (!q ·)).Subperm ((m.filter (!p ·)).map f)) : l.Subperm (m.map f) := by
  have hl : List.Perm (l.filter q ++ l.filter (!q ·)) l := List.filter_append_perm q l
  have hm : List.Perm (m.filter p ++ m.filter (!p ·)) m := List.filter_append_perm p m
  have both := pos.append neg
  rw [← List.map_append] at both
  exact hl.symm.subperm.trans (both.trans (hm.map f).subperm)

/-- A test that fails from some item on picks the same items from the front as from everywhere. -/
theorem takeWhile_eq_filter {p : α → Bool} {l : List α}
    (h : l.Pairwise fun a b => p b = true → p a = true) : l.takeWhile p = l.filter p := by
  induction l with
  | nil => rfl
  | cons a l ih =>
    obtain ⟨ha, hl⟩ := List.pairwise_cons.1 h
    by_cases hp : p a = true
    · rw [List.takeWhile_cons_of_pos hp, List.filter_cons_of_pos hp, ih hl]
    · have none : l.filter p = [] := List.filter_eq_nil_iff.2 fun b hb hpb => hp (ha b hb hpb)
      rw [List.takeWhile_cons_of_neg hp, List.filter_cons_of_neg hp, none]

theorem map_filter_isSome (f : α → Option β) (l : List α) :
    (l.filter fun a => (f a).isSome).map f = (l.filterMap f).map some := by
  induction l with
  | nil => rfl
  | cons a l ih => cases h : f a <;> simp [h, ih]

theorem eq_of_nodup_filterMap {f : α → Option β} {l : List α} (h : (l.filterMap f).Nodup) {a a' : α}
    {b : β} (ha : a ∈ l) (ha' : a' ∈ l) (e : f a = some b) (e' : f a' = some b) : a = a' := by
  have distinct : ((l.filter fun a => (f a).isSome).map f).Nodup := by
    rw [map_filter_isSome]
    exact h.map (Option.some_injective _)
  have mem {a : α} (ha : a ∈ l) (e : f a = some b) : a ∈ l.filter fun a => (f a).isSome :=
    List.mem_filter.2 ⟨ha, by rw [e]; rfl⟩
  exact List.inj_on_of_nodup_map distinct (mem ha e) (mem ha' e') (e.trans e'.symm)

theorem map_filter_eq_of_forall₂ {γ : Type} {p : α → Bool} {q : β → Bool} {f : α → γ} {g : β → γ}
    {l : List α} {m : List β}
    (h : List.Forall₂ (fun a b => p a = q b ∧ (q b = true → f a = g b)) l m) :
    (l.filter p).map f = (m.filter q).map g := by
  induction h with
  | nil => rfl
  | @cons a b l m hab _ ih =>
    obtain ⟨same, value⟩ := hab
    cases hq : q b
    · rw [List.filter_cons_of_neg (by simp [same, hq]), List.filter_cons_of_neg (by simp [hq]), ih]
    · rw [List.filter_cons_of_pos (same.trans hq), List.filter_cons_of_pos hq, List.map_cons,
        List.map_cons, ih, value hq]

/-! ### Numbered items -/

theorem map_filter_eq_map_filter_range (p : α → Bool) (f : α → β) (default : β) (l : List α) :
    (l.filter p).map f = ((List.range l.length).filter fun i => l[i]?.any p).map
      fun i => (l[i]?.map f).getD default := by
  induction l using List.reverseRecOn with
  | nil => rfl
  | append_singleton l a ih =>
    have before (i : Nat) (hi : i ∈ List.range l.length) : (l ++ [a])[i]? = l[i]? :=
      List.getElem?_append_left (List.mem_range.1 hi)
    rw [List.filter_append, List.map_append, ih, List.length_append, List.length_singleton,
      List.range_succ, List.filter_append, List.map_append]
    congr 1
    · have same : (List.range l.length).filter (fun i => (l ++ [a])[i]?.any p) =
          (List.range l.length).filter fun i => l[i]?.any p :=
        List.filter_congr fun i hi => by rw [before i hi]
      rw [same]
      exact List.map_congr_left fun i hi => by rw [before i (List.mem_filter.1 hi).1]
    · cases h : p a <;> simp [h]

theorem eq_of_getElem?_range {n k x : Nat} (h : (List.range n)[k]? = some x) : x = k := by
  obtain ⟨_, hx⟩ := List.getElem?_eq_some_iff.1 h
  rw [← hx, List.getElem_range]

theorem prefix_of_map_range {f : α → Nat} {l m : List α} {a b : Nat}
    (hl : l.map f = List.range a) (hm : m.map f = List.range b) (sub : l ⊆ m) : l <+: m := by
  have at_index (k : Nat) (x : α) (hx : l[k]? = some x) : m[k]? = some x := by
    have hk : f x = k := by
      have := congrArg (·[k]?) hl
      simp only [List.getElem?_map, hx, Option.map_some] at this
      exact eq_of_getElem?_range this.symm
    obtain ⟨n, hn⟩ := List.mem_iff_getElem?.1 (sub (List.mem_of_getElem? hx))
    have hfx : f x = n := by
      have := congrArg (·[n]?) hm
      simp only [List.getElem?_map, hn, Option.map_some] at this
      exact eq_of_getElem?_range this.symm
    rwa [← hfx, hk] at hn
  rw [List.prefix_iff_getElem?]
  exact fun k hk => at_index k _ (List.getElem?_eq_getElem hk)

end ReliableDatagram
