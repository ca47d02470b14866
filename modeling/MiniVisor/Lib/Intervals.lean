import Mathlib

/-!
# Coalesced lists of intervals

A finite set of natural numbers can be kept as a list of closed intervals, given by their two ends.
`Coalesced l` says that the intervals are not empty, increase, and are separated by at least one
number; such a list is a normal form of the set `cover l`, and its `total` is the size of the set
(`card_cover`).

`cover_carve` and `Coalesced.carve` describe the list after the removal of a part of one interval,
`Coalesced.replace` the list after any other local edit. The two `total` lemmas turn an equation
between covers into the equation between totals.
-/

set_option autoImplicit false

namespace MiniVisor.Lib

/-- The intervals are not empty, increase, and do not touch. -/
structure Coalesced (l : List (Nat × Nat)) : Prop where
  nonempty : ∀ p ∈ l, p.1 ≤ p.2
  separated : l.Pairwise fun p q => p.2 + 1 < q.1

/-- The numbers in the intervals. -/
def cover : List (Nat × Nat) → Finset Nat
  | [] => ∅
  | p :: l => Finset.Icc p.1 p.2 ∪ cover l

/-- The lengths of the intervals added up. -/
def total (l : List (Nat × Nat)) : Nat := (l.map fun p => p.2 - p.1 + 1).sum

/-- What is left of the interval `p` without the numbers from `s` to `e`. -/
def remainder (p : Nat × Nat) (s e : Nat) : List (Nat × Nat) :=
  (if p.1 < s then [(p.1, s - 1)] else []) ++ (if e < p.2 then [(e + 1, p.2)] else [])

variable {l m r : List (Nat × Nat)} {p : Nat × Nat} {s e x : Nat}

theorem mem_cover : x ∈ cover l ↔ ∃ p ∈ l, p.1 ≤ x ∧ x ≤ p.2 := by
  induction l with
  | nil => simp [cover]
  | cons p l ih => simp [cover, ih]

theorem cover_append (l m : List (Nat × Nat)) : cover (l ++ m) = cover l ∪ cover m := by
  ext x
  simp only [mem_cover, List.mem_append, Finset.mem_union]
  constructor
  · rintro ⟨p, hp | hp, hx⟩
    · exact Or.inl ⟨p, hp, hx⟩
    · exact Or.inr ⟨p, hp, hx⟩
  · rintro (⟨p, hp, hx⟩ | ⟨p, hp, hx⟩)
    · exact ⟨p, Or.inl hp, hx⟩
    · exact ⟨p, Or.inr hp, hx⟩

theorem coalesced_nil : Coalesced [] := ⟨by simp, List.Pairwise.nil⟩

theorem coalesced_append : Coalesced (l ++ m) ↔
    Coalesced l ∧ Coalesced m ∧ ∀ p ∈ l, ∀ q ∈ m, p.2 + 1 < q.1 := by
  constructor
  · rintro ⟨h1, h2⟩
    rw [List.pairwise_append] at h2
    exact ⟨⟨fun p hp => h1 p (by simp [hp]), h2.1⟩, ⟨fun p hp => h1 p (by simp [hp]), h2.2.1⟩,
      h2.2.2⟩
  · rintro ⟨hl, hm, hlm⟩
    refine ⟨fun p hp => ?_, List.pairwise_append.2 ⟨hl.separated, hm.separated, hlm⟩⟩
    rcases List.mem_append.1 hp with hp | hp
    · exact hl.nonempty p hp
    · exact hm.nonempty p hp

theorem coalesced_singleton : Coalesced [p] ↔ p.1 ≤ p.2 :=
  ⟨fun h => h.nonempty p (by simp), fun h => ⟨by simpa using h, List.pairwise_singleton _ _⟩⟩

/-- Intervals in the middle of a list may be replaced by any that keep their distance to the
others. -/
theorem Coalesced.replace {m' : List (Nat × Nat)} (h : Coalesced (l ++ (m ++ r)))
    (hm : Coalesced m') (hl : ∀ p ∈ l, ∀ q ∈ m', p.2 + 1 < q.1)
    (hr : ∀ q ∈ m', ∀ p ∈ r, q.2 + 1 < p.1) : Coalesced (l ++ (m' ++ r)) := by
  simp only [coalesced_append, List.mem_append] at h ⊢
  obtain ⟨h1, ⟨-, h3, -⟩, h5⟩ := h
  refine ⟨h1, ⟨hm, h3, hr⟩, ?_⟩
  rintro p hp q (hq | hq)
  · exact hl p hp q hq
  · exact h5 p hp q (Or.inr hq)

/-- The distance of an interval to its neighbours. -/
theorem Coalesced.around (h : Coalesced (l ++ p :: r)) :
    p.1 ≤ p.2 ∧ (∀ q ∈ l, q.2 + 1 < p.1) ∧ ∀ q ∈ r, p.2 + 1 < q.1 := by
  obtain ⟨h1, h2⟩ := h
  rw [List.pairwise_append, List.pairwise_cons] at h2
  exact ⟨h1 p (by simp), fun q hq => h2.2.2 q hq p (by simp), h2.2.1.1⟩

/-- A coalesced list is a list of disjoint intervals, so its total is the size of its cover. -/
theorem card_cover (h : Coalesced l) : (cover l).card = total l := by
  induction l with
  | nil => rfl
  | cons p l ih =>
    obtain ⟨hp, -, hr⟩ := Coalesced.around (l := []) h
    have hl : Coalesced l := ((coalesced_append (l := [p])).1 h).2.1
    have hdisj : Disjoint (Finset.Icc p.1 p.2) (cover l) := by
      rw [Finset.disjoint_left]
      intro x hx hx'
      rw [Finset.mem_Icc] at hx
      obtain ⟨q, hq, hq'⟩ := mem_cover.1 hx'
      have := hr q hq
      omega
    have hcard : (Finset.Icc p.1 p.2).card = p.2 - p.1 + 1 := by
      rw [Nat.card_Icc]
      omega
    simp only [cover, total, List.map_cons, List.sum_cons, Finset.card_union_of_disjoint hdisj,
      hcard, ih hl]

theorem mem_remainder {q : Nat × Nat} : q ∈ remainder p s e ↔
    (p.1 < s ∧ q = (p.1, s - 1)) ∨ (e < p.2 ∧ q = (e + 1, p.2)) := by
  unfold remainder
  split <;> split <;> simp_all

theorem coalesced_remainder (hs : s ≤ e) : Coalesced (remainder p s e) := by
  refine ⟨fun q hq => ?_, ?_⟩
  · rcases mem_remainder.1 hq with ⟨h, rfl⟩ | ⟨h, rfl⟩
    · simp only
      omega
    · exact h
  · unfold remainder
    split <;> split <;> simp
    omega

/-- Removal of a part of one interval keeps the list coalesced. -/
theorem Coalesced.carve (h : Coalesced (l ++ p :: r)) (hps : p.1 ≤ s) (hse : s ≤ e)
    (hep : e ≤ p.2) : Coalesced (l ++ (remainder p s e ++ r)) := by
  obtain ⟨-, hl, hr⟩ := h.around
  refine Coalesced.replace (m := [p]) h (coalesced_remainder hse) ?_ ?_
  · intro q hq q' hq'
    have := hl q hq
    rcases mem_remainder.1 hq' with ⟨h, rfl⟩ | ⟨h, rfl⟩ <;> simp only <;> omega
  · intro q' hq' q hq
    have := hr q hq
    rcases mem_remainder.1 hq' with ⟨h, rfl⟩ | ⟨h, rfl⟩ <;> simp only <;> omega

/-- Removal of a part of one interval removes exactly that part from the cover. -/
theorem cover_carve (h : Coalesced (l ++ p :: r)) (hps : p.1 ≤ s) (hse : s ≤ e) (hep : e ≤ p.2) :
    cover (l ++ (remainder p s e ++ r)) = cover (l ++ p :: r) \ Finset.Icc s e := by
  obtain ⟨-, hl, hr⟩ := h.around
  have hrem : cover (remainder p s e) = Finset.Icc p.1 p.2 \ Finset.Icc s e := by
    ext x
    simp only [mem_cover, mem_remainder, Finset.mem_sdiff, Finset.mem_Icc]
    constructor
    · rintro ⟨q, ⟨h, rfl⟩ | ⟨h, rfl⟩, hx⟩ <;> simp only at hx <;> omega
    · rintro ⟨hx, hx'⟩
      by_cases hxs : x < s
      · exact ⟨(p.1, s - 1), Or.inl ⟨by omega, rfl⟩, by simp only; omega⟩
      · exact ⟨(e + 1, p.2), Or.inr ⟨by omega, rfl⟩, by simp only; omega⟩
  -- the other intervals are away from `p`, so nothing else is removed
  have hout : ∀ q, (q ∈ l ∨ q ∈ r) → ∀ x, q.1 ≤ x → x ≤ q.2 → ¬(s ≤ x ∧ x ≤ e) := by
    rintro q (hq | hq) x hx hx'
    · have := hl q hq
      omega
    · have := hr q hq
      omega
  have hkeep : ∀ m : List (Nat × Nat), (∀ q ∈ m, q ∈ l ∨ q ∈ r) →
      cover m \ Finset.Icc s e = cover m := by
    intro m hm
    rw [Finset.sdiff_eq_self_iff_disjoint, Finset.disjoint_left]
    intro x hx hx'
    obtain ⟨q, hq, hqx⟩ := mem_cover.1 hx
    exact hout q (hm q hq) x hqx.1 hqx.2 (Finset.mem_Icc.1 hx')
  rw [cover_append, cover_append, cover_append, hrem]
  show _ = (cover l ∪ (Finset.Icc p.1 p.2 ∪ cover r)) \ Finset.Icc s e
  rw [Finset.union_sdiff_distrib, Finset.union_sdiff_distrib, hkeep l fun q hq => Or.inl hq,
    hkeep r fun q hq => Or.inr hq]

/-- A list sorted by `f` splits at every threshold. -/
theorem exists_split_of_sorted {α : Type} (f : α → Nat) (s : Nat) :
    ∀ l : List α, l.Pairwise (fun x y => f x ≤ f y) →
      ∃ p q, l = p ++ q ∧ (∀ x ∈ p, f x < s) ∧ ∀ y ∈ q, s ≤ f y := by
  intro l
  induction l with
  | nil => exact fun _ => ⟨[], [], rfl, by simp, by simp⟩
  | cons x l ih =>
    intro h
    rw [List.pairwise_cons] at h
    by_cases hx : f x < s
    · obtain ⟨p, q, rfl, hp, hq⟩ := ih h.2
      refine ⟨x :: p, q, rfl, fun y hy => ?_, hq⟩
      rcases List.mem_cons.1 hy with rfl | hy
      · exact hx
      · exact hp y hy
    · refine ⟨[], x :: l, rfl, by simp, fun y hy => ?_⟩
      rcases List.mem_cons.1 hy with rfl | hy
      · omega
      · have := h.1 y hy
        omega

/-- The total after the removal of numbers that were there. -/
theorem total_of_cover_sdiff (hl : Coalesced l) (hm : Coalesced m) (hse : s ≤ e)
    (hc : cover m = cover l \ Finset.Icc s e) (hsub : Finset.Icc s e ⊆ cover l) :
    total m + (e - s + 1) = total l := by
  have hcard := Finset.card_sdiff_add_card_eq_card hsub
  rw [← hc, card_cover hl, card_cover hm, Nat.card_Icc] at hcard
  omega

/-- The total after the addition of numbers that were not there. -/
theorem total_of_cover_union (hl : Coalesced l) (hm : Coalesced m) (hse : s ≤ e)
    (hc : cover m = cover l ∪ Finset.Icc s e) (hdisj : Disjoint (cover l) (Finset.Icc s e)) :
    total m = total l + (e - s + 1) := by
  have hcard := Finset.card_union_of_disjoint hdisj
  rw [← hc, card_cover hl, card_cover hm, Nat.card_Icc] at hcard
  omega

end MiniVisor.Lib
