import MiniVisor.Allocator.Refinement
import MiniVisor.Allocator.Round

/-!
# Freeing memory that is free already

`define_free_memory` has branches for a range that overlaps the free set: it answers an error for a
range inside an entry, and otherwise goes on with what remains of the range past the entry it met.
`Handled` is the exact condition on the state and the range under which these branches do what a
caller expects (`FreedSafely`): the request fails and nothing changes, or the range is added to the
free bytes and `free_size` counts them. `overlapping_free_iff` proves that the two agree in every
state that a run of handled requests reaches.

What goes wrong otherwise is always visible in `free_size`: the round that ends the request adds the
whole size it was called with (`freeBeside_cases`), the overlap included.
-/

set_option autoImplicit false

namespace MiniVisor.Allocator

open MiniVisor.Lib

/-! ## The requests that are handled -/

/-- A slot of the pool that holds a free range. -/
def IsEntry (a : MemoryAllocator) (i : Nat) : Prop := i < poolSize ∧ (a.pool i).enabled

instance (a : MemoryAllocator) (i : Nat) : Decidable (IsEntry a i) :=
  inferInstanceAs (Decidable (_ ∧ _))

/-- The ranges `[s, e]` for which `free` keeps its contract in the state `a`. -/
inductive Handled (a : MemoryAllocator) (s e : Nat) : Prop
  /-- No byte of the range is free. -/
  | apart (h : Disjoint (freeBytes a) (Finset.Icc s e))
  /-- The range lies in one entry: the request is refused. -/
  | inside (i : Nat) (hi : IsEntry a i) (hs : (a.pool i).start ≤ s) (he : e ≤ (a.pool i).stop)
  /-- The range starts below the first entry and ends where this entry ends. -/
  | endsWithFirst (i : Nat) (hi : IsEntry a i) (hfirst : (a.pool i).isFirstEntry)
      (hs : s < (a.pool i).start) (he : e = (a.pool i).stop)
  /-- The range starts where an entry other than the first one starts, and no byte of it past this
  entry is free. -/
  | startsWithLater (i : Nat) (hi : IsEntry a i) (hfirst : ¬(a.pool i).isFirstEntry)
      (hs : s = (a.pool i).start) (he : (a.pool i).stop < e)
      (hrest : Disjoint (freeBytes a) (Finset.Icc ((a.pool i).stop + 1) e))
  /-- The range starts strictly inside the last entry, which is not the only one. -/
  | insideLast (i : Nat) (hi : IsEntry a i) (hfirst : ¬(a.pool i).isFirstEntry)
      (hlast : (a.pool i).next = none) (hs : (a.pool i).start < s) (hs' : s < (a.pool i).stop)
      (he : (a.pool i).stop < e)
  /-- The pool is full and the range, which overlaps the first entry, would need an entry. -/
  | fullAtFirst (hfull : ∀ k < poolSize, (a.pool k).enabled) (i j : Nat) (hi : IsEntry a i)
      (hfirst : (a.pool i).isFirstEntry) (hnext : (a.pool i).next = some j)
      (hs : s ≤ (a.pool i).stop) (he : (a.pool i).start ≤ e)
      (hin : ¬((a.pool i).start ≤ s ∧ e ≤ (a.pool i).stop)) (hne : e ≠ (a.pool i).stop)
      (hadj : (a.pool j).start ≠ e + 1)
  /-- The pool is full and the range, which starts between two entries and overlaps the second one,
  would need an entry. -/
  | fullBetween (hfull : ∀ k < poolSize, (a.pool k).enabled) (i j : Nat) (hi : IsEntry a i)
      (hnext : (a.pool i).next = some j) (hs : (a.pool i).stop + 1 < s)
      (hs' : s < (a.pool j).start) (he : (a.pool j).start ≤ e)

/-- What a caller expects of `free` on the range `[s, e]`: an error and no change, or the union. -/
structure FreedSafely (a : MemoryAllocator) (s e : Nat) (outcome : Outcome Unit) : Prop where
  wellFormed : WellFormed outcome.2
  card : outcome.2.freeSize = (freeBytes outcome.2).card
  ok : outcome.1 = .ok () → freeBytes outcome.2 = freeBytes a ∪ Finset.Icc s e
  error : ∀ err, outcome.1 = .error err →
    freeBytes outcome.2 = freeBytes a ∧ outcome.2.freeSize = a.freeSize

/-! ## Handled requests are safe -/

section Positive

variable {a : MemoryAllocator} {l r chain : List Nat} {lists : Nat → List Nat} {x z s e : Nat}

theorem getEndAddress_range (hse : s ≤ e) (he : e + 1 < wordSize) :
    getEndAddress s (e - s + 1) = .ok e := by
  rw [getEndAddress_eq (by omega) (by omega)]
  congr 1
  omega

/-- A range inside the selected entry is refused. -/
theorem freeAt_inside (hse : s ≤ e) (he : e + 1 < wordSize) (hs : (a.pool x).start ≤ s)
    (hin : e ≤ (a.pool x).stop) :
    freeAt a x s (e - s + 1) = .ok (.done (.error .invalidRequest, a)) := by
  simp only [freeAt, getEndAddress_range hse he, ok_bind, ge_iff_le, if_pos (And.intro hs hin)]
  rfl

/-- An entry that the range does not touch leaves the round to the next entry. -/
theorem freeBeside_of_apart {size : Nat} (hx : (a.pool x).stop + 1 < wordSize)
    (he : e + 1 < wordSize) (hs : (a.pool x).stop + 1 ≠ s) (hne : (a.pool x).start ≠ e + 1)
    (hnext : getNextEntry a x = some z) :
    freeBeside a x s e size =
      freeWithNext a x z s e size (a.pool x).getSize ((a.pool x).stop + 1) false := by
  simp only [freeBeside, checkedAdd_eq hx, ok_bind, growUp_of_ne hs, growDown_of_ne he hne, hnext,
    Bool.or_self]

/-- The next entry starts no later than the range: the request is refused or goes on behind it. -/
theorem freeAt_next (h : Rep a (l ++ x :: z :: r) lists) (hse : s ≤ e) (he : e + 1 < wordSize)
    (hs : (a.pool z).start ≤ s) :
    freeAt a x s (e - s + 1) = .ok (if e ≤ (a.pool z).stop then .done (.error .invalidRequest, a)
      else .again a ((a.pool z).stop + 1) (e - (a.pool z).stop)) := by
  have hgap := h.stop_lt_of_mem.2 z (by simp)
  have hxx := (a.pool x).start_le_stop
  have hz := h.stop_lt (x := z) (by simp)
  have hpw := physicalLimit_lt
  have hnext : getNextEntry a x = some z := h.addressChain.getNextEntry_eq
  rw [freeAt_eq_freeBeside hse he (by omega) (fun hc => by omega) (by omega),
    freeBeside_of_apart (by omega) he (by omega) (by omega) hnext]
  simp only [freeWithNext, if_pos hs, Bool.not_false, assertThat_true, ok_bind, ge_iff_le]
  by_cases hin : e ≤ (a.pool z).stop
  · simp only [if_pos hin]
    rfl
  · simp only [if_neg hin, checkedAdd_eq (show (a.pool z).stop + 1 < wordSize by omega),
      checkedSub_eq (show (a.pool z).stop ≤ e by omega), ok_bind]
    rfl

/-- A full pool refuses a range that neither touches the entry nor the next one. -/
theorem freeBeside_full {size : Nat} (h : Rep a (l ++ x :: z :: r) lists) (he : e + 1 < wordSize)
    (hfull : (l ++ x :: z :: r).length = poolSize) (hs : (a.pool x).stop + 1 ≠ s)
    (hx : (a.pool x).start ≠ e + 1) (hz : s < (a.pool z).start) (hadj : (a.pool z).start ≠ e + 1) :
    freeBeside a x s e size = .ok (.done (.error .noEntry, a)) := by
  have hgap := h.stop_lt_of_mem.2 z (by simp)
  have hstop := h.stop_lt (x := x) (by simp)
  have hpw := physicalLimit_lt
  have hnext : getNextEntry a x = some z := h.addressChain.getNextEntry_eq
  rw [freeBeside_of_apart (by omega) he hs hx hnext,
    freeWithNext_of_apart he (by omega) hz hadj (by omega) (by omega)]
  simp only [Bool.false_eq_true, if_false, insertWithNext,
    (createMemoryEntry_eq_none h.addressChain).2 hfull]

theorem free_of_done {size : Nat} {outcome : Outcome Unit} (h : Rep a chain lists)
    (hne : chain ≠ [])
    (hstep : freeStep a s size = .ok (.done outcome)) : free a s size = .ok outcome := by
  rw [free, if_neg fun hz => hne (h.freeSize_eq_zero.1 hz), freeFuel, defineFreeMemory, hstep,
    ok_bind]
  rfl

theorem free_of_again {size size' s' : Nat} (h : Rep a chain lists) (hne : chain ≠ [])
    (hstep : freeStep a s size = .ok (.again a s' size')) :
    free a s size = defineFreeMemory a s' size' (2 * poolSize) := by
  rw [free, if_neg fun hz => hne (h.freeSize_eq_zero.1 hz), freeFuel, defineFreeMemory, hstep,
    ok_bind]

/-- The request goes on with a part of its range that is not free, when the rest of it is. -/
theorem free_of_rest {s' e' : Nat} (h : Rep a chain lists) (hne : chain ≠ [])
    (hstep : freeStep a s (e - s + 1) = .ok (.again a s' (e' - s' + 1))) (hse : s' ≤ e')
    (he : e' < physicalLimit) (hdisj : Disjoint (freeBytes a) (Finset.Icc s' e'))
    (hrest : freeBytes a ∪ Finset.Icc s' e' = freeBytes a ∪ Finset.Icc s e) :
    ∃ outcome, free a s (e - s + 1) = .ok outcome ∧ Frees a s e outcome := by
  obtain ⟨outcome, hok, hfrees⟩ := freeStep_spec h hne hse he hdisj
  refine ⟨outcome, ?_, hfrees.wellFormed, fun hres => ?_, hfrees.error⟩
  · rw [free_of_again h hne hstep, poolSize, defineFreeMemory, hok, ok_bind]
    rfl
  · rw [hfrees.ok hres, hrest]

/-- A range whose part below `t` is free adds as much as the part from `t` on. -/
theorem freeBytes_union_rest (h : Rep a chain lists) {i t : Nat} (hi : i ∈ chain)
    (hs : (a.pool i).start ≤ s) (ht : t = (a.pool i).stop + 1) (hst : s ≤ t) :
    freeBytes a ∪ Finset.Icc t e = freeBytes a ∪ Finset.Icc s e := by
  ext y
  simp only [Finset.mem_union, Finset.mem_Icc]
  constructor
  · rintro (hy | hy)
    · exact Or.inl hy
    · exact Or.inr (by omega)
  · rintro (hy | ⟨hsy, hye⟩)
    · exact Or.inl hy
    · by_cases hty : t ≤ y
      · exact Or.inr ⟨hty, hye⟩
      · exact Or.inl (h.mem_freeBytes hi (by omega) (by omega))

/-- The neighbours of an entry and its place in the chain. -/
theorem Rep.place {i : Nat} (h : Rep a chain lists) (hi : IsEntry a i) :
    ∃ l r, chain = l ++ i :: r ∧ ((a.pool i).isFirstEntry = l.isEmpty) ∧
      (a.pool i).next = r.head? ∧ (∀ j ∈ l, (a.pool j).stop + 1 < (a.pool i).start) ∧
      ∀ j ∈ r, (a.pool i).stop + 1 < (a.pool j).start := by
  obtain ⟨l, r, rfl⟩ := List.append_of_mem ((h.addressChain.mem i).2 hi)
  exact ⟨l, r, rfl, h.addressChain.isFirstEntry_eq, h.addressChain.linked.links.2,
    h.stop_lt_of_mem.1, h.stop_lt_of_mem.2⟩

/-- The starts of the entries up to one that starts below `s`. -/
theorem Rep.starts_lt (h : Rep a (l ++ x :: r) lists) (hx : (a.pool x).start < s) :
    ∀ i ∈ l ++ [x], (a.pool i).start < s := by
  intro i hi
  rcases List.mem_append.1 hi with hi | hi
  · have hgap := h.stop_lt_of_mem.1 i hi
    have hii := (a.pool i).start_le_stop
    omega
  · rw [List.mem_singleton.1 hi]
    exact hx

/-- The round on a range that starts in an entry other than the first is made at the entry before,
if the range starts with the entry or inside the last one. -/
theorem Rep.freeStep_before (h : Rep a (l ++ x :: z :: r) lists)
    (hs : s = (a.pool z).start ∨ r = [] ∧ (a.pool z).start < s ∧ s < (a.pool z).stop)
    {size : Nat} (hsize : size ≠ 0) : freeStep a s size = freeAt a x s size := by
  have hgap := h.stop_lt_of_mem.2 z (by simp)
  have hxx := (a.pool x).start_le_stop
  have hzz := (a.pool z).start_le_stop
  rcases hs with rfl | ⟨rfl, hlt, hlt'⟩
  · refine freeStep_behind h.addressChain (h.starts_lt (by omega)) (fun i hi => ?_)
      (Or.inl (by simp)) hsize
    have hsplit : l ++ x :: z :: r = (l ++ [x]) ++ z :: r := by simp
    rw [hsplit] at h
    rcases List.mem_cons.1 hi with rfl | hi
    · exact le_refl _
    · have := h.stop_lt_of_mem.2 i hi
      omega
  · have hsplit : l ++ [x, z] = (l ++ [x]) ++ z :: [] := by simp
    refine freeStep_insideLast h.addressChain ?_ hlt' hsize
    rw [hsplit] at h ⊢
    exact h.starts_lt hlt

theorem free_inside {i : Nat} (h : Rep a chain lists) (hse : s ≤ e) (he : e + 1 < wordSize)
    (hi : IsEntry a i) (hs : (a.pool i).start ≤ s) (hin : e ≤ (a.pool i).stop) :
    free a s (e - s + 1) = .ok (.error .invalidRequest, a) := by
  obtain ⟨l, r, rfl, -, -, hl, hr⟩ := h.place hi
  refine free_of_done h (by simp) ?_
  -- The request is refused at the entry itself or, when the search stops before it, at its
  -- predecessor.
  have hbefore : ∀ l' w, l = l' ++ [w] →
      (s = (a.pool i).start ∨ r = [] ∧ (a.pool i).start < s ∧ s < (a.pool i).stop) →
      freeStep a s (e - s + 1) = .ok (.done (.error .invalidRequest, a)) := by
    rintro l' w rfl hsel
    rw [List.append_assoc] at h
    rw [Rep.freeStep_before h hsel (by omega), freeAt_next h hse he hs, if_pos hin]
  rcases Nat.eq_or_lt_of_le hs with heq | hlt
  · rcases List.eq_nil_or_concat l with rfl | ⟨l', w, rfl⟩
    · rw [freeStep_first h.addressChain (by omega) (by omega)]
      exact freeAt_inside hse he hs hin
    · exact hbefore l' w List.concat_eq_append (Or.inl heq.symm)
  · by_cases hlast : r ≠ [] ∨ (a.pool i).stop ≤ s
    · rw [freeStep_behind h.addressChain (h.starts_lt hlt)
        (fun j hj => by have := hr j hj; omega) hlast (by omega)]
      exact freeAt_inside hse he hs hin
    · obtain ⟨hnil, hstop⟩ := not_or.1 hlast
      rw [not_not] at hnil
      rcases List.eq_nil_or_concat l with rfl | ⟨l', w, rfl⟩
      · subst hnil
        rw [freeStep_insideOnly h.addressChain hlt (by omega) (by omega)]
        exact freeAt_inside hse he hs hin
      · exact hbefore l' w List.concat_eq_append (Or.inr ⟨hnil, hlt, by omega⟩)

theorem Rep.length_of_full (h : Rep a chain lists) (hfull : ∀ k < poolSize, (a.pool k).enabled) :
    chain.length = poolSize := by
  refine (createMemoryEntry_eq_none h.addressChain).1 ?_
  have hnone : (List.range poolSize).find? (fun i => !(a.pool i).enabled) = none := by
    rw [List.find?_eq_none]
    intro i hi
    simp [hfull i (List.mem_range.1 hi)]
  rw [createMemoryEntry, hnone]

/-- A request whose range meets one of the conditions fails without a change or adds its range. -/
theorem free_of_handled (h : Rep a chain lists) (hne : chain ≠ []) (hse : s ≤ e)
    (he : e < physicalLimit) (hh : Handled a s e) :
    ∃ outcome, free a s (e - s + 1) = .ok outcome ∧ Frees a s e outcome := by
  have hpw := physicalLimit_lt
  cases hh with
  | apart hdisj => exact free_spec h hse he hdisj
  | inside i hi hs hin =>
    exact ⟨_, free_inside h hse (by omega) hi hs hin, .of_error h s e _⟩
  | endsWithFirst i hi hfirst hs heq =>
    obtain ⟨l, r, rfl, hl, -, -, hr⟩ := h.place hi
    rw [hfirst, eq_comm, List.isEmpty_iff] at hl
    subst hl heq
    have hii := (a.pool i).start_le_stop
    have hstep : freeStep a s ((a.pool i).stop - s + 1) =
        .ok (.again a s ((a.pool i).start - 1 - s + 1)) := by
      rw [freeStep_first h.addressChain (by omega) (by omega)]
      simp only [freeAt, getEndAddress_range hse (show (a.pool i).stop + 1 < wordSize by omega),
        ok_bind, ge_iff_le, hfirst]
      rw [if_neg (by omega), if_neg (by simp), if_pos trivial,
        checkedSub_eq (by simp only [MemoryEntry.getSize]; omega), ok_bind]
      have hsize : (a.pool i).stop - s + 1 - (a.pool i).getSize = (a.pool i).start - 1 - s + 1 := by
        simp only [MemoryEntry.getSize]
        omega
      rw [hsize]
      rfl
    refine free_of_rest h hne hstep (by omega) (by omega) ?_ ?_
    · rw [Finset.disjoint_left, h.addressChain.freeBytes_eq]
      intro y hy hy'
      obtain ⟨p, hp, hpy⟩ := mem_cover.1 hy
      obtain ⟨j, hj, rfl⟩ := List.mem_map.1 hp
      simp only [rangeAt, Finset.mem_Icc] at hpy hy'
      rcases List.mem_cons.1 hj with rfl | hj
      · omega
      · have := hr j hj
        omega
    · ext y
      simp only [Finset.mem_union, Finset.mem_Icc]
      constructor
      · rintro (hy | hy)
        · exact Or.inl hy
        · exact Or.inr (by omega)
      · rintro (hy | ⟨hsy, hye⟩)
        · exact Or.inl hy
        · by_cases hiy : (a.pool i).start ≤ y
          · exact Or.inl (h.mem_freeBytes (by simp) hiy hye)
          · exact Or.inr (by omega)
  | startsWithLater i hi hfirst hs hlt hrest =>
    obtain ⟨l, r, rfl, hl, -⟩ := h.place hi
    obtain rfl | ⟨l', w, rfl⟩ := List.eq_nil_or_concat l
    · exact absurd hl (by simpa using hfirst)
    · rw [List.concat_eq_append, List.append_assoc] at h hne
      have hii := (a.pool i).start_le_stop
      have hstep : freeStep a s (e - s + 1) =
          .ok (.again a ((a.pool i).stop + 1) (e - ((a.pool i).stop + 1) + 1)) := by
        rw [Rep.freeStep_before h (Or.inl hs) (by omega),
          freeAt_next h hse (by omega) (by omega), if_neg (by omega)]
        congr 2
        omega
      exact free_of_rest h hne hstep (by omega) he hrest
        (freeBytes_union_rest h (by simp) (by omega) rfl (by omega))
  | insideLast i hi hfirst hlast hs hs' hlt =>
    obtain ⟨l, r, rfl, hl, hr, -, -⟩ := h.place hi
    rw [hlast, eq_comm, List.head?_eq_none_iff] at hr
    subst hr
    obtain rfl | ⟨l', w, rfl⟩ := List.eq_nil_or_concat l
    · exact absurd hl (by simpa using hfirst)
    · rw [List.concat_eq_append, List.append_assoc] at h hne
      have hstep : freeStep a s (e - s + 1) =
          .ok (.again a ((a.pool i).stop + 1) (e - ((a.pool i).stop + 1) + 1)) := by
        rw [Rep.freeStep_before h (Or.inr ⟨rfl, hs, hs'⟩) (by omega),
          freeAt_next h hse (by omega) (by omega), if_neg (by omega)]
        congr 2
        omega
      refine free_of_rest h hne hstep (by omega) he ?_
        (freeBytes_union_rest h (by simp) (by omega) rfl (by omega))
      have hsplit : l' ++ ([w] ++ [i]) = (l' ++ [w]) ++ i :: [] := by simp
      rw [hsplit] at h
      have hgap := h.stop_lt_of_mem.1
      rw [Finset.disjoint_left, h.addressChain.freeBytes_eq]
      intro y hy hy'
      obtain ⟨p, hp, hpy⟩ := mem_cover.1 hy
      obtain ⟨j, hj, rfl⟩ := List.mem_map.1 hp
      simp only [rangeAt, Finset.mem_Icc] at hpy hy'
      rcases List.mem_append.1 hj with hj | hj
      · have := hgap j hj
        omega
      · rw [List.mem_singleton.1 hj] at hpy
        omega
  | fullAtFirst hfull i j hi hfirst hnext hs hei hin hstop hadj =>
    obtain ⟨l, r, rfl, hl, hr, -, hgap⟩ := h.place hi
    rw [hfirst, eq_comm, List.isEmpty_iff] at hl
    subst hl
    cases r with
    | nil => simp [hnext] at hr
    | cons z r =>
      obtain rfl : j = z := by simpa [hnext] using hr
      have hz := hgap j (by simp)
      refine ⟨_, free_of_done h hne ?_, .of_error h s e .noEntry⟩
      have hsel : freeStep a s (e - s + 1) = freeAt a i s (e - s + 1) := by
        by_cases hsi : s ≤ (a.pool i).start
        · exact freeStep_first h.addressChain hsi (by omega)
        · exact freeStep_behind h.addressChain (h.starts_lt (by omega))
            (fun k hk => by have := hgap k hk; omega) (Or.inl (by simp)) (by omega)
      rw [hsel, freeAt_eq_freeBeside hse (by omega) hin (by simp [hfirst]) (Ne.symm hstop)]
      exact freeBeside_full h (by omega) (h.length_of_full hfull) (by omega) (by omega) (by omega)
        hadj
  | fullBetween hfull i j hi hnext hs hs' hej =>
    obtain ⟨l, r, rfl, -, hr, -, hgap⟩ := h.place hi
    cases r with
    | nil => simp [hnext] at hr
    | cons z r =>
      obtain rfl : j = z := by simpa [hnext] using hr
      have hii := (a.pool i).start_le_stop
      refine ⟨_, free_of_done h hne ?_, .of_error h s e .noEntry⟩
      rw [freeStep_behind h.addressChain (h.starts_lt (by omega)) (fun k hk => ?_)
        (Or.inl (by simp)) (by omega), freeAt_eq_freeBeside hse (by omega) (by omega)
        (fun hc => by omega) (by omega)]
      · exact freeBeside_full h (by omega) (h.length_of_full hfull) (by omega) (by omega) hs'
          (by omega)
      · have hsplit : l ++ i :: j :: r = (l ++ [i]) ++ j :: r := by simp
        rw [hsplit] at h
        rcases List.mem_cons.1 hk with rfl | hk
        · omega
        · have := h.stop_lt_of_mem.2 k hk
          have := (a.pool j).start_le_stop
          omega

end Positive

/-! ## The other requests are not -/

/-- The bytes that a range adds to a set lie past a part of it that is in the set already. -/
theorem card_range_sdiff_le {F : Finset Nat} {s t e : Nat} (hF : ∀ y, s ≤ y → y < t → y ∈ F) :
    (Finset.Icc s e \ F).card ≤ e + 1 - t := by
  have hsub : Finset.Icc s e \ F ⊆ Finset.Icc t e := by
    intro y hy
    rw [Finset.mem_sdiff, Finset.mem_Icc] at hy
    by_cases hty : t ≤ y
    · exact Finset.mem_Icc.2 ⟨hty, hy.1.2⟩
    · exact absurd (hF y hy.1.1 (by omega)) hy.2
  simpa using Finset.card_le_card hsub

/-- A range that overlaps the set past such a part adds less than what is left of it. -/
theorem card_range_sdiff_lt {F : Finset Nat} {s t e : Nat} (hF : ∀ y, s ≤ y → y < t → y ∈ F)
    (hmeet : ¬Disjoint F (Finset.Icc t e)) : (Finset.Icc s e \ F).card < e + 1 - t := by
  obtain ⟨w, hw, hwF⟩ := Finset.not_disjoint_iff.1 hmeet
  have hsub : Finset.Icc s e \ F ⊂ Finset.Icc t e := by
    refine Finset.ssubset_iff_of_subset (fun y hy => ?_) |>.2 ⟨w, hwF, fun h => ?_⟩
    · rw [Finset.mem_sdiff, Finset.mem_Icc] at hy
      by_cases hty : t ≤ y
      · exact Finset.mem_Icc.2 ⟨hty, hy.1.2⟩
      · exact absurd (hF y hy.1.1 (by omega)) hy.2
    · exact (Finset.mem_sdiff.1 h).2 hw
  simpa using Finset.card_lt_card hsub

section Negative

variable {a : MemoryAllocator} {l r chain : List Nat} {lists : Nat → List Nat} {x s e : Nat}
  {outcome : Outcome Unit}

/-- A successful request must add to `free_size` the number of bytes that were not free. -/
theorem FreedSafely.size_eq (h : Rep a chain lists) (hsafe : FreedSafely a s e outcome) {n : Nat}
    (hadd : AddsSize a n (.done outcome)) : n = (Finset.Icc s e \ freeBytes a).card := by
  obtain ⟨b, hb, hsize⟩ := hadd
  cases hb
  have hcard : b.freeSize = (freeBytes b).card := hsafe.card
  rw [hsafe.ok rfl, ← Finset.union_sdiff_self_eq_union,
    Finset.card_union_of_disjoint Finset.disjoint_sdiff, hsize, h.freeSize_eq_card] at hcard
  exact Nat.add_left_cancel hcard

theorem free_cases {size : Nat} (h : Rep a chain lists) (hne : chain ≠ [])
    (hrun : free a s size = .ok outcome) :
    ∃ step, freeStep a s size = .ok step ∧
      (step = .done outcome ∨ ∃ b t size', step = .again b t size' ∧
        ∃ step', freeStep b t size' = .ok step' ∧
          (AddsSize b size' step' → step' = .done outcome)) := by
  rw [free, if_neg fun hz => hne (h.freeSize_eq_zero.1 hz), freeFuel, defineFreeMemory] at hrun
  obtain ⟨step, hstep, hrun⟩ := bind_eq_ok.1 hrun
  refine ⟨step, hstep, ?_⟩
  cases step with
  | done outcome' =>
    cases hrun
    exact Or.inl rfl
  | again b t size' =>
    right
    obtain ⟨step', hstep', hrun⟩ := bind_eq_ok.1 hrun
    refine ⟨b, t, size', rfl, step', hstep', ?_⟩
    rintro ⟨c, rfl, -⟩
    cases hrun
    rfl

/-- A round on a range that touches an entry from above adds the size of the range. -/
theorem freeStep_touching {t : Nat} {step : FreeStep} (h : Rep a (l ++ x :: r) lists)
    (ht : t = (a.pool x).stop + 1) (hte : t ≤ e) (he : e + 1 < wordSize)
    (hstep : freeStep a t (e - t + 1) = .ok step) : AddsSize a (e - t + 1) step := by
  have hxx := (a.pool x).start_le_stop
  have hgap := h.stop_lt_of_mem.2
  rw [freeStep_behind h.addressChain (h.starts_lt (by omega))
    (fun i hi => by have := hgap i hi; omega) (Or.inr (by omega)) (by omega),
    freeAt_eq_freeBeside hte he (by omega) (fun hc => by omega) (by omega)] at hstep
  rcases freeBeside_cases h hstep with hadd | ⟨z, r', rfl, hle, -⟩ | ⟨-, hne, -⟩
  · exact hadd
  · have := hgap z (by simp)
    omega
  · exact absurd ht.symm hne

theorem Rep.isEntry (h : Rep a (l ++ x :: r) lists) : IsEntry a x :=
  (h.addressChain.mem x).1 (by simp)

theorem Rep.full_of_length (h : Rep a chain lists) (hlen : chain.length = poolSize) :
    ∀ k < poolSize, (a.pool k).enabled := by
  intro k hk
  have hsub : chain ⊆ List.range poolSize := fun i hi => List.mem_range.2 (h.addressChain.lt hi)
  have hperm := (h.addressChain.linked.nodup.subperm hsub).perm_of_length_le (by simp [hlen])
  exact ((h.addressChain.mem k).1 (hperm.mem_iff.2 (List.mem_range.2 hk))).2

/-- A round that ends the request with success is not safe when the range overlaps. -/
theorem FreedSafely.false_of_addsSize (h : Rep a chain lists) (hsafe : FreedSafely a s e outcome)
    (hse : s ≤ e) (hmeet : ¬Disjoint (freeBytes a) (Finset.Icc s e))
    (hadd : AddsSize a (e - s + 1) (.done outcome)) : False := by
  have hsize := hsafe.size_eq h hadd
  have hlt := card_range_sdiff_lt (F := freeBytes a) (s := s) (t := s) (e := e)
    (fun y hy hy' => by omega) hmeet
  omega

/-- A safe request that overlaps the first entry, and does not start above it, is handled. -/
theorem handled_at_first (h : Rep a (x :: r) lists) (hse : s ≤ e) (he : e + 1 < wordSize)
    (hs : s ≤ (a.pool x).stop) (hmeet : ¬Disjoint (freeBytes a) (Finset.Icc s e))
    (hsel : freeStep a s (e - s + 1) = freeAt a x s (e - s + 1))
    (hrun : free a s (e - s + 1) = .ok outcome) (hsafe : FreedSafely a s e outcome) :
    Handled a s e := by
  have hentry : IsEntry a x := Rep.isEntry (l := []) h
  have hfirst : (a.pool x).isFirstEntry = true :=
    AddressChain.isFirstEntry_eq (l := []) h.addressChain
  have hgap := (Rep.stop_lt_of_mem (l := []) h).2
  by_cases hin : (a.pool x).start ≤ s ∧ e ≤ (a.pool x).stop
  · exact .inside x hentry hin.1 hin.2
  by_cases hend : e = (a.pool x).stop
  · exact .endsWithFirst x hentry hfirst (by omega) hend
  obtain ⟨step, hstep, hcases⟩ := free_cases h (by simp) hrun
  rw [hsel, freeAt_eq_freeBeside hse he hin (by simp [hfirst]) (Ne.symm hend)] at hstep
  rcases freeBeside_cases (l := []) h hstep with hadd | ⟨z, r', rfl, hle, -⟩ | ⟨hlen, -, hnext⟩
  · obtain ⟨b, rfl, hsize⟩ := hadd
    rcases hcases with hdone | ⟨_, _, _, hagain, -⟩
    · exact (hsafe.false_of_addsSize h hse hmeet ⟨b, hdone.symm, hsize⟩).elim
    · cases hagain
  · have := hgap z (by simp)
    omega
  · have hstart : (a.pool x).start ≤ e := by
      by_contra hlt
      refine hmeet (Finset.disjoint_left.2 fun y hy hy' => ?_)
      rw [h.addressChain.freeBytes_eq] at hy
      obtain ⟨p, hp, hpy⟩ := mem_cover.1 hy
      obtain ⟨j, hj, rfl⟩ := List.mem_map.1 hp
      simp only [rangeAt, Finset.mem_Icc] at hpy hy'
      rcases List.mem_cons.1 hj with rfl | hj
      · omega
      · have := hgap j hj
        have := (a.pool x).start_le_stop
        omega
    cases r with
    | nil => simp [poolSize] at hlen
    | cons z r' =>
      have hlink : (a.pool x).next = some z :=
        (Linked.links (a := []) h.addressChain.linked).2
      exact .fullAtFirst (h.full_of_length (by simpa using hlen)) x z hentry hfirst hlink hs hstart
        hin hend (hnext z r' rfl).2

/-- A safe request that overlaps and starts right or further above an entry, and no later than the
next one, is handled. -/
theorem handled_above (h : Rep a (l ++ x :: r) lists) (hse : s ≤ e) (he : e + 1 < wordSize)
    (hs : (a.pool x).stop < s) (hr : ∀ i ∈ r, s ≤ (a.pool i).start)
    (hmeet : ¬Disjoint (freeBytes a) (Finset.Icc s e))
    (hrun : free a s (e - s + 1) = .ok outcome) (hsafe : FreedSafely a s e outcome) :
    Handled a s e := by
  have hxx := (a.pool x).start_le_stop
  have hl := h.stop_lt_of_mem.1
  obtain ⟨step, hstep, hcases⟩ := free_cases h (by simp) hrun
  rw [freeStep_behind h.addressChain (h.starts_lt (by omega)) hr (Or.inr (by omega)) (by omega),
    freeAt_eq_freeBeside hse he (by omega) (fun hc => by omega) (by omega)] at hstep
  rcases freeBeside_cases h hstep with hadd | ⟨z, r', rfl, hle, hagain⟩ | ⟨hlen, hne, hnext⟩
  · obtain ⟨b, rfl, hsize⟩ := hadd
    rcases hcases with hdone | ⟨_, _, _, hagain, -⟩
    · exact (hsafe.false_of_addsSize h hse hmeet ⟨b, hdone.symm, hsize⟩).elim
    · cases hagain
  · -- The range starts with the next entry; only what is left past this entry is freed.
    have hzs : s = (a.pool z).start := le_antisymm (hr z (by simp)) hle
    have hsplit : l ++ x :: z :: r' = (l ++ [x]) ++ z :: r' := by simp
    rw [hsplit] at h
    have hentry := h.isEntry
    by_cases hin : e ≤ (a.pool z).stop
    · exact .inside z hentry hle hin
    by_cases hrest : Disjoint (freeBytes a) (Finset.Icc ((a.pool z).stop + 1) e)
    · refine .startsWithLater z hentry ?_ hzs (by omega) hrest
      simp [h.addressChain.isFirstEntry_eq]
    exfalso
    rw [hagain (by omega)] at hcases
    rcases hcases with hdone | ⟨b, t, size', heq, step', hstep', hdone⟩
    · cases hdone
    · cases heq
      have hsz : e - (a.pool z).stop = e - ((a.pool z).stop + 1) + 1 := by omega
      rw [hsz] at hstep' hdone
      have hadd := freeStep_touching h rfl (by omega) he hstep'
      have hdone := hdone hadd
      subst hdone
      have hsize := hsafe.size_eq h hadd
      have hlt := card_range_sdiff_lt (F := freeBytes a) (s := s) (t := (a.pool z).stop + 1)
        (e := e) (fun y hy hy' => h.mem_freeBytes (i := z) (by simp) (by omega) (by omega)) hrest
      omega
  · -- No entry is left, so some entry behind `x` must be the one that the range overlaps.
    obtain ⟨y, hy, hy'⟩ := Finset.not_disjoint_iff.1 hmeet
    rw [h.addressChain.freeBytes_eq] at hy
    obtain ⟨p, hp, hpy⟩ := mem_cover.1 hy
    obtain ⟨j, hj, rfl⟩ := List.mem_map.1 hp
    simp only [rangeAt, Finset.mem_Icc] at hpy hy'
    have hjr : j ∈ r := by
      rcases List.mem_append.1 hj with hj | hj
      · have := hl j hj
        omega
      · rcases List.mem_cons.1 hj with rfl | hj
        · omega
        · exact hj
    cases r with
    | nil => simp at hjr
    | cons z r' =>
      have hlink : (a.pool x).next = some z := h.addressChain.linked.links.2
      obtain ⟨hz, hadj⟩ := hnext z r' rfl
      refine .fullBetween (h.full_of_length hlen) x z h.isEntry hlink (by omega) hz ?_
      rcases List.mem_cons.1 hjr with rfl | hjr
      · omega
      · have hsplit : l ++ x :: z :: r' = (l ++ [x]) ++ z :: r' := by simp
        rw [hsplit] at h
        have := h.stop_lt_of_mem.2 j hjr
        have := (a.pool z).start_le_stop
        omega

/-- A request that starts inside an entry other than the first and ends past it, so that the round
is made at this entry, frees two bytes too many. -/
theorem not_safe_past_later (h : Rep a (l ++ x :: r) lists) (hl : l ≠ []) (hse : s ≤ e)
    (he : e + 3 < wordSize) (hxs : (a.pool x).start < s) (hs : s ≤ (a.pool x).stop)
    (hend : (a.pool x).stop < e) (hlast : r ≠ [] ∨ (a.pool x).stop ≤ s)
    (hrun : free a s (e - s + 1) = .ok outcome) (hsafe : FreedSafely a s e outcome) : False := by
  have hgap := h.stop_lt_of_mem.2
  have hfirst : (a.pool x).isFirstEntry = false := by
    rw [h.addressChain.isFirstEntry_eq]
    simpa using hl
  obtain ⟨step, hstep, hcases⟩ := free_cases h (by simp) hrun
  rw [freeStep_behind h.addressChain (h.starts_lt hxs) (fun i hi => by have := hgap i hi; omega)
    hlast (by omega), freeAt, getEndAddress_range hse (by omega), ok_bind] at hstep
  rw [if_neg (by omega), if_pos ⟨hs, by simp [hfirst]⟩, checkedAdd_eq (by omega), ok_bind,
    checkedSub_eq (by omega), ok_bind, checkedAdd_eq (by omega), ok_bind] at hstep
  cases hstep
  rcases hcases with hdone | ⟨b, t, size', heq, step', hstep', hdone⟩
  · cases hdone
  · cases heq
    have hsz : e - (a.pool x).stop + 2 = e + 2 - ((a.pool x).stop + 1) + 1 := by omega
    rw [hsz] at hstep' hdone
    have hadd := freeStep_touching h rfl (by omega) (by omega) hstep'
    have hdone := hdone hadd
    subst hdone
    have hsize := hsafe.size_eq h hadd
    have hle := card_range_sdiff_le (F := freeBytes a) (s := s) (t := (a.pool x).stop + 1)
      (e := e) (fun y hy hy' => h.mem_freeBytes (i := x) (by simp) (by omega) (by omega))
    omega

/-- A request that is safe is handled. -/
theorem handled_of_free (h : Rep a chain lists) (hne : chain ≠ []) (hse : s ≤ e)
    (he : e < physicalLimit) (hrun : free a s (e - s + 1) = .ok outcome)
    (hsafe : FreedSafely a s e outcome) : Handled a s e := by
  have hpw : physicalLimit + 3 < wordSize := by decide
  by_cases hmeet : Disjoint (freeBytes a) (Finset.Icc s e)
  · exact .apart hmeet
  obtain ⟨p, q, rfl, hp, hq⟩ := exists_split_of_sorted (fun i => (a.pool i).start) s chain
    h.starts_sorted
  rcases List.eq_nil_or_concat p with rfl | ⟨l, x, rfl⟩
  · -- Every entry starts at or above `s`: the round is made at the first one.
    cases q with
    | nil => exact absurd rfl hne
    | cons x r =>
      have hx := hq x (by simp)
      have hxx := (a.pool x).start_le_stop
      exact handled_at_first h hse (by omega) (by omega) hmeet
        (freeStep_first h.addressChain hx (by omega)) hrun hsafe
  · -- `x` is the last entry that starts below `s`.
    rw [List.concat_eq_append] at *
    have hx := hp x (by simp)
    rw [List.append_assoc] at h
    have hentry := h.isEntry
    by_cases hin : e ≤ (a.pool x).stop
    · exact .inside x hentry (by omega) hin
    by_cases hs : (a.pool x).stop < s
    · exact handled_above h hse (by omega) hs hq hmeet hrun hsafe
    by_cases hlast : q ≠ [] ∨ (a.pool x).stop ≤ s
    · cases l with
      | nil =>
        exact handled_at_first h hse (by omega) (by omega) hmeet
          (freeStep_behind (l := []) h.addressChain hp hq hlast (by omega)) hrun hsafe
      | cons y ys =>
        exact (not_safe_past_later h (by simp) hse (by omega) hx (by omega) (by omega) hlast hrun
          hsafe).elim
    · obtain ⟨hnil, hstop⟩ := not_or.1 hlast
      rw [not_not] at hnil
      subst hnil
      cases l with
      | nil =>
        exact handled_at_first h hse (by omega) (by omega) hmeet
          (freeStep_insideOnly h.addressChain hx (by omega) (by omega)) hrun hsafe
      | cons y ys =>
        refine .insideLast x hentry ?_ h.addressChain.linked.links.2 hx (by omega) (by omega)
        simp [h.addressChain.isFirstEntry_eq]

end Negative

/-! ## Runs of handled requests -/

/-- Requests within physical memory, in which a freed range is one of the handled ones. -/
def InBoundsHandled (a : MemoryAllocator) : Request → Prop
  | .free start size =>
    0 < size ∧ start + size ≤ physicalLimit ∧ Handled a start (start + size - 1)
  | request => InBounds a request

/-- What every handled range may rely on, also when nothing is free. -/
theorem free_handled {a : MemoryAllocator} {chain : List Nat} {lists : Nat → List Nat} {s e : Nat}
    (h : Rep a chain lists) (hse : s ≤ e) (he : e < physicalLimit) (hh : Handled a s e) :
    ∃ outcome, free a s (e - s + 1) = .ok outcome ∧ Frees a s e outcome := by
  by_cases hne : chain = []
  · subst hne
    have hempty : freeBytes a = ∅ := by rw [h.addressChain.freeBytes_eq]; rfl
    exact free_spec h hse he (by rw [hempty]; exact Finset.disjoint_empty_left _)
  · exact free_of_handled h hne hse he hh

/-- A handled request keeps the representation invariant. -/
theorem exec_wellFormed_handled {a b : MemoryAllocator} {request : Request} {reply : Reply}
    (h : WellFormed a) (hb : InBoundsHandled a request) (hrun : exec a request = .ok (reply, b)) :
    WellFormed b := by
  have hother : InBounds a request → WellFormed b := fun hin => by
    obtain ⟨reply', b', hok, hwf⟩ := exec_wellFormed h hin
    obtain ⟨-, rfl⟩ := Prod.mk.inj (Except.ok.inj (hrun.symm.trans hok))
    exact hwf
  cases request with
  | free start size =>
    obtain ⟨chain, lists, h⟩ := h
    obtain ⟨hpos, hle, hh⟩ := hb
    obtain ⟨outcome, hok, hfrees⟩ := free_handled h (by omega) (by omega) hh
    have hsize : start + size - 1 - start + 1 = size := by omega
    rw [hsize] at hok
    simp only [exec, hok, ok_bind] at hrun
    cases hrun
    exact hfrees.wellFormed
  | allocate size alignOrder => exact hother hb
  | allocateBelow size alignOrder addressLimit => exact hother hb
  | reserve start size alignOrder => exact hother hb

theorem wellFormed_of_run_handled {labels : List (Request × Reply)} {a : MemoryAllocator}
    (h : Run Initial (Step InBoundsHandled) labels a) : WellFormed a := by
  refine h.invariant (fun a ha => ha ▸ ⟨_, _, rep_new⟩) ?_
  rintro a ⟨request, reply⟩ b ha ⟨hb, hrun⟩
  exact exec_wellFormed_handled ha hb hrun

theorem Frees.freedSafely {a : MemoryAllocator} {s e : Nat} {outcome : Outcome Unit}
    (h : Frees a s e outcome) : FreedSafely a s e outcome where
  wellFormed := h.wellFormed
  card := h.wellFormed.freeSize_eq_card
  ok := h.ok
  error err herr := by rw [h.error err herr]; exact ⟨rfl, rfl⟩

/-- In every state that a run of handled requests reaches, and for every range, `free` keeps its
contract exactly when the range is handled. -/
theorem overlapping_free_iff {labels : List (Request × Reply)} {a : MemoryAllocator}
    (h : Run Initial (Step InBoundsHandled) labels a) (hfree : 0 < a.freeSize) (start size : Nat)
    (hpos : 0 < size) (hle : start + size ≤ physicalLimit) :
    (∃ outcome, free a start size = .ok outcome ∧
        FreedSafely a start (start + size - 1) outcome) ↔
      Handled a start (start + size - 1) := by
  obtain ⟨chain, lists, hrep⟩ := wellFormed_of_run_handled h
  have hne : chain ≠ [] := fun hnil => by
    have := hrep.freeSize_eq_zero.2 hnil
    omega
  have hsize : start + size - 1 - start + 1 = size := by omega
  constructor
  · rintro ⟨outcome, hrun, hsafe⟩
    rw [← hsize] at hrun
    exact handled_of_free hrep hne (by omega) (by omega) hrun hsafe
  · intro hh
    obtain ⟨outcome, hok, hfrees⟩ := free_handled hrep (by omega) (by omega) hh
    rw [hsize] at hok
    exact ⟨outcome, hok, hfrees.freedSafely⟩

theorem disjoint_of_stop_lt {a : MemoryAllocator} {s e : Nat}
    (h : ∀ i < poolSize, (a.pool i).enabled → (a.pool i).stop < s) :
    Disjoint (freeBytes a) (Finset.Icc s e) := by
  rw [Finset.disjoint_left]
  intro y hy hy'
  simp only [freeBytes, Finset.mem_biUnion, Finset.mem_filter, Finset.mem_range,
    Finset.mem_Icc] at hy hy'
  obtain ⟨i, ⟨hi, hen⟩, hiy⟩ := hy
  have := h i hi hen
  omega

/-- A range that starts with the second of two entries is added to the free bytes. -/
theorem overlapping_free_iff_later : ∃ a, Run Initial (Step InBoundsHandled)
      [(.free 0x1000 0x1000, .ok none), (.free 0x3000 0x1000, .ok none)] a ∧
    Handled a 0x3000 0x4fff ∧
    ∃ outcome, free a 0x3000 0x2000 = .ok outcome ∧ FreedSafely a 0x3000 0x4fff outcome := by
  have h₀ : Run Initial (Step InBoundsHandled) [] MemoryAllocator.new := .start rfl
  have h₁ := run_request h₀ (.free 0x1000 0x1000) (.ok none)
    ⟨by decide, by decide, .apart (disjoint_of_stop_lt (by decide +kernel))⟩ (by decide +kernel)
  have h₂ := run_request h₁ (.free 0x3000 0x1000) (.ok none)
    ⟨by decide, by decide, .apart (disjoint_of_stop_lt (by decide +kernel))⟩ (by decide +kernel)
  have hrange : rangeAt (after (after MemoryAllocator.new (.free 0x1000 0x1000))
      (.free 0x3000 0x1000)) 1 = (0x3000, 0x3fff) := by decide +kernel
  have hstart := congrArg Prod.fst hrange
  have hstop := congrArg Prod.snd hrange
  simp only [rangeAt] at hstart hstop
  have hh : Handled (after (after MemoryAllocator.new (.free 0x1000 0x1000))
      (.free 0x3000 0x1000)) 0x3000 0x4fff := by
    refine .startsWithLater 1 (by decide +kernel) (by decide +kernel) hstart.symm (by omega) ?_
    rw [hstop]
    exact disjoint_of_stop_lt (by decide +kernel)
  exact ⟨_, h₂, hh,
    (overlapping_free_iff h₂ (by decide +kernel) 0x3000 0x2000 (by decide) (by decide)).2 hh⟩

/-- With `[0x1000, 0x2000)` as the only free range, freeing `[0x1000, 0x3000)` succeeds and leaves
`free_size` at `0x3000`, although no more than `0x2000` bytes are free. -/
theorem overlapping_free_counted_twice : ∃ a, Run Initial (Step InBounds)
      [(.free 0x1000 0x1000, .ok none)] a ∧ 0 < a.freeSize ∧
    (free a 0x1000 0x2000).map (fun o => (o.1, o.2.freeSize)) = .ok (.ok (), 0x3000) ∧
    ¬∃ outcome, free a 0x1000 0x2000 = .ok outcome ∧ FreedSafely a 0x1000 0x2fff outcome := by
  have h₀ : Run Initial (Step InBounds) [] MemoryAllocator.new := .start rfl
  have h₁ := run_request h₀ (.free 0x1000 0x1000) (.ok none)
    (admissible_first_free _ _ (by decide) (by decide)).1 (by decide +kernel)
  have hcount : (free (after MemoryAllocator.new (.free 0x1000 0x1000)) 0x1000 0x2000).map
      (fun o => (o.1, o.2.freeSize)) = .ok (.ok (), 0x3000) := by decide +kernel
  refine ⟨_, h₁, by decide +kernel, hcount, ?_⟩
  rintro ⟨⟨result, b⟩, hrun, hsafe⟩
  rw [hrun] at hcount
  simp only [Except.map, Except.ok.injEq, Prod.mk.injEq] at hcount
  obtain ⟨rfl, hsize⟩ := hcount
  have hwf : WellFormed (after MemoryAllocator.new (.free 0x1000 0x1000)) := by
    have hb : InBounds MemoryAllocator.new (.free 0x1000 0x1000) :=
      (admissible_first_free _ _ (by decide) (by decide)).1
    obtain ⟨reply, c, hok, hwf⟩ := exec_wellFormed ⟨_, _, rep_new⟩ hb
    rw [after, hok]
    exact hwf
  obtain ⟨chain, lists, hrep⟩ := hwf
  have hmem : 0x1000 ∈ freeBytes (after MemoryAllocator.new (.free 0x1000 0x1000)) := by
    simp only [freeBytes, Finset.mem_biUnion, Finset.mem_filter, Finset.mem_range, Finset.mem_Icc]
    exact ⟨0, by decide +kernel⟩
  refine hsafe.false_of_addsSize hrep (by decide) ?_ ⟨b, rfl, ?_⟩
  · exact Finset.not_disjoint_iff.2 ⟨0x1000, hmem, by simp⟩
  · have hold : (after MemoryAllocator.new (.free 0x1000 0x1000)).freeSize = 0x1000 := by
      decide +kernel
    rw [hsize, hold]

end MiniVisor.Allocator
