import MiniVisor.Allocator.Invariant

/-!
# Taking memory out of the pool

The contract of `define_used_memory` on the entry it works on (`carve_spec`): it takes the requested
bytes, as far as they are in the entry, out of the free bytes and keeps the invariant. The only
error is a split with a full pool, which changes nothing. `defineUsedRange_spec` and
`reserveMemory_spec` lift this to the search by address and to the alignment.
-/

set_option autoImplicit false

namespace MiniVisor.Allocator

open MiniVisor.Lib

theorem getEndAddress_eq {address size : Nat} (h : address + size < wordSize) (hs : 0 < size) :
    getEndAddress address size = .ok (address + size - 1) := by
  simp only [getEndAddress, checkedAdd_eq h, ok_bind]
  exact checkedSub_eq (by omega)

theorem physicalLimit_lt : physicalLimit < wordSize := by decide

section Carve

variable {a : MemoryAllocator} {l r : List Nat} {lists : Nat → List Nat} {x s e : Nat}

/-- The ranges around an entry of the chain. -/
theorem Rep.split (h : Rep a (l ++ x :: r) lists) :
    Coalesced (l.map (rangeAt a) ++ rangeAt a x :: r.map (rangeAt a)) := by
  have hc := h.coalesced
  rwa [List.map_append, List.map_cons] at hc

theorem Rep.stop_lt {chain : List Nat} (h : Rep a chain lists) (hx : x ∈ chain) :
    (a.pool x).stop < physicalLimit :=
  h.bound (rangeAt a x) (List.mem_map_of_mem hx)

/-- The bytes from `s` to `e` were taken from the entry `x`. What remains of it is in the slots `m`,
in its place in the chain, and all other entries are where they were, in the chain and in the
lists. -/
structure Carved (a : MemoryAllocator) (l : List Nat) (x : Nat) (r : List Nat)
    (lists : Nat → List Nat) (s e : Nat) (m : List Nat) (b : MemoryAllocator)
    (lists' : Nat → List Nat) : Prop where
  rep : Rep b (l ++ (m ++ r)) lists'
  pieces : m.map (rangeAt b) = remainder (rangeAt a x) s e
  range : ∀ i ∉ x :: m, rangeAt b i = rangeAt a i
  lists : SameBut numOfFreeList (x :: m) lists lists'

/-- The ranges of a chain in which the slots `m` replace the entry `x`. -/
theorem map_rangeAt_pieces {a' : MemoryAllocator} {m : List Nat} (hx : x ∉ l ∧ x ∉ r)
    (hnd : (l ++ (m ++ r)).Nodup) (hrange : ∀ i ∉ x :: m, rangeAt a' i = rangeAt a i) :
    (l ++ (m ++ r)).map (rangeAt a') =
      l.map (rangeAt a) ++ (m.map (rangeAt a') ++ r.map (rangeAt a)) := by
  obtain ⟨-, hmr, hlm⟩ := List.nodup_append'.1 hnd
  have hdisj := (List.nodup_append'.1 hmr).2.2
  rw [List.map_append, List.map_append]
  congr 1
  · refine List.map_congr_left fun i hi => hrange i fun hmem => ?_
    rcases List.mem_cons.1 hmem with rfl | him
    · exact hx.1 hi
    · exact hlm hi (List.mem_append_left _ him)
  · congr 1
    refine List.map_congr_left fun i hi => hrange i fun hmem => ?_
    rcases List.mem_cons.1 hmem with rfl | him
    · exact hx.2 hi
    · exact hdisj him hi

/-- The state after an entry was carved: what remains of the entry replaces it in the chain, and
`free_size` goes down by the length. -/
theorem Rep.carved (h : Rep a (l ++ x :: r) lists) (hs : (a.pool x).start ≤ s) (hse : s ≤ e)
    (he : e ≤ (a.pool x).stop) {a' : MemoryAllocator} {m : List Nat}
    {lists' : Nat → List Nat} (hl : Layout a' (l ++ (m ++ r)) lists')
    (hm : m.map (rangeAt a') = remainder (rangeAt a x) s e)
    (hrange : ∀ i ∉ x :: m, rangeAt a' i = rangeAt a i)
    (hlists : SameBut numOfFreeList (x :: m) lists lists') (hfree : a'.freeSize = a.freeSize) :
    ∃ b, finishUsed a' (e - s + 1) = .ok (.ok (), b) ∧ Carved a l x r lists s e m b lists' := by
  have hr : (l ++ (m ++ r)).map (rangeAt a') =
      l.map (rangeAt a) ++ (remainder (rangeAt a x) s e ++ r.map (rangeAt a)) := by
    rw [map_rangeAt_pieces h.addressChain.linked.notMem_split hl.addressChain.linked.nodup hrange,
      hm]
  have hcover := cover_carve h.split hs hse he
  have hcoal := h.split.carve hs hse he
  have htotal : total (l.map (rangeAt a) ++ (remainder (rangeAt a x) s e ++ r.map (rangeAt a))) +
      (e - s + 1) = a.freeSize := by
    have hsub : Finset.Icc s e ⊆ cover (l.map (rangeAt a) ++ rangeAt a x :: r.map (rangeAt a)) := by
      intro y hy
      rw [Finset.mem_Icc] at hy
      refine mem_cover.2 ⟨rangeAt a x, by simp, ?_, ?_⟩
      · exact le_trans hs hy.1
      · exact le_trans hy.2 he
    rw [h.freeSize, List.map_append, List.map_cons]
    exact total_of_cover_sdiff h.split hcoal hse hcover hsub
  refine ⟨{ a' with freeSize := a.freeSize - (e - s + 1) }, ?_, ?_, hm, hrange, hlists⟩
  · simp only [finishUsed, hfree, checkedSub_eq (show e - s + 1 ≤ a.freeSize by omega), ok_bind]
    rfl
  · have hbound : ∀ p ∈ l.map (rangeAt a) ++ (remainder (rangeAt a x) s e ++ r.map (rangeAt a)),
        p.2 < physicalLimit := by
      have hold := h.bound
      rw [List.map_append, List.map_cons] at hold
      have hxp : (rangeAt a x).2 < physicalLimit := hold _ (by simp)
      intro p hp
      simp only [List.mem_append, mem_remainder] at hp
      rcases hp with hp | (⟨hlt, rfl⟩ | ⟨hlt, rfl⟩) | hp
      · exact hold p (List.mem_append_left _ hp)
      · have he' : e ≤ (rangeAt a x).2 := he
        simp only
        omega
      · exact hxp
      · exact hold p (List.mem_append_right _ (List.mem_cons_of_mem _ hp))
    refine ⟨hl.withFreeSize _, ?_, ?_, ?_⟩
    · exact hr ▸ hcoal
    · exact hr ▸ hbound
    · have : a.freeSize - (e - s + 1) = total ((l ++ (m ++ r)).map (rangeAt a')) := by
        rw [hr]
        omega
      exact this

/-- Exactly the bytes from `s` to `e` are no longer free. -/
theorem Carved.freeBytes_eq {m : List Nat} {b : MemoryAllocator} {lists' : Nat → List Nat}
    (hc : Carved a l x r lists s e m b lists') (h : Rep a (l ++ x :: r) lists)
    (hs : (a.pool x).start ≤ s) (hse : s ≤ e) (he : e ≤ (a.pool x).stop) :
    freeBytes b = freeBytes a \ Finset.Icc s e := by
  have hold : freeBytes a = cover (l.map (rangeAt a) ++ rangeAt a x :: r.map (rangeAt a)) := by
    rw [h.addressChain.freeBytes_eq, List.map_append, List.map_cons]
  rw [hc.rep.addressChain.freeBytes_eq,
    map_rangeAt_pieces h.addressChain.linked.notMem_split hc.rep.addressChain.linked.nodup hc.range,
    hc.pieces, cover_carve h.split hs hse he, hold]

/-- The whole entry is taken. -/
theorem Layout.deleteUsed (h : Layout a (l ++ x :: r) lists) :
    Layout (deleteUsed a x) (l ++ r) (unfile lists x) ∧
      (∀ i, rangeAt (Allocator.deleteUsed a x) i = rangeAt a i) ∧
      (Allocator.deleteUsed a x).freeSize = a.freeSize := by
  have hrid : ∀ n, r.head? = some n → (a.pool n).id = n := fun n hn =>
    h.addressChain.id n (by simp [List.mem_of_head? hn])
  have hfirst : Allocator.deleteUsed a x = Allocator.delete (unchainEntryFromFreeList
      { a with firstEntry := if l = [] then r.head? else a.firstEntry } x) x := by
    unfold Allocator.deleteUsed
    rw [h.addressChain.isFirstEntry_eq, h.addressChain.getNextEntry_eq]
    cases l with
    | nil =>
      rcases hr : r.head? with _ | n
      · simp
      · simp [hrid n hr]
    | cons y ys => simp
  rw [hfirst]
  have hframe := unchainFromOrder_frame
    { a with firstEntry := if l = [] then r.head? else a.firstEntry } x
    (sizeToPageOrder (a.pool x).getSize)
  refine ⟨Layout.delete a.firstEntry h rfl, fun i => ?_, ?_⟩
  · rw [(delete_frame _ x).rangeAt, unchainEntryFromFreeList, hframe.rangeAt]
    rfl
  · rw [(delete_frame _ x).freeSize, unchainEntryFromFreeList, hframe.freeSize]

/-- The steps of a split, once the slot for the new entry is known. -/
theorem splitUsed_eq (h : AddressChain a (l ++ x :: r)) {size n : Nat} {a₁ : MemoryAllocator}
    (hs : (a.pool x).start ≤ s - 1) (hs' : 1 ≤ s) (he : s + size ≤ (a.pool x).stop)
    (hw : s + size < wordSize) (hn : createMemoryEntry a = some (n, a₁)) :
    splitUsed a x s size = do
      let b := (a.withNew n (s + size) (a.pool x).stop he).withRange x (a.pool x).start (s - 1) hs
      let c ← chainEntryToFreeList (linkBehind b x n r.head?) x (some (a.pool x).getSize)
      return some (← chainEntryToFreeList c n none) := by
  obtain ⟨-, hnc, rfl⟩ := createMemoryEntry_eq_some h hn
  have hxn : x ≠ n := fun e => hnc (e ▸ by simp)
  have hx₁ : (a.modify n fun _ => freshEntry n).pool x = a.pool x := by
    rw [modify_pool, if_neg hxn]
  have hx₂ : (a.withNew n (s + size) (a.pool x).stop he).pool x = a.pool x := by
    rw [MemoryAllocator.withNew, withRange_pool_of_ne _ _ _ _ hxn, hx₁]
  have hnext : getNextEntry ((a.withNew n (s + size) (a.pool x).stop he).withRange x
      (a.pool x).start (s - 1) hs) x = r.head? := by
    rw [← h.getNextEntry_eq]
    simp only [getNextEntry, withRange_next, hx₂]
  simp only [splitUsed, hn, checkedAdd_eq hw, checkedSub_eq hs', ok_bind, hx₁,
    setRangeAt_eq _ _ he]
  rw [← MemoryAllocator.withNew]
  simp only [hx₂, setRangeAt_eq _ _ hs, ok_bind, hnext]
  rfl

/-- The middle of an entry is taken: the part above it becomes the new entry `n`. -/
theorem Layout.splitUsed (h : Layout a (l ++ x :: r) lists) {size n : Nat} {a₁ : MemoryAllocator}
    (hs : (a.pool x).start < s) (he : s + size ≤ (a.pool x).stop) (hw : s + size < wordSize)
    (hn : createMemoryEntry a = some (n, a₁)) :
    ∃ a' lists', splitUsed a x s size = .ok (some a') ∧ Layout a' (l ++ x :: n :: r) lists' ∧
      a'.freeSize = a.freeSize ∧
      (∀ i, rangeAt a' i = if i = x then ((a.pool x).start, s - 1)
        else if i = n then (s + size, (a.pool x).stop) else rangeAt a i) ∧
      SameBut numOfFreeList [x, n] lists lists' := by
  obtain ⟨hlt, hnc, -⟩ := createMemoryEntry_eq_some h.addressChain hn
  rw [splitUsed_eq h.addressChain (by omega) (by omega) he hw hn]
  set b := (a.withNew n (s + size) (a.pool x).stop he).withRange x (a.pool x).start (s - 1)
    (by omega) with hbdef
  have hb : NewSlot a b n := (newSlot_withNew a n he).withRange x (by omega)
  have hframe := linkBehind_frame b x n r.head?
  have hchain := h.addressChain.linkBehind hb hnc hlt
  generalize hc : linkBehind b x n r.head? = c at hframe hchain
  have hcr : ∀ i, rangeAt c i = if i = x then ((a.pool x).start, s - 1)
      else if i = n then (s + size, (a.pool x).stop) else rangeAt a i := by
    intro i
    rw [hframe.rangeAt, hbdef, withRange_rangeAt, withNew_rangeAt]
  have hlists : FreeLists c lists := hframe.freeLists
    (hb.freeLists h.filing.linked fun o ho hm => hnc ((h.filing.filed.mem o ho n).1 hm).1)
  -- the entry moves to the list of its smaller size, then the new entry is filed
  obtain ⟨d, lists₁, hok₁, hframe₁, hlinks₁, hfil₁, hsame₁⟩ := Filing.rechain (x := x) hlists
    h.filing.filed (by simp) (fun y hy hyx => by
      have hyn : y ≠ n := fun e => hnc (e ▸ hy)
      simp only [sizeOf, getSize_eq_range, hcr, if_neg hyx, if_neg hyn]) (by
      simp only [sizeOf, getSize_eq_range, hcr, if_true]
      simp only [rangeAt]
      omega)
  obtain ⟨hnn, hnp⟩ := hlinks₁ n hnc
  have hsplit : ∀ m : List Nat, l ++ x :: m = (l ++ [x]) ++ m := fun m => by simp
  obtain ⟨a', lists₂, hok₂, hframe₂, hlay, hsame₂⟩ := Layout.insert (l := l ++ [x])
    (r := r) (n := n)
    (hsplit _ ▸ hchain.listFrame hframe₁) (by rw [← hsplit]; exact hfil₁)
    (by rw [hnn, hframe.listNext, hb.listNext, if_pos rfl])
    (by rw [hnp, hframe.listPrev, hb.listPrev, if_pos rfl])
  rw [← hsplit] at hlay
  refine ⟨a', lists₂, ?_, hlay, ?_, fun i => ?_,
    (hsame₁.mono (by simp)).trans (hsame₂.mono (by simp))⟩
  · have hok₁' : chainEntryToFreeList c x (some (a.pool x).getSize) = .ok d := hok₁
    simp only [hc, hok₁', hok₂, ok_bind]
    rfl
  · rw [hframe₂.freeSize, hframe₁.freeSize, hframe.freeSize]
    rfl
  · rw [hframe₂.rangeAt, hframe₁.rangeAt, hcr]

theorem clampSize_eq {stop size : Nat} (hx : s ≤ stop) (hsize : 0 < size)
    (hw : s + size < wordSize) :
    clampSize stop s size = .ok (min stop (s + size - 1) - s + 1) := by
  simp only [clampSize, getEndAddress_eq hw hsize, ok_bind]
  split
  · rw [checkedSub_eq hx]
    show Except.ok (stop - s + 1) = _
    congr 1
    omega
  · show Except.ok size = _
    congr 1
    omega

/-- `define_used_memory` on an entry that holds the bytes from `s` to `e`: they are taken, unless
they are in the middle of the entry and no slot is left for the part above them. -/
theorem carveClamped_carved (h : Rep a (l ++ x :: r) lists) (hs : (a.pool x).start ≤ s)
    (hse : s ≤ e) (hex : e ≤ (a.pool x).stop) :
    (∃ m b lists', carveClamped a x s (e - s + 1) = .ok (.ok (), b) ∧
        Carved a l x r lists s e m b lists') ∨
      (carveClamped a x s (e - s + 1) = .ok (.error .noEntry, a) ∧
        (l ++ x :: r).length = poolSize ∧ (a.pool x).start < s ∧ e < (a.pool x).stop) := by
  have hlim := h.stop_lt (x := x) (by simp)
  have hpw := physicalLimit_lt
  have hlay := h.toLayout
  have hend : getEndAddress s (e - s + 1) = .ok e := by
    rw [getEndAddress_eq (by omega) (by omega)]
    congr 1
    omega
  have hadd : checkedAdd s (e - s + 1) = .ok (e + 1) := by
    rw [checkedAdd_eq (by omega)]
    congr 1
    omega
  simp only [carveClamped, hend, ok_bind, hadd]
  by_cases hst : (a.pool x).start = s
  · rw [if_pos hst]
    left
    by_cases hen : (a.pool x).stop = e
    · -- the whole entry
      rw [if_pos hen]
      obtain ⟨hl, hr, hf⟩ := hlay.deleteUsed
      obtain ⟨b, hok, hc⟩ := h.carved (m := []) hs hse hex hl
        (by simp [remainder, rangeAt, hst, hen]) (fun i _ => hr i)
        (hlay.filing.filed.sameBut_unfile x) hf
      exact ⟨[], b, _, hok, hc⟩
    · -- its lower part
      rw [if_neg hen]
      have hlt : e + 1 ≤ (a.pool x).stop := by omega
      obtain ⟨a', lists', hok, hl, hf, hr, hsame⟩ := hlay.resize hlt (by
        simp only [MemoryEntry.getSize]
        omega)
      have hlt' : e < (a.pool x).stop := hlt
      simp only [resize, ok_bind, setRangeAt_eq _ _ hlt, hok]
      obtain ⟨b, hfin, hc⟩ := h.carved (m := [x]) hs hse hex hl
        (by
          rw [List.map_singleton, hr, if_pos rfl]
          simp [remainder, rangeAt, hst, hlt'])
        (fun i hi => by rw [hr, if_neg fun hix => hi (by simp [hix])])
        (hsame.mono (by simp)) hf
      exact ⟨[x], b, lists', hfin, hc⟩
  · rw [if_neg hst]
    have hlt : (a.pool x).start < s := by omega
    have hsub : checkedSub s 1 = .ok (s - 1) := checkedSub_eq (by omega)
    have hle : (a.pool x).start ≤ s - 1 := by omega
    by_cases hen : (a.pool x).stop = e
    · -- its upper part; the source treats the last byte alone in a branch of its own
      left
      obtain ⟨a', lists', hok, hl, hf, hr, hsame⟩ := hlay.resize hle (by
        simp only [MemoryEntry.getSize]
        omega)
      obtain ⟨b, hfin, hc⟩ := h.carved (m := [x]) hs hse hex hl
        (by
          rw [List.map_singleton, hr, if_pos rfl]
          simp [remainder, rangeAt, hlt, hen])
        (fun i hi => by rw [hr, if_neg fun hix => hi (by simp [hix])])
        (hsame.mono (by simp)) hf
      refine ⟨[x], b, lists', ?_, hc⟩
      by_cases hss : (a.pool x).stop = s
      · have hold : ((a.withRange x (a.pool x).start (s - 1) hle).pool x).getSize + 1 =
            (a.pool x).getSize := by
          simp only [MemoryEntry.getSize, withRange_self_start, withRange_self_stop]
          omega
        have hone : e - s + 1 = 1 := by omega
        rw [if_pos hss, if_neg (by omega)]
        simp only [hsub, ok_bind, setRangeAt_eq _ _ hle, hold, hok]
        exact hfin
      · rw [if_neg hss, if_pos hen]
        simp only [resize, hsub, ok_bind, setRangeAt_eq _ _ hle, hok]
        exact hfin
    · rw [if_neg (by omega), if_neg hen]
      have hlt' : s + (e - s + 1) ≤ (a.pool x).stop := by omega
      have hlt'' : e < (a.pool x).stop := by omega
      rcases hcreate : createMemoryEntry a with _ | ⟨n, a₁⟩
      · right
        refine ⟨?_, (createMemoryEntry_eq_none hlay.addressChain).1 hcreate, hlt, hlt''⟩
        simp only [splitUsed, hcreate, ok_bind]
        rfl
      · left
        obtain ⟨-, hnc, -⟩ := createMemoryEntry_eq_some hlay.addressChain hcreate
        have hnx : n ≠ x := fun hnx => hnc (by simp [hnx])
        obtain ⟨a', lists', hok, hl, hf, hr, hsame⟩ := hlay.splitUsed hlt hlt' (by omega) hcreate
        simp only [hok, ok_bind]
        obtain ⟨b, hfin, hc⟩ := h.carved (m := [x, n]) hs hse hex hl
          (by
            have hstop : s + (e - s + 1) = e + 1 := by omega
            rw [List.map_cons, List.map_singleton, hr, hr, if_pos rfl, if_neg hnx,
              if_pos rfl, hstop]
            simp [remainder, rangeAt, hlt, hlt''])
          (fun i hi => by
            rw [hr, if_neg fun hix => hi (by simp [hix]), if_neg fun hin => hi (by simp [hin])])
          (hsame.mono (by simp)) hf
        exact ⟨[x, n], b, lists', hfin, hc⟩

/-- The contract of `define_used_memory` on an entry that holds the bytes from `s` to `e`. -/
theorem carveClamped_spec (h : Rep a (l ++ x :: r) lists) (hs : (a.pool x).start ≤ s)
    (hse : s ≤ e) (hex : e ≤ (a.pool x).stop) :
    (∃ b, carveClamped a x s (e - s + 1) = .ok (.ok (), b) ∧ WellFormed b ∧
        freeBytes b = freeBytes a \ Finset.Icc s e) ∨
      (carveClamped a x s (e - s + 1) = .ok (.error .noEntry, a) ∧
        (l ++ x :: r).length = poolSize) := by
  rcases carveClamped_carved h hs hse hex with ⟨m, b, lists', hok, hc⟩ | ⟨hok, hfull, -, -⟩
  · exact Or.inl ⟨b, hok, ⟨_, lists', hc.rep⟩, hc.freeBytes_eq h hs hse hex⟩
  · exact Or.inr ⟨hok, hfull⟩

/-- The contract of `define_used_memory` on an entry that holds its first byte: the bytes from `s`
on, up to the end of the request or of the entry, are taken. -/
theorem carve_spec (h : Rep a (l ++ x :: r) lists) {size : Nat} (hs : (a.pool x).start ≤ s)
    (hx : s ≤ (a.pool x).stop) (hsize : 0 < size) (hw : s + size < wordSize) :
    (∃ b, carve a x s size = .ok (.ok (), b) ∧ WellFormed b ∧
        freeBytes b = freeBytes a \ Finset.Icc s (min (a.pool x).stop (s + size - 1))) ∨
      (carve a x s size = .ok (.error .noEntry, a) ∧ (l ++ x :: r).length = poolSize) := by
  simp only [carve, clampSize_eq hx hsize hw, ok_bind]
  exact carveClamped_spec h hs (by omega) (by omega)

end Carve

/-! ## The entry that holds an address -/

section Search

variable {a : MemoryAllocator} {chain : List Nat} {lists : Nat → List Nat}

/-- The loop of the search returns the entry that holds the address, if an entry from here on
does. -/
theorem searchContaining_eq (h : AddressChain a chain) (hc : Coalesced (chain.map (rangeAt a)))
    (address : Nat) :
    ∀ (r l : List Nat) (x fuel : Nat), chain = l ++ x :: r → r.length < fuel →
      ∃ res, searchContaining a address fuel x = .ok res ∧
        (∀ y, res = some y → y ∈ x :: r ∧ (a.pool y).start ≤ address ∧ address ≤ (a.pool y).stop) ∧
        (res = none → ∀ y ∈ x :: r, ¬((a.pool y).start ≤ address ∧ address ≤ (a.pool y).stop)) := by
  intro r
  induction r with
  | nil =>
    intro l x fuel hs hfuel
    obtain ⟨fuel, rfl⟩ : ∃ k, fuel = k + 1 := ⟨fuel - 1, by simp at hfuel; omega⟩
    simp only [searchContaining, (hs ▸ h : AddressChain a (l ++ x :: [])).getNextEntry_eq,
      List.head?_nil]
    split
    · refine ⟨none, rfl, by simp, fun _ y hy => ?_⟩
      obtain rfl := List.mem_singleton.1 hy
      omega
    · split
      · refine ⟨some x, rfl, ?_, by simp⟩
        rintro y ⟨⟩
        exact ⟨List.mem_cons_self, by omega⟩
      · refine ⟨none, rfl, by simp, fun _ y hy => ?_⟩
        obtain rfl := List.mem_singleton.1 hy
        omega
  | cons z r ih =>
    intro l x fuel hs hfuel
    obtain ⟨fuel, rfl⟩ : ∃ k, fuel = k + 1 := ⟨fuel - 1, by simp at hfuel; omega⟩
    simp only [searchContaining, (hs ▸ h : AddressChain a (l ++ x :: z :: r)).getNextEntry_eq,
      List.head?_cons]
    split
    · obtain ⟨res, hok, hsome, hnone⟩ := ih (l ++ [x]) z fuel (by rw [hs]; simp)
        (by simpa using hfuel)
      refine ⟨res, hok, fun y hy => ?_, fun hn y hy => ?_⟩
      · obtain ⟨hyr, hya⟩ := hsome y hy
        exact ⟨List.mem_cons_of_mem _ hyr, hya⟩
      · rcases List.mem_cons.1 hy with rfl | hy
        · omega
        · exact hnone hn y hy
    · split
      · refine ⟨some x, rfl, ?_, by simp⟩
        rintro y ⟨⟩
        exact ⟨List.mem_cons_self, by omega⟩
      · -- the address is below this entry, and the later entries are above it
        refine ⟨none, rfl, by simp, fun _ y hy => ?_⟩
        rcases List.mem_cons.1 hy with rfl | hyr
        · omega
        · rw [hs, List.map_append, List.map_cons] at hc
          have := hc.around.2.2 (rangeAt a y) (List.mem_map_of_mem hyr)
          have := (a.pool x).start_le_stop
          simp only [rangeAt] at *
          omega

/-- `search_entry_containing_address_mut` finds the entry of every free byte. -/
theorem searchEntryContainingAddress_spec (h : Rep a chain lists) (address : Nat) :
    ∃ res, searchEntryContainingAddress a address = .ok res ∧
      (∀ x, res = some x → x ∈ chain ∧ (a.pool x).start ≤ address ∧ address ≤ (a.pool x).stop) ∧
      (res = none → address ∉ freeBytes a) := by
  have hfree : (∀ y ∈ chain, ¬((a.pool y).start ≤ address ∧ address ≤ (a.pool y).stop)) →
      address ∉ freeBytes a := by
    intro hall hmem
    rw [h.addressChain.freeBytes_eq, mem_cover] at hmem
    obtain ⟨p, hp, hpa⟩ := hmem
    obtain ⟨y, hy, rfl⟩ := List.mem_map.1 hp
    exact hall y hy hpa
  simp only [searchEntryContainingAddress, h.addressChain.firstEntry_eq]
  cases hch : chain with
  | nil => exact ⟨none, rfl, by simp, fun _ => hfree (by simp [hch])⟩
  | cons x r =>
    have hlen := h.addressChain.length_le
    obtain ⟨res, hok, hsome, hnone⟩ := searchContaining_eq h.addressChain h.coalesced
      address r [] x poolSize hch (by rw [hch] at hlen; simpa using hlen)
    refine ⟨res, hok, hsome, fun hn => hfree ?_⟩
    rw [hch]
    exact hnone hn

end Search

/-! ## Reservation -/

section Reserve

variable {a : MemoryAllocator} {chain : List Nat} {lists : Nat → List Nat}

theorem Rep.freeBytes_lt (h : Rep a chain lists) : ∀ y ∈ freeBytes a, y < physicalLimit := by
  intro y hy
  rw [h.addressChain.freeBytes_eq, mem_cover] at hy
  obtain ⟨p, hp, hpy⟩ := hy
  exact lt_of_le_of_lt hpy.2 (h.bound p hp)

theorem Rep.freeSize_le (h : Rep a chain lists) : a.freeSize ≤ physicalLimit := by
  rw [h.freeSize_eq_card]
  have hsub : freeBytes a ⊆ Finset.range physicalLimit := fun y hy =>
    Finset.mem_range.2 (h.freeBytes_lt y hy)
  simpa using Finset.card_le_card hsub

/-- A request either fails and changes nothing, or takes the bytes from `s` on, up to the end of
the request or of the entry that holds `s`. -/
structure TakesFrom (a : MemoryAllocator) (s size : Nat) (outcome : Outcome Unit) : Prop where
  wellFormed : WellFormed outcome.2
  ok : outcome.1 = .ok () → 0 < size ∧ ∃ i < poolSize, (a.pool i).enabled ∧
    (a.pool i).start ≤ s ∧ s ≤ (a.pool i).stop ∧
    freeBytes outcome.2 = freeBytes a \ Finset.Icc s (min (a.pool i).stop (s + size - 1))
  error : ∀ err, outcome.1 = .error err → outcome.2 = a

theorem TakesFrom.of_error (h : Rep a chain lists) (s size : Nat) (err : MemoryError) :
    TakesFrom a s size (.error err, a) :=
  ⟨⟨chain, lists, h⟩, by simp, fun _ _ => rfl⟩

/-- `define_used_memory` without alignment, on an entry that holds the first byte. -/
theorem carve_takesFrom (h : Rep a chain lists) {x s size : Nat} (hx : x ∈ chain)
    (hs : (a.pool x).start ≤ s) (hxs : s ≤ (a.pool x).stop) (hsize : 0 < size)
    (hw : s + size < wordSize) :
    ∃ outcome, carve a x s size = .ok outcome ∧ TakesFrom a s size outcome := by
  obtain ⟨l, r, rfl⟩ := List.append_of_mem hx
  obtain ⟨hlt, hen⟩ := (h.addressChain.mem x).1 hx
  rcases carve_spec h hs hxs hsize hw with ⟨b, hok, hwf, hb⟩ | ⟨hok, -⟩
  · exact ⟨_, hok, hwf, fun _ => ⟨hsize, x, hlt, hen, hs, hxs, hb⟩, by simp⟩
  · exact ⟨_, hok, .of_error h s size _⟩

theorem defineUsedRange_spec (h : Rep a chain lists) {s : Nat} (hs : s ≤ physicalLimit)
    (size : Nat) :
    ∃ outcome, defineUsedRange a s size none = .ok outcome ∧ TakesFrom a s size outcome := by
  unfold defineUsedRange
  split
  · exact ⟨_, rfl, .of_error h s size _⟩
  · split
    · exact ⟨_, rfl, .of_error h s size _⟩
    · have hle := h.freeSize_le
      have hpw : physicalLimit + physicalLimit < wordSize := by decide
      obtain ⟨res, hok, hsome, -⟩ := searchEntryContainingAddress_spec h s
      simp only [hok, ok_bind]
      cases res with
      | none => exact ⟨_, rfl, .of_error h s size _⟩
      | some x =>
        obtain ⟨hx, hxs⟩ := hsome x rfl
        exact carve_takesFrom h hx hxs.1 hxs.2 (by omega) (by omega)

/-- The range that a reservation with an alignment takes. -/
def alignRange (start size alignOrder : Nat) : Nat × Nat :=
  let alignedStart := maskAddress start (2 ^ alignOrder)
  (alignedStart,
    maskAddress (size + (start - alignedStart) - 1) (2 ^ alignOrder) + 2 ^ alignOrder)

theorem maskAddress_le (address alignSize : Nat) : maskAddress address alignSize ≤ address :=
  Nat.div_mul_le_self _ _

theorem lt_maskAddress_add {alignSize : Nat} (address : Nat) (h : 0 < alignSize) :
    address < maskAddress address alignSize + alignSize := by
  have := Nat.div_add_mod' address alignSize
  have := Nat.mod_lt address h
  unfold maskAddress
  omega

/-- Without alignment the range is the requested one. -/
theorem alignRange_zero (start size : Nat) (hs : 0 < size) :
    alignRange start size 0 = (start, size) := by
  simp only [alignRange, maskAddress, pow_zero, Nat.div_one, Nat.mul_one]
  ext
  · rfl
  · show size + (start - start) - 1 + 1 = size
    omega

theorem alignAddressAndSize_eq (start size : Nat) {alignOrder : Nat} (hs : 0 < size)
    (hstart : start ≤ physicalLimit) (hsize : size ≤ physicalLimit) (ho : alignOrder < 64) :
    alignAddressAndSize start size alignOrder = .ok (alignRange start size alignOrder) := by
  have hpow : 2 ^ alignOrder ≤ 2 ^ 63 := Nat.pow_le_pow_right (by decide) (by omega)
  have hlim : physicalLimit + physicalLimit + 2 ^ 63 < wordSize := by decide
  have h1 := maskAddress_le (size + (start - maskAddress start (2 ^ alignOrder)) - 1)
    (2 ^ alignOrder)
  simp only [alignAddressAndSize, shiftOne, if_pos ho, ok_bind]
  rw [checkedAdd_eq (by omega), ok_bind, checkedSub_eq (by omega), ok_bind,
    checkedAdd_eq (by omega)]
  rfl

/-- The contract of `reserve_memory`. -/
theorem reserveMemory_spec (h : Rep a chain lists) {start size alignOrder : Nat}
    (hs : start + size ≤ physicalLimit) (ho : alignOrder < 64) :
    ∃ outcome, reserveMemory a start size alignOrder = .ok outcome ∧
      TakesFrom a (alignRange start size alignOrder).1 (alignRange start size alignOrder).2
        outcome := by
  unfold reserveMemory defineUsedMemory
  split
  · exact ⟨_, rfl, .of_error h _ _ _⟩
  · split
    · exact ⟨_, rfl, .of_error h _ _ _⟩
    · have hle := h.freeSize_le
      have hmask := maskAddress_le start (2 ^ alignOrder)
      split
      · simp only [alignAddressAndSize_eq start size (by omega) (by omega)
          (by omega) ho, ok_bind]
        exact defineUsedRange_spec h (show maskAddress start (2 ^ alignOrder) ≤ _ by omega) _
      · rename_i h0
        rw [not_not] at h0
        rw [h0, alignRange_zero start size (by omega)]
        exact defineUsedRange_spec h (by omega) size

end Reserve

end MiniVisor.Allocator
