import MiniVisor.Allocator.Used

/-!
# Giving memory back

The contract of `define_free_memory` for a range that is not free yet (`free_spec`): the range is
joined with the free bytes and the invariant is kept, or the pool is full and nothing changes. The
paths of the source are the growth of an entry at either end, the merge of the two entries around
the range, and a new entry behind the selected one or before the first one; on the merge path the
lists are out of order while the entry has grown and is still filed under its old size
(`Layout.bridge`).
-/

set_option autoImplicit false

namespace MiniVisor.Allocator

open MiniVisor.Lib

/-! ## The entry before an address -/

section Search

variable {a : MemoryAllocator} {chain : List Nat} {address : Nat}

/-- The loop of the search stops at the first entry that does not start below the address. -/
theorem searchPrevious_before (h : AddressChain a chain) {y : Nat} {q : List Nat}
    (hy : address ≤ (a.pool y).start) :
    ∀ (p l : List Nat) (fuel : Nat), chain = l ++ (p ++ y :: q) → p.length < fuel →
      (∀ i ∈ p, (a.pool i).start < address) →
      ∀ x, (p ++ y :: q).head? = some x →
        searchPrevious a address fuel x = .ok (l ++ p).getLast? := by
  intro p
  induction p with
  | nil =>
    intro l fuel hs hfuel _ x hx
    obtain ⟨fuel, rfl⟩ : ∃ k, fuel = k + 1 := ⟨fuel - 1, by simp at hfuel; omega⟩
    simp only [List.nil_append, List.head?_cons, Option.some.injEq] at hx hs
    subst hx
    rw [hs] at h
    simp only [searchPrevious, if_neg (not_lt.2 hy), h.getPrevEntry_eq, List.append_nil]
  | cons z p ih =>
    intro l fuel hs hfuel hlt x hx
    obtain ⟨fuel, rfl⟩ : ∃ k, fuel = k + 1 := ⟨fuel - 1, by simp at hfuel; omega⟩
    simp only [List.cons_append, List.head?_cons, Option.some.injEq] at hx
    subst hx
    obtain ⟨t, ht⟩ : ∃ t, (p ++ y :: q).head? = some t := by
      cases p <;> simp
    have hnext : getNextEntry a z = (p ++ y :: q).head? :=
      (hs ▸ h : AddressChain a (l ++ z :: (p ++ y :: q))).getNextEntry_eq
    simp only [searchPrevious, if_pos (hlt z List.mem_cons_self), hnext, ht]
    rw [ih (l ++ [z]) fuel (by rw [hs]; simp) (by simpa using hfuel)
      (fun i hi => hlt i (List.mem_cons_of_mem _ hi)) t ht]
    simp

/-- When every entry starts below the address, the loop stops at the last entry. -/
theorem searchPrevious_last (h : AddressChain a chain) {y : Nat}
    (hy : (a.pool y).start < address) :
    ∀ (p l : List Nat) (fuel : Nat), chain = l ++ (p ++ [y]) → p.length < fuel →
      (∀ i ∈ p, (a.pool i).start < address) →
      ∀ x, (p ++ [y]).head? = some x →
        searchPrevious a address fuel x =
          .ok (if (a.pool y).stop ≤ address then some y else (l ++ p).getLast?) := by
  intro p
  induction p with
  | nil =>
    intro l fuel hs hfuel _ x hx
    obtain ⟨fuel, rfl⟩ : ∃ k, fuel = k + 1 := ⟨fuel - 1, by simp at hfuel; omega⟩
    simp only [List.nil_append, List.head?_cons, Option.some.injEq] at hx hs
    subst hx
    rw [hs] at h
    simp only [searchPrevious, if_pos hy, h.getNextEntry_eq, List.head?_nil, h.getPrevEntry_eq,
      List.append_nil]
    split <;> rfl
  | cons z p ih =>
    intro l fuel hs hfuel hlt x hx
    obtain ⟨fuel, rfl⟩ : ∃ k, fuel = k + 1 := ⟨fuel - 1, by simp at hfuel; omega⟩
    simp only [List.cons_append, List.head?_cons, Option.some.injEq] at hx
    subst hx
    obtain ⟨t, ht⟩ : ∃ t, (p ++ [y]).head? = some t := by
      cases p <;> simp
    have hnext : getNextEntry a z = (p ++ [y]).head? :=
      (hs ▸ h : AddressChain a (l ++ z :: (p ++ [y]))).getNextEntry_eq
    simp only [searchPrevious, if_pos (hlt z List.mem_cons_self), hnext, ht]
    rw [ih (l ++ [z]) fuel (by rw [hs]; simp) (by simpa using hfuel)
      (fun i hi => hlt i (List.mem_cons_of_mem _ hi)) t ht]
    simp

/-- `search_entry_previous_address_mut` when an entry starts at or above the address. -/
theorem searchEntryPreviousAddress_before {p q : List Nat} {y : Nat}
    (h : AddressChain a (p ++ y :: q)) (hp : ∀ i ∈ p, (a.pool i).start < address)
    (hy : address ≤ (a.pool y).start) :
    searchEntryPreviousAddress a address = .ok p.getLast? := by
  have hlen := h.length_le
  obtain ⟨x, hx⟩ : ∃ x, (p ++ y :: q).head? = some x := by
    cases p <;> simp
  simp only [searchEntryPreviousAddress, h.firstEntry_eq, hx]
  simpa using searchPrevious_before h hy p [] poolSize rfl (by simp at hlen; omega) hp x hx

/-- `search_entry_previous_address_mut` when every entry starts below the address. -/
theorem searchEntryPreviousAddress_last {p : List Nat} {y : Nat}
    (h : AddressChain a (p ++ [y])) (hp : ∀ i ∈ p, (a.pool i).start < address)
    (hy : (a.pool y).start < address) :
    searchEntryPreviousAddress a address =
      .ok (if (a.pool y).stop ≤ address then some y else p.getLast?) := by
  have hlen := h.length_le
  obtain ⟨x, hx⟩ : ∃ x, (p ++ [y]).head? = some x := by
    cases p <;> simp
  simp only [searchEntryPreviousAddress, h.firstEntry_eq, hx]
  simpa using searchPrevious_last h hy p [] poolSize rfl (by simp at hlen; omega) hp x hx

end Search

/-! ## The steps of one round -/

section Steps

variable {a : MemoryAllocator} {x s e : Nat}

theorem growUp_of_ne {after : Nat} (h : after ≠ s) : growUp a x s e after = .ok (false, a) := by
  simp only [growUp, if_neg h]
  rfl

theorem growUp_of_eq {after : Nat} (h : after = s) (hs : (a.pool x).start ≤ e) :
    growUp a x s e after = .ok (true, a.withRange x (a.pool x).start e hs) := by
  simp only [growUp, if_pos h, setRangeAt_eq _ _ hs, ok_bind]
  rfl

theorem growDown_of_eq (hf : (a.pool x).isFirstEntry = true) (he : e + 1 < wordSize)
    (hs : s ≤ (a.pool x).stop) (heq : (a.pool x).start = e + 1) :
    growDown a x s e = .ok (true, a.withRange x s (a.pool x).stop hs) := by
  simp only [growDown, hf, if_true, checkedAdd_eq he, ok_bind, setRangeAt_eq _ _ hs, if_pos heq]
  rfl

theorem growDown_of_ne (he : e + 1 < wordSize) (hne : (a.pool x).start ≠ e + 1) :
    growDown a x s e = .ok (false, a) := by
  simp only [growDown, checkedAdd_eq he, ok_bind, if_neg hne]
  split <;> rfl

theorem growNext_of_ne (he : e + 1 < wordSize) (hne : (a.pool x).start ≠ e + 1) :
    growNext a x s e = .ok (false, a) := by
  simp only [growNext, checkedAdd_eq he, ok_bind, if_neg hne]
  rfl

theorem growNext_of_eq (he : e + 1 < wordSize) (heq : (a.pool x).start = e + 1)
    (hs : s ≤ (a.pool x).stop) {b : MemoryAllocator}
    (hok : chainEntryToFreeList (a.withRange x s (a.pool x).stop hs) x
      (some (a.pool x).getSize) = .ok b) :
    growNext a x s e = .ok (true, b) := by
  simp only [growNext, checkedAdd_eq he, ok_bind, if_pos heq, resize, setRangeAt_eq _ _ hs, hok]
  rfl

/-- Entries that do not touch are not merged. -/
theorem mergeNext_of_apart (x : Nat) {z : Nat} (after : Nat) (processed : Bool)
    (he : (a.pool x).stop + 1 < wordSize) (hne : (a.pool z).start ≠ (a.pool x).stop + 1)
    (hafter : after < (a.pool z).start) : mergeNext a x z after processed = .ok a := by
  simp only [mergeNext, checkedAdd_eq he, ok_bind]
  rw [if_neg]
  · rfl
  · rintro (h | ⟨-, h⟩)
    · exact hne h
    · omega

/-- A next entry away from the range and from the entry plays no part. -/
theorem freeWithNext_of_apart {z size oldSize after : Nat} {processed : Bool}
    (he : e + 1 < wordSize) (hx : (a.pool x).stop + 1 < wordSize) (hs : s < (a.pool z).start)
    (hne : (a.pool z).start ≠ e + 1) (hne' : (a.pool z).start ≠ (a.pool x).stop + 1)
    (hafter : after < (a.pool z).start) :
    freeWithNext a x z s e size oldSize after processed =
      if processed then finishGrown a x size oldSize
      else insertWithNext a x z s e size oldSize := by
  simp only [freeWithNext, if_neg (not_le.2 hs), growNext_of_ne he hne, ok_bind, Bool.or_false,
    mergeNext_of_apart x after processed hx hne' hafter]

end Steps

/-! ## The state after a round -/

section Freed

variable {a a' : MemoryAllocator} {chain chain' : List Nat} {lists lists' : Nat → List Nat}
  {s e lo hi : Nat} {P M Q : List (Nat × Nat)}

/-- The state after the range was joined with the ranges `M` of the chain into one. -/
theorem Rep.joined (h : Rep a chain lists) (hse : s ≤ e) (he : e < physicalLimit)
    (hdisj : Disjoint (freeBytes a) (Finset.Icc s e))
    (hold : chain.map (rangeAt a) = P ++ (M ++ Q)) (hl : Layout a' chain' lists')
    (hnew : chain'.map (rangeAt a') = P ++ ([(lo, hi)] ++ Q))
    (hcov : Finset.Icc lo hi = cover M ∪ Finset.Icc s e) (hP : ∀ p ∈ P, p.2 + 1 < lo)
    (hQ : ∀ q ∈ Q, hi + 1 < q.1) (hsize : a'.freeSize = a.freeSize + (e - s + 1)) :
    WellFormed a' ∧ freeBytes a' = freeBytes a ∪ Finset.Icc s e := by
  have hlohi : lo ≤ hi := by
    have hmem : s ∈ Finset.Icc lo hi := by
      rw [hcov]
      simp [hse]
    rw [Finset.mem_Icc] at hmem
    omega
  have hcoal : Coalesced (P ++ (M ++ Q)) := hold ▸ h.coalesced
  have hcoal' : Coalesced (P ++ ([(lo, hi)] ++ Q)) := by
    refine hcoal.replace (coalesced_singleton.2 hlohi) ?_ ?_
    · intro p hp q hq
      obtain rfl := List.mem_singleton.1 hq
      exact hP p hp
    · intro q hq p hp
      obtain rfl := List.mem_singleton.1 hq
      exact hQ p hp
  have hbytes : freeBytes a = cover (P ++ (M ++ Q)) := by
    rw [h.addressChain.freeBytes_eq, hold]
  have hcover : cover (P ++ ([(lo, hi)] ++ Q)) = cover (P ++ (M ++ Q)) ∪ Finset.Icc s e := by
    have hone : cover [(lo, hi)] = Finset.Icc lo hi := by simp [cover]
    simp only [cover_append, hone, hcov]
    ext y
    simp only [Finset.mem_union]
    tauto
  have hbytes' : freeBytes a' = freeBytes a ∪ Finset.Icc s e := by
    rw [hl.addressChain.freeBytes_eq, hnew, hcover, hbytes]
  refine ⟨⟨chain', lists', hl, ?_, ?_, ?_⟩, hbytes'⟩
  · rw [hnew]
    exact hcoal'
  · -- the joined range ends where a range of `M` ends or where the freed range ends
    have hhi : hi < physicalLimit := by
      have hmem : hi ∈ cover M ∪ Finset.Icc s e := by
        rw [← hcov]
        simp [hlohi]
      rcases Finset.mem_union.1 hmem with hm | hm
      · obtain ⟨p, hp, hph⟩ := mem_cover.1 hm
        have := h.bound p (by rw [hold]; simp [hp])
        omega
      · rw [Finset.mem_Icc] at hm
        omega
    intro p hp
    rw [hnew] at hp
    simp only [List.mem_append, List.mem_singleton] at hp
    rcases hp with hp | rfl | hp
    · exact h.bound p (by rw [hold]; simp [hp])
    · exact hhi
    · exact h.bound p (by rw [hold]; simp [hp])
  · have htotal := total_of_cover_union hcoal hcoal' hse hcover (hbytes ▸ hdisj)
    rw [hsize, h.freeSize, hold, hnew, htotal]

end Freed

/-! ## An entry grows -/

section Grow

variable {a b : MemoryAllocator} {l r : List Nat} {lists : Nat → List Nat} {x z s e size : Nat}

theorem finishGrown_eq {oldSize : Nat} (hw : b.freeSize + size < wordSize) {c : MemoryAllocator}
    (hok : chainEntryToFreeList { b with freeSize := b.freeSize + size } x (some oldSize) = .ok c) :
    finishGrown b x size oldSize = .ok (.done (.ok (), c)) := by
  simp only [finishGrown, checkedAdd_eq hw, ok_bind, hok]
  rfl

/-- The entry itself grows, at either end. -/
theorem Layout.grow (size : Nat) (h : Layout a (l ++ x :: r) lists) {lo hi : Nat} (hlh : lo ≤ hi)
    (hne : (a.pool x).getSize ≠ hi - lo + 1) (hw : a.freeSize + size < wordSize) :
    ∃ b lists', finishGrown (a.withRange x lo hi hlh) x size (a.pool x).getSize =
        .ok (.done (.ok (), b)) ∧ Layout b (l ++ x :: r) lists' ∧ b.freeSize = a.freeSize + size ∧
      (l ++ x :: r).map (rangeAt b) = l.map (rangeAt a) ++ (lo, hi) :: r.map (rangeAt a) := by
  obtain ⟨b, lists', hok, hl, hf, hr, -⟩ :=
    (h.withFreeSize (a.freeSize + size)).resize (x := x) hlh hne
  exact ⟨b, lists', finishGrown_eq (b := a.withRange x lo hi hlh) hw hok, hl, hf,
    map_rangeAt_update h.addressChain.linked.notMem_split fun i _ => hr i⟩

/-- The next entry grows downwards, and the entry stays as it is. -/
theorem Layout.widenNext (size : Nat) (h : Layout a (l ++ x :: z :: r) lists)
    (he : e + 1 < wordSize)
    (heq : (a.pool z).start = e + 1) (hs : s ≤ e) (hw : a.freeSize + size < wordSize) :
    ∃ b c lists', growNext a z s e = .ok (true, b) ∧
      rangeAt b x = rangeAt a x ∧ rangeAt b z = (s, (a.pool z).stop) ∧
      finishGrown b x size (a.pool x).getSize = .ok (.done (.ok (), c)) ∧
      Layout c (l ++ x :: z :: r) lists' ∧ c.freeSize = a.freeSize + size ∧
      (l ++ x :: z :: r).map (rangeAt c) =
        (l ++ [x]).map (rangeAt a) ++ (s, (a.pool z).stop) :: r.map (rangeAt a) := by
  have hz := (a.pool z).start_le_stop
  have hsplit : l ++ x :: z :: r = (l ++ [x]) ++ z :: r := by simp
  have hxz : x ≠ z := by
    intro e
    have := h.addressChain.linked.notMem_split.2
    simp [e] at this
  rw [hsplit] at h ⊢
  have hsz : s ≤ (a.pool z).stop := by omega
  obtain ⟨b, lists', hok, hl, hf, hr, -⟩ := h.resize hsz (by
    simp only [MemoryEntry.getSize]
    omega)
  have hsame : (b.pool x).getSize = (a.pool x).getSize := by
    rw [getSize_eq_range, getSize_eq_range, hr, if_neg hxz]
  refine ⟨b, { b with freeSize := b.freeSize + size }, lists', growNext_of_eq he heq hsz hok, ?_,
    ?_, ?_, hl.withFreeSize _, ?_, map_rangeAt_update h.addressChain.linked.notMem_split fun i _ =>
    hr i⟩
  · rw [hr, if_neg hxz]
  · rw [hr, if_pos rfl]
  · refine finishGrown_eq (by omega) ?_
    rw [← hsame]
    exact chainEntryToFreeList_same _ x
  · rw [← hf]

/-- The state in which the two entries around the range have become one, before the entry that is
left is filed. The next entry was filed under its new size and taken out again, so the lists are the
old ones without it, and the entry is still where its old size belongs. -/
theorem Layout.merge (h : Layout a (l ++ x :: z :: r) lists) (hse : s ≤ e)
    (hup : (a.pool x).stop + 1 = s) (heq : (a.pool z).start = e + 1) (he : e + 1 < wordSize)
    (hxe : (a.pool x).start ≤ e) :
    ∃ b c, growNext (a.withRange x (a.pool x).start e hxe) z s e = .ok (true, b) ∧
      mergeNext b x z s true = .ok c ∧ AddressChain c (l ++ x :: r) ∧
      FreeLists c (unfile lists z) ∧ c.freeSize = a.freeSize ∧
      ∀ i, i ≠ z → rangeAt c i = if i = x then ((a.pool x).start, (a.pool z).stop)
        else rangeAt a i := by
  have hz := (a.pool z).start_le_stop
  have hx := (a.pool x).start_le_stop
  have hsplit : l ++ x :: z :: r = (l ++ [x]) ++ z :: r := by simp
  have hxz : x ≠ z := by
    intro e
    have := h.addressChain.linked.notMem_split.2
    simp [e] at this
  -- the entry has grown up to the range, the next entry down to it
  set b₁ := a.withRange x (a.pool x).start e hxe with hb₁
  have hz₁ : b₁.pool z = a.pool z := withRange_pool_of_ne _ _ _ _ hxz.symm
  have hsz : s ≤ (b₁.pool z).stop := by
    rw [hz₁]
    omega
  set b₂ := b₁.withRange z s (b₁.pool z).stop hsz with hb₂
  have hr₂ : ∀ i, rangeAt b₂ i = if i = z then (s, (a.pool z).stop)
      else if i = x then ((a.pool x).start, e) else rangeAt a i := by
    intro i
    rw [hb₂, withRange_rangeAt, hb₁, withRange_rangeAt, ← hb₁, hz₁]
  have hl₂ : FreeLists b₂ lists :=
    Layout.freeLists_withRange (Layout.freeLists_withRange h.filing.linked x _) z _
  have hmem : z ∈ lists (sizeToPageOrder (a.pool z).getSize) :=
    (h.filing.filed.mem _ (sizeToPageOrder_lt _) z).2 ⟨by simp, rfl⟩
  obtain ⟨b, hok, hframe, -, hlb⟩ := chainEntryToFreeList_freeLists hl₂ hmem (by
    rw [getSize_eq_range, getSize_eq_range, hr₂, if_pos rfl]
    simp only [rangeAt]
    omega)
  have hrb : ∀ i, rangeAt b i = rangeAt b₂ i := hframe.rangeAt
  have hbx : ((b.pool x).start, (b.pool x).stop) = ((a.pool x).start, e) := by
    have := hrb x
    rwa [hr₂, if_neg hxz, if_pos rfl] at this
  have hbz : ((b.pool z).start, (b.pool z).stop) = (s, (a.pool z).stop) := by
    have := hrb z
    rwa [hr₂, if_pos rfl] at this
  simp only [Prod.mk.injEq] at hbx hbz
  -- the next entry leaves its list and the chain
  have hmax : (a.pool x).start ≤ (a.pool z).stop := by omega
  set b₃ := b.withRange x (a.pool x).start (a.pool z).stop hmax with hb₃
  have hl₃ : FreeLists b₃ (refile sizeToPageOrder (sizeOf b₂) lists z) :=
    Layout.freeLists_withRange hlb x _
  have hsize₃ : (b₃.pool z).getSize = sizeOf b₂ z := by
    rw [hb₃, withRange_pool_of_ne _ _ _ _ hxz.symm]
    exact hframe.getSize z
  have hl₄ : FreeLists (unchainEntryFromFreeList b₃ z) (unfile lists z) := by
    have hun := unchainFromOrder_freeLists hl₃ (sizeToPageOrder_lt (sizeOf b₂ z))
      (mem_refile_self (sizeOf b₂) z)
    rw [unchainEntryFromFreeList, hsize₃]
    exact hun.of_eq fun o ho => (unfile_refile z (h.filing.linked.linked o ho).nodup).symm
  have hframe₄ := unchainFromOrder_frame b₃ z (sizeToPageOrder (b₃.pool z).getSize)
  have hchain : AddressChain (unchainEntryFromFreeList b₃ z) ((l ++ [x]) ++ z :: r) := by
    rw [← hsplit]
    exact ((((h.addressChain.withRange x _).withRange z _).listFrame hframe).withRange x
      _).listFrame hframe₄
  refine ⟨b, Allocator.delete (unchainEntryFromFreeList b₃ z) z,
    growNext_of_eq he (by rw [hz₁, heq]) hsz (by rw [← hb₂, hz₁]; exact hok), ?_, ?_, ?_, ?_, ?_⟩
  · simp only [mergeNext, hbx.1, hbx.2, hbz.1, hbz.2, checkedAdd_eq he, ok_bind,
      max_eq_right (show e ≤ (a.pool z).stop by omega), setRangeAt_eq _ _ hmax]
    rw [if_pos (Or.inr ⟨trivial, le_refl s⟩)]
    rfl
  · have hdel := AddressChain.delete (a := unchainEntryFromFreeList b₃ z)
      (unchainEntryFromFreeList b₃ z).firstEntry hchain (by simp)
    simpa using hdel
  · exact (delete_frame _ z).freeLists hl₄
  · rw [(delete_frame _ z).freeSize, unchainEntryFromFreeList, hframe₄.freeSize]
    exact hframe.freeSize
  · intro i hi
    rw [(delete_frame _ z).rangeAt, unchainEntryFromFreeList, hframe₄.rangeAt, hb₃,
      withRange_rangeAt]
    split
    · rfl
    · rename_i hix
      rw [hrb, hr₂, if_neg hi, if_neg hix]

/-- The two entries around the range become one. -/
theorem Layout.bridge (size : Nat) (h : Layout a (l ++ x :: z :: r) lists) (hse : s ≤ e)
    (hup : (a.pool x).stop + 1 = s) (heq : (a.pool z).start = e + 1) (he : e + 1 < wordSize)
    (hxe : (a.pool x).start ≤ e) (hw : a.freeSize + size < wordSize) :
    ∃ b c d lists', growNext (a.withRange x (a.pool x).start e hxe) z s e = .ok (true, b) ∧
      mergeNext b x z s true = .ok c ∧
      finishGrown c x size (a.pool x).getSize = .ok (.done (.ok (), d)) ∧
      Layout d (l ++ x :: r) lists' ∧ d.freeSize = a.freeSize + size ∧
      (l ++ x :: r).map (rangeAt d) =
        l.map (rangeAt a) ++ ((a.pool x).start, (a.pool z).stop) :: r.map (rangeAt a) := by
  obtain ⟨b, c, hgrow, hmerge, hchain, hlists, hfree, hr⟩ := h.merge hse hup heq he hxe
  have hzx : z ∉ l ++ x :: r := by
    have hsplit : l ++ x :: z :: r = (l ++ [x]) ++ z :: r := by simp
    have hl := h.addressChain.linked
    rw [hsplit] at hl
    have := hl.notMem_split
    simp only [List.mem_append, List.mem_cons, List.not_mem_nil, or_false] at this ⊢
    tauto
  have hC : { i | i ∈ l ++ x :: z :: r } \ {z} = { i | i ∈ l ++ x :: r } := by
    ext i
    simp only [Set.mem_sdiff, Set.mem_ofPred_eq, Set.mem_singleton_iff, List.mem_append,
      List.mem_cons] at hzx ⊢
    constructor
    · rintro ⟨hi | hi | hi | hi, hne⟩
      · exact Or.inl hi
      · exact Or.inr (Or.inl hi)
      · exact absurd hi hne
      · exact Or.inr (Or.inr hi)
    · rintro (hi | hi | hi)
      · exact ⟨Or.inl hi, fun e => hzx (Or.inl (e ▸ hi))⟩
      · exact ⟨Or.inr (Or.inl hi), fun e => hzx (Or.inr (Or.inl (e ▸ hi)))⟩
      · exact ⟨Or.inr (Or.inr (Or.inr hi)), fun e => hzx (Or.inr (Or.inr (e ▸ hi)))⟩
  have hfiled := h.filing.filed.unfile z
  rw [hC] at hfiled
  have hne : ∀ y ∈ l ++ x :: r, y ≠ z := fun y hy e => hzx (e ▸ hy)
  have hz := (a.pool z).start_le_stop
  have hx := (a.pool x).start_le_stop
  -- from here the entry is the only one that is filed under an old size
  obtain ⟨d, lists', hok, hframe, -, hfil, -⟩ := Filing.rechain (x := x)
    (a := { c with freeSize := c.freeSize + size })
    (hlists.congr rfl (fun _ _ _ _ => rfl) (fun _ _ _ _ => rfl) fun _ _ _ _ => rfl) hfiled
    (by simp) (fun y hy hyx => by
      have hy' := hr y (hne y hy)
      rw [if_neg hyx] at hy'
      simp only [sizeOf, getSize_eq_range]
      exact congrArg (fun p : Nat × Nat => p.2 - p.1 + 1) hy') (by
      have hx' := hr x (hne x (by simp))
      rw [if_pos rfl] at hx'
      have hx'' : sizeOf { c with freeSize := c.freeSize + size } x =
          (a.pool z).stop - (a.pool x).start + 1 :=
        congrArg (fun p : Nat × Nat => p.2 - p.1 + 1) hx'
      rw [hx'']
      simp only [sizeOf, MemoryEntry.getSize]
      omega)
  refine ⟨b, c, d, lists', hgrow, hmerge, finishGrown_eq (by omega) hok, ⟨?_, hfil⟩, ?_, ?_⟩
  · have hchain' : AddressChain { c with freeSize := c.freeSize + size } (l ++ x :: r) :=
      hchain.congr rfl (fun _ => rfl) (fun _ => rfl) (fun _ => rfl) fun _ => rfl
    exact hchain'.listFrame hframe
  · rw [hframe.freeSize, hfree]
  · have hmap : ∀ i ∈ l ++ x :: r, rangeAt d i =
        if i = x then ((a.pool x).start, (a.pool z).stop) else rangeAt a i := by
      intro i hi
      rw [hframe.rangeAt]
      exact hr i (hne i hi)
    exact map_rangeAt_update hchain.linked.notMem_split hmap

end Grow

/-! ## A new entry -/

section New

variable {a b c : MemoryAllocator} {l r : List Nat} {lists : Nat → List Nat} {x z n s e size : Nat}

/-- The filing of a new entry `n` that was linked into the chain beside `x`. -/
theorem Layout.finishNew (size : Nat) (h : Layout a (l ++ r) lists) (hse : s ≤ e)
    (hbc : ChainFrame (a.withNew n s e hse) c) (hchain : AddressChain c (l ++ n :: r))
    (hx : x ∈ l ++ r) (hw : a.freeSize + size < wordSize) :
    ∃ d lists', finishNew c x n size (a.pool x).getSize = .ok (.done (.ok (), d)) ∧
      Layout d (l ++ n :: r) lists' ∧ d.freeSize = a.freeSize + size ∧
      (l ++ n :: r).map (rangeAt d) = l.map (rangeAt a) ++ (s, e) :: r.map (rangeAt a) := by
  have hb := newSlot_withNew a n hse
  have hnot := hchain.linked.notMem_split
  have hnlr : ∀ i ∈ l ++ r, i ≠ n := by
    intro i hi e
    rw [e, List.mem_append] at hi
    tauto
  have hfree : c.freeSize = a.freeSize := hbc.freeSize.trans hb.freeSize
  have hrange : ∀ i, rangeAt c i = if i = n then (s, e) else rangeAt a i := fun i => by
    rw [hbc.rangeAt, withNew_rangeAt]
  have hfil : Filing { c with freeSize := c.freeSize + size } { i | i ∈ l ++ r } lists := by
    refine h.filing.congr ?_ fun i hi => ⟨?_, ?_, ?_, ?_⟩
    · exact hbc.freeList.trans hb.freeList
    · exact (hbc.listPrev i).trans ((hb.listPrev i).trans (if_neg (hnlr i hi)))
    · exact (hbc.listNext i).trans ((hb.listNext i).trans (if_neg (hnlr i hi)))
    · exact (hbc.id i).trans ((hb.id i).trans (if_neg (hnlr i hi)))
    · exact (hrange i).trans (if_neg (hnlr i hi))
  have hchain' : AddressChain { c with freeSize := c.freeSize + size } (l ++ n :: r) :=
    hchain.congr rfl (fun _ => rfl) (fun _ => rfl) (fun _ => rfl) fun _ => rfl
  obtain ⟨d, lists', hok, hframe, hl, -⟩ := Layout.insert hchain' hfil
    ((hbc.listNext n).trans ((hb.listNext n).trans (if_pos rfl)))
    ((hbc.listPrev n).trans ((hb.listPrev n).trans (if_pos rfl)))
  -- the entry beside the new one kept its size, so it stays in its list
  have hsame : chainEntryToFreeList { c with freeSize := c.freeSize + size } x
      (some (a.pool x).getSize) = .ok { c with freeSize := c.freeSize + size } := by
    have hxs : (a.pool x).getSize = (c.pool x).getSize := by
      rw [getSize_eq_range, getSize_eq_range, hrange, if_neg (hnlr x hx)]
    rw [hxs]
    exact chainEntryToFreeList_same _ x
  refine ⟨d, lists', ?_, hl, ?_, ?_⟩
  · simp only [Allocator.finishNew, checkedAdd_eq (show c.freeSize + size < wordSize by omega),
      ok_bind, hsame, hok]
    rfl
  · rw [hframe.freeSize, hfree]
  · refine map_rangeAt_update hnot fun i _ => ?_
    rw [hframe.rangeAt]
    exact hrange i

/-- The two orders in which the source links a new entry before the next one. -/
theorem setNextEntry_setPrevEntry (b : MemoryAllocator) {n z : Nat} (hnz : n ≠ z) :
    setNextEntry (setPrevEntry b z n) n z = chainAfterMe b n z := by
  have hpool : (setNextEntry (setPrevEntry b z n) n z).pool = (chainAfterMe b n z).pool := by
    funext j
    simp only [chainAfterMe, setNextEntry, setPrevEntry, modify_pool_self]
    by_cases hjn : j = n
    · simp [modify_pool, hjn, hnz]
    · by_cases hjz : j = z
      · simp [modify_pool, hjz, hnz.symm]
      · simp [modify_pool, hjn, hjz]
  calc setNextEntry (setPrevEntry b z n) n z
      = { b with pool := (setNextEntry (setPrevEntry b z n) n z).pool } := rfl
    _ = { b with pool := (chainAfterMe b n z).pool } := by rw [hpool]
    _ = chainAfterMe b n z := rfl

variable {a₁ : MemoryAllocator} {oldSize : Nat}

theorem insertWithNext_behind (hx : x ∈ l) (hz : z ∈ l) (h : AddressChain a l) (hse : s ≤ e)
    (hc : createMemoryEntry a = some (n, a₁)) (hxe : (a.pool x).start ≤ e) :
    insertWithNext a x z s e size oldSize =
      finishNew (linkBehind (a.withNew n s e hse) x n (some z)) x n size oldSize := by
  obtain ⟨-, hnc, rfl⟩ := createMemoryEntry_eq_some h hc
  have hxn : x ≠ n := fun e => hnc (e ▸ hx)
  have hnz : n ≠ z := fun e => hnc (e ▸ hz)
  have hx₁ : (a.withNew n s e hse).pool x = a.pool x := by
    rw [MemoryAllocator.withNew, withRange_pool_of_ne _ _ _ _ hxn, modify_pool, if_neg hxn]
  have hn₁ : ((a.withNew n s e hse).pool n).stop = e := by
    simp [MemoryAllocator.withNew]
  simp only [insertWithNext, hc, setRangeAt_eq _ _ hse, ok_bind]
  rw [← MemoryAllocator.withNew, hx₁, hn₁, if_neg (by omega), setNextEntry_setPrevEntry _ hnz]
  rfl

theorem insertAtLast_behind (hx : x ∈ l) (h : AddressChain a l) (hse : s ≤ e)
    (hc : createMemoryEntry a = some (n, a₁)) (hxs : (a.pool x).stop < s) :
    insertAtLast a x s e size oldSize =
      finishNew (linkBehind (a.withNew n s e hse) x n none) x n size oldSize := by
  obtain ⟨-, hnc, rfl⟩ := createMemoryEntry_eq_some h hc
  have hxn : x ≠ n := fun e => hnc (e ▸ hx)
  have hx₁ : (a.withNew n s e hse).pool x = a.pool x := by
    rw [MemoryAllocator.withNew, withRange_pool_of_ne _ _ _ _ hxn, modify_pool, if_neg hxn]
  have hn₁ : ((a.withNew n s e hse).pool n).start = s := by
    simp [MemoryAllocator.withNew]
  simp only [insertAtLast, hc, setRangeAt_eq _ _ hse, ok_bind]
  rw [← MemoryAllocator.withNew, hx₁, hn₁, if_pos hxs]
  rfl

/-- The new entry linked before the first one. -/
def linkFirst (b : MemoryAllocator) (n x : Nat) : MemoryAllocator :=
  chainAfterMe { b with firstEntry := some n } n x

theorem linkFirst_frame (b : MemoryAllocator) (n x : Nat) : ChainFrame b (linkFirst b n x) :=
  ChainFrame.trans (b := { b with firstEntry := some n }) ⟨fun _ => rfl, rfl, rfl⟩
    (chainAfterMe_frame _ n x)

theorem insertWithNext_first (h : AddressChain a (x :: r)) (hse : s ≤ e)
    (hc : createMemoryEntry a = some (n, a₁)) (hxe : e < (a.pool x).start) :
    insertWithNext a x z s e size oldSize =
      finishNew (linkFirst (a.withNew n s e hse) n x) x n size oldSize := by
  obtain ⟨-, hnc, rfl⟩ := createMemoryEntry_eq_some h hc
  have hxn : x ≠ n := fun e => hnc (e ▸ by simp)
  have hx₁ : (a.withNew n s e hse).pool x = a.pool x := by
    rw [MemoryAllocator.withNew, withRange_pool_of_ne _ _ _ _ hxn, modify_pool, if_neg hxn]
  have hn₁ : ((a.withNew n s e hse).pool n).stop = e := by
    simp [MemoryAllocator.withNew]
  have hnid : ((a.withNew n s e hse).pool n).id = n :=
    ((newSlot_withNew a n hse).id n).trans (if_pos rfl)
  have hprev : getPrevEntry (a.withNew n s e hse) x = none := by
    have := AddressChain.getPrevEntry_eq (l := []) h
    simp only [getPrevEntry, hx₁] at this ⊢
    exact this
  simp only [insertWithNext, hc, setRangeAt_eq _ _ hse, ok_bind]
  rw [← MemoryAllocator.withNew, hx₁, hn₁, if_pos hxe]
  simp only [hprev, hnid]
  rfl

theorem insertAtLast_first (h : AddressChain a (x :: r)) (hse : s ≤ e)
    (hc : createMemoryEntry a = some (n, a₁)) (hxs : s ≤ (a.pool x).stop) :
    insertAtLast a x s e size oldSize =
      finishNew (linkFirst (a.withNew n s e hse) n x) x n size oldSize := by
  obtain ⟨-, hnc, rfl⟩ := createMemoryEntry_eq_some h hc
  have hxn : x ≠ n := fun e => hnc (e ▸ by simp)
  have hx₁ : (a.withNew n s e hse).pool x = a.pool x := by
    rw [MemoryAllocator.withNew, withRange_pool_of_ne _ _ _ _ hxn, modify_pool, if_neg hxn]
  have hn₁ : ((a.withNew n s e hse).pool n).start = s := by
    simp [MemoryAllocator.withNew]
  have hnid : ((a.withNew n s e hse).pool n).id = n :=
    ((newSlot_withNew a n hse).id n).trans (if_pos rfl)
  have hprev : getPrevEntry (a.withNew n s e hse) x = none := by
    have := AddressChain.getPrevEntry_eq (l := []) h
    simp only [getPrevEntry, hx₁] at this ⊢
    exact this
  simp only [insertAtLast, hc, setRangeAt_eq _ _ hse, ok_bind]
  rw [← MemoryAllocator.withNew, hx₁, hn₁, if_neg (by omega)]
  simp only [hprev, hnid]
  rfl

end New

/-! ## One round for a range that is not free -/

/-- The chain of the new entry before the first one. -/
theorem AddressChain.linkFirst {a b : MemoryAllocator} {r : List Nat} {x n : Nat}
    (h : AddressChain a (x :: r)) (hb : NewSlot a b n) (hn : n ∉ x :: r) (hlt : n < poolSize) :
    AddressChain (linkFirst b n x) (n :: x :: r) := by
  have hxn : x ≠ n := fun e => hn (e ▸ by simp)
  have hxid : (a.pool x).id = x := h.id x (by simp)
  refine h.insertFirst hn hlt ?_ ?_ ?_ ?_ rfl
  · intro y
    simp only [Allocator.linkFirst, chainAfterMe_next]
    by_cases hyn : y = n
    · simp [hyn, hb.id, hxn, hxid]
    · simp [hyn, hb.next]
  · intro y
    simp only [Allocator.linkFirst, chainAfterMe_previous]
    by_cases hyx : y = x
    · simp [hyx, hxn, hb.id]
    · by_cases hyn : y = n
      · simp [hyn, hxn.symm, hb.previous]
      · simp [hyx, hyn, hb.previous]
  · intro y
    simp only [Allocator.linkFirst, chainAfterMe_enabled]
    exact hb.enabled y
  · intro y
    rw [Allocator.linkFirst, (chainAfterMe_frame _ n x).id]
    exact hb.id y

/-- A request either fails and changes nothing, or adds exactly its range to the free bytes. -/
structure Frees (a : MemoryAllocator) (s e : Nat) (outcome : Outcome Unit) : Prop where
  wellFormed : WellFormed outcome.2
  ok : outcome.1 = .ok () → freeBytes outcome.2 = freeBytes a ∪ Finset.Icc s e
  error : ∀ err, outcome.1 = .error err → outcome.2 = a

section Round

variable {a : MemoryAllocator} {l r : List Nat} {lists : Nat → List Nat} {x s e : Nat}

theorem Frees.of_error {chain : List Nat} (h : Rep a chain lists) (s e : Nat) (err : MemoryError) :
    Frees a s e (.error err, a) :=
  ⟨⟨chain, lists, h⟩, by simp, fun _ _ => rfl⟩

theorem Frees.of_ok {b : MemoryAllocator}
    (h : WellFormed b ∧ freeBytes b = freeBytes a ∪ Finset.Icc s e) : Frees a s e (.ok (), b) :=
  ⟨h.1, fun _ => h.2, by simp⟩

/-- The end of a round in which only the selected entry grew. -/
theorem freeBeside_grown (h : Rep a (l ++ x :: r) lists) (hse : s ≤ e) (he : e < physicalLimit)
    (hdisj : Disjoint (freeBytes a) (Finset.Icc s e)) {lo hi : Nat} (hlh : lo ≤ hi)
    (hcov : Finset.Icc lo hi = Finset.Icc (a.pool x).start (a.pool x).stop ∪ Finset.Icc s e)
    (hsize : (a.pool x).getSize ≠ hi - lo + 1)
    (hl : ∀ i ∈ l, (a.pool i).stop + 1 < lo) (hr : ∀ i ∈ r, hi + 1 < (a.pool i).start) :
    ∃ outcome, finishGrown (a.withRange x lo hi hlh) x (e - s + 1) (a.pool x).getSize =
      .ok (.done outcome) ∧ Frees a s e outcome := by
  have hfree := h.freeSize_le
  have hpw : physicalLimit + physicalLimit < wordSize := by decide
  obtain ⟨b, lists', hok, hlb, hf, hrb⟩ := Layout.grow (e - s + 1) h.toLayout hlh hsize
    (by omega)
  refine ⟨_, hok, .of_ok ?_⟩
  refine h.joined (P := l.map (rangeAt a)) (M := [rangeAt a x]) (Q := r.map (rangeAt a)) hse he
    hdisj (by simp) hlb (by simpa using hrb) ?_ ?_ ?_ hf
  · rw [hcov]
    simp [cover, rangeAt]
  · intro p hp
    obtain ⟨i, hi, rfl⟩ := List.mem_map.1 hp
    exact hl i hi
  · intro q hq
    obtain ⟨i, hi, rfl⟩ := List.mem_map.1 hq
    exact hr i hi

/-- The end of a round that files a new entry, linked into the chain at its place. -/
theorem finishNew_frees {n : Nat} {c : MemoryAllocator} (h : Rep a (l ++ r) lists) (hse : s ≤ e)
    (he : e < physicalLimit) (hdisj : Disjoint (freeBytes a) (Finset.Icc s e))
    (hbc : ChainFrame (a.withNew n s e hse) c) (hchain : AddressChain c (l ++ n :: r))
    (hx : x ∈ l ++ r) (hl : ∀ i ∈ l, (a.pool i).stop + 1 < s)
    (hr : ∀ i ∈ r, e + 1 < (a.pool i).start) :
    ∃ outcome, finishNew c x n (e - s + 1) (a.pool x).getSize = .ok (.done outcome) ∧
      Frees a s e outcome := by
  have hfree := h.freeSize_le
  have hpw : physicalLimit + physicalLimit < wordSize := by decide
  obtain ⟨d, lists', hok, hld, hf, hrd⟩ := Layout.finishNew (e - s + 1) h.toLayout hse hbc
    hchain hx (by omega)
  refine ⟨_, hok, .of_ok ?_⟩
  refine h.joined (P := l.map (rangeAt a)) (M := []) (Q := r.map (rangeAt a)) hse he hdisj
    (by simp) hld (by simpa using hrd) (by simp [cover]) ?_ ?_ hf
  · intro p hp
    obtain ⟨i, hi, rfl⟩ := List.mem_map.1 hp
    exact hl i hi
  · intro q hq
    obtain ⟨i, hi, rfl⟩ := List.mem_map.1 hq
    exact hr i hi

/-- The distances between an entry and the later ones. -/
theorem Rep.stop_lt_of_mem (h : Rep a (l ++ x :: r) lists) :
    (∀ i ∈ l, (a.pool i).stop + 1 < (a.pool x).start) ∧
      ∀ i ∈ r, (a.pool x).stop + 1 < (a.pool i).start := by
  obtain ⟨-, h1, h2⟩ := h.split.around
  exact ⟨fun i hi => h1 _ (List.mem_map_of_mem hi), fun i hi => h2 _ (List.mem_map_of_mem hi)⟩

/-- The range is below the first entry. -/
theorem freeBeside_first (h : Rep a (x :: r) lists) (hse : s ≤ e)
    (he : e < (a.pool x).start) (hdisj : Disjoint (freeBytes a) (Finset.Icc s e)) :
    ∃ outcome, freeBeside a x s e (e - s + 1) = .ok (.done outcome) ∧ Frees a s e outcome := by
  have hx := (a.pool x).start_le_stop
  have hlim := h.stop_lt (x := x) (by simp)
  have hpw := physicalLimit_lt
  have hchain : AddressChain a ([] ++ x :: r) := h.addressChain
  obtain ⟨-, hright⟩ := Rep.stop_lt_of_mem (l := []) h
  have hup : growUp a x s e ((a.pool x).stop + 1) = .ok (false, a) := growUp_of_ne (by omega)
  simp only [freeBeside, checkedAdd_eq (show (a.pool x).stop + 1 < wordSize by omega), ok_bind, hup,
    Bool.false_or]
  by_cases hdown : (a.pool x).start = e + 1
  · -- the first entry grows downwards
    have hsx : s ≤ (a.pool x).stop := by omega
    simp only [growDown_of_eq hchain.isFirstEntry_eq (show e + 1 < wordSize by omega) hsx hdown,
      ok_bind, (hchain.withRange x hsx).getNextEntry_eq]
    have hgoal := freeBeside_grown (l := []) h hse (by omega) hdisj hsx (by
      ext y
      simp only [Finset.mem_Icc, Finset.mem_union]
      omega) (by
      simp only [MemoryEntry.getSize]
      omega) (by simp) hright
    cases r with
    | nil => exact hgoal
    | cons z r =>
      have hz := hright z (by simp)
      have hxz : z ≠ x := fun e => by
        have := hchain.linked.notMem_split.2
        simp [e] at this
      simp only [List.head?_cons]
      rw [freeWithNext_of_apart (by omega), if_pos rfl]
      · exact hgoal
      all_goals simp only [withRange_pool_of_ne _ _ _ hsx hxz, withRange_self_stop]
      all_goals omega
  · simp only [growDown_of_ne (show e + 1 < wordSize by omega) hdown, ok_bind,
      hchain.getNextEntry_eq]
    have hnew : ∀ n a₁, createMemoryEntry a = some (n, a₁) →
        ∃ outcome, finishNew (linkFirst (a.withNew n s e hse) n x) x n (e - s + 1)
          (a.pool x).getSize = .ok (.done outcome) ∧ Frees a s e outcome := by
      intro n a₁ hc
      obtain ⟨hlt, hnc, -⟩ := createMemoryEntry_eq_some h.addressChain hc
      refine finishNew_frees (l := []) h hse (by omega) hdisj (linkFirst_frame _ n x)
        (h.addressChain.linkFirst (newSlot_withNew a n hse) hnc hlt) (by simp) (by simp) ?_
      intro i hi
      rcases List.mem_cons.1 hi with rfl | hi
      · omega
      · have := hright i hi
        omega
    cases r with
    | nil =>
      simp only [List.head?_nil, Bool.false_eq_true, if_false]
      rcases hc : createMemoryEntry a with _ | ⟨n, a₁⟩
      · exact ⟨_, by simp only [insertAtLast, hc], .of_error h s e .noEntry⟩
      · rw [insertAtLast_first h.addressChain hse hc (by omega)]
        exact hnew n a₁ hc
    | cons z r =>
      have hz := hright z (by simp)
      simp only [List.head?_cons]
      rw [freeWithNext_of_apart (by omega) (by omega) (by omega) (by omega) (by omega) (by omega),
        if_neg (by simp)]
      rcases hc : createMemoryEntry a with _ | ⟨n, a₁⟩
      · exact ⟨_, by simp only [insertWithNext, hc], .of_error h s e .noEntry⟩
      · rw [insertWithNext_first h.addressChain hse hc (by omega)]
        exact hnew n a₁ hc

/-- The range is behind the selected entry and before the next one. -/
theorem freeBeside_behind (h : Rep a (l ++ x :: r) lists) (hse : s ≤ e) (he : e < physicalLimit)
    (hxs : (a.pool x).stop < s) (hre : ∀ i ∈ r, e < (a.pool i).start)
    (hdisj : Disjoint (freeBytes a) (Finset.Icc s e)) :
    ∃ outcome, freeBeside a x s e (e - s + 1) = .ok (.done outcome) ∧ Frees a s e outcome := by
  have hx := (a.pool x).start_le_stop
  have hfree := h.freeSize_le
  have hpw : physicalLimit + physicalLimit < wordSize := by decide
  have hchain := h.addressChain
  obtain ⟨hleft, hright⟩ := h.stop_lt_of_mem
  have hxe : (a.pool x).start ≤ e := by omega
  simp only [freeBeside, checkedAdd_eq (show (a.pool x).stop + 1 < wordSize by omega), ok_bind]
  by_cases hup : (a.pool x).stop + 1 = s
  · have hdown : growDown (a.withRange x (a.pool x).start e hxe) x s e =
        .ok (false, a.withRange x (a.pool x).start e hxe) :=
      growDown_of_ne (by omega) (by rw [withRange_self_start]; omega)
    simp only [growUp_of_eq hup hxe, ok_bind, hdown, Bool.or_false,
      (hchain.withRange x hxe).getNextEntry_eq]
    have hgrown : (∀ i ∈ r, e + 1 < (a.pool i).start) → ∃ outcome,
        finishGrown (a.withRange x (a.pool x).start e hxe) x (e - s + 1) (a.pool x).getSize =
          .ok (.done outcome) ∧ Frees a s e outcome := fun hr =>
      freeBeside_grown h hse he hdisj hxe (by
        ext y
        simp only [Finset.mem_Icc, Finset.mem_union]
        omega) (by
        simp only [MemoryEntry.getSize]
        omega) hleft hr
    cases r with
    | nil => exact hgrown (by simp)
    | cons z r =>
      have hz := hre z (by simp)
      have hzr := (Rep.stop_lt_of_mem (l := l ++ [x]) (x := z) (r := r)
        (by simpa using h)).2
      have hzx : z ≠ x := fun e => by
        have := hchain.linked.notMem_split.2
        simp [e] at this
      simp only [List.head?_cons]
      by_cases hnext : (a.pool z).start = e + 1
      · -- the range closes the gap between the two entries
        obtain ⟨b, c, d, lists', hgrow, hmerge, hfin, hld, hfd, hrd⟩ :=
          Layout.bridge (e - s + 1) h.toLayout hse hup hnext (by omega) hxe (by omega)
        refine ⟨(.ok (), d), ?_, .of_ok ?_⟩
        · have hzs : ¬((a.withRange x (a.pool x).start e hxe).pool z).start ≤ s := by
            rw [withRange_pool_of_ne _ _ _ hxe hzx]
            omega
          simp only [freeWithNext, if_neg hzs, hgrow, ok_bind, Bool.or_true, hup, hmerge, if_true,
            hfin]
        · refine h.joined (P := l.map (rangeAt a)) (M := [rangeAt a x, rangeAt a z])
            (Q := r.map (rangeAt a)) hse he hdisj (by simp) hld (by simpa using hrd) ?_ ?_ ?_ hfd
          · have hzz := (a.pool z).start_le_stop
            ext y
            simp only [cover, rangeAt, Finset.union_empty, Finset.mem_Icc, Finset.mem_union]
            omega
          · intro p hp
            obtain ⟨i, hi, rfl⟩ := List.mem_map.1 hp
            exact hleft i hi
          · intro q hq
            obtain ⟨i, hi, rfl⟩ := List.mem_map.1 hq
            exact hzr i hi
      · rw [freeWithNext_of_apart (by omega), if_pos rfl]
        · refine hgrown fun i hi => ?_
          have hzz := (a.pool z).start_le_stop
          rcases List.mem_cons.1 hi with rfl | hi
          · omega
          · have := hzr i hi
            omega
        all_goals simp only [withRange_pool_of_ne _ _ _ hxe hzx, withRange_self_stop]
        all_goals omega
  · simp only [growUp_of_ne hup, ok_bind,
      growDown_of_ne (show e + 1 < wordSize by omega) (show (a.pool x).start ≠ e + 1 by omega),
      Bool.or_false, hchain.getNextEntry_eq]
    have hnew : (∀ i ∈ r, e + 1 < (a.pool i).start) → ∀ n a₁, createMemoryEntry a = some (n, a₁) →
        ∃ outcome, finishNew (linkBehind (a.withNew n s e hse) x n r.head?) x n (e - s + 1)
          (a.pool x).getSize = .ok (.done outcome) ∧ Frees a s e outcome := by
      intro hr n a₁ hc
      obtain ⟨hlt, hnc, -⟩ := createMemoryEntry_eq_some hchain hc
      have hsplit : ∀ m : List Nat, l ++ x :: m = (l ++ [x]) ++ m := fun m => by simp
      have hlinked := hchain.linkBehind (newSlot_withNew a n hse) hnc hlt
      rw [hsplit] at h hlinked
      refine finishNew_frees h hse he hdisj (linkBehind_frame _ x n _) hlinked (by simp) ?_ hr
      intro i hi
      rcases List.mem_append.1 hi with hi | hi
      · have := hleft i hi
        omega
      · obtain rfl := List.mem_singleton.1 hi
        omega
    cases r with
    | nil =>
      simp only [List.head?_nil, Bool.false_eq_true, if_false]
      rcases hc : createMemoryEntry a with _ | ⟨n, a₁⟩
      · exact ⟨_, by simp only [insertAtLast, hc], .of_error h s e .noEntry⟩
      · rw [insertAtLast_behind (by simp) hchain hse hc hxs]
        exact hnew (by simp) n a₁ hc
    | cons z r =>
      have hz := hre z (by simp)
      have hzx := hright z (by simp)
      have hzr := (Rep.stop_lt_of_mem (l := l ++ [x]) (x := z) (r := r)
        (by simpa using h)).2
      have hzz := (a.pool z).start_le_stop
      simp only [List.head?_cons]
      by_cases hnext : (a.pool z).start = e + 1
      · -- the next entry grows down to the range
        obtain ⟨b, c, lists', hgrow, hbx, hbz, hfin, hlc, hfc, hrc⟩ :=
          Layout.widenNext (e - s + 1) h.toLayout (show e + 1 < wordSize by omega) hnext hse
            (by omega)
        have hbx' := congrArg Prod.snd hbx
        have hbz' := congrArg Prod.fst hbz
        simp only [rangeAt] at hbx' hbz'
        refine ⟨(.ok (), c), ?_, .of_ok ?_⟩
        · simp only [freeWithNext, if_neg (show ¬(a.pool z).start ≤ s by omega), hgrow, ok_bind,
            Bool.or_true, if_true, hfin, mergeNext_of_apart (a := b) x (z := z)
              ((a.pool x).stop + 1) true (by omega) (by omega) (by omega)]
        · refine h.joined (P := (l ++ [x]).map (rangeAt a)) (M := [rangeAt a z])
            (Q := r.map (rangeAt a)) hse he hdisj (by simp) hlc (by simpa using hrc) ?_ ?_ ?_ hfc
          · ext y
            simp only [cover, rangeAt, Finset.union_empty, Finset.mem_Icc, Finset.mem_union]
            omega
          · intro p hp
            obtain ⟨i, hi, rfl⟩ := List.mem_map.1 hp
            simp only [rangeAt]
            rcases List.mem_append.1 hi with hi | hi
            · have := hleft i hi
              omega
            · obtain rfl := List.mem_singleton.1 hi
              omega
          · intro q hq
            obtain ⟨i, hi, rfl⟩ := List.mem_map.1 hq
            exact hzr i hi
      · rw [freeWithNext_of_apart (by omega) (by omega) (by omega) hnext (by omega) (by omega),
          if_neg (by simp)]
        rcases hc : createMemoryEntry a with _ | ⟨n, a₁⟩
        · exact ⟨_, by simp only [insertWithNext, hc], .of_error h s e .noEntry⟩
        · rw [insertWithNext_behind (by simp) (by simp) hchain hse hc hxe]
          refine hnew (fun i hi => ?_) n a₁ hc
          rcases List.mem_cons.1 hi with rfl | hi
          · omega
          · have := hzr i hi
            omega

/-- The checks for memory that is free already pass when the range is away from the entry. -/
theorem freeAt_eq_freeBeside (hse : s ≤ e) (he : e + 1 < wordSize)
    (hin : ¬((a.pool x).start ≤ s ∧ e ≤ (a.pool x).stop))
    (hover : ¬(s ≤ (a.pool x).stop ∧ ¬(a.pool x).isFirstEntry)) (hne : (a.pool x).stop ≠ e) :
    freeAt a x s (e - s + 1) = freeBeside a x s e (e - s + 1) := by
  have hend : getEndAddress s (e - s + 1) = .ok e := by
    rw [getEndAddress_eq (by omega) (by omega)]
    congr 1
    omega
  simp only [freeAt, hend, ok_bind, ge_iff_le, if_neg hin, if_neg hover, if_neg hne]

theorem Rep.starts_sorted {chain : List Nat} (h : Rep a chain lists) :
    chain.Pairwise fun i j => (a.pool i).start ≤ (a.pool j).start := by
  have hs := h.coalesced.separated
  rw [List.pairwise_map] at hs
  refine hs.imp fun {i j} hij => ?_
  have := (a.pool i).start_le_stop
  simp only [rangeAt] at hij
  omega

theorem Rep.mem_freeBytes {chain : List Nat} (h : Rep a chain lists) {i y : Nat} (hi : i ∈ chain)
    (hy : (a.pool i).start ≤ y) (hy' : y ≤ (a.pool i).stop) : y ∈ freeBytes a := by
  rw [h.addressChain.freeBytes_eq, mem_cover]
  exact ⟨rangeAt a i, List.mem_map_of_mem hi, hy, hy'⟩

/-! ### The entry a round works on -/

theorem AddressChain.getMemoryEntry_eq {chain : List Nat} (h : AddressChain a chain)
    (hx : x ∈ chain) : getMemoryEntry x = some x :=
  if_neg (not_le.2 (h.lt hx))

/-- When no entry starts below the range, the round falls back to the first entry. -/
theorem freeStep_first {size : Nat} (h : AddressChain a (x :: r)) (hs : s ≤ (a.pool x).start)
    (hsize : size ≠ 0) : freeStep a s size = freeAt a x s size := by
  have hsearch := searchEntryPreviousAddress_before (p := []) h (by simp) hs
  have hfirst : a.firstEntry = some x := h.linked.head_eq
  simp only [freeStep, if_neg hsize, hsearch, ok_bind, List.getLast?_nil, hfirst,
    h.getMemoryEntry_eq List.mem_cons_self]

/-- The last entry that starts below the range, when it is not the last of the chain or does not
reach into the range. -/
theorem freeStep_behind {size : Nat} (h : AddressChain a (l ++ x :: r))
    (hl : ∀ i ∈ l ++ [x], (a.pool i).start < s) (hr : ∀ i ∈ r, s ≤ (a.pool i).start)
    (hlast : r ≠ [] ∨ (a.pool x).stop ≤ s) (hsize : size ≠ 0) :
    freeStep a s size = freeAt a x s size := by
  have hsearch : searchEntryPreviousAddress a s = .ok (some x) := by
    cases r with
    | nil =>
      rw [searchEntryPreviousAddress_last h (fun i hi => hl i (by simp [hi])) (hl x (by simp)),
        if_pos (hlast.resolve_left (by simp))]
    | cons y q =>
      have hsplit : l ++ x :: y :: q = (l ++ [x]) ++ y :: q := by simp
      rw [hsplit] at h
      rw [searchEntryPreviousAddress_before h hl (hr y (by simp))]
      simp
  simp only [freeStep, if_neg hsize, hsearch, ok_bind]

/-- A range that starts inside the last entry is handled from the entry before it. -/
theorem freeStep_insideLast {size y : Nat} (h : AddressChain a (l ++ [x, y]))
    (hl : ∀ i ∈ l ++ [x, y], (a.pool i).start < s) (hy : s < (a.pool y).stop)
    (hsize : size ≠ 0) : freeStep a s size = freeAt a x s size := by
  have hsplit : l ++ [x, y] = (l ++ [x]) ++ [y] := by simp
  rw [hsplit] at h hl
  have hsearch := searchEntryPreviousAddress_last h (fun i hi => hl i (by simp at hi ⊢; tauto))
    (hl y (by simp))
  rw [if_neg (by omega)] at hsearch
  simp only [freeStep, if_neg hsize, hsearch, ok_bind, List.getLast?_append,
    List.getLast?_singleton, Option.some_or]

/-- A range that starts inside the only entry is handled from this entry. -/
theorem freeStep_insideOnly {size : Nat} (h : AddressChain a [x]) (hx : (a.pool x).start < s)
    (hxs : s < (a.pool x).stop) (hsize : size ≠ 0) : freeStep a s size = freeAt a x s size := by
  have hsearch := searchEntryPreviousAddress_last (p := []) h (by simp) hx
  have hfirst : a.firstEntry = some x := h.linked.head_eq
  rw [if_neg (by omega)] at hsearch
  simp only [freeStep, if_neg hsize, hsearch, ok_bind, List.getLast?_nil, hfirst,
    h.getMemoryEntry_eq List.mem_cons_self]

/-- The entry that a round works on for a range that is not free: the first one, if the range is
below it, and else the last one below the range. -/
theorem freeStep_selects {chain : List Nat} (h : Rep a chain lists) (hne : chain ≠ []) (hse : s ≤ e)
    (he : e < physicalLimit) (hdisj : Disjoint (freeBytes a) (Finset.Icc s e)) :
    (∃ x r, chain = x :: r ∧ e < (a.pool x).start ∧
        freeStep a s (e - s + 1) = freeBeside a x s e (e - s + 1)) ∨
      ∃ l x r, chain = l ++ x :: r ∧ (a.pool x).stop < s ∧ (∀ i ∈ r, e < (a.pool i).start) ∧
        freeStep a s (e - s + 1) = freeBeside a x s e (e - s + 1) := by
  have hpw := physicalLimit_lt
  have hout : ∀ y ∈ freeBytes a, ¬(s ≤ y ∧ y ≤ e) := fun y hy hy' =>
    Finset.disjoint_left.1 hdisj hy (Finset.mem_Icc.2 hy')
  obtain ⟨p, q, rfl, hp, hq⟩ := exists_split_of_sorted (fun i => (a.pool i).start) s chain
    h.starts_sorted
  have hps : ∀ i ∈ p, (a.pool i).stop < s := fun i hi => by
    have hstart := hp i hi
    by_contra hcon
    exact hout s (h.mem_freeBytes (List.mem_append_left _ hi) (by omega) (by omega))
      ⟨le_refl s, hse⟩
  have hqe : ∀ i ∈ q, e < (a.pool i).start := fun i hi => by
    have hstart := hq i hi
    by_contra hcon
    exact hout _ (h.mem_freeBytes (List.mem_append_right _ hi) (le_refl _)
      (a.pool i).start_le_stop) ⟨hstart, by omega⟩
  rcases List.eq_nil_or_concat p with rfl | ⟨l, x, rfl⟩
  · cases q with
    | nil => exact absurd rfl hne
    | cons x r =>
      have hx := hqe x (by simp)
      have hxx := (a.pool x).start_le_stop
      have hisFirst : (a.pool x).isFirstEntry = true :=
        AddressChain.isFirstEntry_eq (l := []) h.addressChain
      refine Or.inl ⟨x, r, rfl, hx, ?_⟩
      rw [freeStep_first h.addressChain (hq x (by simp)) (by omega),
        freeAt_eq_freeBeside hse (by omega) (by omega) (by simp [hisFirst]) (by omega)]
  · rw [List.concat_eq_append] at *
    have hx := hps x (by simp)
    rw [List.append_assoc] at h
    refine Or.inr ⟨l, x, q, by simp, hx, hqe, ?_⟩
    rw [freeStep_behind h.addressChain hp hq (Or.inr (by omega)) (by omega),
      freeAt_eq_freeBeside hse (by omega) (by omega) (fun hc => by omega) (by omega)]

/-- One round frees a range that is not free, and asks for no other. -/
theorem freeStep_spec {chain : List Nat} (h : Rep a chain lists) (hne : chain ≠ []) (hse : s ≤ e)
    (he : e < physicalLimit) (hdisj : Disjoint (freeBytes a) (Finset.Icc s e)) :
    ∃ outcome, freeStep a s (e - s + 1) = .ok (.done outcome) ∧ Frees a s e outcome := by
  rcases freeStep_selects h hne hse he hdisj with
    ⟨x, r, rfl, hx, hrun⟩ | ⟨l, x, r, rfl, hx, hr, hrun⟩
  · rw [hrun]
    exact freeBeside_first h hse hx hdisj
  · rw [hrun]
    exact freeBeside_behind h hse he hx hr hdisj

end Round

section Free

variable {a : MemoryAllocator} {chain : List Nat} {lists : Nat → List Nat} {s e : Nat}

/-- The allocator has no free bytes exactly when it has no entries. -/
theorem Rep.freeSize_eq_zero (h : Rep a chain lists) : a.freeSize = 0 ↔ chain = [] := by
  rw [h.freeSize]
  cases chain with
  | nil => simp [total]
  | cons x r => simp [total]

/-- The first range is always accepted. -/
theorem free_ok_of_empty {lists : Nat → List Nat} (h : Rep a [] lists) {s size : Nat}
    {outcome : Outcome Unit} (hrun : free a s size = .ok outcome) : outcome.1 = .ok () := by
  have hzero := h.freeSize_eq_zero.2 rfl
  cases hc : createMemoryEntry a with
  | none =>
    have hlen := (createMemoryEntry_eq_none h.addressChain).1 hc
    simp [poolSize] at hlen
  | some new =>
    simp only [free, hzero, if_true, hc] at hrun
    obtain ⟨stop, -, hrun⟩ := bind_eq_ok.1 hrun
    obtain ⟨b, -, hrun⟩ := bind_eq_ok.1 hrun
    obtain ⟨c, -, hrun⟩ := bind_eq_ok.1 hrun
    cases hrun
    rfl

/-- `free` on an allocator without entries. -/
theorem free_empty (h : Rep a [] lists) (hse : s ≤ e) (he : e < physicalLimit) :
    ∃ outcome, free a s (e - s + 1) = .ok outcome ∧ Frees a s e outcome := by
  have hpw := physicalLimit_lt
  have hend : getEndAddress s (e - s + 1) = .ok e := by
    rw [getEndAddress_eq (by omega) (by omega)]
    congr 1
    omega
  have hzero := h.freeSize_eq_zero.2 rfl
  obtain ⟨⟨n, a₁⟩, hc⟩ : ∃ x, createMemoryEntry a = some x := by
    refine Option.ne_none_iff_exists'.1 fun hn => ?_
    have := (createMemoryEntry_eq_none h.addressChain).1 hn
    simp [poolSize] at this
  obtain ⟨hlt, -, rfl⟩ := createMemoryEntry_eq_some h.addressChain hc
  have hb := newSlot_withNew a n hse
  obtain ⟨b, lists', hok, hframe, hfil, -⟩ := Filing.insert (x := n)
    (hb.freeLists h.filing.linked fun o ho hm => by
      simpa using ((h.filing.filed.mem o ho n).1 hm).1)
    h.filing.filed (by simp) (by simp) ⟨hlt, (hb.id n).trans (if_pos rfl)⟩
    ((hb.listNext n).trans (if_pos rfl)) ((hb.listPrev n).trans (if_pos rfl))
  have hid : (b.pool n).id = n := (hframe.id n).trans ((hb.id n).trans (if_pos rfl))
  let c : MemoryAllocator := { b with firstEntry := some n, freeSize := e - s + 1 }
  have hrun : free a s (e - s + 1) = .ok (.ok (), c) := by
    simp only [free, hzero, if_true, hc, hend, ok_bind, setRangeAt_eq _ _ hse]
    rw [← MemoryAllocator.withNew]
    simp only [hok, ok_bind, hid]
    rfl
  have hchain : AddressChain c [n] := by
    refine AddressChain.insert (l := []) (r := []) h.addressChain (by simp) hlt hid ?_
      rfl ?_ ?_ ?_ ?_
      ?_ ?_
    · exact (hframe.enabled n).trans ((hb.enabled n).trans (if_pos rfl))
    · exact (hframe.previous n).trans ((hb.previous n).trans (if_pos rfl))
    · exact (hframe.next n).trans ((hb.next n).trans (if_pos rfl))
    · exact fun y hy => (hframe.next y).trans ((hb.next y).trans (if_neg hy))
    · exact fun y hy => (hframe.previous y).trans ((hb.previous y).trans (if_neg hy))
    · exact fun y hy => (hframe.enabled y).trans ((hb.enabled y).trans (if_neg hy))
    · exact fun y hy => (hframe.id y).trans ((hb.id y).trans (if_neg hy))
  have hrange : [n].map (rangeAt c) = [(s, e)] := by
    have : rangeAt c n = (s, e) := (hframe.rangeAt n).trans (by rw [withNew_rangeAt, if_pos rfl])
    simp [this]
  have hlayout : Layout c [n] lists' := by
    refine ⟨hchain, ?_⟩
    have hC : Insert.insert n { i | i ∈ ([] : List Nat) } = { i | i ∈ [n] } := by
      ext i
      simp
    rw [hC] at hfil
    exact hfil.congr rfl fun i _ => ⟨rfl, rfl, rfl, rfl⟩
  refine ⟨_, hrun, ⟨[n], lists', hlayout, ?_, ?_, ?_⟩, fun _ => ?_, by simp⟩
  · rw [hrange]
    exact coalesced_singleton.2 hse
  · rw [hrange]
    simpa using he
  · rw [hrange]
    rfl
  · rw [h.addressChain.freeBytes_eq, hchain.freeBytes_eq, hrange]
    simp [cover]

/-- The contract of `free` for a range that is not free. -/
theorem free_spec (h : Rep a chain lists) (hse : s ≤ e) (he : e < physicalLimit)
    (hdisj : Disjoint (freeBytes a) (Finset.Icc s e)) :
    ∃ outcome, free a s (e - s + 1) = .ok outcome ∧ Frees a s e outcome := by
  by_cases hne : chain = []
  · subst hne
    exact free_empty h hse he
  · obtain ⟨outcome, hok, hfrees⟩ := freeStep_spec h hne hse he hdisj
    refine ⟨outcome, ?_, hfrees⟩
    rw [free, if_neg (fun hz => hne (h.freeSize_eq_zero.1 hz)), freeFuel, defineFreeMemory, hok,
      ok_bind]
    rfl

end Free

end MiniVisor.Allocator
