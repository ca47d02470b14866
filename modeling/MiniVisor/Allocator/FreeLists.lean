import MiniVisor.Allocator.Model
import MiniVisor.Lib.LinkedList
import MiniVisor.Lib.Buckets

/-!
# The lists by size

`FreeLists a lists` says that the list links of the pool form twelve doubly linked lists with the
contents `lists`, no entry being in two of them. It says nothing about sizes, because
`define_free_memory` moves an entry while another one still sits in the list of its old size.

`unchainFromOrder_freeLists` and `chainEntryToFreeList_freeLists` are the contracts of the two
operations on these lists: they succeed, change list links only (`ListFrame`), and their effect on
the contents is `unfile` and `refile`.
-/

set_option autoImplicit false

namespace MiniVisor.Allocator

open MiniVisor.Lib

/-! ## Reading the updates -/

section Updates

variable (a : MemoryAllocator) (i j : Nat) (f : MemoryEntry → MemoryEntry)

theorem modify_pool : (a.modify i f).pool j = if j = i then f (a.pool j) else a.pool j := rfl

@[simp] theorem modify_pool_self : (a.modify i f).pool i = f (a.pool i) := if_pos rfl

@[simp] theorem modify_firstEntry : (a.modify i f).firstEntry = a.firstEntry := rfl

@[simp] theorem modify_freeSize : (a.modify i f).freeSize = a.freeSize := rfl

@[simp] theorem modify_freeList : (a.modify i f).freeList = a.freeList := rfl

@[simp] theorem setHead_pool (h : Option Nat) : (a.setHead i h).pool = a.pool := rfl

@[simp] theorem setHead_firstEntry (h : Option Nat) :
    (a.setHead i h).firstEntry = a.firstEntry := rfl

@[simp] theorem setHead_freeSize (h : Option Nat) : (a.setHead i h).freeSize = a.freeSize := rfl

theorem setHead_freeList (h : Option Nat) :
    (a.setHead i h).freeList j = if j = i then h else a.freeList j := rfl

end Updates

/-- An index read from a link is a reference when it is in the pool. -/
theorem bind_getMemoryEntry {o : Option Nat} (h : ∀ i, o = some i → i < poolSize) :
    o.bind getMemoryEntry = o := by
  cases o with
  | none => rfl
  | some i =>
    have hi := h i rfl
    simp only [Option.bind_some, getMemoryEntry]
    rw [if_neg (by omega)]

theorem pageOrderFrom_lt (size : Nat) : ∀ left order, order + left < numOfFreeList →
    pageOrderFrom size left order < numOfFreeList := by
  intro left
  induction left with
  | zero => exact fun order h => h
  | succ left ih =>
    intro order h
    simp only [pageOrderFrom]
    split
    · split
      · omega
      · exact ih (order + 1) (by omega)
    · omega

/-- Every size has a list. -/
theorem sizeToPageOrder_lt (size : Nat) : sizeToPageOrder size < numOfFreeList :=
  pageOrderFrom_lt size _ _ (by decide)

/-! ## What the list operations leave alone -/

/-- An entry without its list links. -/
def MemoryEntry.unlisted (e : MemoryEntry) : MemoryEntry :=
  { e with listPrev := none, listNext := none }

/-- Two allocators that differ in list links and list heads only. -/
structure ListFrame (a a' : MemoryAllocator) : Prop where
  entries : ∀ i, (a'.pool i).unlisted = (a.pool i).unlisted
  firstEntry : a'.firstEntry = a.firstEntry
  freeSize : a'.freeSize = a.freeSize

namespace ListFrame

variable {a b c : MemoryAllocator}

theorem refl (a : MemoryAllocator) : ListFrame a a := ⟨fun _ => rfl, rfl, rfl⟩

theorem trans (h : ListFrame a b) (h' : ListFrame b c) : ListFrame a c :=
  ⟨fun i => (h'.entries i).trans (h.entries i), h'.firstEntry.trans h.firstEntry,
    h'.freeSize.trans h.freeSize⟩

theorem modify (h : ListFrame a b) {f : MemoryEntry → MemoryEntry}
    (hf : ∀ e, (f e).unlisted = e.unlisted) (i : Nat) : ListFrame a (b.modify i f) := by
  refine ⟨fun j => ?_, h.firstEntry, h.freeSize⟩
  rw [modify_pool]
  split
  · rw [hf, h.entries]
  · exact h.entries j

theorem setHead (h : ListFrame a b) (o : Nat) (head : Option Nat) :
    ListFrame a (b.setHead o head) := ⟨h.entries, h.firstEntry, h.freeSize⟩

variable (h : ListFrame a b) (i : Nat)
include h

/-- A field other than the list links is the same on both sides. -/
theorem field {β : Type} (p : MemoryEntry → β) (hp : ∀ e, p e.unlisted = p e) :
    p (b.pool i) = p (a.pool i) := by
  rw [← hp, h.entries i, hp]

theorem getSize : (b.pool i).getSize = (a.pool i).getSize :=
  h.field i MemoryEntry.getSize fun _ => rfl

theorem enabled : (b.pool i).enabled = (a.pool i).enabled :=
  h.field i MemoryEntry.enabled fun _ => rfl

theorem id : (b.pool i).id = (a.pool i).id := h.field i MemoryEntry.id fun _ => rfl

theorem previous : (b.pool i).previous = (a.pool i).previous :=
  h.field i MemoryEntry.previous fun _ => rfl

theorem next : (b.pool i).next = (a.pool i).next := h.field i MemoryEntry.next fun _ => rfl

end ListFrame

/-! ## The contents of the lists -/

/-- The links of the lists by size. -/
abbrev listPrevOf (a : MemoryAllocator) : Nat → Option Nat := fun i => (a.pool i).listPrev

@[inherit_doc listPrevOf]
abbrev listNextOf (a : MemoryAllocator) : Nat → Option Nat := fun i => (a.pool i).listNext

/-- The twelve lists hold the slots `lists`, each slot in one list at most. -/
structure FreeLists (a : MemoryAllocator) (lists : Nat → List Nat) : Prop where
  linked : ∀ o < numOfFreeList, Linked (listPrevOf a) (listNextOf a) (a.freeList o) (lists o)
  disjoint : ∀ o < numOfFreeList, ∀ o' < numOfFreeList, o ≠ o' → ∀ i ∈ lists o, i ∉ lists o'
  valid : ∀ o < numOfFreeList, ∀ i ∈ lists o, i < poolSize ∧ (a.pool i).id = i

namespace FreeLists

variable {a a' : MemoryAllocator} {lists lists' : Nat → List Nat}

/-- Changes outside the listed entries, and changes that keep their links, keep the lists. -/
theorem congr (h : FreeLists a lists) (hhead : a'.freeList = a.freeList)
    (hp : ∀ o < numOfFreeList, ∀ i ∈ lists o, (a'.pool i).listPrev = (a.pool i).listPrev)
    (hn : ∀ o < numOfFreeList, ∀ i ∈ lists o, (a'.pool i).listNext = (a.pool i).listNext)
    (hid : ∀ o < numOfFreeList, ∀ i ∈ lists o, (a'.pool i).id = (a.pool i).id) :
    FreeLists a' lists := by
  refine ⟨fun o ho => ?_, h.disjoint, fun o ho i hi => ?_⟩
  · rw [hhead]
    exact (h.linked o ho).congr (hp o ho) (hn o ho)
  · rw [hid o ho i hi]
    exact h.valid o ho i hi

/-- The contents may be given by any lists that agree with them. -/
theorem of_eq (h : FreeLists a lists) (he : ∀ o < numOfFreeList, lists' o = lists o) :
    FreeLists a lists' := by
  refine ⟨fun o ho => ?_, fun o ho o' ho' hne i hi => ?_, fun o ho i hi => ?_⟩
  · rw [he o ho]
    exact h.linked o ho
  · rw [he o ho] at hi
    rw [he o' ho']
    exact h.disjoint o ho o' ho' hne i hi
  · rw [he o ho] at hi
    exact h.valid o ho i hi

/-- The references around a listed entry are its neighbours in the list. -/
theorem neighbours (h : FreeLists a lists) {o : Nat} (ho : o < numOfFreeList) {l r : List Nat}
    {x : Nat} (hs : lists o = l ++ x :: r) :
    getListPrev a x = l.getLast? ∧ getListNext a x = r.head? := by
  have hl := h.linked o ho
  rw [hs] at hl
  obtain ⟨hp, hn⟩ := hl.links
  have hval : ∀ i ∈ l ++ x :: r, i < poolSize := fun i hi => (h.valid o ho i (hs ▸ hi)).1
  constructor
  · simp only [getListPrev, hp]
    refine bind_getMemoryEntry fun i hi => hval i ?_
    exact List.mem_append_left _ (List.mem_of_getLast? hi)
  · simp only [getListNext, hn]
    refine bind_getMemoryEntry fun i hi => hval i ?_
    exact List.mem_append_right _ (List.mem_cons_of_mem x (List.mem_of_head? hi))

/-- The reference at the head of a list is its first entry. -/
theorem head_ref (h : FreeLists a lists) {o : Nat} (ho : o < numOfFreeList) :
    (a.freeList o).bind getMemoryEntry = (lists o).head? := by
  rw [(h.linked o ho).head_eq]
  exact bind_getMemoryEntry fun i hi => (h.valid o ho i (List.mem_of_head? hi)).1

end FreeLists

/-! ## Taking an entry out of its list -/

section Unchain

variable (a : MemoryAllocator) (self y : Nat)

theorem unchainFromFreelist_listNext (hy : y ≠ self) :
    ((unchainFromFreelist a self).pool y).listNext =
      if getListPrev a self = some y then (a.pool self).listNext else (a.pool y).listNext := by
  unfold unchainFromFreelist
  rcases getListPrev a self with _ | p <;> rcases getListNext a self with _ | n <;>
    simp only [modify_pool, if_neg hy, Option.some.injEq, reduceCtorEq, if_false]
  · split <;> rfl
  · by_cases hp : y = p
    · simp [hp]
    · simp [hp, Ne.symm hp]
  · by_cases hp : y = p <;> by_cases hn : y = n <;> simp_all [eq_comm]

theorem unchainFromFreelist_listPrev (hy : y ≠ self) :
    ((unchainFromFreelist a self).pool y).listPrev =
      if getListNext a self = some y then (a.pool self).listPrev else (a.pool y).listPrev := by
  unfold unchainFromFreelist
  rcases getListPrev a self with _ | p <;> rcases getListNext a self with _ | n <;>
    simp only [modify_pool, if_neg hy, Option.some.injEq, reduceCtorEq, if_false]
  · by_cases hn : y = n
    · simp [hn]
    · simp [hn, Ne.symm hn]
  · split <;> rfl
  · by_cases hp : y = p <;> by_cases hn : y = n <;> simp_all [eq_comm]

theorem unchainFromFreelist_self :
    ((unchainFromFreelist a self).pool self).listNext = none ∧
      ((unchainFromFreelist a self).pool self).listPrev = none := by
  unfold unchainFromFreelist
  simp

theorem unchainFromFreelist_freeList :
    (unchainFromFreelist a self).freeList = a.freeList := by
  unfold unchainFromFreelist
  rcases getListPrev a self with _ | p <;> rcases getListNext a self with _ | n <;> rfl

theorem unchainFromFreelist_frame : ListFrame a (unchainFromFreelist a self) := by
  unfold unchainFromFreelist
  dsimp only
  refine ListFrame.modify ?_ (by exact fun _ => rfl) self
  rcases getListPrev a self with _ | p <;> rcases getListNext a self with _ | n
  · exact .refl a
  · exact ListFrame.modify (.refl a) (by exact fun _ => rfl) _
  · exact ListFrame.modify (.refl a) (by exact fun _ => rfl) _
  · exact (ListFrame.modify (.refl a) (by exact fun _ => rfl) _).modify (by exact fun _ => rfl) _

end Unchain

theorem unchainFromOrder_frame (a : MemoryAllocator) (entry order : Nat) :
    ListFrame a (unchainFromOrder a entry order) := by
  unfold unchainFromOrder
  split
  · exact ((ListFrame.refl a).setHead _ _).trans (unchainFromFreelist_frame _ _)
  · exact unchainFromFreelist_frame _ _

/-- The head of the list the entry was filed in moves on when the entry was its head. -/
theorem unchainFromOrder_freeList (a : MemoryAllocator) (entry order o : Nat) :
    (unchainFromOrder a entry order).freeList o =
      if o = order ∧ a.freeList order = some (a.pool entry).id then (a.pool entry).listNext
      else a.freeList o := by
  unfold unchainFromOrder
  rw [unchainFromFreelist_freeList]
  split
  · rename_i h
    simp [setHead_freeList, h]
  · rename_i h
    simp [h]

theorem unchainFromOrder_links (a : MemoryAllocator) (entry order y : Nat) (hy : y ≠ entry) :
    ((unchainFromOrder a entry order).pool y).listNext =
        (if getListPrev a entry = some y then (a.pool entry).listNext else (a.pool y).listNext) ∧
      ((unchainFromOrder a entry order).pool y).listPrev =
        (if getListNext a entry = some y then (a.pool entry).listPrev
          else (a.pool y).listPrev) := by
  unfold unchainFromOrder
  rw [unchainFromFreelist_listNext _ _ _ hy, unchainFromFreelist_listPrev _ _ _ hy]
  split <;> exact ⟨rfl, rfl⟩

theorem unchainFromOrder_self (a : MemoryAllocator) (entry order : Nat) :
    ((unchainFromOrder a entry order).pool entry).listNext = none ∧
      ((unchainFromOrder a entry order).pool entry).listPrev = none :=
  unchainFromFreelist_self _ _

/-- The list links of `y` are the same in both allocators. -/
def SameLinks (a a' : MemoryAllocator) (y : Nat) : Prop :=
  (a'.pool y).listNext = (a.pool y).listNext ∧ (a'.pool y).listPrev = (a.pool y).listPrev

/-- Only the neighbours of the entry get new links. -/
theorem unchainFromOrder_sameLinks {a : MemoryAllocator} {lists : Nat → List Nat}
    (h : FreeLists a lists) {entry order y : Nat} (ho : order < numOfFreeList)
    (hmem : entry ∈ lists order) (hne : y ≠ entry) (hy : y ∉ lists order) :
    SameLinks a (unchainFromOrder a entry order) y := by
  obtain ⟨l, r, hs⟩ := List.append_of_mem hmem
  obtain ⟨hgp, hgn⟩ := h.neighbours ho hs
  obtain ⟨hn, hp⟩ := unchainFromOrder_links a entry order y hne
  rw [hgp] at hn
  rw [hgn] at hp
  constructor
  · rw [hn, if_neg]
    intro e
    exact hy (hs ▸ List.mem_append_left _ (List.mem_of_getLast? e))
  · rw [hp, if_neg]
    intro e
    exact hy (hs ▸ List.mem_append_right _ (List.mem_cons_of_mem _ (List.mem_of_head? e)))

/-- Taking an entry out of the list it is in. -/
theorem unchainFromOrder_freeLists {a : MemoryAllocator} {lists : Nat → List Nat}
    (h : FreeLists a lists) {entry order : Nat} (ho : order < numOfFreeList)
    (hmem : entry ∈ lists order) :
    FreeLists (unchainFromOrder a entry order) (unfile lists entry) := by
  obtain ⟨l, r, hs⟩ := List.append_of_mem hmem
  have hlo := h.linked order ho
  rw [hs] at hlo
  obtain ⟨hxl, hxr⟩ := hlo.notMem_split
  obtain ⟨hp, hn⟩ := hlo.links
  obtain ⟨hgp, hgn⟩ := h.neighbours ho hs
  have hid : (a.pool entry).id = entry := (h.valid order ho entry hmem).2
  have herase : unfile lists entry order = l ++ r := by
    show (lists order).erase entry = l ++ r
    rw [hs, List.erase_append_right _ hxl, List.erase_cons_head]
  have hother : ∀ o < numOfFreeList, o ≠ order → unfile lists entry o = lists o :=
    fun o ho' hne => List.erase_of_not_mem (h.disjoint order ho o ho' hne.symm entry hmem)
  have hsub : ∀ o, ∀ i ∈ unfile lists entry o, i ∈ lists o := fun o i hi => List.mem_of_mem_erase hi
  refine ⟨fun o ho' => ?_, ?_, ?_⟩
  · by_cases hoo : o = order
    · subst hoo
      rw [herase]
      refine hlo.unlink ?_ ?_ ?_
      · rw [unchainFromOrder_freeList, hid, hlo.head_eq]
        cases l with
        | nil => simpa using hn
        | cons z zs =>
          have hz : z ≠ entry := fun e => hxl (e ▸ List.mem_cons_self)
          simp [hz]
      · intro y hy
        simp only [listNextOf, (unchainFromOrder_links a entry o y hy).1, hgp, hn]
      · intro y hy
        simp only [listPrevOf, (unchainFromOrder_links a entry o y hy).2, hgn, hp]
    · -- the neighbours of the entry are in its own list, so the other lists keep their links
      rw [hother o ho' hoo]
      have hsame : ∀ y ∈ lists o, SameLinks a (unchainFromOrder a entry order) y := by
        intro y hy
        have hyo := h.disjoint o ho' order ho hoo y hy
        exact unchainFromOrder_sameLinks h ho hmem (fun e => hyo (e ▸ hmem)) hyo
      rw [unchainFromOrder_freeList, if_neg (fun hc => hoo hc.1)]
      exact (h.linked o ho').congr (fun y hy => (hsame y hy).2) fun y hy => (hsame y hy).1
  · intro o ho' o' ho'' hne i hi hi'
    exact h.disjoint o ho' o' ho'' hne i (hsub o i hi) (hsub o' i hi')
  · intro o ho' i hi
    rw [(unchainFromOrder_frame a entry order).id]
    exact h.valid o ho' i (hsub o i hi)

/-! ## Putting an entry into a list -/

/-- `a'` is `a` with `entry` linked between `p` and `n`. -/
structure Placed (a a' : MemoryAllocator) (entry : Nat) (p n : Option Nat) : Prop where
  frame : ListFrame a a'
  self_prev : (a'.pool entry).listPrev = p
  self_next : (a'.pool entry).listNext = n
  next : ∀ y ≠ entry, (a'.pool y).listNext = if p = some y then some entry else (a.pool y).listNext
  prev : ∀ y ≠ entry, (a'.pool y).listPrev = if n = some y then some entry else (a.pool y).listPrev

/-- Only the entry and its new neighbours get new links. -/
theorem Placed.sameLinks {a a' : MemoryAllocator} {entry y : Nat} {l r : List Nat}
    (h : Placed a a' entry l.getLast? r.head?) (hne : y ≠ entry) (hy : y ∉ l ++ r) :
    SameLinks a a' y := by
  constructor
  · rw [h.next y hne, if_neg]
    exact fun e => hy (List.mem_append_left _ (List.mem_of_getLast? e))
  · rw [h.prev y hne, if_neg]
    exact fun e => hy (List.mem_append_right _ (List.mem_of_head? e))

section Place

variable {a : MemoryAllocator} {entry p n : Nat}

theorem chainListAfter_frame : ListFrame a (chainListAfter a p entry) :=
  ListFrame.modify (ListFrame.modify (.refl a) (by exact fun _ => rfl) p) (by exact fun _ => rfl)
    entry

theorem chainListBefore_frame : ListFrame a (chainListBefore a entry n) :=
  ListFrame.modify (ListFrame.modify (.refl a) (by exact fun _ => rfl) entry)
    (by exact fun _ => rfl) n

theorem chainListAfter_placed (hid : (a.pool entry).id = entry) (hp : (a.pool p).id = p)
    (hpe : p ≠ entry) (hn : (a.pool entry).listNext = none) :
    Placed a (chainListAfter a p entry) entry (some p) none := by
  refine ⟨chainListAfter_frame, ?_, ?_, fun y hy => ?_, fun y hy => ?_⟩
  · simp [chainListAfter, hp]
  · simp [chainListAfter, modify_pool, hpe.symm, hn]
  · by_cases hyp : y = p
    · simp [chainListAfter, modify_pool, hyp, hpe, hid]
    · simp [chainListAfter, modify_pool, hy, hyp, Ne.symm hyp]
  · by_cases hyp : y = p
    · simp [chainListAfter, modify_pool, hyp, hpe]
    · simp [chainListAfter, modify_pool, hy, hyp]

theorem chainListBefore_placed (hid : (a.pool entry).id = entry) (hn : (a.pool n).id = n)
    (hne : n ≠ entry) (hp : (a.pool entry).listPrev = none) :
    Placed a (chainListBefore a entry n) entry none (some n) := by
  refine ⟨chainListBefore_frame, ?_, ?_, fun y hy => ?_, fun y hy => ?_⟩
  · simp [chainListBefore, modify_pool, hne.symm, hp]
  · simp [chainListBefore, modify_pool, hne.symm, hn]
  · by_cases hyn : y = n
    · simp [chainListBefore, modify_pool, hyn, hne]
    · simp [chainListBefore, modify_pool, hy, hyn]
  · by_cases hyn : y = n
    · simp [chainListBefore, modify_pool, hyn, hid]
    · simp [chainListBefore, modify_pool, hy, hyn, Ne.symm hyn]

/-- Linking an entry that already stands behind `p` before `n`. -/
theorem Placed.before {a' : MemoryAllocator} (h : Placed a a' entry (some p) none)
    (hid : (a.pool entry).id = entry) (hn : (a.pool n).id = n) (hne : n ≠ entry) :
    Placed a (chainListBefore a' entry n) entry (some p) (some n) := by
  have hid' : (a'.pool entry).id = entry := (h.frame.id entry).trans hid
  have hn' : (a'.pool n).id = n := (h.frame.id n).trans hn
  refine ⟨h.frame.trans chainListBefore_frame, ?_, ?_, fun y hy => ?_, fun y hy => ?_⟩
  · simp [chainListBefore, modify_pool, hne.symm, h.self_prev]
  · simp [chainListBefore, modify_pool, hne.symm, hn']
  · rw [← h.next y hy]
    by_cases hyn : y = n
    · simp [chainListBefore, modify_pool, hyn, hne]
    · simp [chainListBefore, modify_pool, hy, hyn]
  · have hprev : (a'.pool y).listPrev = (a.pool y).listPrev := by
      rw [h.prev y hy, if_neg (by simp)]
    by_cases hyn : y = n
    · simp [chainListBefore, modify_pool, hyn, hid']
    · simp [chainListBefore, modify_pool, hy, hyn, Ne.symm hyn, hprev]

end Place

/-- The lists after an entry outside them was linked into one of them. -/
theorem FreeLists.place {a a' : MemoryAllocator} {lists : Nat → List Nat} (h : FreeLists a lists)
    {entry order : Nat} {l r : List Nat} (ho : order < numOfFreeList)
    (hvalid : entry < poolSize ∧ (a.pool entry).id = entry)
    (hout : ∀ o < numOfFreeList, entry ∉ lists o) (hs : lists order = l ++ r)
    (hp : Placed a a' entry l.getLast? r.head?)
    (hhead : ∀ o, a'.freeList o = if o = order ∧ l = [] then some entry else a.freeList o) :
    FreeLists a' fun o => if o = order then l ++ entry :: r else lists o := by
  have hmem : ∀ o < numOfFreeList, ∀ i, i ∈ (if o = order then l ++ entry :: r else lists o) ↔
      i ∈ lists o ∨ (o = order ∧ i = entry) := by
    intro o _ i
    split
    · rename_i hoo
      rw [hoo, hs]
      simp only [List.mem_append, List.mem_cons, true_and]
      tauto
    · rename_i hoo
      simp [hoo]
  refine ⟨fun o ho' => ?_, fun o ho' o' ho'' hne i hi hi' => ?_, fun o ho' i hi => ?_⟩
  · by_cases hoo : o = order
    · subst hoo
      have hl := h.linked o ho'
      rw [hs] at hl
      simp only [if_true]
      refine hl.insert (hs ▸ hout o ho') ?_ hp.self_prev hp.self_next hp.next hp.prev
      rw [hhead]
      simp
    · simp only [if_neg hoo]
      have hyx : ∀ y ∈ lists o, y ≠ entry := fun y hy e => hout o ho' (e ▸ hy)
      have hyo : ∀ y ∈ lists o, y ∉ l ++ r := fun y hy =>
        hs ▸ h.disjoint o ho' order ho hoo y hy
      rw [hhead, if_neg (fun hc => hoo hc.1)]
      have hsame : ∀ y ∈ lists o, SameLinks a a' y := fun y hy =>
        hp.sameLinks (hyx y hy) (hyo y hy)
      exact (h.linked o ho').congr (fun y hy => (hsame y hy).2) fun y hy => (hsame y hy).1
  · rw [hmem o ho'] at hi
    rw [hmem o' ho''] at hi'
    rcases hi with hi | ⟨rfl, rfl⟩
    · rcases hi' with hi' | ⟨rfl, rfl⟩
      · exact h.disjoint o ho' o' ho'' hne i hi hi'
      · exact hout o ho' hi
    · rcases hi' with hi' | ⟨rfl, -⟩
      · exact hout o' ho'' hi'
      · exact hne rfl
  · rw [hmem o ho'] at hi
    rw [hp.frame.id]
    rcases hi with hi | ⟨-, rfl⟩
    · exact h.valid o ho' i hi
    · exact hvalid

/-- The loop of `chain_entry_to_free_list` stops behind the last smaller entry. -/
theorem chainAfterSmaller_placed {a : MemoryAllocator} {lists : Nat → List Nat}
    (h : FreeLists a lists) {entry order : Nat} {r : List Nat} (ho : order < numOfFreeList)
    (hid : (a.pool entry).id = entry) (hout : entry ∉ lists order)
    (hnext : (a.pool entry).listNext = none)
    (hr : ∀ y, r.head? = some y → (a.pool entry).getSize ≤ (a.pool y).getSize) :
    ∀ (l' l : List Nat) (y fuel : Nat), lists order = l ++ y :: (l' ++ r) → l'.length < fuel →
      (∀ z ∈ l', (a.pool z).getSize < (a.pool entry).getSize) →
      ∃ a', chainAfterSmaller a entry fuel y = .ok a' ∧ a'.freeList = a.freeList ∧
        Placed a a' entry (y :: l').getLast? r.head? := by
  intro l'
  induction l' with
  | nil =>
    intro l y fuel hs hfuel _
    obtain ⟨fuel, rfl⟩ : ∃ k, fuel = k + 1 := ⟨fuel - 1, by simp at hfuel; omega⟩
    have hyo : y ∈ lists order := by rw [hs]; simp
    have hye : y ≠ entry := fun e => hout (e ▸ hyo)
    have hplaced := chainListAfter_placed hid (h.valid order ho y hyo).2 hye hnext
    simp only [chainAfterSmaller, (h.neighbours ho hs).2, List.nil_append]
    cases r with
    | nil => exact ⟨_, rfl, rfl, hplaced⟩
    | cons n r =>
      have hno : n ∈ lists order := by rw [hs]; simp
      simp only [List.head?_cons, if_pos (hr n rfl)]
      exact ⟨_, rfl, rfl, hplaced.before hid (h.valid order ho n hno).2
        fun e => hout (e ▸ hno)⟩
  | cons z l' ih =>
    intro l y fuel hs hfuel hlt
    obtain ⟨fuel, rfl⟩ : ∃ k, fuel = k + 1 := ⟨fuel - 1, by simp at hfuel; omega⟩
    have hz := hlt z List.mem_cons_self
    have hstep : chainAfterSmaller a entry (fuel + 1) y = chainAfterSmaller a entry fuel z := by
      simp only [chainAfterSmaller, (h.neighbours ho hs).2, List.cons_append, List.head?_cons]
      exact if_neg (by omega)
    have hlast : (y :: z :: l').getLast? = (z :: l').getLast? := by
      simp [List.getLast?_eq_some_getLast]
    rw [hstep, hlast]
    refine ih (l ++ [y]) z fuel (by rw [hs]; simp) ?_ fun w hw => hlt w (List.mem_cons_of_mem _ hw)
    simpa using hfuel

/-- A list has at most as many entries as the pool. -/
theorem FreeLists.length_le {a : MemoryAllocator} {lists : Nat → List Nat} (h : FreeLists a lists)
    {o : Nat} (ho : o < numOfFreeList) : (lists o).length ≤ poolSize := by
  have hsub : lists o ⊆ List.range poolSize := fun i hi =>
    List.mem_range.2 (h.valid o ho i hi).1
  have hle := ((h.linked o ho).nodup.subperm hsub).length_le
  simpa using hle

/-- The sizes by which the entries of a pool are filed. -/
abbrev sizeOf (a : MemoryAllocator) : Nat → Nat := fun i => (a.pool i).getSize

/-- An entry outside the lists is put into the list of its size. -/
theorem insertToFreeList_freeLists {a : MemoryAllocator} {lists : Nat → List Nat}
    (h : FreeLists a lists) {entry : Nat} (hvalid : entry < poolSize ∧ (a.pool entry).id = entry)
    (hout : ∀ o < numOfFreeList, entry ∉ lists o) (hnext : (a.pool entry).listNext = none)
    (hprev : (a.pool entry).listPrev = none) :
    ∃ a', insertToFreeList a entry = .ok a' ∧ ListFrame a a' ∧
      (∀ y, y ≠ entry → (∀ o < numOfFreeList, y ∉ lists o) → SameLinks a a' y) ∧
      FreeLists a' (refile sizeToPageOrder (sizeOf a) lists entry) := by
  have ho := sizeToPageOrder_lt (a.pool entry).getSize
  generalize horder : sizeToPageOrder (a.pool entry).getSize = order at ho
  obtain ⟨l, r, hs, hins, hl, hr⟩ := insertByKey_eq_split (sizeOf a) entry (lists order)
  have hrefile : ∀ o < numOfFreeList, refile sizeToPageOrder (sizeOf a) lists entry o =
      if o = order then l ++ entry :: r else lists o := by
    intro o ho'
    simp only [refile, sizeOf, horder, List.erase_of_not_mem (hout o ho')]
    split
    · rename_i hoo
      rw [hoo, hins]
    · rfl
  have hrun : ∃ a', insertToFreeList a entry = .ok a' ∧ Placed a a' entry l.getLast? r.head? ∧
      ∀ o, a'.freeList o = if o = order ∧ l = [] then some entry else a.freeList o := by
    simp only [insertToFreeList, hnext, hprev, beq_self_eq_true, assertThat_true, ok_bind, horder,
      h.head_ref ho, hs, hvalid.2]
    cases l with
    | nil =>
      cases r with
      | nil =>
        refine ⟨a.setHead order (some entry), rfl, ?_, fun o => by simp [setHead_freeList]⟩
        exact ⟨(ListFrame.refl a).setHead _ _, hprev, hnext, fun _ _ => by simp, fun _ _ => by simp⟩
      | cons n r =>
        have hno : n ∈ lists order := by rw [hs]; simp
        have hplaced := chainListBefore_placed hvalid.2 (h.valid order ho n hno).2
          (fun e => hout order ho (e ▸ hno)) hprev
        simp only [List.nil_append, List.head?_cons, if_pos (hr n rfl)]
        refine ⟨_, rfl, ?_, fun o => by simp [setHead_freeList]; rfl⟩
        exact ⟨hplaced.frame.setHead _ _, hplaced.self_prev, hplaced.self_next, hplaced.next,
          hplaced.prev⟩
    | cons y l =>
      have hlen := h.length_le ho
      rw [hs] at hlen
      obtain ⟨a', hrun, hfl, hplaced⟩ := chainAfterSmaller_placed h ho hvalid.2
        (hout order ho) hnext
        hr l [] y poolSize hs (by simp at hlen; omega)
        fun z hz => hl z (List.mem_cons_of_mem _ hz)
      have hy : ¬(a.pool y).getSize ≥ (a.pool entry).getSize := not_le.2 (hl y List.mem_cons_self)
      simp only [List.cons_append, List.head?_cons, if_neg hy]
      exact ⟨a', hrun, hplaced, fun o => by simp [hfl]⟩
  obtain ⟨a', hok, hplaced, hhead⟩ := hrun
  exact ⟨a', hok, hplaced.frame, fun y hy hyo => hplaced.sameLinks hy (hs ▸ hyo order ho),
    (h.place ho hvalid hout hs hplaced hhead).of_eq hrefile⟩

/-- An entry that is filed under its old size is moved to the list of its present size. -/
theorem chainEntryToFreeList_freeLists {a : MemoryAllocator} {lists : Nat → List Nat}
    (h : FreeLists a lists) {entry oldSize : Nat}
    (hmem : entry ∈ lists (sizeToPageOrder oldSize)) (hne : oldSize ≠ (a.pool entry).getSize) :
    ∃ a', chainEntryToFreeList a entry (some oldSize) = .ok a' ∧ ListFrame a a' ∧
      (∀ y, y ≠ entry → (∀ o < numOfFreeList, y ∉ lists o) → SameLinks a a' y) ∧
      FreeLists a' (refile sizeToPageOrder (sizeOf a) lists entry) := by
  have ho := sizeToPageOrder_lt oldSize
  have hframe := unchainFromOrder_frame a entry (sizeToPageOrder oldSize)
  have hun := unchainFromOrder_freeLists h ho hmem
  obtain ⟨hn, hp⟩ := unchainFromOrder_self a entry (sizeToPageOrder oldSize)
  have hvalid := h.valid _ ho entry hmem
  have hout : ∀ o < numOfFreeList, entry ∉ unfile lists entry o := fun o ho' =>
    (h.linked o ho').nodup.not_mem_erase
  obtain ⟨a', hok, hframe', hlinks, hfl⟩ := insertToFreeList_freeLists hun
    ⟨hvalid.1, (hframe.id entry).trans hvalid.2⟩ hout hn hp
  refine ⟨a', ?_, hframe.trans hframe', fun y hy hyo => ?_, hfl.of_eq fun o ho' => ?_⟩
  · simp only [chainEntryToFreeList, if_neg hne]
    exact hok
  · have h₁ := unchainFromOrder_sameLinks h ho hmem hy (hyo _ ho)
    have h₂ := hlinks y hy fun o ho' hyu => hyo o ho' (List.mem_of_mem_erase hyu)
    exact ⟨h₂.1.trans h₁.1, h₂.2.trans h₁.2⟩
  · have hkey : sizeOf (unchainFromOrder a entry (sizeToPageOrder oldSize)) = sizeOf a :=
      funext hframe.getSize
    have he : (unfile lists entry o).erase entry = (lists o).erase entry :=
      List.erase_of_not_mem (hout o ho')
    rw [hkey]
    simp only [refile, he]

end MiniVisor.Allocator
