import MiniVisor.Allocator.FreeLists
import MiniVisor.Lib.Intervals

/-!
# The representation invariant

`Rep a chain lists` is the invariant of `MemoryAllocator`: the enabled entries form the address
chain `chain`, doubly linked and coalesced; the twelve lists `lists` hold each of them once, in the
list of its size and sorted by size; and `free_size` adds up the entries. Under it the free bytes of
the pool are the cover of the chain's ranges and `free_size` is their number.

The invariant has two halves that are edited independently. `AddressChain` is about the links by
address; `AddressChain.delete` and `AddressChain.insert` are its edits. `Filing` is about the lists;
`Filing.rechain`, `Filing.insert` and `Filing.unchain` are its edits.
-/

set_option autoImplicit false

namespace MiniVisor.Allocator

open MiniVisor.Lib

/-! ## Writing a range -/

/-- The effect of a `set_range` that passes its assertion. -/
def MemoryAllocator.withRange (a : MemoryAllocator) (entry start stop : Nat) (h : start ≤ stop) :
    MemoryAllocator :=
  a.modify entry fun e => { e with start := start, stop := stop, start_le_stop := h }

theorem setRangeAt_eq (a : MemoryAllocator) (entry : Nat) {start stop : Nat} (h : start ≤ stop) :
    setRangeAt a entry start stop = .ok (a.withRange entry start stop h) := by
  have hpool : (a.modify entry fun _ =>
      { a.pool entry with start := start, stop := stop, start_le_stop := h }) =
      a.withRange entry start stop h := by
    simp only [MemoryAllocator.withRange, MemoryAllocator.modify]
    congr 1
    funext j
    by_cases hj : j = entry
    · rw [if_pos hj, if_pos hj, hj]
    · rw [if_neg hj, if_neg hj]
  simp only [setRangeAt, MemoryEntry.setRange, dif_pos h, ok_bind]
  rw [hpool]
  rfl

/-- The range of a slot. -/
def rangeAt (a : MemoryAllocator) (i : Nat) : Nat × Nat := ((a.pool i).start, (a.pool i).stop)

section WithRange

variable (a : MemoryAllocator) (entry i : Nat) {start stop : Nat} (h : start ≤ stop)

theorem withRange_rangeAt : rangeAt (a.withRange entry start stop h) i =
    if i = entry then (start, stop) else rangeAt a i := by
  simp only [rangeAt, MemoryAllocator.withRange, modify_pool]
  split <;> rfl

@[simp] theorem withRange_previous :
    ((a.withRange entry start stop h).pool i).previous = (a.pool i).previous := by
  simp only [MemoryAllocator.withRange, modify_pool]
  split <;> rfl

@[simp] theorem withRange_next :
    ((a.withRange entry start stop h).pool i).next = (a.pool i).next := by
  simp only [MemoryAllocator.withRange, modify_pool]
  split <;> rfl

@[simp] theorem withRange_listPrev :
    ((a.withRange entry start stop h).pool i).listPrev = (a.pool i).listPrev := by
  simp only [MemoryAllocator.withRange, modify_pool]
  split <;> rfl

@[simp] theorem withRange_listNext :
    ((a.withRange entry start stop h).pool i).listNext = (a.pool i).listNext := by
  simp only [MemoryAllocator.withRange, modify_pool]
  split <;> rfl

@[simp] theorem withRange_enabled :
    ((a.withRange entry start stop h).pool i).enabled = (a.pool i).enabled := by
  simp only [MemoryAllocator.withRange, modify_pool]
  split <;> rfl

@[simp] theorem withRange_id :
    ((a.withRange entry start stop h).pool i).id = (a.pool i).id := by
  simp only [MemoryAllocator.withRange, modify_pool]
  split <;> rfl

@[simp] theorem withRange_self_start :
    ((a.withRange entry start stop h).pool entry).start = start := by
  simp [MemoryAllocator.withRange]

@[simp] theorem withRange_self_stop :
    ((a.withRange entry start stop h).pool entry).stop = stop := by
  simp [MemoryAllocator.withRange]

theorem withRange_pool_of_ne (hne : i ≠ entry) :
    (a.withRange entry start stop h).pool i = a.pool i := if_neg hne

@[simp] theorem withRange_firstEntry :
    (a.withRange entry start stop h).firstEntry = a.firstEntry := rfl

@[simp] theorem withRange_freeSize : (a.withRange entry start stop h).freeSize = a.freeSize := rfl

@[simp] theorem withRange_freeList : (a.withRange entry start stop h).freeList = a.freeList := rfl

end WithRange

theorem getSize_eq_range (a : MemoryAllocator) (i : Nat) :
    (a.pool i).getSize = (rangeAt a i).2 - (rangeAt a i).1 + 1 := rfl

theorem ListFrame.rangeAt {a b : MemoryAllocator} (h : ListFrame a b) (i : Nat) :
    rangeAt b i = Allocator.rangeAt a i :=
  h.field i (fun e => (e.start, e.stop)) fun _ => rfl

theorem ListFrame.sizeOf {a b : MemoryAllocator} (h : ListFrame a b) : sizeOf b = sizeOf a :=
  funext h.getSize

/-! ## What the address links leave alone -/

/-- An entry without its address links and its enabled flag. -/
def MemoryEntry.unchained (e : MemoryEntry) : MemoryEntry :=
  { e with previous := none, next := none, enabled := false }

/-- Two allocators that differ in address links, enabled flags and the first entry only. -/
structure ChainFrame (a a' : MemoryAllocator) : Prop where
  entries : ∀ i, (a'.pool i).unchained = (a.pool i).unchained
  freeList : a'.freeList = a.freeList
  freeSize : a'.freeSize = a.freeSize

namespace ChainFrame

variable {a b c : MemoryAllocator}

theorem refl (a : MemoryAllocator) : ChainFrame a a := ⟨fun _ => rfl, rfl, rfl⟩

theorem trans (h : ChainFrame a b) (h' : ChainFrame b c) : ChainFrame a c :=
  ⟨fun i => (h'.entries i).trans (h.entries i), h'.freeList.trans h.freeList,
    h'.freeSize.trans h.freeSize⟩

theorem modify (h : ChainFrame a b) {f : MemoryEntry → MemoryEntry}
    (hf : ∀ e, (f e).unchained = e.unchained) (i : Nat) : ChainFrame a (b.modify i f) := by
  refine ⟨fun j => ?_, h.freeList, h.freeSize⟩
  rw [modify_pool]
  split
  · rw [hf, h.entries]
  · exact h.entries j

variable (h : ChainFrame a b) (i : Nat)
include h

/-- A field other than the address links and the flag is the same on both sides. -/
theorem field {β : Type} (p : MemoryEntry → β) (hp : ∀ e, p e.unchained = p e) :
    p (b.pool i) = p (a.pool i) := by
  rw [← hp, h.entries i, hp]

theorem rangeAt : rangeAt b i = Allocator.rangeAt a i :=
  h.field i (fun e => (e.start, e.stop)) fun _ => rfl

theorem sizeOf : sizeOf b = Allocator.sizeOf a :=
  funext fun i => h.field i MemoryEntry.getSize fun _ => rfl

theorem id : (b.pool i).id = (a.pool i).id := h.field i MemoryEntry.id fun _ => rfl

theorem listPrev : (b.pool i).listPrev = (a.pool i).listPrev :=
  h.field i MemoryEntry.listPrev fun _ => rfl

theorem listNext : (b.pool i).listNext = (a.pool i).listNext :=
  h.field i MemoryEntry.listNext fun _ => rfl

omit i in
theorem freeLists {lists : Nat → List Nat} (hl : FreeLists a lists) : FreeLists b lists :=
  hl.congr h.freeList (fun _ _ i _ => h.listPrev i) (fun _ _ i _ => h.listNext i)
    fun _ _ i _ => h.id i

end ChainFrame

theorem setNextEntry_frame (a : MemoryAllocator) (self next : Nat) :
    ChainFrame a (setNextEntry a self next) :=
  ChainFrame.modify (.refl a) (by exact fun _ => rfl) self

theorem setPrevEntry_frame (a : MemoryAllocator) (self prev : Nat) :
    ChainFrame a (setPrevEntry a self prev) :=
  ChainFrame.modify (.refl a) (by exact fun _ => rfl) self

theorem chainAfterMe_frame (a : MemoryAllocator) (self entry : Nat) :
    ChainFrame a (chainAfterMe a self entry) :=
  (setNextEntry_frame a self entry).trans (setPrevEntry_frame _ entry self)

theorem delete_frame (a : MemoryAllocator) (self : Nat) : ChainFrame a (delete a self) := by
  unfold delete
  refine ChainFrame.modify ?_ (by exact fun _ => rfl) self
  split
  · split
    · exact chainAfterMe_frame _ _ _
    · exact ChainFrame.modify (.refl a) (by exact fun _ => rfl) _
  · split
    · exact ChainFrame.modify (.refl a) (by exact fun _ => rfl) _
    · exact .refl a

section Links

variable (a : MemoryAllocator) (self entry i : Nat)

theorem setNextEntry_next : ((setNextEntry a self entry).pool i).next =
    if i = self then some (a.pool entry).id else (a.pool i).next := by
  simp only [setNextEntry, modify_pool]
  split <;> rfl

@[simp] theorem setNextEntry_previous :
    ((setNextEntry a self entry).pool i).previous = (a.pool i).previous := by
  simp only [setNextEntry, modify_pool]
  split <;> rfl

@[simp] theorem setNextEntry_enabled :
    ((setNextEntry a self entry).pool i).enabled = (a.pool i).enabled := by
  simp only [setNextEntry, modify_pool]
  split <;> rfl

theorem setPrevEntry_previous : ((setPrevEntry a self entry).pool i).previous =
    if i = self then some (a.pool entry).id else (a.pool i).previous := by
  simp only [setPrevEntry, modify_pool]
  split <;> rfl

@[simp] theorem setPrevEntry_next :
    ((setPrevEntry a self entry).pool i).next = (a.pool i).next := by
  simp only [setPrevEntry, modify_pool]
  split <;> rfl

@[simp] theorem setPrevEntry_enabled :
    ((setPrevEntry a self entry).pool i).enabled = (a.pool i).enabled := by
  simp only [setPrevEntry, modify_pool]
  split <;> rfl

theorem chainAfterMe_next : ((chainAfterMe a self entry).pool i).next =
    if i = self then some (a.pool entry).id else (a.pool i).next := by
  rw [chainAfterMe, setPrevEntry_next, setNextEntry_next]

theorem chainAfterMe_previous : ((chainAfterMe a self entry).pool i).previous =
    if i = entry then some (a.pool self).id else (a.pool i).previous := by
  rw [chainAfterMe, setPrevEntry_previous, setNextEntry_previous,
    (setNextEntry_frame a self entry).id]

@[simp] theorem chainAfterMe_enabled :
    ((chainAfterMe a self entry).pool i).enabled = (a.pool i).enabled := by
  rw [chainAfterMe, setPrevEntry_enabled, setNextEntry_enabled]

@[simp] theorem chainAfterMe_firstEntry : (chainAfterMe a self entry).firstEntry = a.firstEntry :=
  rfl

end Links

/-! ## The chain by address -/

/-- The links of the chain by address. -/
abbrev prevOf (a : MemoryAllocator) : Nat → Option Nat := fun i => (a.pool i).previous

@[inherit_doc prevOf]
abbrev nextOf (a : MemoryAllocator) : Nat → Option Nat := fun i => (a.pool i).next

/-- The enabled entries are linked in the order `chain`, from the first entry on. -/
structure AddressChain (a : MemoryAllocator) (chain : List Nat) : Prop where
  linked : Linked (prevOf a) (nextOf a) a.firstEntry chain
  mem : ∀ i, i ∈ chain ↔ i < poolSize ∧ (a.pool i).enabled
  id : ∀ i ∈ chain, (a.pool i).id = i

namespace AddressChain

variable {a a' : MemoryAllocator} {l r chain : List Nat} {x : Nat}

theorem congr (h : AddressChain a chain) (hfirst : a'.firstEntry = a.firstEntry)
    (hp : ∀ i, (a'.pool i).previous = (a.pool i).previous)
    (hn : ∀ i, (a'.pool i).next = (a.pool i).next)
    (he : ∀ i, (a'.pool i).enabled = (a.pool i).enabled)
    (hid : ∀ i, (a'.pool i).id = (a.pool i).id) : AddressChain a' chain := by
  refine ⟨?_, fun i => ?_, fun i hi => ?_⟩
  · rw [hfirst]
    exact h.linked.congr (fun i _ => hp i) fun i _ => hn i
  · rw [he]
    exact h.mem i
  · rw [hid]
    exact h.id i hi

theorem listFrame (h : AddressChain a chain) (hf : ListFrame a a') : AddressChain a' chain :=
  h.congr hf.firstEntry hf.previous hf.next hf.enabled hf.id

theorem withRange (h : AddressChain a chain) (entry : Nat) {start stop : Nat}
    (hs : start ≤ stop) : AddressChain (a.withRange entry start stop hs) chain :=
  h.congr rfl (fun i => by simp) (fun i => by simp) (fun i => by simp) fun i => by simp

theorem lt (h : AddressChain a chain) (hx : x ∈ chain) : x < poolSize := ((h.mem x).1 hx).1

theorem getNextEntry_eq (h : AddressChain a (l ++ x :: r)) : getNextEntry a x = r.head? := by
  have hn : (a.pool x).next = r.head? := h.linked.links.2
  simp only [getNextEntry, hn]
  refine bind_getMemoryEntry fun i hi => h.lt ?_
  exact List.mem_append_right _ (List.mem_cons_of_mem _ (List.mem_of_head? hi))

theorem getPrevEntry_eq (h : AddressChain a (l ++ x :: r)) : getPrevEntry a x = l.getLast? := by
  have hp : (a.pool x).previous = l.getLast? := h.linked.links.1
  simp only [getPrevEntry, hp]
  refine bind_getMemoryEntry fun i hi => h.lt ?_
  exact List.mem_append_left _ (List.mem_of_getLast? hi)

theorem isFirstEntry_eq (h : AddressChain a (l ++ x :: r)) :
    (a.pool x).isFirstEntry = l.isEmpty := by
  have hp : (a.pool x).previous = l.getLast? := h.linked.links.1
  rw [MemoryEntry.isFirstEntry, hp]
  cases l with
  | nil => rfl
  | cons y ys => simp [List.getLast?_eq_some_getLast]

theorem firstEntry_eq (h : AddressChain a chain) :
    a.firstEntry.bind getMemoryEntry = chain.head? := by
  rw [h.linked.head_eq]
  exact bind_getMemoryEntry fun i hi => h.lt (List.mem_of_head? hi)

theorem length_le (h : AddressChain a chain) : chain.length ≤ poolSize := by
  have hsub : chain ⊆ List.range poolSize := fun i hi => List.mem_range.2 (h.lt hi)
  simpa using (h.linked.nodup.subperm hsub).length_le

/-- The links after `delete`, of every entry but the deleted one. -/
theorem delete_links {p n : Option Nat} (hp : getPrevEntry a x = p) (hn : getNextEntry a x = n)
    (hpid : ∀ i, p = some i → (a.pool i).id = i) (hnid : ∀ i, n = some i → (a.pool i).id = i)
    (y : Nat) (hy : y ≠ x) :
    ((Allocator.delete a x).pool y).next = (if p = some y then n else (a.pool y).next) ∧
      ((Allocator.delete a x).pool y).previous =
        (if n = some y then p else (a.pool y).previous) ∧
      ((Allocator.delete a x).pool y).enabled = (a.pool y).enabled := by
  simp only [Allocator.delete, modify_pool, if_neg hy, hp, hn]
  rcases p with _ | p <;> rcases n with _ | n
  · simp
  · by_cases hyn : y = n
    · simp [hyn]
    · simp [modify_pool, hyn, Ne.symm hyn]
  · by_cases hyp : y = p
    · simp [hyp]
    · simp [modify_pool, hyp, Ne.symm hyp]
  · simp only [chainAfterMe_next, chainAfterMe_previous, chainAfterMe_enabled, hpid p rfl,
      hnid n rfl, Option.some.injEq, eq_comm (a := y), and_true]

theorem delete_self (a : MemoryAllocator) (x : Nat) :
    ((Allocator.delete a x).pool x).enabled = false := by
  simp [Allocator.delete]

theorem delete_firstEntry (a : MemoryAllocator) (x : Nat) :
    (Allocator.delete a x).firstEntry = a.firstEntry := by
  unfold Allocator.delete
  rcases getPrevEntry a x with _ | p <;> rcases getNextEntry a x with _ | n <;> rfl

/-- Deleting an entry. The first entry was moved on before, when it was this one. -/
theorem delete (first : Option Nat) (h : AddressChain { a with firstEntry := first } (l ++ x :: r))
    (hfirst : a.firstEntry = if l = [] then r.head? else first) :
    AddressChain (Allocator.delete a x) (l ++ r) := by
  obtain ⟨hxl, hxr⟩ := h.linked.notMem_split
  have hlinks := delete_links (a := a) h.getPrevEntry_eq h.getNextEntry_eq
    (fun p hp => h.id p (List.mem_append_left _ (List.mem_of_getLast? hp)))
    fun n hn => h.id n (List.mem_append_right _ (List.mem_cons_of_mem _ (List.mem_of_head? hn)))
  refine ⟨h.linked.unlink ?_ (fun y hy => (hlinks y hy).1) fun y hy => (hlinks y hy).2.1,
    fun i => ?_, fun i hi => ?_⟩
  · rw [delete_firstEntry]
    exact hfirst
  · by_cases hix : i = x
    · subst hix
      simp [hxl, hxr, delete_self]
    · have hm := h.mem i
      simp only [List.mem_append, List.mem_cons, hix, false_or] at hm ⊢
      rw [(hlinks i hix).2.2]
      exact hm
  · rw [(delete_frame a x).id]
    refine h.id i ?_
    simp only [List.mem_append, List.mem_cons] at hi ⊢
    tauto

/-- Linking an entry from outside into the chain. -/
theorem insert {n : Nat} (h : AddressChain a (l ++ r)) (hn : n ∉ l ++ r) (hlt : n < poolSize)
    (hnid : (a'.pool n).id = n) (hnen : (a'.pool n).enabled)
    (hfirst : a'.firstEntry = if l = [] then some n else a.firstEntry)
    (hnp : (a'.pool n).previous = l.getLast?) (hnn : (a'.pool n).next = r.head?)
    (hnext : ∀ y, y ≠ n →
      (a'.pool y).next = if l.getLast? = some y then some n else (a.pool y).next)
    (hprev : ∀ y, y ≠ n →
      (a'.pool y).previous = if r.head? = some y then some n else (a.pool y).previous)
    (hen : ∀ y, y ≠ n → (a'.pool y).enabled = (a.pool y).enabled)
    (hid : ∀ y, y ≠ n → (a'.pool y).id = (a.pool y).id) : AddressChain a' (l ++ n :: r) := by
  refine ⟨h.linked.insert hn hfirst hnp hnn hnext hprev, fun i => ?_, fun i hi => ?_⟩
  · by_cases hin : i = n
    · subst hin
      simp [hlt, hnen]
    · have hm := h.mem i
      simp only [List.mem_append, List.mem_cons, hin, false_or] at hm ⊢
      rw [hen i hin]
      exact hm
  · by_cases hin : i = n
    · rw [hin, hnid]
    · rw [hid i hin]
      refine h.id i ?_
      simp only [List.mem_append, List.mem_cons, hin, false_or] at hi ⊢
      exact hi

/-- Linking an entry from outside behind `x`. -/
theorem insertAfter {n : Nat} (h : AddressChain a (l ++ x :: r)) (hn : n ∉ l ++ x :: r)
    (hlt : n < poolSize)
    (hnext : ∀ y, (a'.pool y).next =
      if y = n then r.head? else if y = x then some n else (a.pool y).next)
    (hprev : ∀ y, (a'.pool y).previous =
      if y = n then some x else if r.head? = some y then some n else (a.pool y).previous)
    (hen : ∀ y, (a'.pool y).enabled = if y = n then true else (a.pool y).enabled)
    (hid : ∀ y, (a'.pool y).id = if y = n then n else (a.pool y).id)
    (hfirst : a'.firstEntry = a.firstEntry) : AddressChain a' (l ++ x :: n :: r) := by
  have hsplit : ∀ m : List Nat, l ++ x :: m = (l ++ [x]) ++ m := fun m => by simp
  rw [hsplit] at h hn ⊢
  refine h.insert hn hlt ?_ ?_ ?_ ?_ ?_ ?_ ?_ ?_ ?_
  · rw [hid, if_pos rfl]
  · rw [hen, if_pos rfl]
  · rw [hfirst, if_neg (by simp)]
  · rw [hprev, if_pos rfl]
    simp
  · rw [hnext, if_pos rfl]
  · intro y hy
    rw [hnext, if_neg hy]
    simp [eq_comm]
  · intro y hy
    rw [hprev, if_neg hy]
  · intro y hy
    rw [hen, if_neg hy]
  · intro y hy
    rw [hid, if_neg hy]

/-- Linking an entry from outside before the first one. -/
theorem insertFirst {n : Nat} (h : AddressChain a (x :: r)) (hn : n ∉ x :: r) (hlt : n < poolSize)
    (hnext : ∀ y, (a'.pool y).next = if y = n then some x else (a.pool y).next)
    (hprev : ∀ y, (a'.pool y).previous =
      if y = n then none else if y = x then some n else (a.pool y).previous)
    (hen : ∀ y, (a'.pool y).enabled = if y = n then true else (a.pool y).enabled)
    (hid : ∀ y, (a'.pool y).id = if y = n then n else (a.pool y).id)
    (hfirst : a'.firstEntry = some n) : AddressChain a' (n :: x :: r) := by
  refine AddressChain.insert (l := []) h hn hlt ?_ ?_ ?_ ?_ ?_ ?_ ?_ ?_ ?_
  · rw [hid, if_pos rfl]
  · rw [hen, if_pos rfl]
  · rw [hfirst, if_pos rfl]
  · rw [hprev, if_pos rfl]
    rfl
  · rw [hnext, if_pos rfl]
    rfl
  · intro y hy
    rw [hnext, if_neg hy]
    simp
  · intro y hy
    rw [hprev, if_neg hy]
    simp [eq_comm]
  · intro y hy
    rw [hen, if_neg hy]
  · intro y hy
    rw [hid, if_neg hy]

end AddressChain

/-! ## New entries -/

/-- The entry that `create_memory_entry` puts into slot `n`. -/
def freshEntry (n : Nat) : MemoryEntry := { MemoryEntry.new with id := n, enabled := true }

theorem createMemoryEntry_eq_some {a a' : MemoryAllocator} {chain : List Nat} {n : Nat}
    (h : AddressChain a chain) (hc : createMemoryEntry a = some (n, a')) :
    n < poolSize ∧ n ∉ chain ∧ a' = a.modify n fun _ => freshEntry n := by
  unfold createMemoryEntry at hc
  split at hc
  · rename_i i hi
    obtain ⟨rfl, rfl⟩ := Prod.mk.inj (Option.some.inj hc)
    have hlt := List.mem_range.1 (List.mem_of_find?_eq_some hi)
    have hen := List.find?_some hi
    refine ⟨hlt, fun hn => ?_, rfl⟩
    simp [((h.mem _).1 hn).2] at hen
  · cases hc

/-- There is no new entry exactly when every slot is in the chain. -/
theorem createMemoryEntry_eq_none {a : MemoryAllocator} {chain : List Nat}
    (h : AddressChain a chain) : createMemoryEntry a = none ↔ chain.length = poolSize := by
  have hnone : createMemoryEntry a = none ↔ ∀ i < poolSize, (a.pool i).enabled := by
    unfold createMemoryEntry
    split
    · rename_i i hi
      have hlt := List.mem_range.1 (List.mem_of_find?_eq_some hi)
      have hen := List.find?_some hi
      simp only [reduceCtorEq, false_iff]
      intro hall
      simp [hall i hlt] at hen
    · rename_i hi
      simp only [true_iff]
      intro i hlt
      simpa using List.find?_eq_none.1 hi i (List.mem_range.2 hlt)
  rw [hnone]
  constructor
  · intro hall
    have hsub : List.range poolSize ⊆ chain := fun i hi =>
      (h.mem i).2 ⟨List.mem_range.1 hi, hall i (List.mem_range.1 hi)⟩
    have hge := (List.nodup_range.subperm hsub).length_le
    have hle := h.length_le
    simp only [List.length_range] at hge
    omega
  · intro hlen i hlt
    have hsub : chain ⊆ List.range poolSize := fun i hi => List.mem_range.2 (h.lt hi)
    have hperm : chain.Perm (List.range poolSize) :=
      (h.linked.nodup.subperm hsub).perm_of_length_le (by simp [hlen])
    exact ((h.mem i).1 (hperm.mem_iff.2 (List.mem_range.2 hlt))).2

/-- A new entry in slot `n`, with its range. -/
def MemoryAllocator.withNew (a : MemoryAllocator) (n start stop : Nat) (h : start ≤ stop) :
    MemoryAllocator :=
  (a.modify n fun _ => freshEntry n).withRange n start stop h

theorem withNew_rangeAt (a : MemoryAllocator) (n i : Nat) {start stop : Nat} (h : start ≤ stop) :
    rangeAt (a.withNew n start stop h) i = if i = n then (start, stop) else rangeAt a i := by
  rw [MemoryAllocator.withNew, withRange_rangeAt]
  split
  · rfl
  · rename_i hne
    simp only [rangeAt, modify_pool, if_neg hne]

/-- An entry without its range. -/
def MemoryEntry.unranged (e : MemoryEntry) : MemoryEntry :=
  { e with start := 0, stop := 0, start_le_stop := MemoryEntry.new.start_le_stop }

/-- `b` is `a` with a new entry in slot `n`, not linked yet, up to the ranges of the entries. -/
structure NewSlot (a b : MemoryAllocator) (n : Nat) : Prop where
  entries : ∀ i, (b.pool i).unranged = if i = n then freshEntry n else (a.pool i).unranged
  firstEntry : b.firstEntry = a.firstEntry
  freeList : b.freeList = a.freeList
  freeSize : b.freeSize = a.freeSize

theorem newSlot_withNew (a : MemoryAllocator) (n : Nat) {start stop : Nat} (h : start ≤ stop) :
    NewSlot a (a.withNew n start stop h) n := by
  refine ⟨fun i => ?_, rfl, rfl, rfl⟩
  simp only [MemoryAllocator.withNew, MemoryAllocator.withRange, modify_pool]
  split <;> rfl

namespace NewSlot

variable {a b : MemoryAllocator} {n : Nat}

theorem withRange (h : NewSlot a b n) (entry : Nat) {start stop : Nat} (hs : start ≤ stop) :
    NewSlot a (b.withRange entry start stop hs) n := by
  refine ⟨fun i => ?_, h.firstEntry, h.freeList, h.freeSize⟩
  rw [← h.entries]
  simp only [MemoryAllocator.withRange, modify_pool]
  split <;> rfl

variable (h : NewSlot a b n) (i : Nat)
include h

/-- A field other than the range, in the new slot and in the others. -/
theorem field {β : Type} (p : MemoryEntry → β) (hp : ∀ e, p e.unranged = p e) :
    p (b.pool i) = if i = n then p (freshEntry n) else p (a.pool i) := by
  rw [← hp, h.entries i]
  split
  · rfl
  · exact hp _

theorem previous : (b.pool i).previous = if i = n then none else (a.pool i).previous :=
  h.field i MemoryEntry.previous fun _ => rfl

theorem next : (b.pool i).next = if i = n then none else (a.pool i).next :=
  h.field i MemoryEntry.next fun _ => rfl

theorem listPrev : (b.pool i).listPrev = if i = n then none else (a.pool i).listPrev :=
  h.field i MemoryEntry.listPrev fun _ => rfl

theorem listNext : (b.pool i).listNext = if i = n then none else (a.pool i).listNext :=
  h.field i MemoryEntry.listNext fun _ => rfl

theorem enabled : (b.pool i).enabled = if i = n then true else (a.pool i).enabled :=
  h.field i MemoryEntry.enabled fun _ => rfl

theorem id : (b.pool i).id = if i = n then n else (a.pool i).id :=
  h.field i MemoryEntry.id fun _ => rfl

omit i in
/-- The lists do not know the new slot. -/
theorem freeLists {lists : Nat → List Nat} (hl : FreeLists a lists)
    (hn : ∀ o < numOfFreeList, n ∉ lists o) : FreeLists b lists := by
  have hne : ∀ o < numOfFreeList, ∀ i ∈ lists o, i ≠ n := fun o ho i hi e => hn o ho (e ▸ hi)
  refine hl.congr h.freeList ?_ ?_ ?_
  · exact fun o ho i hi => (h.listPrev i).trans (if_neg (hne o ho i hi))
  · exact fun o ho i hi => (h.listNext i).trans (if_neg (hne o ho i hi))
  · exact fun o ho i hi => (h.id i).trans (if_neg (hne o ho i hi))

end NewSlot

/-- The new entry `n` linked behind `entry`, and before `next` if there is a next entry. -/
def linkBehind (a : MemoryAllocator) (entry n : Nat) (next : Option Nat) : MemoryAllocator :=
  chainAfterMe (match next with
    | some next => chainAfterMe a n next
    | none => a) entry n

theorem linkBehind_frame (a : MemoryAllocator) (entry n : Nat) (next : Option Nat) :
    ChainFrame a (linkBehind a entry n next) := by
  unfold linkBehind
  refine ChainFrame.trans ?_ (chainAfterMe_frame _ entry n)
  split
  · exact chainAfterMe_frame _ _ _
  · exact .refl a

/-- A new slot linked behind an entry is in the chain. -/
theorem AddressChain.linkBehind {a b : MemoryAllocator} {l r : List Nat} {x n : Nat}
    (h : AddressChain a (l ++ x :: r)) (hb : NewSlot a b n) (hn : n ∉ l ++ x :: r)
    (hlt : n < poolSize) : AddressChain (linkBehind b x n r.head?) (l ++ x :: n :: r) := by
  have hxn : x ≠ n := fun e => hn (e ▸ by simp)
  have hxid : (a.pool x).id = x := h.id x (by simp)
  have hrid : ∀ i, r.head? = some i → (a.pool i).id = i ∧ i ≠ n := by
    intro i hi
    have hir := List.mem_of_head? hi
    exact ⟨h.id i (by simp [hir]), fun e => hn (e ▸ by simp [hir])⟩
  refine h.insertAfter hn hlt ?_ ?_ ?_ ?_ ?_
  · intro y
    simp only [Allocator.linkBehind, chainAfterMe_next]
    rcases hr : r.head? with _ | i
    · by_cases hyx : y = x
      · simp [hyx, hxn, hb.id]
      · simp [hyx, hb.next]
    · obtain ⟨hid, hin⟩ := hrid i hr
      by_cases hyx : y = x
      · simp [hyx, hxn, (chainAfterMe_frame b n i).id, hb.id]
      · by_cases hyn : y = n
        · simp [chainAfterMe_next, hyn, hxn.symm, hb.id, hin, hid]
        · simp [chainAfterMe_next, hyx, hyn, hb.next]
  · intro y
    simp only [Allocator.linkBehind, chainAfterMe_previous]
    rcases hr : r.head? with _ | i
    · by_cases hyn : y = n
      · simp [hyn, hb.id, hxn, hxid]
      · simp [hyn, hb.previous]
    · obtain ⟨hid, hin⟩ := hrid i hr
      by_cases hyn : y = n
      · simp [hyn, (chainAfterMe_frame b n i).id, hb.id, hxn, hxid]
      · by_cases hyi : y = i
        · simp [chainAfterMe_previous, hyi, hin, hb.id]
        · simp [chainAfterMe_previous, hyn, hyi, Ne.symm hyi, hb.previous]
  · intro y
    simp only [Allocator.linkBehind, chainAfterMe_enabled]
    rcases r.head? with _ | i
    · exact hb.enabled y
    · simpa using hb.enabled y
  · intro y
    rw [(linkBehind_frame b x n r.head?).id, hb.id]
  · simp only [Allocator.linkBehind, chainAfterMe_firstEntry]
    rcases r.head? with _ | i <;> exact hb.firstEntry

/-! ## The lists hold the chain -/

/-- The lists hold the slots `C`, each in the list of its size. -/
structure Filing (a : MemoryAllocator) (C : Set Nat) (lists : Nat → List Nat) : Prop where
  linked : FreeLists a lists
  filed : Filed numOfFreeList sizeToPageOrder (sizeOf a) C lists

namespace Filing

variable {a : MemoryAllocator} {C : Set Nat} {lists : Nat → List Nat} {key : Nat → Nat} {x : Nat}

theorem chainFrame {a' : MemoryAllocator} (h : Filing a C lists) (hf : ChainFrame a a') :
    Filing a' C lists :=
  ⟨hf.freeLists h.linked, hf.sizeOf ▸ h.filed⟩

/-- Changes that keep the links and sizes of the filed entries keep the filing. -/
theorem congr {a' : MemoryAllocator} (h : Filing a C lists) (hhead : a'.freeList = a.freeList)
    (he : ∀ i ∈ C, (a'.pool i).listPrev = (a.pool i).listPrev ∧
      (a'.pool i).listNext = (a.pool i).listNext ∧ (a'.pool i).id = (a.pool i).id ∧
      rangeAt a' i = rangeAt a i) : Filing a' C lists := by
  have hC : ∀ o < numOfFreeList, ∀ i ∈ lists o, i ∈ C := fun o ho i hi =>
    ((h.filed.mem o ho i).1 hi).1
  refine ⟨h.linked.congr hhead (fun o ho i hi => (he i (hC o ho i hi)).1)
    (fun o ho i hi => (he i (hC o ho i hi)).2.1) fun o ho i hi => (he i (hC o ho i hi)).2.2.1, ?_⟩
  refine h.filed.congr (fun i hi => ?_) fun i => Iff.rfl
  rw [sizeOf, sizeOf, getSize_eq_range, getSize_eq_range, (he i hi).2.2.2]

/-- The filing of an entry whose size changed. The other entries have the sizes by which they are
filed, the entry itself is filed under its old size `key x`. -/
theorem rechain (hl : FreeLists a lists)
    (hf : Filed numOfFreeList sizeToPageOrder key C lists) (hx : x ∈ C)
    (hk : ∀ y ∈ C, y ≠ x → sizeOf a y = key y) (hne : key x ≠ sizeOf a x) :
    ∃ a' lists', chainEntryToFreeList a x (some (key x)) = .ok a' ∧ ListFrame a a' ∧
      (∀ y ∉ C, SameLinks a a' y) ∧ Filing a' C lists' ∧
      SameBut numOfFreeList [x] lists lists' := by
  have hmem : x ∈ lists (sizeToPageOrder (key x)) :=
    (hf.mem _ (sizeToPageOrder_lt _) x).2 ⟨hx, rfl⟩
  obtain ⟨a', hok, hframe, hlinks, hfl⟩ := chainEntryToFreeList_freeLists hl hmem hne
  have hfiled := hf.refile x hk
  rw [Set.insert_eq_of_mem hx, ← hframe.sizeOf] at hfiled
  rw [← hframe.sizeOf] at hfl
  refine ⟨a', _, hok, hframe, fun y hy => hlinks y ?_ fun o ho hm => ?_, ⟨hfl, hfiled⟩,
    hf.sameBut_refile x⟩
  · exact fun e => hy (e ▸ hx)
  · exact hy ((hf.mem o ho y).1 hm).1

/-- The filing of a new entry. -/
theorem insert (hl : FreeLists a lists) (hf : Filed numOfFreeList sizeToPageOrder key C lists)
    (hx : x ∉ C) (hk : ∀ y ∈ C, sizeOf a y = key y)
    (hvalid : x < poolSize ∧ (a.pool x).id = x) (hnext : (a.pool x).listNext = none)
    (hprev : (a.pool x).listPrev = none) :
    ∃ a' lists', chainEntryToFreeList a x none = .ok a' ∧ ListFrame a a' ∧
      Filing a' (insert x C) lists' ∧ SameBut numOfFreeList [x] lists lists' := by
  have hout : ∀ o < numOfFreeList, x ∉ lists o := fun o ho hm => hx ((hf.mem o ho x).1 hm).1
  obtain ⟨a', hok, hframe, -, hfl⟩ := insertToFreeList_freeLists hl hvalid hout hnext hprev
  have hfiled := hf.refile x fun y hy _ => hk y hy
  rw [← hframe.sizeOf] at hfl hfiled
  exact ⟨a', _, hok, hframe, ⟨hfl, hfiled⟩, hf.sameBut_refile x⟩

/-- Taking an entry out of its list. -/
theorem unchain (h : Filing a C lists) (hx : x ∈ C) :
    Filing (unchainEntryFromFreeList a x) (C \ {x}) (unfile lists x) := by
  have hframe := unchainFromOrder_frame a x (sizeToPageOrder (a.pool x).getSize)
  have hmem : x ∈ lists (sizeToPageOrder (a.pool x).getSize) :=
    (h.filed.mem _ (sizeToPageOrder_lt _) x).2 ⟨hx, rfl⟩
  refine ⟨unchainFromOrder_freeLists h.linked (sizeToPageOrder_lt _) hmem, ?_⟩
  rw [unchainEntryFromFreeList, hframe.sizeOf]
  exact h.filed.unfile x

end Filing

theorem chainEntryToFreeList_same (a : MemoryAllocator) (x : Nat) :
    chainEntryToFreeList a x (some (a.pool x).getSize) = .ok a :=
  if_pos rfl

/-! ## The invariant -/

/-- The end of physical memory. -/
def physicalLimit : Nat := 2 ^ 52

/-- The links of the invariant: the enabled entries are the chain, and the lists hold them. -/
structure Layout (a : MemoryAllocator) (chain : List Nat) (lists : Nat → List Nat) : Prop where
  addressChain : AddressChain a chain
  filing : Filing a { i | i ∈ chain } lists

/-- The representation invariant of `MemoryAllocator`. -/
structure Rep (a : MemoryAllocator) (chain : List Nat) (lists : Nat → List Nat) : Prop
    extends Layout a chain lists where
  coalesced : Coalesced (chain.map (rangeAt a))
  bound : ∀ p ∈ chain.map (rangeAt a), p.2 < physicalLimit
  freeSize : a.freeSize = total (chain.map (rangeAt a))

/-- The invariant holds for some chain and some lists. -/
def WellFormed (a : MemoryAllocator) : Prop := ∃ chain lists, Rep a chain lists

/-- The free bytes: those in the range of an enabled entry. -/
def freeBytes (a : MemoryAllocator) : Finset Nat :=
  ((Finset.range poolSize).filter fun i => (a.pool i).enabled).biUnion
    fun i => Finset.Icc (a.pool i).start (a.pool i).stop

theorem AddressChain.freeBytes_eq {a : MemoryAllocator} {chain : List Nat}
    (h : AddressChain a chain) : freeBytes a = cover (chain.map (rangeAt a)) := by
  ext x
  simp only [freeBytes, Finset.mem_biUnion, Finset.mem_filter, Finset.mem_range, Finset.mem_Icc,
    mem_cover, List.mem_map]
  constructor
  · rintro ⟨i, hi, hx⟩
    exact ⟨rangeAt a i, ⟨i, (h.mem i).2 hi, rfl⟩, hx⟩
  · rintro ⟨p, ⟨i, hi, rfl⟩, hx⟩
    exact ⟨i, (h.mem i).1 hi, hx⟩

/-- Under the invariant `free_size` is the number of free bytes. -/
theorem Rep.freeSize_eq_card {a : MemoryAllocator} {chain : List Nat} {lists : Nat → List Nat}
    (h : Rep a chain lists) : a.freeSize = (freeBytes a).card := by
  rw [h.addressChain.freeBytes_eq, card_cover h.coalesced, h.freeSize]

theorem WellFormed.freeSize_eq_card {a : MemoryAllocator} (h : WellFormed a) :
    a.freeSize = (freeBytes a).card := by
  obtain ⟨chain, lists, h⟩ := h
  exact h.freeSize_eq_card

/-- The new allocator has an empty chain and empty lists. -/
theorem rep_new : Rep MemoryAllocator.new [] fun _ => [] := by
  refine ⟨⟨⟨Linked.nil, ?_, ?_⟩, ⟨⟨?_, ?_, ?_⟩, ⟨?_, ?_, ?_⟩⟩⟩, coalesced_nil, ?_, rfl⟩
  · intro i
    simp [MemoryAllocator.new, MemoryEntry.new]
  · intro i hi
    cases hi
  · exact fun o _ => Linked.nil
  · intro o _ o' _ _ i hi
    cases hi
  · intro o _ i hi
    cases hi
  · exact fun _ _ => List.nodup_nil
  · intro o _ x
    simp
  · exact fun _ _ => List.Pairwise.nil
  · intro i hi
    cases hi

/-- The ranges of a chain after an update of one of its entries. -/
theorem map_rangeAt_update {a a' : MemoryAllocator} {l r : List Nat} {x : Nat} {p : Nat × Nat}
    (hx : x ∉ l ∧ x ∉ r)
    (h : ∀ i ∈ l ++ x :: r, rangeAt a' i = if i = x then p else rangeAt a i) :
    (l ++ x :: r).map (rangeAt a') = l.map (rangeAt a) ++ p :: r.map (rangeAt a) := by
  have hmap : ∀ m : List Nat, (∀ i ∈ m, i ∈ l ++ x :: r) → x ∉ m →
      m.map (rangeAt a') = m.map (rangeAt a) := by
    intro m hm hxm
    refine List.map_congr_left fun i hi => ?_
    rw [h i (hm i hi), if_neg]
    rintro rfl
    exact hxm hi
  rw [List.map_append, List.map_cons, hmap l (fun i hi => by simp [hi]) hx.1,
    hmap r (fun i hi => by simp [hi]) hx.2, h x (by simp), if_pos rfl]

/-! ## Edits of the layout -/

namespace Layout

variable {a : MemoryAllocator} {l r : List Nat} {lists : Nat → List Nat} {x : Nat}

theorem withFreeSize {chain : List Nat} (h : Layout a chain lists) (n : Nat) :
    Layout { a with freeSize := n } chain lists :=
  ⟨⟨h.addressChain.linked, h.addressChain.mem, h.addressChain.id⟩,
    ⟨h.filing.linked.linked, h.filing.linked.disjoint, h.filing.linked.valid⟩, h.filing.filed⟩

/-- A range written into an entry does not touch the lists' links. -/
theorem freeLists_withRange (h : FreeLists a lists) (entry : Nat) {start stop : Nat}
    (hs : start ≤ stop) : FreeLists (a.withRange entry start stop hs) lists :=
  h.congr rfl (fun _ _ i _ => by simp) (fun _ _ i _ => by simp) fun _ _ i _ => by simp

/-- `set_range` with a new size, and the filing that follows it. -/
theorem resize (h : Layout a (l ++ x :: r) lists) {start stop : Nat} (hs : start ≤ stop)
    (hne : (a.pool x).getSize ≠ stop - start + 1) :
    ∃ a' lists', chainEntryToFreeList (a.withRange x start stop hs) x (some (a.pool x).getSize) =
        .ok a' ∧ Layout a' (l ++ x :: r) lists' ∧ a'.freeSize = a.freeSize ∧
      (∀ i, rangeAt a' i = if i = x then (start, stop) else rangeAt a i) ∧
      SameBut numOfFreeList [x] lists lists' := by
  have hsize : ∀ i, i ≠ x → sizeOf (a.withRange x start stop hs) i = sizeOf a i := by
    intro i hi
    simp only [sizeOf, withRange_pool_of_ne _ _ _ hs hi]
  have hsizex : sizeOf (a.withRange x start stop hs) x = stop - start + 1 := by
    simp [sizeOf, MemoryEntry.getSize]
  obtain ⟨a', lists', hok, hframe, -, hfiling, hsame⟩ := Filing.rechain (x := x)
    (freeLists_withRange h.filing.linked x hs) h.filing.filed (by simp)
    (fun y _ hy => hsize y hy) (by rw [hsizex]; exact hne)
  refine ⟨a', lists', hok, ⟨(h.addressChain.withRange x hs).listFrame hframe, hfiling⟩,
    hframe.freeSize, fun i => ?_, hsame⟩
  rw [hframe.rangeAt, withRange_rangeAt]

/-- The entry leaves its list and then the chain. The first entry was moved on before. -/
theorem delete (first : Option Nat) (h : Layout { a with firstEntry := first } (l ++ x :: r) lists)
    (hfirst : a.firstEntry = if l = [] then r.head? else first) :
    Layout (Allocator.delete (unchainEntryFromFreeList a x) x) (l ++ r) (unfile lists x) := by
  have hframe := unchainFromOrder_frame a x (sizeToPageOrder (a.pool x).getSize)
  have hchain : AddressChain { unchainEntryFromFreeList a x with firstEntry := first }
      (l ++ x :: r) :=
    h.addressChain.congr rfl hframe.previous hframe.next hframe.enabled hframe.id
  obtain ⟨hxl, hxr⟩ := h.addressChain.linked.notMem_split
  have hC : { i | i ∈ l ++ x :: r } \ {x} = { i | i ∈ l ++ r } := by
    ext i
    simp only [Set.mem_sdiff, Set.mem_ofPred_eq, Set.mem_singleton_iff, List.mem_append,
      List.mem_cons]
    constructor
    · rintro ⟨hi | rfl | hi, hne⟩
      · exact Or.inl hi
      · exact absurd rfl hne
      · exact Or.inr hi
    · rintro (hi | hi)
      · exact ⟨Or.inl hi, fun e => hxl (e ▸ hi)⟩
      · exact ⟨Or.inr (Or.inr hi), fun e => hxr (e ▸ hi)⟩
  have hf : Filing a { i | i ∈ l ++ x :: r } lists :=
    h.filing.congr rfl fun i _ => ⟨rfl, rfl, rfl, rfl⟩
  have hfiling := (hf.unchain (x := x) (by simp)).chainFrame (delete_frame _ x)
  rw [hC] at hfiling
  refine ⟨AddressChain.delete first hchain ?_, hfiling⟩
  exact hframe.firstEntry.trans hfirst

/-- The filing of an entry that was just linked into the chain. -/
theorem insert {n : Nat} (hc : AddressChain a (l ++ n :: r))
    (hf : Filing a { i | i ∈ l ++ r } lists) (hnext : (a.pool n).listNext = none)
    (hprev : (a.pool n).listPrev = none) :
    ∃ a' lists', chainEntryToFreeList a n none = .ok a' ∧ ListFrame a a' ∧
      Layout a' (l ++ n :: r) lists' ∧ SameBut numOfFreeList [n] lists lists' := by
  obtain ⟨hnl, hnr⟩ := hc.linked.notMem_split
  have hmem : n ∈ l ++ n :: r := by simp
  obtain ⟨a', lists', hok, hframe, hfiling, hsame⟩ := Filing.insert (x := n) hf.linked hf.filed
    (by simp [hnl, hnr]) (fun _ _ => rfl) ⟨hc.lt hmem, hc.id n hmem⟩ hnext hprev
  have hC : Insert.insert n { i | i ∈ l ++ r } = { i | i ∈ l ++ n :: r } := by
    ext i
    simp only [Set.mem_insert_iff, Set.mem_ofPred_eq, List.mem_append, List.mem_cons]
    tauto
  rw [hC] at hfiling
  exact ⟨a', lists', hok, hframe, ⟨hc.listFrame hframe, hfiling⟩, hsame⟩

end Layout

end MiniVisor.Allocator
