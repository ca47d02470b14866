import MiniVisor.Allocator.Complete

/-!
# The global allocator

`GlobalAllocator` serves the allocations of the Rust code from `MEMORY_ALLOCATOR` and reports a
failure with the null pointer. Null is also the address of the first byte of memory, and a bank that
starts there is registered like any other one.

The search of `allocate` looks at the free entries in one order: the lists from
`size_to_page_order(size)` on, each from its head (`searchOrder`). `allocateFrom_first` says that it
stops at the first entry with room. So `alloc_truthful_iff`: the answer of `alloc` is truthful
exactly when this entry does not start at address zero.
-/

set_option autoImplicit false

namespace MiniVisor.Allocator

open MiniVisor.Lib

/-! ## The order of the search -/

/-- The entries from `entry` on, along the links of its list. -/
def listFrom (a : MemoryAllocator) : (fuel : Nat) → (entry : Option Nat) → List Nat
  | _, none => []
  | 0, some _ => []
  | fuel + 1, some e => e :: listFrom a fuel (getListNext a e)

/-- The entries in the order in which a request of this size looks at them. -/
def searchOrder (a : MemoryAllocator) (size : Nat) : List Nat :=
  (List.range' (sizeToPageOrder size) (numOfFreeList - sizeToPageOrder size)).flatMap fun o =>
    listFrom a poolSize (a.freeList o)

section Search

variable {a : MemoryAllocator} {chain : List Nat} {lists : Nat → List Nat}
  {size alignOrder addressLimit : Nat}

theorem listFrom_eq (h : FreeLists a lists) {o : Nat} (hoo : o < numOfFreeList) :
    ∀ (r l : List Nat) (fuel : Nat), lists o = l ++ r → r.length ≤ fuel →
      listFrom a fuel r.head? = r := by
  intro r
  induction r with
  | nil =>
    intro l fuel _ _
    cases fuel <;> rfl
  | cons x r ih =>
    intro l fuel hs hfuel
    obtain ⟨fuel, rfl⟩ : ∃ k, fuel = k + 1 :=
      ⟨fuel - 1, by rw [List.length_cons] at hfuel; omega⟩
    rw [List.length_cons] at hfuel
    show x :: listFrom a fuel (getListNext a x) = x :: r
    rw [(h.neighbours hoo hs).2, ih (l ++ [x]) fuel (by rw [hs, List.append_assoc]; rfl) (by omega)]

theorem searchOrder_eq (h : FreeLists a lists) (size : Nat) : searchOrder a size =
    (List.range' (sizeToPageOrder size) (numOfFreeList - sizeToPageOrder size)).flatMap lists := by
  refine List.flatMap_congr fun o ho => ?_
  have hlt := sizeToPageOrder_lt size
  rw [List.mem_range'_1] at ho
  have hoo : o < numOfFreeList := by omega
  rw [(h.linked o hoo).head_eq]
  exact listFrom_eq h hoo (lists o) [] poolSize rfl (h.length_le hoo)

/-- An entry that starts at zero is used from its start, whatever the alignment. -/
theorem fitAddress_zero {e : MemoryEntry} {address : Nat} (hzero : e.start = 0)
    (h : fitAddress e size alignOrder addressLimit = .ok (some address)) : address = 0 := by
  unfold fitAddress alignAddressAndAvailableSize at h
  dsimp only at h
  rw [if_pos hzero, ok_bind, hzero] at h
  generalize (if min e.stop (addressLimit - 1) ≥ 0 then min e.stop (addressLimit - 1) - 0 + 1 else
    0) = available at h
  split_ifs at h <;> cases h
  · rfl
  · rfl

/-- The first entry of a list of entries that has room, with the address taken in it. -/
structure FirstFit (a : MemoryAllocator) (size alignOrder addressLimit : Nat) (order : List Nat)
    (x address : Nat) : Prop where
  fits : Fits (a.pool x) size alignOrder addressLimit address
  zero : (a.pool x).start = 0 → address = 0
  first : ∃ l r, order = l ++ x :: r ∧
    ∀ y ∈ l, ∀ other, ¬Fits (a.pool y) size alignOrder addressLimit other

theorem FirstFit.behind (before : List Nat) {order : List Nat} {x address : Nat}
    (h : FirstFit a size alignOrder addressLimit order x address)
    (hnone : ∀ y ∈ before, ∀ other, ¬Fits (a.pool y) size alignOrder addressLimit other) :
    FirstFit a size alignOrder addressLimit (before ++ order) x address := by
  obtain ⟨l, r, rfl, hl⟩ := h.first
  refine ⟨h.fits, h.zero, before ++ l, r, (List.append_assoc ..).symm, fun y hy => ?_⟩
  rcases List.mem_append.1 hy with hy | hy
  · exact hnone y hy
  · exact hl y hy

theorem FirstFit.ahead {order : List Nat} {x address : Nat}
    (h : FirstFit a size alignOrder addressLimit order x address) (after : List Nat) :
    FirstFit a size alignOrder addressLimit (order ++ after) x address := by
  obtain ⟨l, r, rfl, hl⟩ := h.first
  exact ⟨h.fits, h.zero, l, r ++ after, by rw [List.append_assoc, List.cons_append], hl⟩

/-- A walk that finds an entry has found the first one with room. -/
theorem walkList_first (h : Rep a chain lists) (hsize : 0 < size) (ho : alignOrder < 64) {o : Nat}
    (hoo : o < numOfFreeList) :
    ∀ (r l : List Nat) (fuel : Nat) {x address : Nat}, lists o = l ++ r →
      walkList a size alignOrder addressLimit fuel r.head? = .ok (some (x, address)) →
      FirstFit a size alignOrder addressLimit r x address := by
  intro r
  induction r with
  | nil =>
    intro l fuel x address _ hwalk
    cases fuel <;> cases hwalk
  | cons y r ih =>
    intro l fuel x address hs hwalk
    cases fuel with
    | zero => cases hwalk
    | succ fuel =>
      have hy : y ∈ chain := ((h.filing.filed.mem o hoo y).1 (hs ▸ by simp)).1
      obtain ⟨found, hfound, hrest⟩ := bind_eq_ok.1 hwalk
      cases found with
      | some place =>
        cases hrest
        obtain ⟨res, hok, hfit⟩ := fitAddress_spec addressLimit (h.stop_lt hy) hsize ho
        obtain rfl := Except.ok.inj (hok.symm.trans hfound)
        exact ⟨hfit _ rfl, fun hzero => fitAddress_zero hzero hfound, [], r, rfl, nofun⟩
      | none =>
        simp only [(h.filing.linked.neighbours hoo hs).2] at hrest
        have hfirst := ih (l ++ [y]) fuel (by rw [hs, List.append_assoc]; rfl) hrest
        refine FirstFit.behind [y] hfirst fun z hz other => ?_
        rw [List.mem_singleton.1 hz]
        exact not_fits_of_fitAddress hfound hsize other

/-- How a search over the entries `order` ends. -/
inductive Searched (a : MemoryAllocator) (chain : List Nat) (size alignOrder addressLimit : Nat)
    (order : List Nat) : Except Fault (Outcome Nat) → Prop
  /-- No entry has room. -/
  | none (h : ∀ x ∈ order, ∀ address, ¬Fits (a.pool x) size alignOrder addressLimit address) :
      Searched a chain size alignOrder addressLimit order (.ok (.error .noMemory, a))
  /-- The bytes are taken from the first entry with room. -/
  | found {x address : Nat} (hx : x ∈ chain)
      (h : FirstFit a size alignOrder addressLimit order x address) :
      Searched a chain size alignOrder addressLimit order
        ((defineUsedMemory a address size 0 (some x)).map fun o => (o.1.map fun _ => address, o.2))

theorem Searched.behind {before order : List Nat} {result : Except Fault (Outcome Nat)}
    (h : Searched a chain size alignOrder addressLimit order result)
    (hnone : ∀ y ∈ before, ∀ other, ¬Fits (a.pool y) size alignOrder addressLimit other) :
    Searched a chain size alignOrder addressLimit (before ++ order) result := by
  cases h with
  | none h =>
    refine .none fun y hy => ?_
    rcases List.mem_append.1 hy with hy | hy
    · exact hnone y hy
    · exact h y hy
  | found hx h => exact .found hx (h.behind _ hnone)

/-- The induction is on the lists that are left. -/
theorem allocateFrom_first (h : Rep a chain lists) (hsize : 0 < size) (ho : alignOrder < 64)
    (orders : List Nat) : (∀ o ∈ orders, o < numOfFreeList) →
    Searched a chain size alignOrder addressLimit (orders.flatMap lists)
      (allocateFrom a size alignOrder addressLimit orders) := by
  induction orders with
  | nil => exact fun _ => .none nofun
  | cons o orders ih =>
    intro horders
    have hoo := horders o List.mem_cons_self
    have hrest := ih fun o' ho' => horders o' (List.mem_cons_of_mem _ ho')
    have hhead := h.filing.linked.head_ref hoo
    have hheadEq := (h.filing.linked.linked o hoo).head_eq
    rw [List.flatMap_cons]
    simp only [allocateFrom]
    cases hl : lists o with
    | nil =>
      rw [hheadEq, hl]
      exact hrest
    | cons t r =>
      have hlen := h.filing.linked.length_le hoo
      obtain ⟨found, hok, hfound⟩ := walkList_spec addressLimit h hsize ho hoo
        (t :: r) [] poolSize hl
        (by rw [hl] at hlen; exact hlen)
      have hwalk := hok
      rw [hl] at hhead hheadEq
      rw [hheadEq] at hhead ⊢
      simp only [List.head?_cons, Option.bind_some] at hhead hok ⊢
      simp only [hhead, hok, ok_bind]
      cases found with
      | none => exact hrest.behind (walkList_none addressLimit h hsize hoo (t :: r) []
          poolSize hl hwalk)
      | some place =>
        obtain ⟨x, address⟩ := place
        have hfirst := walkList_first h hsize ho hoo (t :: r) [] poolSize hl hwalk
        have hsearched :=
          Searched.found (hfound x address rfl).1 (hfirst.ahead (orders.flatMap lists))
        dsimp only
        cases hused : defineUsedMemory a address size 0 (some x) with
        | error fault =>
          rw [hused] at hsearched
          exact hsearched
        | ok outcome =>
          rw [hused] at hsearched
          obtain ⟨res, b⟩ := outcome
          cases res <;> exact hsearched

/-- The search of a request for memory that is there in sum. -/
theorem allocateWithAddressLimit_first (h : Rep a chain lists) (hsize : 0 < size)
    (ho : alignOrder < 64) (hfree : size ≤ a.freeSize) (addressLimit : Nat) :
    Searched a chain size alignOrder addressLimit (searchOrder a size)
      (allocateWithAddressLimit a size alignOrder addressLimit) := by
  unfold allocateWithAddressLimit
  rw [if_neg (by omega), if_neg (by omega), searchOrder_eq h.filing.linked]
  refine allocateFrom_first h hsize ho _ fun o ho' => ?_
  have hlt := sizeToPageOrder_lt size
  rw [List.mem_range'_1] at ho'
  omega

end Search

/-- Bytes from the start of an entry are taken without a new entry. -/
theorem carve_start_ne_error {a b : MemoryAllocator} {x size : Nat} {err : MemoryError} :
    carve a x (a.pool x).start size ≠ .ok (.error err, b) := by
  intro h
  obtain ⟨clamped, -, h⟩ := bind_eq_ok.1 h
  unfold carveClamped at h
  dsimp only at h
  rw [if_pos rfl] at h
  obtain ⟨stop, -, h⟩ := bind_eq_ok.1 h
  split_ifs at h
  · obtain ⟨left, -, h⟩ := bind_eq_ok.1 h
    cases h
  · obtain ⟨next, -, h⟩ := bind_eq_ok.1 h
    obtain ⟨c, -, h⟩ := bind_eq_ok.1 h
    obtain ⟨left, -, h⟩ := bind_eq_ok.1 h
    cases h

/-! ## `GlobalAllocator` -/

namespace GlobalAllocator

/-- The layouts of the Rust language: the alignment is a power of two, and the size rounded up to it
fits `isize`. -/
structure Layout where
  size : Nat
  align : Nat
  isPowerOfTwo : align.isPowerOfTwo
  fits : size + align ≤ 2 ^ 63

/-- `usize::trailing_zeros`. -/
def trailingZeros (n : Nat) : Nat := ((List.range 64).find? n.testBit).getD 64

/-- `core::ptr::null_mut`. -/
def nullMut : Nat := 0

/-- `GlobalAllocator::alloc`. -/
def alloc (a : MemoryAllocator) (layout : Layout) : Except Fault (Nat × MemoryAllocator) := do
  match ← allocate a layout.size (trailingZeros layout.align) with
  | (.ok address, a) => return (address, a)
  | (.error _, a) => return (nullMut, a)

/-- Null stands for no memory at all. Any other pointer stands for aligned bytes that were free and
no longer are. -/
structure Truthful (a : MemoryAllocator) (layout : Layout) (ptr : Nat) (b : MemoryAllocator) :
    Prop where
  null : ptr = nullMut → freeBytes b = freeBytes a
  taken : ptr ≠ nullMut → layout.align ∣ ptr ∧ bytes ptr layout.size ⊆ freeBytes a ∧
    freeBytes b = freeBytes a \ bytes ptr layout.size

/-- An entry holds an aligned range of the size. -/
def RoomIn (e : MemoryEntry) (layout : Layout) : Prop :=
  ∃ address, layout.align ∣ address ∧ e.start ≤ address ∧ address + layout.size ≤ e.stop + 1

/-- In the order of the search, the first entry with room for the layout starts at address zero. -/
def ZeroFirst (a : MemoryAllocator) (layout : Layout) : Prop :=
  ∃ l x r, searchOrder a layout.size = l ++ x :: r ∧ (a.pool x).start = 0 ∧
    RoomIn (a.pool x) layout ∧ ∀ y ∈ l, ¬RoomIn (a.pool y) layout

theorem trailingZeros_two_pow : ∀ k < 64, trailingZeros (2 ^ k) = k := by decide +kernel

theorem Layout.exists_order (layout : Layout) : ∃ k < 64, layout.align = 2 ^ k := by
  obtain ⟨k, hk⟩ := layout.isPowerOfTwo
  refine ⟨k, ?_, hk⟩
  have hfits := layout.fits
  by_contra hge
  have hpow : 2 ^ 64 ≤ 2 ^ k := Nat.pow_le_pow_right (by decide) (by omega)
  rw [← hk] at hpow
  omega

section Alloc

variable {a : MemoryAllocator} {chain : List Nat} {lists : Nat → List Nat} {layout : Layout}
  {alignOrder : Nat}

/-- The limit of `allocate` is above every entry. -/
theorem roomIn_iff (h : Rep a chain lists) (halign : layout.align = 2 ^ alignOrder) {x : Nat}
    (hx : x ∈ chain) : RoomIn (a.pool x) layout ↔
      ∃ address, Fits (a.pool x) layout.size alignOrder (wordSize - 1) address := by
  have hlim := h.stop_lt hx
  have hword : physicalLimit ≤ wordSize - 1 := by decide
  unfold RoomIn
  rw [halign]
  constructor
  · rintro ⟨address, hdvd, hstart, hstop⟩
    exact ⟨address, hdvd, hstart, hstop, by omega⟩
  · rintro ⟨address, hfit⟩
    exact ⟨address, hfit.aligned, hfit.start_le, hfit.le_stop⟩

theorem mem_chain_of_searchOrder (h : Rep a chain lists) {size x : Nat}
    (hx : x ∈ searchOrder a size) : x ∈ chain := by
  rw [searchOrder_eq h.filing.linked, List.mem_flatMap] at hx
  obtain ⟨o, ho, hx⟩ := hx
  have hlt := sizeToPageOrder_lt size
  rw [List.mem_range'_1] at ho
  exact ((h.filing.filed.mem o (by omega) x).1 hx).1

theorem size_le_freeSize (h : Rep a chain lists) {x : Nat} (hx : x ∈ chain)
    (hroom : RoomIn (a.pool x) layout) : layout.size ≤ a.freeSize := by
  obtain ⟨address, -, hstart, hstop⟩ := hroom
  have hle : sizeOf a x ≤ a.freeSize := by
    rw [h.freeSize, total, List.map_map]
    exact List.single_le_sum (fun _ _ => Nat.zero_le _) _ (List.mem_map.2 ⟨x, hx, rfl⟩)
  have hsize : sizeOf a x = (a.pool x).stop - (a.pool x).start + 1 := rfl
  omega

/-- Two splittings of a list at its first element with a property. -/
theorem first_unique {P : Nat → Prop} {l l' r r' : List Nat} {x x' : Nat}
    (h : l ++ x :: r = l' ++ x' :: r') (hx : P x) (hx' : P x') (hl : ∀ y ∈ l, ¬P y)
    (hl' : ∀ y ∈ l', ¬P y) : x = x' := by
  classical
  have hfind : ∀ {l r : List Nat} {x : Nat}, P x → (∀ y ∈ l, ¬P y) →
      (l ++ x :: r).find? (fun y => decide (P y)) = some x := by
    intro l r x hx hl
    exact List.find?_eq_some_iff_append.2 ⟨decide_eq_true hx, l, r, rfl, fun y hy => by
      rw [decide_eq_false (hl y hy)]; rfl⟩
  exact Option.some.inj ((hfind hx hl).symm.trans ((congrArg _ h).trans (hfind hx' hl')))

/-- `allocate` hands out address zero exactly when the search comes to an entry there first. -/
theorem allocate_zero_iff (h : Rep a chain lists) (hsize : 0 < layout.size)
    (halign : layout.align = 2 ^ alignOrder) (ho : alignOrder < 64) :
    (∃ b, allocate a layout.size alignOrder = .ok (.ok 0, b)) ↔ ZeroFirst a layout := by
  have hroom : ∀ {x : Nat}, x ∈ searchOrder a layout.size → (RoomIn (a.pool x) layout ↔
      ∃ address, Fits (a.pool x) layout.size alignOrder (wordSize - 1) address) :=
    fun hx => roomIn_iff h halign (mem_chain_of_searchOrder h hx)
  unfold allocate
  by_cases hfree : layout.size ≤ a.freeSize
  · have hsearch := allocateWithAddressLimit_first h hsize ho hfree (wordSize - 1)
    generalize allocateWithAddressLimit a layout.size alignOrder (wordSize - 1) = result
      at hsearch ⊢
    cases hsearch with
    | none hnone =>
      refine ⟨fun ⟨b, hok⟩ => (nomatch hok), ?_⟩
      rintro ⟨l, x, r, horder, -, hx, -⟩
      have hmem : x ∈ searchOrder a layout.size := by rw [horder]; simp
      obtain ⟨address, hfit⟩ := (hroom hmem).1 hx
      exact absurd hfit (hnone x hmem address)
    | @found x address hx hfirst =>
      obtain ⟨l, r, horder, hl⟩ := hfirst.first
      have hmem : x ∈ searchOrder a layout.size := by rw [horder]; simp
      have hxroom := (hroom hmem).2 ⟨address, hfirst.fits⟩
      have hlnone : ∀ y ∈ l, ¬RoomIn (a.pool y) layout := by
        intro y hy hyroom
        obtain ⟨other, hfit⟩ := (hroom (by rw [horder]; exact List.mem_append_left _ hy)).1 hyroom
        exact hl y hy other hfit
      constructor
      · rintro ⟨b, hok⟩
        have hzero : address = 0 := by
          cases hused : defineUsedMemory a address layout.size 0 (some x) with
          | error fault =>
            rw [hused] at hok
            cases hok
          | ok outcome =>
            obtain ⟨res, c⟩ := outcome
            rw [hused] at hok
            cases res with
            | error err => cases hok
            | ok u =>
              cases hok
              rfl
        have hstart := hfirst.fits.start_le
        exact ⟨l, x, r, horder, by omega, hxroom, hlnone⟩
      · rintro ⟨l', x', r', horder', hstart, hx', hl'⟩
        obtain rfl : x = x' := first_unique (horder.symm.trans horder') hxroom hx' hlnone hl'
        have hzero := hfirst.zero hstart
        rw [hzero] at hfirst ⊢
        have hlim := h.stop_lt hx
        have hpw := physicalLimit_lt
        have hstop := hfirst.fits.le_stop
        obtain ⟨before, after, rfl⟩ := List.append_of_mem hx
        rw [defineUsedMemory_eq_carve hsize hfree]
        rcases carve_spec h (show (a.pool x).start ≤ 0 by omega) (by omega) hsize (by omega) with
          ⟨b, hok, -⟩ | ⟨hok, -⟩
        · rw [hok]
          exact ⟨b, rfl⟩
        · rw [← hstart] at hok
          exact absurd hok carve_start_ne_error
  · constructor
    · rintro ⟨b, hok⟩
      unfold allocateWithAddressLimit at hok
      rw [if_neg (by omega), if_pos (by omega)] at hok
      cases hok
    · rintro ⟨l, x, r, horder, -, hx, -⟩
      have hmem : x ∈ searchOrder a layout.size := by rw [horder]; simp
      exact absurd (size_le_freeSize h (mem_chain_of_searchOrder h hmem) hx) hfree

theorem wellFormed_alloc {b : MemoryAllocator} {ptr : Nat} (h : WellFormed a)
    (hok : alloc a layout = .ok (ptr, b)) : WellFormed b := by
  obtain ⟨chain, lists, h⟩ := h
  obtain ⟨alignOrder, ho, halign⟩ := layout.exists_order
  obtain ⟨⟨result, c⟩, hallocate, hall⟩ :=
    allocateWithAddressLimit_spec (wordSize - 1) layout.size h ho
  unfold alloc allocate at hok
  rw [halign, trailingZeros_two_pow alignOrder ho, hallocate] at hok
  cases result with
  | error err =>
    cases hok
    exact hall.wellFormed
  | ok address =>
    cases hok
    exact hall.wellFormed

/-- In every state that a run of handled requests reaches, and for every layout of a size above
zero, `alloc` is truthful exactly when its search does not come first to an entry at address zero.
-/
theorem alloc_truthful_iff {labels : List (Request × Reply)}
    (h : Run Initial (Step InBoundsHandled) labels a) (layout : Layout) (hsize : 0 < layout.size) :
    ∃ ptr b, alloc a layout = .ok (ptr, b) ∧
      (Truthful a layout ptr b ↔ ¬ZeroFirst a layout) := by
  obtain ⟨chain, lists, hrep⟩ := wellFormed_of_run_handled h
  obtain ⟨alignOrder, ho, halign⟩ := layout.exists_order
  obtain ⟨⟨result, b⟩, hok, hall⟩ :=
    allocateWithAddressLimit_spec (wordSize - 1) layout.size hrep ho
  have hzero := allocate_zero_iff hrep hsize halign ho
  unfold alloc
  rw [halign, trailingZeros_two_pow alignOrder ho]
  unfold allocate at hzero ⊢
  rw [hok] at hzero ⊢
  cases result with
  | error err =>
    refine ⟨nullMut, b, rfl, ?_⟩
    have hsame : b = a := hall.error err rfl
    rw [← hzero]
    refine ⟨fun _ => fun ⟨c, hc⟩ => (nomatch hc), fun _ => ⟨fun _ => by rw [hsame], fun hne => ?_⟩⟩
    exact absurd rfl hne
  | ok address =>
    refine ⟨address, b, rfl, ?_⟩
    obtain ⟨-, hdvd, -, hsub, hfree⟩ := hall.ok address rfl
    by_cases hnull : address = 0
    · -- The bytes from address zero on are gone, and the pointer says that none are.
      subst hnull
      refine ⟨fun htruth => ?_, fun hnot => absurd (hzero.1 ⟨b, rfl⟩) hnot⟩
      have hfirst : 0 ∈ Finset.Ico 0 (0 + layout.size) := by
        rw [Finset.mem_Ico]
        omega
      have hkept := hsub hfirst
      rw [← htruth.null rfl, hfree, Finset.mem_sdiff] at hkept
      exact absurd hfirst hkept.2
    · refine ⟨fun _ hfirst => ?_, fun _ => ⟨fun hz => absurd hz hnull, fun _ => ?_⟩⟩
      · obtain ⟨c, hc⟩ := hzero.2 hfirst
        cases hc
        exact hnull rfl
      · rw [halign]
        exact ⟨hdvd, hsub, hfree⟩

end Alloc

/-- Eight bytes at a multiple of eight. -/
def word : Layout := ⟨8, 8, ⟨3, rfl⟩, by decide⟩

/-- A bank at 4 KiB: the word is taken from its start. -/
theorem alloc_truthful_bank : ∃ a ptr b,
    Run Initial (Step InBoundsHandled) [(.free 0x1000 0x4000, .ok none)] a ∧
    alloc a word = .ok (ptr, b) ∧ ptr = 0x1000 ∧ Truthful a word ptr b := by
  have h₀ : Run Initial (Step InBoundsHandled) [] MemoryAllocator.new := .start rfl
  have h₁ := run_request h₀ (.free 0x1000 0x4000) (.ok none)
    ⟨by decide, by decide, .apart (disjoint_of_stop_lt (by decide +kernel))⟩ (by decide +kernel)
  obtain ⟨ptr, b, hok, hiff⟩ := alloc_truthful_iff h₁ word (by decide)
  have hptr : (alloc (after MemoryAllocator.new (.free 0x1000 0x4000)) word).map Prod.fst =
      .ok 0x1000 := by decide +kernel
  rw [hok] at hptr
  refine ⟨_, ptr, b, h₁, hok, Except.ok.inj hptr, hiff.2 ?_⟩
  -- No entry of the pool starts at zero, so none in the search does.
  rintro ⟨l, x, r, horder, hstart, -⟩
  have hnone : ∀ y ∈ searchOrder (after MemoryAllocator.new (.free 0x1000 0x4000)) word.size,
      ((after MemoryAllocator.new (.free 0x1000 0x4000)).pool y).start ≠ 0 := by decide +kernel
  exact hnone x (by rw [horder]; simp) hstart

/-- A bank at address zero in which the image of the hypervisor is reserved: the block below the
image is the smaller one, and the first word is taken from it, at null. -/
theorem null_handed_out : ∃ a b,
    Run Initial (Step InBoundsHandled)
      [(.free 0 0x3b400000, .ok none), (.reserve 0x80000 0x100000 0, .ok none)] a ∧
    alloc a word = .ok (nullMut, b) ∧ b.freeSize = a.freeSize - 8 ∧ ¬Truthful a word nullMut b := by
  have h₀ : Run Initial (Step InBoundsHandled) [] MemoryAllocator.new := .start rfl
  have h₁ := run_request h₀ (.free 0 0x3b400000) (.ok none)
    ⟨by decide, by decide, .apart (disjoint_of_stop_lt (by decide +kernel))⟩ (by decide +kernel)
  have h₂ := run_request h₁ (.reserve 0x80000 0x100000 0) (.ok none)
    ⟨by decide, by decide, by decide⟩ (by decide +kernel)
  generalize hstate : after (after MemoryAllocator.new (.free 0 0x3b400000))
    (.reserve 0x80000 0x100000 0) = a at h₂
  have hanswer : (alloc a word).map (fun o => (o.1, a.freeSize, o.2.freeSize)) =
      .ok (0, 0x3b300000, 0x3b2ffff8) := by
    rw [← hstate]
    decide +kernel
  cases halloc : alloc a word with
  | error fault =>
    rw [halloc] at hanswer
    cases hanswer
  | ok outcome =>
    obtain ⟨ptr, b⟩ := outcome
    rw [halloc] at hanswer
    simp only [Except.map, Except.ok.injEq, Prod.mk.injEq] at hanswer
    obtain ⟨rfl, hbefore, hafter⟩ := hanswer
    refine ⟨a, b, h₂, halloc, by rw [hbefore, hafter], fun htruth => ?_⟩
    have hwf := wellFormed_of_run_handled h₂
    have hcard := hwf.freeSize_eq_card
    rw [← htruth.null rfl, ← (wellFormed_alloc hwf halloc).freeSize_eq_card] at hcard
    omega

end GlobalAllocator

end MiniVisor.Allocator
