import MiniVisor.Allocator.Used

/-!
# Allocation

`allocateWithAddressLimit_spec` is the contract of `allocate` and `allocate_below`: a request fails
and changes nothing, or it returns an aligned address below the limit at which all requested bytes
were free, and takes exactly these bytes. The walk over the lists ends and every address computation
stays in range.
-/

set_option autoImplicit false

namespace MiniVisor.Allocator

open MiniVisor.Lib

/-- An address at which an entry has room for a request. A limit of zero is taken as one, because
the source computes the last address below the limit with a saturating subtraction. -/
structure Fits (e : MemoryEntry) (size alignOrder addressLimit address : Nat) : Prop where
  aligned : 2 ^ alignOrder ∣ address
  start_le : e.start ≤ address
  le_stop : address + size ≤ e.stop + 1
  below : address + size ≤ max addressLimit 1

theorem alignAddressAndAvailableSize_spec (start size : Nat) {alignOrder : Nat}
    (hstart : start ≤ physicalLimit) (ho : alignOrder < 64) :
    ∃ address available, alignAddressAndAvailableSize start size alignOrder =
      .ok (address, available) ∧ 2 ^ alignOrder ∣ address ∧ start ≤ address ∧
      (0 < available → address + available = start + size) := by
  unfold alignAddressAndAvailableSize
  split
  · rename_i h0
    exact ⟨0, size, rfl, dvd_zero _, by omega, fun _ => by omega⟩
  · have hpow : 2 ^ alignOrder ≤ 2 ^ 63 := Nat.pow_le_pow_right (by decide) (by omega)
    have hlim : physicalLimit + 2 ^ 63 < wordSize := by decide
    have h1 := maskAddress_le (start - 1) (2 ^ alignOrder)
    have h2 := lt_maskAddress_add (start - 1) (Nat.two_pow_pos alignOrder)
    have hdvd : 2 ^ alignOrder ∣ maskAddress (start - 1) (2 ^ alignOrder) + 2 ^ alignOrder :=
      Dvd.dvd.add (Nat.dvd_mul_left _ _) dvd_rfl
    simp only [shiftOne, if_pos ho, ok_bind]
    rw [checkedAdd_eq (by omega), ok_bind, checkedSub_eq (by omega), ok_bind]
    split
    · exact ⟨_, _, rfl, hdvd, by omega, fun _ => by omega⟩
    · exact ⟨_, _, rfl, hdvd, by omega, fun h => by omega⟩

/-- The address computed for an entry fits. -/
theorem fitAddress_spec {e : MemoryEntry} {size alignOrder : Nat} (addressLimit : Nat)
    (he : e.stop < physicalLimit) (hsize : 0 < size) (ho : alignOrder < 64) :
    ∃ res, fitAddress e size alignOrder addressLimit = .ok res ∧
      ∀ address, res = some address → Fits e size alignOrder addressLimit address := by
  have hes := e.start_le_stop
  unfold fitAddress
  dsimp only
  by_cases hroom : e.start + size ≤ min e.stop (addressLimit - 1) + 1
  · have havail : (if min e.stop (addressLimit - 1) ≥ e.start then
        min e.stop (addressLimit - 1) - e.start + 1 else 0) =
        min e.stop (addressLimit - 1) - e.start + 1 := if_pos (by omega)
    rw [havail, if_pos (by omega)]
    split
    · obtain ⟨address, available, hok, hdvd, hle, hsum⟩ :=
        alignAddressAndAvailableSize_spec e.start
          (min e.stop (addressLimit - 1) - e.start + 1) (by omega) ho
      simp only [hok, ok_bind]
      split
      · exact ⟨none, rfl, by simp⟩
      · refine ⟨some address, rfl, ?_⟩
        rintro _ ⟨⟩
        exact ⟨hdvd, hle, by omega, by omega⟩
    · rename_i h0
      rw [not_not] at h0
      refine ⟨some e.start, rfl, ?_⟩
      rintro _ ⟨⟩
      exact ⟨by simp [h0], le_refl _, by omega, by omega⟩
  · refine ⟨none, if_neg ?_, by simp⟩
    split <;> omega

section Walk

variable {a : MemoryAllocator} {chain : List Nat} {lists : Nat → List Nat}
  {size alignOrder : Nat} (addressLimit : Nat)

/-- The walk over a list ends, at an entry of the list that fits or at its end. -/
theorem walkList_spec (h : Rep a chain lists) (hsize : 0 < size) (ho : alignOrder < 64)
    {o : Nat} (hoo : o < numOfFreeList) :
    ∀ (r l : List Nat) (fuel : Nat), lists o = l ++ r → r.length ≤ fuel →
      ∃ res, walkList a size alignOrder addressLimit fuel r.head? = .ok res ∧
        ∀ x address, res = some (x, address) →
          x ∈ chain ∧ Fits (a.pool x) size alignOrder addressLimit address := by
  intro r
  induction r with
  | nil => exact fun l fuel _ _ => ⟨none, by simp [walkList], by simp⟩
  | cons x r ih =>
    intro l fuel hs hfuel
    obtain ⟨fuel, rfl⟩ : ∃ k, fuel = k + 1 := ⟨fuel - 1, by simp at hfuel; omega⟩
    have hx : x ∈ chain := ((h.filing.filed.mem o hoo x).1 (hs ▸ by simp)).1
    obtain ⟨res, hok, hfit⟩ := fitAddress_spec addressLimit (h.stop_lt hx) hsize ho
    simp only [List.head?_cons, walkList, hok, ok_bind]
    cases res with
    | some address =>
      refine ⟨some (x, address), rfl, ?_⟩
      rintro y b ⟨⟩
      exact ⟨hx, hfit address rfl⟩
    | none =>
      simp only [(h.filing.linked.neighbours hoo hs).2]
      exact ih (l ++ [x]) fuel (by rw [hs]; simp) (by simpa using hfuel)

/-- A request either fails and changes nothing, or takes aligned free bytes below the limit. -/
structure Allocates (a : MemoryAllocator) (size alignOrder addressLimit : Nat)
    (outcome : Outcome Nat) : Prop where
  wellFormed : WellFormed outcome.2
  ok : ∀ address, outcome.1 = .ok address → 0 < size ∧ 2 ^ alignOrder ∣ address ∧
    address + size ≤ max addressLimit 1 ∧ Finset.Ico address (address + size) ⊆ freeBytes a ∧
    freeBytes outcome.2 = freeBytes a \ Finset.Ico address (address + size)
  error : ∀ err, outcome.1 = .error err → outcome.2 = a

theorem Allocates.of_error (h : Rep a chain lists) (size alignOrder addressLimit : Nat)
    (err : MemoryError) : Allocates a size alignOrder addressLimit (.error err, a) :=
  ⟨⟨chain, lists, h⟩, by simp, fun _ _ => rfl⟩

theorem defineUsedMemory_eq_carve (hsize : 0 < size) (hfree : size ≤ a.freeSize) (x address : Nat) :
    defineUsedMemory a address size 0 (some x) = carve a x address size := by
  simp only [defineUsedMemory, defineUsedRange]
  rw [if_neg (by omega), if_neg (by omega), if_neg (by omega), if_neg (by omega),
    if_neg (by omega)]

/-- The bytes at a fitting address are free, and `define_used_memory` takes exactly them. -/
theorem defineUsedMemory_allocates (h : Rep a chain lists) (hsize : 0 < size)
    (hfree : size ≤ a.freeSize) {x address : Nat} (hx : x ∈ chain)
    (hfit : Fits (a.pool x) size alignOrder addressLimit address) :
    ∃ res b, defineUsedMemory a address size 0 (some x) = .ok (res, b) ∧
      Allocates a size alignOrder addressLimit (res.map fun _ => address, b) := by
  have hlim := h.stop_lt hx
  have hpw := physicalLimit_lt
  have hstart := hfit.start_le
  have hstop := hfit.le_stop
  have hIcc : Finset.Icc address (min (a.pool x).stop (address + size - 1)) =
      Finset.Ico address (address + size) := by
    ext y
    simp only [Finset.mem_Icc, Finset.mem_Ico]
    omega
  obtain ⟨l, r, rfl⟩ := List.append_of_mem hx
  rw [defineUsedMemory_eq_carve hsize hfree]
  rcases carve_spec h hstart (by omega) hsize (by omega) with ⟨b, hok, hwf, hb⟩ | ⟨hok, -⟩
  · refine ⟨.ok (), b, hok, hwf, ?_, by simp [Except.map]⟩
    intro address' haddr
    obtain rfl : address = address' := Except.ok.inj haddr
    rw [hIcc] at hb
    refine ⟨hsize, hfit.aligned, hfit.below, fun y hy => ?_, hb⟩
    rw [h.addressChain.freeBytes_eq, mem_cover]
    rw [Finset.mem_Ico] at hy
    refine ⟨rangeAt a x, List.mem_map_of_mem hx, ?_⟩
    simp only [rangeAt]
    omega
  · exact ⟨_, _, hok, .of_error h _ _ _ _⟩

theorem allocateFrom_spec (h : Rep a chain lists) (hsize : 0 < size) (hfree : size ≤ a.freeSize)
    (ho : alignOrder < 64) :
    ∀ orders : List Nat, (∀ o ∈ orders, o < numOfFreeList) →
      ∃ outcome, allocateFrom a size alignOrder addressLimit orders = .ok outcome ∧
        Allocates a size alignOrder addressLimit outcome := by
  intro orders
  induction orders with
  | nil => exact fun _ => ⟨_, rfl, .of_error h _ _ _ _⟩
  | cons o orders ih =>
    intro horders
    have hoo := horders o List.mem_cons_self
    have hrest := ih fun o' ho' => horders o' (List.mem_cons_of_mem _ ho')
    have hhead := h.filing.linked.head_ref hoo
    have hheadEq := (h.filing.linked.linked o hoo).head_eq
    simp only [allocateFrom]
    cases hl : lists o with
    | nil =>
      rw [hheadEq, hl]
      exact hrest
    | cons t r =>
      rw [hl] at hhead hheadEq
      rw [hheadEq] at hhead ⊢
      simp only [List.head?_cons, Option.bind_some] at hhead ⊢
      simp only [hhead]
      have hlen := h.filing.linked.length_le hoo
      obtain ⟨res, hok, hres⟩ := walkList_spec addressLimit h hsize ho
        hoo (t :: r) [] poolSize hl
        (by rw [hl] at hlen; exact hlen)
      simp only [List.head?_cons] at hok
      simp only [hok, ok_bind]
      cases res with
      | none => exact hrest
      | some found =>
        obtain ⟨x, address⟩ := found
        obtain ⟨hx, hfit⟩ := hres x address rfl
        obtain ⟨res, b, hused, hall⟩ := defineUsedMemory_allocates addressLimit h
          hsize hfree hx hfit
        simp only [hused, ok_bind]
        cases res with
        | ok u => exact ⟨_, rfl, hall⟩
        | error err => exact ⟨_, rfl, hall⟩

/-- The contract of `allocate_with_address_limit`. -/
theorem allocateWithAddressLimit_spec (size : Nat) (h : Rep a chain lists) (ho : alignOrder < 64) :
    ∃ outcome, allocateWithAddressLimit a size alignOrder addressLimit = .ok outcome ∧
      Allocates a size alignOrder addressLimit outcome := by
  unfold allocateWithAddressLimit
  split
  · exact ⟨_, rfl, .of_error h _ _ _ _⟩
  · split
    · exact ⟨_, rfl, .of_error h _ _ _ _⟩
    · refine allocateFrom_spec addressLimit h (by omega) (by omega) ho _ fun o ho' => ?_
      have hlt := sizeToPageOrder_lt size
      rw [List.mem_range'_1] at ho'
      omega

end Walk

end MiniVisor.Allocator
