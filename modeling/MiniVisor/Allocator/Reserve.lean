import MiniVisor.Allocator.Overlap

/-!
# Reservations that reach over a free entry

`define_used_memory` clamps a request to the free entry that holds its first byte: whatever lies
beyond the entry is taken to be excluded already. This is so only up to the next free entry. The
main result, `reserve_covers_iff`, is that a successful reservation covers its request exactly when
the free bytes of the request are one block that begins with its first byte.
-/

set_option autoImplicit false

namespace MiniVisor.Allocator

open MiniVisor.Lib

/-- What a reservation of `size` bytes from `s` on should have done: no byte of the range is free,
the others are as before, and `free_size` went down by the bytes that were free in the range. -/
structure Reserved (a : MemoryAllocator) (s size : Nat) (b : MemoryAllocator) : Prop where
  covered : Disjoint (freeBytes b) (bytes s size)
  outside : ∀ y ∉ bytes s size, y ∈ freeBytes b ↔ y ∈ freeBytes a
  freeSize : b.freeSize + (freeBytes a ∩ bytes s size).card = a.freeSize

/-- The free bytes of the range are one block from its first byte on: behind a byte that is not
free, none is. -/
def FreeBlock (a : MemoryAllocator) (s size : Nat) : Prop :=
  ∀ y ∈ freeBytes a, s ≤ y → y < s + size → Finset.Icc s y ⊆ freeBytes a

section Entry

variable {a b : MemoryAllocator} {chain : List Nat} {lists : Nat → List Nat} {i s size : Nat}

/-- Free entries do not touch: the byte behind one is not free. -/
theorem Rep.stop_succ_notMem (h : Rep a chain lists) (hi : i ∈ chain) :
    (a.pool i).stop + 1 ∉ freeBytes a := by
  obtain ⟨l, r, rfl⟩ := List.append_of_mem hi
  have hc := h.split
  rw [h.addressChain.freeBytes_eq, mem_cover]
  rintro ⟨p, hp, hlo, hhi⟩
  rw [List.map_append, List.map_cons] at hp
  have hle := (a.pool i).start_le_stop
  obtain ⟨-, hbefore, hbehind⟩ := hc.around
  rcases List.mem_append.1 hp with hp | hp
  · have := hbefore p hp
    simp only [rangeAt] at this
    omega
  · rcases List.mem_cons.1 hp with rfl | hp
    · simp only [rangeAt] at hlo hhi
      omega
    · have := hbehind p hp
      simp only [rangeAt] at this
      omega

/-- The free bytes of a range that begins in an entry are one block exactly when they are all in the
entry. -/
theorem Rep.freeBlock_iff (h : Rep a chain lists) (hi : i ∈ chain) (hs : (a.pool i).start ≤ s)
    (hsi : s ≤ (a.pool i).stop) :
    FreeBlock a s size ↔ ∀ y ∈ freeBytes a, s ≤ y → y < s + size → y ≤ (a.pool i).stop := by
  constructor
  · intro hblock y hy hsy hlt
    by_contra hgt
    have hin : (a.pool i).stop + 1 ∈ Finset.Icc s y := Finset.mem_Icc.2 (by omega)
    exact h.stop_succ_notMem hi (hblock y hy hsy hlt hin)
  · intro hle y hy hsy hlt z hz
    have hstop := hle y hy hsy hlt
    have hz' := Finset.mem_Icc.1 hz
    exact h.mem_freeBytes hi (by omega) (by omega)

/-- A range that loses its bytes up to the end of an entry is reserved exactly when it has no free
byte behind the entry. -/
theorem reserved_iff (ha : WellFormed a) (hb : WellFormed b) (hsize : 0 < size) {stop : Nat}
    (hfree : freeBytes b = freeBytes a \ Finset.Icc s (min stop (s + size - 1))) :
    Reserved a s size b ↔ ∀ y ∈ freeBytes a, s ≤ y → y < s + size → y ≤ stop := by
  constructor
  · intro hres y hy hsy hlt
    by_contra hgt
    have hyb : y ∈ freeBytes b := by
      rw [hfree, Finset.mem_sdiff, Finset.mem_Icc]
      exact ⟨hy, by omega⟩
    exact Finset.disjoint_left.1 hres.covered hyb (Finset.mem_Ico.2 ⟨hsy, hlt⟩)
  · intro hle
    -- The bytes behind the entry were not free, so the clamped range takes what the full one takes.
    have hall : freeBytes b = freeBytes a \ bytes s size := by
      rw [hfree]
      ext y
      simp only [Finset.mem_sdiff, Finset.mem_Icc, bytes, Finset.mem_Ico]
      constructor
      · rintro ⟨hy, hout⟩
        refine ⟨hy, fun hin => hout ?_⟩
        have := hle y hy hin.1 hin.2
        omega
      · rintro ⟨hy, hout⟩
        exact ⟨hy, by omega⟩
    refine ⟨?_, fun y hy => ?_, ?_⟩
    · rw [hall]
      exact Finset.sdiff_disjoint
    · rw [hall, Finset.mem_sdiff]
      exact and_iff_left hy
    · rw [hb.freeSize_eq_card, ha.freeSize_eq_card, hall]
      exact Finset.card_sdiff_add_card_inter _ _

end Entry

/-- **A reservation covers its request** exactly when the free bytes of the request are one block
from its first byte on, in every state that a run reaches. -/
theorem reserve_covers_iff {labels : List (Request × Reply)} {a b : MemoryAllocator}
    (h : Run Initial (Step InBoundsHandled) labels a) {start size : Nat} (hpos : 0 < size)
    (hle : start + size ≤ physicalLimit) (hok : reserveMemory a start size 0 = .ok (.ok (), b)) :
    Reserved a start size b ↔ FreeBlock a start size := by
  have hwf := wellFormed_of_run_handled h
  obtain ⟨chain, lists, hrep⟩ := hwf
  obtain ⟨outcome, hrun, htakes⟩ := reserveMemory_spec hrep hle (show 0 < 64 by decide)
  rw [hok] at hrun
  cases hrun
  rw [alignRange_zero start size hpos] at htakes
  obtain ⟨-, i, hi, hen, hs, hsi, hfree⟩ := htakes.ok rfl
  rw [reserved_iff ⟨chain, lists, hrep⟩ htakes.wellFormed hpos hfree,
    hrep.freeBlock_iff ((hrep.addressChain.mem i).2 ⟨hi, hen⟩) hs hsi]

theorem mem_freeBytes_iff {a : MemoryAllocator} {y : Nat} :
    y ∈ freeBytes a ↔ ∃ i < poolSize, (a.pool i).enabled ∧ (a.pool i).start ≤ y ∧
      y ≤ (a.pool i).stop := by
  simp only [freeBytes, Finset.mem_biUnion, Finset.mem_filter, Finset.mem_range, Finset.mem_Icc,
    and_assoc]

/-- An entry holds the first byte, and the others end before it does or begin behind the range. -/
theorem freeBlock_of_entry {a : MemoryAllocator} {s size i : Nat} (hi : i < poolSize)
    (hen : (a.pool i).enabled) (hs : (a.pool i).start ≤ s)
    (hother : ∀ j < poolSize, (a.pool j).enabled → (a.pool j).stop ≤ (a.pool i).stop ∨
      s + size ≤ (a.pool j).start) : FreeBlock a s size := by
  intro y hy hsy hlt z hz
  obtain ⟨j, hj, hjen, hjy⟩ := mem_freeBytes_iff.1 hy
  have hz' := Finset.mem_Icc.1 hz
  have := hother j hj hjen
  exact mem_freeBytes_iff.2 ⟨i, hi, hen, by omega⟩

/-- One block with a hole of a page, made by a reservation. -/
def holed : MemoryAllocator :=
  after (after MemoryAllocator.new (.free 0x1000 0x8000)) (.reserve 0x2000 0x1000 0)

theorem run_holed : Run Initial (Step InBoundsHandled)
    [(.free 0x1000 0x8000, .ok none), (.reserve 0x2000 0x1000 0, .ok none)] holed := by
  have h₀ : Run Initial (Step InBoundsHandled) [] MemoryAllocator.new := .start rfl
  have h₁ := run_request h₀ (.free 0x1000 0x8000) (.ok none)
    ⟨by decide, by decide, .apart (disjoint_of_stop_lt (by decide +kernel))⟩ (by decide +kernel)
  exact run_request h₁ (.reserve 0x2000 0x1000 0) (.ok none)
    ⟨by decide, by decide, by decide⟩ (by decide +kernel)

/-- The layout of the unit test: a reservation that begins below an earlier one and ends in it. -/
theorem reserve_covers_iff_overlap : ∃ b, reserveMemory holed 0x1800 0x1000 0 = .ok (.ok (), b) ∧
    FreeBlock holed 0x1800 0x1000 ∧ Reserved holed 0x1800 0x1000 b := by
  have hblock : FreeBlock holed 0x1800 0x1000 :=
    freeBlock_of_entry (i := 0) (by decide) (by decide +kernel) (by decide +kernel)
      (by decide +kernel)
  obtain ⟨b, hok⟩ := exists_of_map_fst (show (reserveMemory holed 0x1800 0x1000 0).map Prod.fst =
    .ok (.ok ()) by decide +kernel)
  exact ⟨b, hok, hblock, (reserve_covers_iff run_holed (by decide) (by decide) hok).2 hblock⟩

/-- A reservation over the hole succeeds, and the page behind the hole stays free. -/
theorem reserve_over_hole_incomplete : ∃ labels b,
    Run Initial (Step InBoundsHandled) labels holed ∧
    reserveMemory holed 0x1000 0x3000 0 = .ok (.ok (), b) ∧ 0x3000 ∈ freeBytes b ∧
    ¬Reserved holed 0x1000 0x3000 b := by
  obtain ⟨b, hok⟩ := exists_of_map_fst (show (reserveMemory holed 0x1000 0x3000 0).map Prod.fst =
    .ok (.ok ()) by decide +kernel)
  have hpool : (reserveMemory holed 0x1000 0x3000 0).map (fun o => rangeAt o.2 1) =
      .ok (0x3000, 0x8fff) ∧
    (reserveMemory holed 0x1000 0x3000 0).map (fun o => (o.2.pool 1).enabled) = .ok true := by
    decide +kernel
  rw [hok] at hpool
  have hrange : rangeAt b 1 = (0x3000, 0x8fff) := Except.ok.inj hpool.1
  have hmem : 0x3000 ∈ freeBytes b := by
    have hstart := congrArg Prod.fst hrange
    have hstop := congrArg Prod.snd hrange
    simp only [rangeAt] at hstart hstop
    exact mem_freeBytes_iff.2 ⟨1, by decide, Except.ok.inj hpool.2, by omega⟩
  refine ⟨_, b, run_holed, hok, hmem, fun hres => ?_⟩
  exact Finset.disjoint_left.1 hres.covered hmem (Finset.mem_Ico.2 (by decide))

end MiniVisor.Allocator
