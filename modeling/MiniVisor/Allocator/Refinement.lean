import MiniVisor.Allocator.Allocate
import MiniVisor.Allocator.Free
import MiniVisor.Lib.Transition

/-!
# The allocator as a set of free bytes

The abstract allocator is a set of free bytes together with the byte sets handed out so far
(`Abstract`); its steps say what a caller of `MemoryAllocator` may rely on. `refines_freeSet` is the
refinement: every run of the allocator from `MemoryAllocator.new` is a run of the abstract one with
the same requests and replies, `free_size` counts the free bytes, no request faults, and no two byte
sets that are handed out ever overlap.

`invariant_of_run` is the representation invariant along every run, also for reservations that only
partly meet a free entry.
-/

set_option autoImplicit false

namespace MiniVisor.Allocator

open MiniVisor.Lib

/-! ## Requests -/

inductive Request where
  | free (start size : Nat)
  | allocate (size alignOrder : Nat)
  | allocateBelow (size alignOrder addressLimit : Nat)
  | reserve (start size alignOrder : Nat)
  deriving DecidableEq, Repr

/-- The reply to a request: an error, or success with the address of an allocation. -/
abbrev Reply := Except MemoryError (Option Nat)

/-- The call that a request stands for. -/
def exec (a : MemoryAllocator) : Request → Except Fault (Outcome (Option Nat))
  | .free start size => do
    let (result, a) ← free a start size
    return (result.map fun _ => none, a)
  | .allocate size alignOrder => do
    let (result, a) ← allocate a size alignOrder
    return (result.map some, a)
  | .allocateBelow size alignOrder addressLimit => do
    let (result, a) ← allocateBelow a size alignOrder addressLimit
    return (result.map some, a)
  | .reserve start size alignOrder => do
    let (result, a) ← reserveMemory a start size alignOrder
    return (result.map fun _ => none, a)

/-- The bytes of a range. -/
def bytes (start size : Nat) : Finset Nat := Finset.Ico start (start + size)

/-- The bytes that a reservation asks for: its range extended to the alignment. -/
def reservedBytes (start size alignOrder : Nat) : Finset Nat :=
  bytes (alignRange start size alignOrder).1 (alignRange start size alignOrder).2

/-- The bytes lie in one free entry. -/
def InFreeEntry (a : MemoryAllocator) (B : Finset Nat) : Prop :=
  ∃ i < poolSize, (a.pool i).enabled ∧ B ⊆ Finset.Icc (a.pool i).start (a.pool i).stop

/-- Requests within physical memory and the word size. A freed range is not free yet. -/
def InBounds (a : MemoryAllocator) : Request → Prop
  | .free start size =>
    0 < size ∧ start + size ≤ physicalLimit ∧ Disjoint (freeBytes a) (bytes start size)
  | .allocate _ alignOrder => alignOrder < 64
  | .allocateBelow _ alignOrder _ => alignOrder < 64
  | .reserve start size alignOrder => 0 < size ∧ start + size ≤ physicalLimit ∧ alignOrder < 64

/-- Requests whose bytes are all concerned: a limit above zero, and a reservation inside one free
entry. -/
def Admissible (a : MemoryAllocator) (request : Request) : Prop :=
  InBounds a request ∧
    match request with
    | .allocateBelow _ _ addressLimit => 0 < addressLimit
    | .reserve start size alignOrder => InFreeEntry a (reservedBytes start size alignOrder)
    | _ => True

/-- The steps of the allocator, labelled with request and reply. -/
def Step (permitted : MemoryAllocator → Request → Prop) (a : MemoryAllocator)
    (label : Request × Reply) (a' : MemoryAllocator) : Prop :=
  permitted a label.1 ∧ exec a label.1 = .ok (label.2, a')

/-- The state of `MemoryAllocator::new()`. -/
def Initial (a : MemoryAllocator) : Prop := a = MemoryAllocator.new

/-! ## The abstract allocator -/

/-- The free bytes, and the bytes of each allocation and reservation that are still in use. -/
structure Abstract where
  free : Finset Nat
  live : List (Finset Nat)

namespace Abstract

/-- Nothing is free and nothing is in use. -/
def empty : Abstract := ⟨∅, []⟩

/-- The bytes `B` are handed out. -/
def take (σ : Abstract) (B : Finset Nat) : Abstract := ⟨σ.free \ B, B :: σ.live⟩

/-- The bytes `B` are given back. -/
def release (σ : Abstract) (B : Finset Nat) : Abstract := ⟨σ.free ∪ B, σ.live.map (· \ B)⟩

/-- What a reply to a request means. -/
inductive Step (σ : Abstract) : Request × Reply → Abstract → Prop where
  | free {start size : Nat} (h : Disjoint σ.free (bytes start size)) :
      Step σ (.free start size, .ok none) (σ.release (bytes start size))
  | allocate {size alignOrder address : Nat} (haligned : 2 ^ alignOrder ∣ address)
      (hbelow : address + size ≤ wordSize - 1) (hfree : bytes address size ⊆ σ.free) :
      Step σ (.allocate size alignOrder, .ok (some address)) (σ.take (bytes address size))
  | allocateBelow {size alignOrder addressLimit address : Nat}
      (haligned : 2 ^ alignOrder ∣ address) (hbelow : address + size ≤ addressLimit)
      (hfree : bytes address size ⊆ σ.free) :
      Step σ (.allocateBelow size alignOrder addressLimit, .ok (some address))
        (σ.take (bytes address size))
  | reserve {start size alignOrder : Nat}
      (hfree : reservedBytes start size alignOrder ⊆ σ.free) :
      Step σ (.reserve start size alignOrder, .ok none)
        (σ.take (reservedBytes start size alignOrder))
  | fail {request : Request} {err : MemoryError} : Step σ (request, .error err) σ

/-- The bytes in use are not free, and no byte is in use twice. -/
structure Separated (σ : Abstract) : Prop where
  live : σ.live.Pairwise Disjoint
  free : ∀ B ∈ σ.live, Disjoint B σ.free

theorem Separated.take {σ : Abstract} (h : σ.Separated) {B : Finset Nat} (hB : B ⊆ σ.free) :
    (σ.take B).Separated := by
  refine ⟨List.pairwise_cons.2 ⟨fun C hC => ?_, h.live⟩, fun C hC => ?_⟩
  · exact (Finset.disjoint_of_subset_right hB (h.free C hC)).symm
  · rcases List.mem_cons.1 hC with rfl | hC
    · exact Finset.disjoint_sdiff
    · exact Finset.disjoint_of_subset_right Finset.sdiff_subset (h.free C hC)

theorem Separated.release {σ : Abstract} (h : σ.Separated) (B : Finset Nat) :
    (σ.release B).Separated := by
  refine ⟨?_, fun C hC => ?_⟩
  · refine List.pairwise_map.2 (h.live.imp fun {C D} hCD => ?_)
    exact Finset.disjoint_of_subset_left Finset.sdiff_subset
      (Finset.disjoint_of_subset_right Finset.sdiff_subset hCD)
  · obtain ⟨D, hD, rfl⟩ := List.mem_map.1 hC
    refine Finset.disjoint_union_right.2 ⟨?_, Finset.sdiff_disjoint⟩
    exact Finset.disjoint_of_subset_left Finset.sdiff_subset (h.free D hD)

/-- Every abstract step keeps the byte sets apart. -/
theorem Separated.step {σ σ' : Abstract} {label : Request × Reply} (h : σ.Separated)
    (hstep : Step σ label σ') : σ'.Separated := by
  cases hstep with
  | free _ => exact h.release _
  | allocate _ _ hfree => exact h.take hfree
  | allocateBelow _ _ hfree => exact h.take hfree
  | reserve hfree => exact h.take hfree
  | fail => exact h

theorem separated_empty : empty.Separated := ⟨List.Pairwise.nil, by simp [empty]⟩

end Abstract

/-! ## One request -/

section Exec

variable {a : MemoryAllocator} {chain : List Nat} {lists : Nat → List Nat}

theorem bytes_eq_Icc {start size : Nat} (h : 0 < size) :
    bytes start size = Finset.Icc start (start + size - 1) := by
  ext y
  simp only [bytes, Finset.mem_Ico, Finset.mem_Icc]
  omega

theorem exec_free (h : Rep a chain lists) {start size : Nat} (hb : InBounds a (.free start size)) :
    ∃ result b, exec a (.free start size) = .ok (result.map fun _ => none, b) ∧
      Frees a start (start + size - 1) (result, b) := by
  obtain ⟨hpos, hle, hdisj⟩ := hb
  rw [bytes_eq_Icc hpos] at hdisj
  have hsize : start + size - 1 - start + 1 = size := by omega
  obtain ⟨⟨result, b⟩, hok, hfrees⟩ := free_spec h (show start ≤ start + size - 1 by omega)
    (by omega) hdisj
  rw [hsize] at hok
  refine ⟨result, b, ?_, hfrees⟩
  simp only [exec, hok, ok_bind]
  rfl

theorem exec_allocate (h : Rep a chain lists) {size alignOrder : Nat} (ho : alignOrder < 64) :
    ∃ result b, exec a (.allocate size alignOrder) = .ok (result.map some, b) ∧
      Allocates a size alignOrder (wordSize - 1) (result, b) := by
  obtain ⟨⟨result, b⟩, hok, hall⟩ := allocateWithAddressLimit_spec (wordSize - 1) size h ho
  refine ⟨result, b, ?_, hall⟩
  simp only [exec, allocate, hok, ok_bind]
  rfl

theorem exec_allocateBelow (h : Rep a chain lists) {size alignOrder addressLimit : Nat}
    (ho : alignOrder < 64) :
    ∃ result b, exec a (.allocateBelow size alignOrder addressLimit) =
        .ok (result.map some, b) ∧ Allocates a size alignOrder addressLimit (result, b) := by
  obtain ⟨⟨result, b⟩, hok, hall⟩ := allocateWithAddressLimit_spec addressLimit size h ho
  refine ⟨result, b, ?_, hall⟩
  simp only [exec, allocateBelow, hok, ok_bind]
  rfl

theorem exec_reserve (h : Rep a chain lists) {start size alignOrder : Nat}
    (hle : start + size ≤ physicalLimit) (ho : alignOrder < 64) :
    ∃ result b, exec a (.reserve start size alignOrder) = .ok (result.map fun _ => none, b) ∧
      TakesFrom a (alignRange start size alignOrder).1 (alignRange start size alignOrder).2
        (result, b) := by
  obtain ⟨⟨result, b⟩, hok, htakes⟩ := reserveMemory_spec h hle ho
  refine ⟨result, b, ?_, htakes⟩
  simp only [exec, hok, ok_bind]
  rfl

/-- A request in bounds ends, without a fault, in a well-formed allocator. -/
theorem exec_wellFormed (h : WellFormed a) {request : Request} (hb : InBounds a request) :
    ∃ reply b, exec a request = .ok (reply, b) ∧ WellFormed b := by
  obtain ⟨chain, lists, h⟩ := h
  cases request with
  | free start size =>
    obtain ⟨result, b, hok, hfrees⟩ := exec_free h hb
    exact ⟨_, b, hok, hfrees.wellFormed⟩
  | allocate size alignOrder =>
    obtain ⟨result, b, hok, hall⟩ := exec_allocate h hb
    exact ⟨_, b, hok, hall.wellFormed⟩
  | allocateBelow size alignOrder addressLimit =>
    obtain ⟨result, b, hok, hall⟩ := exec_allocateBelow h hb
    exact ⟨_, b, hok, hall.wellFormed⟩
  | reserve start size alignOrder =>
    obtain ⟨result, b, hok, htakes⟩ := exec_reserve h hb.2.1 hb.2.2
    exact ⟨_, b, hok, htakes.wellFormed⟩

/-- A reservation inside one free entry takes exactly its bytes. -/
theorem TakesFrom.exact {start size : Nat} {b : MemoryAllocator} (h : Rep a chain lists)
    (htakes : TakesFrom a start size (.ok (), b)) (hin : InFreeEntry a (bytes start size)) :
    bytes start size ⊆ freeBytes a ∧ freeBytes b = freeBytes a \ bytes start size := by
  obtain ⟨hpos, i, hi, hien, his, hsi, hb⟩ := htakes.ok rfl
  obtain ⟨j, hj, hjen, hsub⟩ := hin
  have hlast : start + size - 1 ∈ bytes start size := by
    simp only [bytes, Finset.mem_Ico]
    omega
  have hfirst : start ∈ bytes start size := by
    simp only [bytes, Finset.mem_Ico]
    omega
  have hjl := Finset.mem_Icc.1 (hsub hlast)
  have hjf := Finset.mem_Icc.1 (hsub hfirst)
  -- two entries that hold the first byte are one entry
  have hij : i = j := by
    have hmi := (h.addressChain.mem i).2 ⟨hi, hien⟩
    have hmj := (h.addressChain.mem j).2 ⟨hj, hjen⟩
    obtain ⟨l, r, rfl⟩ := List.append_of_mem hmi
    obtain ⟨hl, hr⟩ := h.stop_lt_of_mem
    rcases List.mem_append.1 hmj with hm | hm
    · have := hl j hm
      omega
    · rcases List.mem_cons.1 hm with rfl | hm
      · rfl
      · have := hr j hm
        omega
  subst hij
  rw [min_eq_right (by omega), ← bytes_eq_Icc hpos] at hb
  refine ⟨fun y hy => ?_, hb⟩
  have hy' := Finset.mem_Icc.1 (hsub hy)
  exact h.mem_freeBytes ((h.addressChain.mem i).2 ⟨hi, hien⟩) hy'.1 hy'.2

/-- The abstraction relation: a well-formed allocator and its free bytes. -/
def Represents (a : MemoryAllocator) (σ : Abstract) : Prop :=
  WellFormed a ∧ freeBytes a = σ.free

/-- Every admissible request is answered, and the answer is a step of the abstract allocator. -/
theorem exec_refines {σ : Abstract} (h : Represents a σ) {request : Request}
    (hadm : Admissible a request) :
    ∃ reply b σ', exec a request = .ok (reply, b) ∧ Abstract.Step σ (request, reply) σ' ∧
      Represents b σ' := by
  obtain ⟨⟨chain, lists, hrep⟩, hfree⟩ := h
  obtain ⟨hb, hmore⟩ := hadm
  have hsame : ∀ b, b = a → Represents b σ := fun b hb => hb ▸ ⟨⟨chain, lists, hrep⟩, hfree⟩
  cases request with
  | free start size =>
    obtain ⟨result, b, hok, hfrees⟩ := exec_free hrep hb
    cases result with
    | ok u =>
      refine ⟨_, b, _, hok, .free (hfree ▸ hb.2.2), hfrees.wellFormed, ?_⟩
      rw [hfrees.ok rfl, ← bytes_eq_Icc hb.1, hfree]
      rfl
    | error err => exact ⟨_, b, σ, hok, .fail, hsame b (hfrees.error err rfl)⟩
  | allocate size alignOrder =>
    obtain ⟨result, b, hok, hall⟩ := exec_allocate hrep hb
    cases result with
    | ok address =>
      obtain ⟨-, hdvd, hbelow, hsub, hb'⟩ := hall.ok address rfl
      refine ⟨_, b, _, hok, .allocate hdvd hbelow (hfree ▸ hsub), hall.wellFormed, ?_⟩
      rw [hb', hfree]
      rfl
    | error err => exact ⟨_, b, σ, hok, .fail, hsame b (hall.error err rfl)⟩
  | allocateBelow size alignOrder addressLimit =>
    obtain ⟨result, b, hok, hall⟩ := exec_allocateBelow hrep hb
    cases result with
    | ok address =>
      obtain ⟨-, hdvd, hbelow, hsub, hb'⟩ := hall.ok address rfl
      rw [max_eq_left hmore] at hbelow
      refine ⟨_, b, _, hok, .allocateBelow hdvd hbelow (hfree ▸ hsub), hall.wellFormed, ?_⟩
      rw [hb', hfree]
      rfl
    | error err => exact ⟨_, b, σ, hok, .fail, hsame b (hall.error err rfl)⟩
  | reserve start size alignOrder =>
    obtain ⟨result, b, hok, htakes⟩ := exec_reserve hrep hb.2.1 hb.2.2
    cases result with
    | ok u =>
      obtain ⟨hsub, hb'⟩ := TakesFrom.exact hrep htakes hmore
      refine ⟨_, b, _, hok, .reserve (hfree ▸ hsub), htakes.wellFormed, ?_⟩
      rw [hb', hfree]
      rfl
    | error err => exact ⟨_, b, σ, hok, .fail, hsame b (htakes.error err rfl)⟩

end Exec

/-! ## Runs -/

theorem represents_new : Represents MemoryAllocator.new Abstract.empty :=
  ⟨⟨_, _, rep_new⟩, by rw [rep_new.addressChain.freeBytes_eq]; rfl⟩

/-- Every run of admissible requests is a run of the abstract allocator. -/
theorem run_represents {labels : List (Request × Reply)} {a : MemoryAllocator}
    (h : Run Initial (Step Admissible) labels a) :
    ∃ σ, Run (· = Abstract.empty) Abstract.Step labels σ ∧ Represents a σ := by
  refine h.simulate (fun a ha => ⟨Abstract.empty, rfl, ha ▸ represents_new⟩) ?_
  rintro a ⟨request, reply⟩ a' σ hR ⟨hadm, hexec⟩
  obtain ⟨reply', b, σ', hok, hstep, hR'⟩ := exec_refines hR hadm
  obtain ⟨rfl, rfl⟩ := Prod.mk.inj (Except.ok.inj (hexec.symm.trans hok))
  exact ⟨σ', hstep, hR'⟩

/-- The allocator refines the set of free bytes: every run from `new` is a run of the abstract
allocator with the same requests and replies and the same free bytes, which `free_size` counts. The
byte sets in use are disjoint. From there every admissible request is answered, by a step of the
abstract allocator again. -/
theorem refines_freeSet {labels : List (Request × Reply)} {a : MemoryAllocator}
    (h : Run Initial (Step Admissible) labels a) :
    ∃ σ, Run (· = Abstract.empty) Abstract.Step labels σ ∧ freeBytes a = σ.free ∧
      a.freeSize = (freeBytes a).card ∧ σ.live.Pairwise Disjoint ∧
      ∀ request, Admissible a request → ∃ reply b σ', exec a request = .ok (reply, b) ∧
        Abstract.Step σ (request, reply) σ' ∧ freeBytes b = σ'.free ∧
        b.freeSize = (freeBytes b).card := by
  obtain ⟨σ, hrun, hR⟩ := run_represents h
  have hsep : σ.Separated := hrun.invariant (fun s hs => hs ▸ Abstract.separated_empty)
    fun s label t hs hst => hs.step hst
  refine ⟨σ, hrun, hR.2, hR.1.freeSize_eq_card, hsep.live, fun request hadm => ?_⟩
  obtain ⟨reply, b, σ', hok, hstep, hR'⟩ := exec_refines hR hadm
  exact ⟨reply, b, σ', hok, hstep, hR'.2, hR'.1.freeSize_eq_card⟩

/-- The allocator after a request. -/
def after (a : MemoryAllocator) (request : Request) : MemoryAllocator :=
  match exec a request with
  | .ok (_, b) => b
  | .error _ => a

/-- A run goes on with a request whose reply is known. -/
theorem run_request {permitted : MemoryAllocator → Request → Prop}
    {labels : List (Request × Reply)} {a : MemoryAllocator}
    (h : Run Initial (Step permitted) labels a) (request : Request) (reply : Reply)
    (hp : permitted a request) (hr : (exec a request).map Prod.fst = .ok reply) :
    Run Initial (Step permitted) (labels ++ [(request, reply)]) (after a request) := by
  refine h.next ⟨hp, ?_⟩
  unfold after
  cases hok : exec a request with
  | error fault => simp [hok, Except.map] at hr
  | ok outcome =>
    rw [hok] at hr
    obtain rfl : outcome.1 = reply := Except.ok.inj hr
    rfl

theorem admissible_first_free (start size : Nat) (hpos : 0 < size)
    (hle : start + size ≤ physicalLimit) :
    Admissible MemoryAllocator.new (.free start size) :=
  ⟨⟨hpos, hle, represents_new.2 ▸ Finset.disjoint_empty_left _⟩, trivial⟩

/-- The refinement on a run that frees 16 KiB, allocates an aligned page and reserves another. -/
theorem refines_freeSet_pages : ∃ a, Run Initial (Step Admissible)
      [(.free 0x1000 0x4000, .ok none), (.allocate 0x1000 12, .ok (some 0x1000)),
        (.reserve 0x3000 0x1000 0, .ok none)] a ∧
    a.freeSize = 0x2000 ∧ ∃ σ : Abstract, freeBytes a = σ.free ∧ a.freeSize = (freeBytes a).card ∧
      σ.live.Pairwise Disjoint := by
  have h₀ : Run Initial (Step Admissible) [] MemoryAllocator.new := .start rfl
  have h₁ := run_request h₀ (.free 0x1000 0x4000) (.ok none)
    (admissible_first_free _ _ (by decide) (by decide)) (by decide +kernel)
  have h₂ := run_request h₁ (.allocate 0x1000 12) (.ok (some 0x1000))
    ⟨show 12 < 64 by decide, trivial⟩ (by decide +kernel)
  have hentry : InFreeEntry (after (after MemoryAllocator.new (.free 0x1000 0x4000))
      (.allocate 0x1000 12)) (reservedBytes 0x3000 0x1000 0) := by
    refine ⟨0, by decide, by decide +kernel, fun y hy => ?_⟩
    have hy' := Finset.mem_Ico.1 hy
    rw [alignRange_zero _ _ (by decide)] at hy'
    have hrange : rangeAt (after (after MemoryAllocator.new (.free 0x1000 0x4000))
        (.allocate 0x1000 12)) 0 = (0x2000, 0x4fff) := by decide +kernel
    have hstart := congrArg Prod.fst hrange
    have hstop := congrArg Prod.snd hrange
    simp only [rangeAt] at hstart hstop
    rw [Finset.mem_Icc, hstart, hstop]
    omega
  have h₃ := run_request h₂ (.reserve 0x3000 0x1000 0) (.ok none)
    ⟨⟨by decide, by decide, by decide⟩, hentry⟩ (by decide +kernel)
  obtain ⟨σ, -, hfree, hcard, hlive, -⟩ := refines_freeSet h₃
  exact ⟨_, h₃, by decide +kernel, σ, hfree, hcard, hlive⟩

/-- The representation invariant holds after every run of requests in bounds, and every further one
ends without a fault: no assertion fires, no arithmetic overflows and every loop ends. -/
theorem invariant_of_run {labels : List (Request × Reply)} {a : MemoryAllocator}
    (h : Run Initial (Step InBounds) labels a) :
    (∃ chain lists, Rep a chain lists) ∧
      ∀ request, InBounds a request → ∃ reply b, exec a request = .ok (reply, b) := by
  have hwf : WellFormed a := by
    refine h.invariant (fun a ha => ha ▸ ⟨_, _, rep_new⟩) ?_
    rintro a ⟨request, reply⟩ a' ha ⟨hb, hexec⟩
    obtain ⟨reply', b, hok, hwf⟩ := exec_wellFormed ha hb
    obtain ⟨-, rfl⟩ := Prod.mk.inj (Except.ok.inj (hexec.symm.trans hok))
    exact hwf
  refine ⟨hwf, fun request hb => ?_⟩
  obtain ⟨reply, b, hok, -⟩ := exec_wellFormed hwf hb
  exact ⟨reply, b, hok⟩

/-- The invariant after a run with a reservation that reaches past the free memory. -/
theorem invariant_of_run_clamped : ∃ a, Run Initial (Step InBounds)
      [(.free 0x1000 0x4000, .ok none), (.reserve 0x4000 0x2000 0, .ok none)] a ∧
    a.freeSize = 0x3000 ∧ ∃ chain lists, Rep a chain lists := by
  have h₀ : Run Initial (Step InBounds) [] MemoryAllocator.new := .start rfl
  have h₁ := run_request h₀ (.free 0x1000 0x4000) (.ok none)
    (admissible_first_free _ _ (by decide) (by decide)).1 (by decide +kernel)
  have h₂ := run_request h₁ (.reserve 0x4000 0x2000 0) (.ok none)
    ⟨by decide, by decide, by decide⟩ (by decide +kernel)
  exact ⟨_, h₂, by decide +kernel, (invariant_of_run h₂).1⟩

end MiniVisor.Allocator
