import MiniVisor.Lib.Transition

/-!
# TRB rings

A model of the ring of an endpoint in `drivers/xhci.rs`: 63 slots for the transfer request blocks
(TRBs) of the driver and a Link TRB. `control_transfer` and `submit_bulk_wave` fill in a transfer
descriptor (TD), a list of TRBs, in the same way. The first TRB is written with the wrong cycle bit,
the others with the cycle bit of the producer, and in the end the first one is committed.

The controller is the consumer. It takes a TRB if the cycle bit is its own, and at the Link TRB it
goes back to the first slot with the other cycle bit. It may look at the ring at any time, also
while a TD is written. `ring_refines_queue` says that the ring is a queue for it, over any number of
laps, if each TD is started when it has come to rest: it reads the TRBs of the committed TDs, in
order and each once, and it stops only when it has read all of them. The driver waits for less, for
the event of the last TRB. A controller that has then not followed the Link TRB does not get past it
any more when the next TD is as long as the ring (`stuck_at_link`).

The producer and the consumer are described by how many TRBs they have written and read, as if the
ring had no end. The cycle bit of a slot says in which lap it was written (`lapCycle`); since no TD
is longer than the ring, the laps of what is in the ring and of what is to come next are different.
-/

set_option autoImplicit false

namespace MiniVisor.Drivers

open MiniVisor.Lib

/-! ## The code -/

def trbsPerSegment : Nat := 64
def linkTrbIndex : Nat := trbsPerSegment - 1

def trbCycle : BitVec 32 := 1
def linkToggle : BitVec 32 := 2
def trbTypeMask : BitVec 32 := 0xFC00
def trbTypeShift : Nat := 10
def trbLink : BitVec 32 := 6

def trbType (value : BitVec 32) : BitVec 32 := value <<< trbTypeShift

def trbFieldToType (field : BitVec 32) : BitVec 32 := (field &&& trbTypeMask) >>> trbTypeShift

structure Trb where
  field0 : BitVec 32
  field1 : BitVec 32
  field2 : BitVec 32
  field3 : BitVec 32
  deriving DecidableEq, Repr

/-- The memory of a ring by its slots, and its bus address. -/
structure TrbRing where
  bus : BitVec 64
  memory : Nat → Trb
  enqueueIndex : Nat
  cycleState : BitVec 32

namespace TrbRing

/-- The Link TRB that `new` writes. -/
def linkTrb (bus : BitVec 64) : Trb :=
  ⟨bus.setWidth 32, (bus >>> 32).setWidth 32, 0, trbType trbLink ||| linkToggle⟩

/-- `TrbRing::new`, with a Link TRB. The region is zeroed. -/
def new (bus : BitVec 64) : TrbRing where
  bus := bus
  memory := Function.update (fun _ => ⟨0, 0, 0, 0⟩) linkTrbIndex (linkTrb bus)
  enqueueIndex := 0
  cycleState := 1

def setField3 (ring : TrbRing) (index : Nat) (value : BitVec 32) : TrbRing :=
  { ring with
    memory := Function.update ring.memory index { ring.memory index with field3 := value } }

def advanceEnqueue (ring : TrbRing) : TrbRing :=
  if ring.enqueueIndex + 1 = linkTrbIndex then
    { ring.setField3 linkTrbIndex ((ring.memory linkTrbIndex).field3 ^^^ trbCycle) with
      enqueueIndex := 0, cycleState := ring.cycleState ^^^ 1 }
  else { ring with enqueueIndex := ring.enqueueIndex + 1 }

def pushTrbRaw (ring : TrbRing) (fields : Trb) : TrbRing :=
  { ring with memory := Function.update ring.memory ring.enqueueIndex fields }.advanceEnqueue

def commitFirstTrb (ring : TrbRing) (startIndex : Nat) (startCycle : BitVec 32) : TrbRing :=
  let current := (ring.memory startIndex).field3
  ring.setField3 startIndex
    (if startCycle ≠ 0 then current ||| trbCycle else current &&& ~~~trbCycle)

end TrbRing

/-- The TRBs of a TD, without their cycle bits. There are as many as fit the ring at most, and the
driver writes no Link TRB. -/
structure Td where
  trbs : List Trb
  length_pos : 1 ≤ trbs.length
  length_le : trbs.length ≤ linkTrbIndex
  clear : ∀ t ∈ trbs, t.field3 &&& ~~~trbCycle = t.field3
  not_link : ∀ t ∈ trbs, trbFieldToType t.field3 ≠ trbLink

/-- The fields of the first TRB of a TD: the cycle bit is inverted. -/
def firstFields (startCycle : BitVec 32) (t : Trb) : Trb :=
  { t with field3 := if startCycle = 0 then t.field3 ||| trbCycle else t.field3 }

/-- The fields of another TRB of a TD. -/
def nextFields (cycleState : BitVec 32) (t : Trb) : Trb :=
  { t with field3 := t.field3 ||| cycleState }

/-! ## The controller -/

/-- The dequeue pointer of the controller, as a slot, and its cycle bit. -/
structure Consumer where
  index : Nat
  cycle : BitVec 32
  deriving DecidableEq, Repr

/-- The controller looks at its slot. It has nothing to do, follows a Link TRB, or takes a TRB. -/
def Consumer.next (c : Consumer) (ring : TrbRing) : Option (Option Trb × Consumer) :=
  let t := ring.memory c.index
  if t.field3 &&& trbCycle ≠ c.cycle then none
  else if trbFieldToType t.field3 = trbLink then
    some (none, ⟨((t.field1 ++ t.field0 : BitVec 64) - ring.bus).toNat / 16,
      if t.field3 &&& linkToggle ≠ 0 then c.cycle ^^^ 1 else c.cycle⟩)
  else some (some t, ⟨c.index + 1, c.cycle⟩)

/-- A TRB without its cycle bit. -/
def Trb.body (t : Trb) : Trb := { t with field3 := t.field3 &&& ~~~trbCycle }

/-! ## The producer and the controller together -/

/-- What the driver is doing: nothing, or filling in a TD, a number of whose TRBs it has written. -/
inductive Phase where
  | idle
  | filling (startIndex : Nat) (startCycle : BitVec 32) (td : Td) (pushed : Nat)

/-- The ring, the driver and the controller, with the TRBs of all committed TDs and those that the
controller has read. -/
structure RingSystem where
  ring : TrbRing
  phase : Phase
  consumer : Consumer
  queued : List Trb
  read : List Trb

namespace RingSystem

inductive Label where
  | start (td : Td)
  | push
  | commit
  | consume

def Init (s : RingSystem) : Prop :=
  (∃ bus, s.ring = TrbRing.new bus) ∧ s.phase = .idle ∧ s.consumer = ⟨0, 1⟩ ∧
  s.queued = [] ∧ s.read = []

/-- A step of the driver or the controller. The driver starts a TD when all TRBs have been read. -/
def perform (s : RingSystem) : Label → Option RingSystem
  | .start td =>
    match s.phase with
    | .idle =>
      if s.read = s.queued then
        some { s with phase := .filling s.ring.enqueueIndex s.ring.cycleState td 0 }
      else none
    | .filling .. => none
  | .push =>
    match s.phase with
    | .idle => none
    | .filling startIndex startCycle td pushed =>
      if h : pushed < td.trbs.length then
        some { s with
          ring := s.ring.pushTrbRaw
            (if pushed = 0 then firstFields startCycle td.trbs[pushed]
              else nextFields s.ring.cycleState td.trbs[pushed])
          phase := .filling startIndex startCycle td (pushed + 1) }
      else none
  | .commit =>
    match s.phase with
    | .idle => none
    | .filling startIndex startCycle td pushed =>
      if pushed = td.trbs.length then
        some { s with
          ring := s.ring.commitFirstTrb startIndex startCycle
          phase := .idle
          queued := s.queued ++ td.trbs }
      else none
  | .consume => (s.consumer.next s.ring).map fun found =>
      { s with consumer := found.2, read := s.read ++ (found.1.map Trb.body).toList }

/-- The steps when the driver waits for the controller to come to rest. -/
inductive Step : RingSystem → Label → RingSystem → Prop
  | start {s : RingSystem} (td : Td) (hidle : s.phase = .idle)
      (hrest : s.consumer.next s.ring = none) :
      Step s (.start td)
        { s with phase := .filling s.ring.enqueueIndex s.ring.cycleState td 0 }
  | push {s : RingSystem} {startIndex : Nat} {startCycle : BitVec 32} {td : Td} {pushed : Nat}
      (hphase : s.phase = .filling startIndex startCycle td pushed)
      (hlt : pushed < td.trbs.length) :
      Step s .push
        { s with
          ring := s.ring.pushTrbRaw
            (if pushed = 0 then firstFields startCycle td.trbs[pushed]
              else nextFields s.ring.cycleState td.trbs[pushed])
          phase := .filling startIndex startCycle td (pushed + 1) }
  | commit {s : RingSystem} {startIndex : Nat} {startCycle : BitVec 32} {td : Td}
      (hphase : s.phase = .filling startIndex startCycle td td.trbs.length) :
      Step s .commit
        { s with
          ring := s.ring.commitFirstTrb startIndex startCycle
          phase := .idle
          queued := s.queued ++ td.trbs }
  | consume {s : RingSystem} {taken : Option Trb} {consumer : Consumer}
      (hnext : s.consumer.next s.ring = some (taken, consumer)) :
      Step s .consume
        { s with consumer := consumer, read := s.read ++ (taken.map Trb.body).toList }

end RingSystem

/-! ## Cycle bits -/

/-- The cycle bit of a lap around the ring. -/
def lapCycle (lap : Nat) : BitVec 32 := if lap % 2 = 0 then 1 else 0

theorem lapCycle_cases (lap : Nat) : lapCycle lap = 0 ∨ lapCycle lap = 1 := by
  unfold lapCycle
  split
  · exact .inr rfl
  · exact .inl rfl

theorem lapCycle_succ (lap : Nat) : lapCycle (lap + 1) = lapCycle lap ^^^ 1 := by
  unfold lapCycle
  rcases Nat.mod_two_eq_zero_or_one lap with h | h
  · have hnext : ¬(lap + 1) % 2 = 0 := by omega
    rw [if_pos h, if_neg hnext]
    rfl
  · have hthis : ¬lap % 2 = 0 := by omega
    have hnext : (lap + 1) % 2 = 0 := by omega
    rw [if_neg hthis, if_pos hnext]
    rfl

theorem xor_one_ne {c : BitVec 32} (h : c = 0 ∨ c = 1) : c ^^^ 1 ≠ c := by
  rcases h with rfl | rfl <;> decide

theorem xor_one_cases {c : BitVec 32} (h : c = 0 ∨ c = 1) : c ^^^ 1 = 0 ∨ c ^^^ 1 = 1 := by
  rcases h with rfl | rfl <;> decide

theorem xor_one_xor_one {c : BitVec 32} (h : c = 0 ∨ c = 1) : c ^^^ 1 ^^^ 1 = c := by
  rcases h with rfl | rfl <;> decide

section Field

variable {f c : BitVec 32}

/-- The cycle bit of a field that it was put into. -/
theorem cycle_or (hf : f &&& ~~~trbCycle = f) (hc : c = 0 ∨ c = 1) :
    (f ||| c) &&& trbCycle = c := by
  have hclear : f &&& trbCycle = 0#32 := by
    rw [← hf, BitVec.and_assoc]
    exact BitVec.and_zero
  rw [BitVec.and_or_distrib_right, hclear, BitVec.zero_or]
  rcases hc with rfl | rfl <;> decide

/-- The rest of a field that a cycle bit was put into. -/
theorem clear_or (hf : f &&& ~~~trbCycle = f) (hc : c = 0 ∨ c = 1) :
    (f ||| c) &&& ~~~trbCycle = f := by
  have hbit : c &&& ~~~trbCycle = 0#32 := by rcases hc with rfl | rfl <;> decide
  rw [BitVec.and_or_distrib_right, hf, hbit, BitVec.or_zero]

theorem type_or (hc : c = 0 ∨ c = 1) : trbFieldToType (f ||| c) = trbFieldToType f := by
  have hbit : c &&& trbTypeMask = 0#32 := by rcases hc with rfl | rfl <;> decide
  unfold trbFieldToType
  rw [BitVec.and_or_distrib_right, hbit, BitVec.or_zero]

theorem commit_or (hf : f &&& ~~~trbCycle = f) (hc : c = 0 ∨ c = 1) :
    (if c ≠ 0 then f ||| (c ^^^ 1) ||| trbCycle else (f ||| (c ^^^ 1)) &&& ~~~trbCycle) = f |||
      c := by
  rcases hc with rfl | rfl
  · rw [if_neg (by decide), clear_or hf (by decide)]
    exact (BitVec.or_zero).symm
  · rw [if_pos (by decide), BitVec.or_assoc]
    rfl

end Field

/-- The Link TRB gets the other cycle bit. -/
theorem link_or {c : BitVec 32} (hc : c = 0 ∨ c = 1) :
    (trbType trbLink ||| linkToggle ||| c) ^^^ trbCycle =
      trbType trbLink ||| linkToggle ||| (c ^^^ 1) := by
  rcases hc with rfl | rfl <;> decide

/-- The first TRB of a TD gets the cycle bit of the other lap. -/
theorem firstFields_eq {c : BitVec 32} (hc : c = 0 ∨ c = 1) (t : Trb) :
    firstFields c t = nextFields (c ^^^ 1) t := by
  rcases hc with rfl | rfl
  · rfl
  · show { t with field3 := t.field3 } = { t with field3 := t.field3 ||| 0#32 }
    rw [BitVec.or_zero]

/-! ## What is in the ring -/

namespace TrbRing

theorem linkTrbIndex_eq : linkTrbIndex = 63 := rfl

section Push

variable {ring : TrbRing} (fields : Trb)

theorem pushTrbRaw_bus : (ring.pushTrbRaw fields).bus = ring.bus := by
  unfold pushTrbRaw advanceEnqueue
  split <;> rfl

theorem pushTrbRaw_memory {i : Nat} (hi : i < 63) :
    (ring.pushTrbRaw fields).memory i =
      if i = ring.enqueueIndex then fields else ring.memory i := by
  unfold pushTrbRaw advanceEnqueue setField3
  rw [linkTrbIndex_eq]
  split
  · dsimp only
    rw [Function.update_of_ne (by omega), Function.update_apply]
  · dsimp only
    rw [Function.update_apply]

theorem pushTrbRaw_link (h : ring.enqueueIndex < 63) :
    (ring.pushTrbRaw fields).memory 63 =
      if ring.enqueueIndex = 62 then
        { ring.memory 63 with field3 := (ring.memory 63).field3 ^^^ trbCycle }
      else ring.memory 63 := by
  have hne : 63 ≠ ring.enqueueIndex := by omega
  unfold pushTrbRaw advanceEnqueue setField3
  dsimp only
  rw [linkTrbIndex_eq]
  by_cases hlast : ring.enqueueIndex = 62
  · rw [if_pos (by rw [hlast]), if_pos hlast]
    dsimp only
    rw [Function.update_self, Function.update_of_ne hne]
  · have hmore : ¬ring.enqueueIndex + 1 = 63 := by omega
    rw [if_neg hmore, if_neg hlast]
    dsimp only
    rw [Function.update_of_ne hne]

theorem pushTrbRaw_position (h : ring.enqueueIndex < 63) :
    (ring.pushTrbRaw fields).enqueueIndex = (ring.enqueueIndex + 1) % 63 ∧
      (ring.pushTrbRaw fields).cycleState =
        if ring.enqueueIndex = 62 then ring.cycleState ^^^ 1 else ring.cycleState := by
  unfold pushTrbRaw advanceEnqueue setField3
  dsimp only
  rw [linkTrbIndex_eq]
  by_cases hlast : ring.enqueueIndex = 62
  · rw [if_pos (by rw [hlast]), if_pos hlast, hlast]
    exact ⟨rfl, rfl⟩
  · have hmore : ¬ring.enqueueIndex + 1 = 63 := by omega
    have hlt : ring.enqueueIndex + 1 < 63 := by omega
    rw [if_neg hmore, if_neg hlast]
    exact ⟨(Nat.mod_eq_of_lt hlt).symm, rfl⟩

end Push

/-- The ring after TRBs were written. The TRB number `withheld`, if there is one, has the cycle bit
of the other lap. -/
structure Written (ring : TrbRing) (all : List Trb) (withheld : Option Nat) : Prop where
  enqueue : ring.enqueueIndex = all.length % 63
  cycle : ring.cycleState = lapCycle (all.length / 63)
  slots : ∀ k (hk : k < all.length), all.length ≤ k + 63 → ring.memory (k % 63) =
    nextFields (if withheld = some k then lapCycle (k / 63) ^^^ 1 else lapCycle (k / 63)) all[k]
  fresh : ∀ i, all.length ≤ i → i < 63 → (ring.memory i).field3 &&& trbCycle = 0
  link : ring.memory 63 = nextFields (lapCycle (all.length / 63) ^^^ 1) (linkTrb ring.bus)

theorem written_new (bus : BitVec 64) : Written (new bus) [] none := by
  refine ⟨rfl, rfl, fun k hk => absurd hk (Nat.not_lt_zero k), fun i _ hi => ?_, ?_⟩
  · have hne : i ≠ linkTrbIndex := Nat.ne_of_lt hi
    unfold new
    dsimp only
    rw [Function.update_of_ne hne]
    decide
  · have hcycle : lapCycle (([] : List Trb).length / 63) ^^^ 1 = 0#32 := by decide
    rw [hcycle]
    unfold new nextFields
    dsimp only
    rw [← linkTrbIndex_eq, Function.update_self, BitVec.or_zero]

section Written

variable {ring : TrbRing} {all : List Trb} {withheld : Option Nat}

theorem Written.enqueue_lt (h : Written ring all withheld) : ring.enqueueIndex < 63 := by
  rw [h.enqueue]
  exact Nat.mod_lt _ (by decide)

/-- One more TRB is written. -/
theorem Written.push {withheld' : Option Nat} {c : BitVec 32} (h : Written ring all withheld)
    (t : Trb) (hsame : ∀ k < all.length, withheld' = some k ↔ withheld = some k)
    (hc : c = if withheld' = some all.length then lapCycle (all.length / 63) ^^^ 1
      else lapCycle (all.length / 63)) :
    Written (ring.pushTrbRaw (nextFields c t)) (all ++ [t]) withheld' := by
  have hlt := h.enqueue_lt
  have henqueue := h.enqueue
  have hlength : (all ++ [t]).length = all.length + 1 := List.length_append
  obtain ⟨hindex, hcycle⟩ := pushTrbRaw_position (nextFields c t) hlt
  -- The lap ends with the last slot.
  have hlap : (all.length + 1) / 63 =
      if ring.enqueueIndex = 62 then all.length / 63 + 1 else all.length / 63 := by
    split <;> omega
  refine ⟨?_, ?_, fun k hk hnear => ?_, fun i hi hfresh => ?_, ?_⟩
  · rw [hindex, hlength, henqueue]
    omega
  · rw [hcycle, hlength, hlap, h.cycle]
    split
    · rw [lapCycle_succ]
    · rfl
  · rw [hlength] at hk hnear
    rw [pushTrbRaw_memory _ (Nat.mod_lt _ (by decide)), henqueue]
    rcases Nat.lt_or_eq_of_le (Nat.le_of_lt_succ hk) with hold | rfl
    · have hne : ¬k % 63 = all.length % 63 := by omega
      rw [if_neg hne, h.slots k hold (by omega), List.getElem_append_left hold]
      simp only [hsame k hold]
    · rw [if_pos rfl, List.getElem_concat_length rfl, hc]
  · rw [hlength] at hi
    have hne : ¬i = ring.enqueueIndex := by omega
    rw [pushTrbRaw_memory _ hfresh, if_neg hne]
    exact h.fresh i (by omega) hfresh
  · rw [pushTrbRaw_link _ hlt, pushTrbRaw_bus, hlength, hlap, h.link]
    split
    · rw [lapCycle_succ]
      unfold nextFields linkTrb
      dsimp only
      rw [link_or (xor_one_cases (lapCycle_cases _))]
    · rfl

/-- The first TRB of a TD is committed. -/
theorem Written.commit {first : Nat} (h : Written ring all (some first))
    (hfirst : first < all.length)
    (hnear : all.length ≤ first + 63)
    (hclear : all[first].field3 &&& ~~~trbCycle = all[first].field3) :
    Written (ring.commitFirstTrb (first % 63) (lapCycle (first / 63))) all none := by
  have hslot := h.slots first hfirst hnear
  rw [if_pos rfl] at hslot
  have hmod : first % 63 < 63 := Nat.mod_lt _ (by decide)
  unfold commitFirstTrb setField3
  refine ⟨h.enqueue, h.cycle, fun k hk hnear' => ?_, fun i hi hfresh => ?_, ?_⟩
  · have hnone : ¬none = some k := fun hno => nomatch hno
    dsimp only
    by_cases heq : k = first
    · subst heq
      rw [Function.update_self, hslot, if_neg hnone]
      unfold nextFields
      dsimp only
      rw [commit_or hclear (lapCycle_cases _)]
    · have hne : k % 63 ≠ first % 63 := by omega
      have hother : ¬some first = some k := fun hno => heq (Option.some.inj hno).symm
      rw [Function.update_of_ne hne, h.slots k hk hnear', if_neg hother, if_neg hnone]
  · dsimp only
    have hne : i ≠ first % 63 := by omega
    rw [Function.update_of_ne hne]
    exact h.fresh i hi hfresh
  · dsimp only
    rw [Function.update_of_ne (by omega)]
    exact h.link

end Written

end TrbRing

/-! ## The controller at the ring -/

/-- The TRB of a driver: the cycle bit is clear, and it is no Link TRB. -/
def Trb.Plain (t : Trb) : Prop :=
  t.field3 &&& ~~~trbCycle = t.field3 ∧ trbFieldToType t.field3 ≠ trbLink

theorem Td.plain (td : Td) : ∀ t ∈ td.trbs, t.Plain := fun t ht => ⟨td.clear t ht, td.not_link t ht⟩

theorem Trb.Plain.body_nextFields {t : Trb} (h : t.Plain) {c : BitVec 32} (hc : c = 0 ∨ c = 1) :
    (nextFields c t).body = t := by
  unfold nextFields Trb.body
  dsimp only
  rw [clear_or h.1 hc]

namespace Consumer

/-- The controller is in front of the TRB number `n`. -/
def At (c : Consumer) (n : Nat) : Prop := c.index = n % 63 ∧ c.cycle = lapCycle (n / 63)

/-- The controller is in front of the Link TRB that leads to the TRB number `n`. -/
def AtLink (c : Consumer) (n : Nat) : Prop :=
  0 < n ∧ n % 63 = 0 ∧ c.index = 63 ∧ c.cycle = lapCycle (n / 63 - 1)

variable {c : Consumer} {ring : TrbRing} {all : List Trb} {withheld : Option Nat} {n : Nat}

theorem next_taken (h : ring.Written all withheld) (hat : c.At n) (hn : n < all.length)
    (hnear : all.length ≤ n + 63) (hwithheld : ¬withheld = some n) (hplain : all[n].Plain) :
    c.next ring = some (some (nextFields (lapCycle (n / 63)) all[n]),
      ⟨n % 63 + 1, lapCycle (n / 63)⟩) := by
  have hslot := h.slots n hn hnear
  rw [if_neg hwithheld] at hslot
  have hcycle : ¬(nextFields (lapCycle (n / 63)) all[n]).field3 &&& trbCycle ≠ lapCycle (n / 63) :=
    not_not.2 (cycle_or hplain.1 (lapCycle_cases _))
  have htype : ¬trbFieldToType (nextFields (lapCycle (n / 63)) all[n]).field3 = trbLink := by
    unfold nextFields
    dsimp only
    rw [type_or (lapCycle_cases _)]
    exact hplain.2
  unfold next
  dsimp only
  rw [hat.1, hat.2, hslot, if_neg hcycle, if_neg htype]

/-- The TRB that is withheld is not taken. -/
theorem next_withheld (h : ring.Written all (some n)) (hat : c.At n) (hn : n < all.length)
    (hnear : all.length ≤ n + 63) (hplain : all[n].Plain) : c.next ring = none := by
  have hslot := h.slots n hn hnear
  rw [if_pos rfl] at hslot
  have hcycle : (nextFields (lapCycle (n / 63) ^^^ 1) all[n]).field3 &&& trbCycle ≠
      lapCycle (n / 63) := by
    unfold nextFields
    dsimp only
    rw [cycle_or hplain.1 (xor_one_cases (lapCycle_cases _))]
    exact xor_one_ne (lapCycle_cases _)
  unfold next
  dsimp only
  rw [hat.1, hat.2, hslot, if_pos hcycle]

/-- In front of the next TRB to be written is one of the lap before, or none. -/
theorem next_empty (h : ring.Written all none) (hat : c.At all.length)
    (hplain : ∀ t ∈ all, t.Plain) : c.next ring = none := by
  have hcycle : (ring.memory (all.length % 63)).field3 &&& trbCycle ≠ lapCycle
    (all.length / 63) := by
    rcases Nat.lt_or_ge all.length 63 with hlt | hge
    · rw [Nat.mod_eq_of_lt hlt, Nat.div_eq_of_lt hlt, h.fresh _ (Nat.le_refl _) hlt]
      decide
    · have hold : all.length - 63 < all.length := by omega
      have hslot := h.slots (all.length - 63) hold (by omega)
      have hmod : (all.length - 63) % 63 = all.length % 63 := by omega
      have hlap : all.length / 63 = (all.length - 63) / 63 + 1 := by omega
      rw [if_neg (fun hno => nomatch hno), hmod] at hslot
      rw [hslot, hlap, lapCycle_succ]
      unfold nextFields
      dsimp only
      rw [cycle_or (hplain _ (List.getElem_mem hold)).1 (lapCycle_cases _)]
      exact (xor_one_ne (lapCycle_cases _)).symm
  unfold next
  dsimp only
  rw [hat.1, hat.2, if_pos hcycle]

theorem link_target (bus : BitVec 64) :
    (((bus >>> 32).setWidth 32 ++ bus.setWidth 32 : BitVec 64) - bus).toNat / 16 = 0 := by
  have hbus : ((bus >>> 32).setWidth 32 ++ bus.setWidth 32 : BitVec 64) = bus := by
    ext i hi
    rw [BitVec.getElem_append]
    split
    · rw [BitVec.getElem_setWidth, BitVec.getLsbD_eq_getElem]
    · next hge =>
      rw [BitVec.getElem_setWidth, BitVec.getLsbD_ushiftRight, Nat.add_sub_cancel'
        (Nat.not_lt.1 hge), BitVec.getLsbD_eq_getElem]
  rw [hbus, BitVec.sub_self]
  rfl

theorem next_link (h : ring.Written all withheld) (hat : c.AtLink n) (hle : n ≤ all.length)
    (hlt : all.length < n + 63) : c.next ring = some (none, ⟨0, lapCycle (n / 63)⟩) := by
  obtain ⟨hpos, hmod, hindex, hcycle⟩ := hat
  obtain ⟨lap, hlap⟩ : ∃ lap, n / 63 = lap + 1 := Nat.exists_eq_succ_of_ne_zero (by omega)
  have hlaps : all.length / 63 = n / 63 := by omega
  have hlink := h.link
  rw [hlaps, hlap, lapCycle_succ, xor_one_xor_one (lapCycle_cases _)] at hlink
  rw [hlap, Nat.add_sub_cancel] at hcycle
  have hfield : (ring.memory 63).field3 = trbType trbLink ||| linkToggle ||| lapCycle lap := by
    rw [hlink]
    rfl
  have hmine : ¬(ring.memory 63).field3 &&& trbCycle ≠ lapCycle lap := by
    rw [hfield]
    exact not_not.2 (cycle_or (by decide) (lapCycle_cases _))
  have htype : trbFieldToType (ring.memory 63).field3 = trbLink := by
    rw [hfield, type_or (lapCycle_cases _)]
    decide
  have htoggle : (ring.memory 63).field3 &&& linkToggle ≠ 0 := by
    rw [hfield]
    rcases lapCycle_cases lap with hl | hl <;> rw [hl] <;> decide
  have htarget : (((ring.memory 63).field1 ++ (ring.memory 63).field0 : BitVec 64) -
      ring.bus).toNat / 16 = 0 := by
    rw [hlink]
    exact link_target ring.bus
  unfold next
  dsimp only
  rw [hindex, hcycle, if_neg hmine, if_pos htype, if_pos htoggle, htarget, hlap, lapCycle_succ]

/-- Behind a TRB is the next one, or the Link TRB. -/
theorem at_succ (n : Nat) :
    At ⟨n % 63 + 1, lapCycle (n / 63)⟩ (n + 1) ∨
    AtLink ⟨n % 63 + 1, lapCycle (n / 63)⟩ (n + 1) := by
  rcases Nat.lt_or_ge (n % 63 + 1) 63 with hlt | hge
  · left
    have hmod : (n + 1) % 63 = n % 63 + 1 := by omega
    have hdiv : (n + 1) / 63 = n / 63 := by omega
    exact ⟨hmod.symm, by rw [hdiv]⟩
  · right
    have hmod : n % 63 + 1 = 63 := by omega
    have hdiv : (n + 1) / 63 - 1 = n / 63 := by omega
    exact ⟨Nat.succ_pos n, by omega, hmod, by rw [hdiv]⟩

end Consumer

/-! ## Runs -/

namespace RingSystem

variable {s t : RingSystem}

/-- While a TD is filled in the controller is at rest in front of it. Otherwise what it has not read
is not more than a TD, and it can go on. -/
def InPhase (s : RingSystem) : Phase → Prop
  | .idle => s.ring.Written s.queued none ∧ s.queued.length ≤ s.read.length + 63 ∧
      (s.consumer.At s.read.length ∨
        s.consumer.AtLink s.read.length ∧ s.queued.length < s.read.length + 63)
  | .filling startIndex startCycle td pushed =>
      s.ring.Written (s.queued ++ td.trbs.take pushed)
        (if pushed = 0 then none else some s.queued.length) ∧
      pushed ≤ td.trbs.length ∧ startIndex = s.queued.length % 63 ∧
      startCycle = lapCycle (s.queued.length / 63) ∧ s.read = s.queued ∧
      s.consumer.At s.queued.length

structure Inv (s : RingSystem) : Prop where
  plain : ∀ t ∈ s.queued, t.Plain
  order : s.read <+: s.queued
  phase : s.InPhase s.phase

theorem inv_init (h : Init s) : Inv s := by
  obtain ⟨⟨bus, hring⟩, hphase, hconsumer, hqueued, hread⟩ := h
  refine ⟨?_, ?_, ?_⟩
  · rw [hqueued]
    exact List.forall_mem_nil _
  · rw [hqueued, hread]
  · rw [hphase]
    show _ ∧ _ ∧ _
    rw [hring, hconsumer, hqueued, hread]
    exact ⟨TrbRing.written_new bus, by decide, .inl ⟨rfl, rfl⟩⟩

/-- While a TD is filled in the controller has nothing to do. -/
theorem Inv.next_filling (h : Inv s) {startIndex : Nat} {startCycle : BitVec 32} {td : Td}
    {pushed : Nat} (hphase : s.phase = .filling startIndex startCycle td pushed) :
    s.consumer.next s.ring = none := by
  have hin := h.phase
  rw [hphase] at hin
  obtain ⟨hwritten, hle, -, -, -, hat⟩ := hin
  have htd := td.length_le
  rw [TrbRing.linkTrbIndex_eq] at htd
  rcases Nat.eq_zero_or_pos pushed with rfl | hpos
  · rw [if_pos rfl, List.take_zero, List.append_nil] at hwritten
    exact Consumer.next_empty hwritten hat h.plain
  · rw [if_neg (Nat.ne_of_gt hpos)] at hwritten
    have hlength : (s.queued ++ td.trbs.take pushed).length = s.queued.length + pushed := by
      rw [List.length_append, List.length_take, Nat.min_eq_left hle]
    have hplain : ∀ t ∈ s.queued ++ td.trbs.take pushed, t.Plain := by
      refine List.forall_mem_append.2 ⟨h.plain, fun t ht => ?_⟩
      exact Td.plain td t (List.mem_of_mem_take ht)
    have hn : s.queued.length < (s.queued ++ td.trbs.take pushed).length := by omega
    exact Consumer.next_withheld hwritten hat hn (by omega) (hplain _ (List.getElem_mem hn))

/-- What the controller can do while the driver is idle. -/
inductive Ready (s : RingSystem) : Prop
  /-- It has read everything. -/
  | done (hread : s.read = s.queued) (hat : s.consumer.At s.read.length)
      (hnext : s.consumer.next s.ring = none)
  | take (hlt : s.read.length < s.queued.length)
      (hnext : s.consumer.next s.ring =
        some (some (nextFields (lapCycle (s.read.length / 63)) s.queued[s.read.length]),
          ⟨s.read.length % 63 + 1, lapCycle (s.read.length / 63)⟩))
  | follow (hat : s.consumer.AtLink s.read.length)
      (hnext : s.consumer.next s.ring = some (none, ⟨0, lapCycle (s.read.length / 63)⟩))

theorem Inv.ready (h : Inv s) (hidle : s.phase = .idle) : Ready s := by
  have hin := h.phase
  rw [hidle] at hin
  obtain ⟨hwritten, hnear, hat | ⟨hat, hlt⟩⟩ := hin
  · rcases Nat.lt_or_eq_of_le h.order.length_le with hlt | heq
    · exact .take hlt (Consumer.next_taken hwritten hat hlt hnear (fun hno => nomatch hno)
        (h.plain _ (List.getElem_mem hlt)))
    · refine .done (h.order.eq_of_length heq) hat (Consumer.next_empty hwritten ?_ h.plain)
      rwa [← heq]
  · exact .follow hat (Consumer.next_link hwritten hat h.order.length_le hlt)

/-- The next TRB of the queue is read. -/
theorem concat_isPrefix {read queued : List Trb} (h : read <+: queued)
    (hlt : read.length < queued.length) : read ++ [queued[read.length]] <+: queued := by
  obtain ⟨rest, rfl⟩ := h
  cases rest with
  | nil =>
    rw [List.append_nil] at hlt
    exact absurd hlt (Nat.lt_irrefl _)
  | cons t rest =>
    refine ⟨rest, ?_⟩
    rw [List.getElem_append_right (Nat.le_refl _)]
    simp

theorem Inv.step (h : Inv s) {label : Label} (hstep : Step s label t) : Inv t := by
  have hin := h.phase
  cases hstep with
  | start td hidle hrest =>
    rw [hidle] at hin
    refine ⟨h.plain, h.order, ?_⟩
    cases h.ready hidle with
    | done hread hat _ =>
      have hwritten := hin.1
      refine ⟨?_, Nat.zero_le _, hwritten.enqueue, hwritten.cycle, hread, ?_⟩
      · rw [if_pos rfl, List.take_zero, List.append_nil]
        exact hwritten
      · rwa [hread] at hat
    | take _ hnext => exact nomatch hnext.symm.trans hrest
    | follow _ hnext => exact nomatch hnext.symm.trans hrest
  | @push startIndex startCycle td pushed hphase hlt =>
    rw [hphase] at hin
    obtain ⟨hwritten, hle, hindex, hcycle, hread, hat⟩ := hin
    refine ⟨h.plain, h.order, ?_, hlt, hindex, hcycle, hread, hat⟩
    have hlength : (s.queued ++ td.trbs.take pushed).length = s.queued.length + pushed := by
      rw [List.length_append, List.length_take, Nat.min_eq_left hle]
    rw [if_neg (Nat.succ_ne_zero pushed), List.take_succ_eq_append_getElem hlt, ← List.append_assoc]
    dsimp only
    rcases Nat.eq_zero_or_pos pushed with rfl | hpos
    · rw [if_pos rfl, hcycle, firstFields_eq (lapCycle_cases _)]
      rw [Nat.add_zero] at hlength
      refine hwritten.push _ (fun k hk => ?_) ?_
      · rw [hlength] at hk
        refine iff_of_false (fun hno => ?_) (fun hno => nomatch hno)
        exact Nat.ne_of_gt hk (Option.some.inj hno)
      · rw [hlength, if_pos rfl]
    · rw [if_neg (Nat.ne_of_gt hpos), hwritten.cycle]
      rw [if_neg (Nat.ne_of_gt hpos)] at hwritten
      refine hwritten.push _ (fun k _ => Iff.rfl) ?_
      rw [if_neg]
      rw [hlength]
      intro hno
      have := Option.some.inj hno
      omega
  | @commit startIndex startCycle td hphase =>
    rw [hphase] at hin
    obtain ⟨hwritten, -, hindex, hcycle, hread, hat⟩ := hin
    have hpos := td.length_pos
    have hle := td.length_le
    rw [TrbRing.linkTrbIndex_eq] at hle
    rw [if_neg (Nat.ne_of_gt hpos), List.take_length] at hwritten
    have hlength : (s.queued ++ td.trbs).length = s.queued.length + td.trbs.length :=
      List.length_append
    have hplain : ∀ t ∈ s.queued ++ td.trbs, t.Plain :=
      List.forall_mem_append.2 ⟨h.plain, Td.plain td⟩
    have hfirst : s.queued.length < (s.queued ++ td.trbs).length := by omega
    refine ⟨hplain, h.order.trans (List.prefix_append _ _), ?_, ?_, .inl ?_⟩
    · rw [hindex, hcycle]
      exact hwritten.commit hfirst (by omega) (hplain _ (List.getElem_mem hfirst)).1
    · show (s.queued ++ td.trbs).length ≤ s.read.length + 63
      rw [hread]
      omega
    · show s.consumer.At s.read.length
      rwa [hread]
  | @consume taken consumer hnext =>
    cases hphase : s.phase with
    | filling startIndex startCycle td pushed =>
      exact nomatch (h.next_filling hphase).symm.trans hnext
    | idle =>
      rw [hphase] at hin
      obtain ⟨hwritten, hnear, hin⟩ := hin
      cases h.ready hphase with
      | done _ _ hnone => exact nomatch hnone.symm.trans hnext
      | take hlt htake =>
        obtain ⟨rfl, rfl⟩ := Prod.mk.inj (Option.some.inj (htake.symm.trans hnext))
        have hbody := (h.plain _ (List.getElem_mem hlt)).body_nextFields
          (lapCycle_cases (s.read.length / 63))
        have hread : s.read ++ (Option.map Trb.body (some (nextFields
            (lapCycle (s.read.length / 63)) s.queued[s.read.length]))).toList =
            s.read ++ [s.queued[s.read.length]] := by
          rw [Option.map_some, hbody]
          rfl
        rw [hread]
        have hlength : (s.read ++ [s.queued[s.read.length]]).length = s.read.length + 1 :=
          List.length_append
        refine ⟨h.plain, concat_isPrefix h.order hlt, ?_⟩
        refine ⟨hwritten, ?_, ?_⟩
        · dsimp only
          omega
        · dsimp only
          rw [hlength]
          exact (Consumer.at_succ s.read.length).imp_right fun hat => ⟨hat, by omega⟩
      | follow hat hfollow =>
        obtain ⟨rfl, rfl⟩ := Prod.mk.inj (Option.some.inj (hfollow.symm.trans hnext))
        have hread : s.read ++ (Option.map Trb.body none).toList = s.read := List.append_nil _
        rw [hread]
        refine ⟨h.plain, h.order, ?_⟩
        exact ⟨hwritten, hnear, .inl ⟨hat.2.1.symm, rfl⟩⟩

/-- Every run keeps the invariant. -/
theorem inv_run {labels : List Label} (hr : Run Init Step labels s) : Inv s :=
  hr.invariant (fun _ => inv_init) fun _ _ _ h hstep => h.step hstep

/-- The TRBs that a step brings in. -/
def Label.trbs : Label → List Trb
  | .start td => td.trbs
  | _ => []

/-- The TRBs of the TD that is filled in. -/
def pending (s : RingSystem) : List Trb :=
  match s.phase with
  | .idle => []
  | .filling _ _ td _ => td.trbs

/-- What is queued is what was started, but for the TD that is filled in. -/
theorem queued_pending {labels : List Label} (hr : Run Init Step labels s) :
    s.queued ++ s.pending = labels.flatMap Label.trbs := by
  induction hr with
  | start h =>
    obtain ⟨-, hphase, -, hqueued, -⟩ := h
    unfold pending
    rw [hqueued, hphase]
    rfl
  | @next labels s t label _ hstep ih =>
    rw [List.flatMap_append, List.flatMap_singleton, ← ih]
    unfold pending
    cases hstep with
    | start td hidle _ =>
      rw [hidle]
      dsimp only
      rw [List.append_nil]
      rfl
    | push hphase _ =>
      rw [hphase]
      exact (List.append_nil _).symm
    | commit hphase =>
      rw [hphase]
      rfl
    | consume _ => exact (List.append_nil _).symm

/-- A controller at rest has read everything. -/
theorem Inv.read_of_rest (h : Inv s) (hrest : s.consumer.next s.ring = none) :
    s.read = s.queued := by
  cases hphase : s.phase with
  | idle =>
    cases h.ready hphase with
    | done hread _ _ => exact hread
    | take _ hnext => exact nomatch hnext.symm.trans hrest
    | follow _ hnext => exact nomatch hnext.symm.trans hrest
  | filling startIndex startCycle td pushed =>
    have hin := h.phase
    rw [hphase] at hin
    exact hin.2.2.2.2.1

/-- How many steps the controller can take. -/
def toRead (s : RingSystem) : Nat :=
  2 * (s.queued.length - s.read.length) + if s.consumer.index = 63 then 1 else 0

/-- A step of the controller brings it nearer to rest. -/
theorem Inv.toRead_lt (h : Inv s) (hstep : Step s .consume t) : t.toRead < s.toRead := by
  cases hstep with
  | @consume taken consumer hnext =>
    cases hphase : s.phase with
    | filling startIndex startCycle td pushed =>
      exact nomatch (h.next_filling hphase).symm.trans hnext
    | idle =>
      unfold toRead
      cases h.ready hphase with
      | done _ _ hnone => exact nomatch hnone.symm.trans hnext
      | take hlt htake =>
        obtain ⟨rfl, rfl⟩ := Prod.mk.inj (Option.some.inj (htake.symm.trans hnext))
        rw [Option.map_some, Option.toList_some, List.length_append, List.length_singleton]
        dsimp only
        -- A TRB counts for two, since the Link TRB may be behind it.
        split <;> split <;> omega
      | follow hat hfollow =>
        obtain ⟨rfl, rfl⟩ := Prod.mk.inj (Option.some.inj (hfollow.symm.trans hnext))
        rw [Option.map_none, Option.toList_none, List.append_nil, if_pos hat.2.2.1]
        exact Nat.lt_succ_self _

/-- The controller on its own comes to rest. -/
theorem comes_to_rest {labels : List Label} (hr : Run Init Step labels s) :
    ∃ n t, Run Init Step (labels ++ List.replicate n .consume) t ∧ t.queued = s.queued ∧
      t.phase = s.phase ∧ t.consumer.next t.ring = none := by
  induction hn : s.toRead using Nat.strong_induction_on generalizing s labels with
  | _ k ih =>
    cases hnext : s.consumer.next s.ring with
    | none => exact ⟨0, s, by rwa [List.replicate_zero, List.append_nil], rfl, rfl, hnext⟩
    | some found =>
      have hstep := Step.consume hnext
      obtain ⟨n, t, hrun, hqueued, hphase, hrest⟩ :=
        ih _ (hn ▸ (inv_run hr).toRead_lt hstep) (hr.next hstep) rfl
      refine ⟨n + 1, t, ?_, hqueued, hphase, hrest⟩
      rw [List.append_assoc] at hrun
      exact hrun

/-- The ring is a queue. In every state of every run the controller has read the TRBs of committed
TDs, in order and each once; while a TD is filled in it reads nothing; when it is at rest it has
read all of them; and on its own it comes to rest. -/
theorem ring_refines_queue {labels : List Label} (hr : Run Init Step labels s) :
    s.queued ++ s.pending = labels.flatMap Label.trbs ∧ s.read <+: s.queued ∧
      (s.phase ≠ .idle → s.consumer.next s.ring = none) ∧
      (s.consumer.next s.ring = none → s.read = s.queued) ∧
      ∃ n t, Run Init Step (labels ++ List.replicate n .consume) t ∧ t.queued = s.queued ∧
        t.phase = s.phase ∧ t.consumer.next t.ring = none := by
  have h := inv_run hr
  refine ⟨queued_pending hr, h.order, fun hbusy => ?_, h.read_of_rest, comes_to_rest hr⟩
  cases hphase : s.phase with
  | idle => exact absurd hphase hbusy
  | filling startIndex startCycle td pushed => exact h.next_filling hphase

/-- A TD of one Normal TRB with an interrupt. -/
def oneTrb : Td where
  trbs := [⟨0x1000, 0, 512, trbType 1 ||| 0x20⟩]
  length_pos := by decide
  length_le := by decide
  clear := by decide
  not_link := by decide

theorem ring_refines_queue_one :
    ∃ s : RingSystem, Run Init Step [.start oneTrb, .push, .commit] s ∧ s.queued = oneTrb.trbs ∧
      s.read <+: oneTrb.trbs := by
  have hinit : Init ⟨TrbRing.new 0, .idle, ⟨0, 1⟩, [], []⟩ := ⟨⟨0, rfl⟩, rfl, rfl, rfl, rfl⟩
  have hstart := Run.next (.start hinit) (Step.start oneTrb rfl (by decide))
  have hpush := hstart.next (Step.push rfl (by decide))
  have hcommit := hpush.next (Step.commit rfl)
  exact ⟨_, hcommit, rfl, (ring_refines_queue hcommit).2.1⟩

/-- A driver that waits for the controller to come to rest does what the driver does. -/
theorem Inv.perform_eq (h : Inv s) {label : Label} (hstep : Step s label t) :
    s.perform label = some t := by
  cases hstep with
  | start td hidle hrest =>
    rw [perform, hidle]
    exact if_pos (h.read_of_rest hrest)
  | push hphase hlt =>
    rw [perform, hphase]
    exact dif_pos hlt
  | commit hphase =>
    rw [perform, hphase]
    exact if_pos rfl
  | consume hnext =>
    rw [perform, hnext]
    rfl

/-- A TD that fills the ring. -/
def fullTd : Td where
  trbs := List.replicate 63 ⟨0x1000, 0, 512, trbType 1 ||| 0x20⟩
  length_pos := by decide
  length_le := by decide
  clear := by decide
  not_link := by decide

/-- The steps by which a TD is issued. -/
def issue (td : Td) : List Label := .start td :: List.replicate td.trbs.length .push ++ [.commit]

/-- The controller reads a TD and does not follow the Link TRB before the next one is issued. -/
def twoTds : List Label := issue fullTd ++ List.replicate 63 .consume ++ issue fullTd

/-- The cycle bit of the Link TRB has been flipped twice then, and the controller waits in front of
it for ever. -/
theorem stuck_at_link : ∃ s, Run Init (fun s label t => s.perform label = some t) twoTds s ∧
    s.consumer.next s.ring = none ∧ s.read.length = 63 ∧ s.queued.length = 126 := by
  have hinit : Init ⟨TrbRing.new 0, .idle, ⟨0, 1⟩, [], []⟩ := ⟨⟨0, rfl⟩, rfl, rfl, rfl, rfl⟩
  have hend : ((follow perform ⟨TrbRing.new 0, .idle, ⟨0, 1⟩, [], []⟩ twoTds).any fun s =>
      s.consumer.next s.ring = none ∧ s.read.length = 63 ∧ s.queued.length = 126) = true := by
    decide +kernel
  generalize hlast : follow perform ⟨TrbRing.new 0, .idle, ⟨0, 1⟩, [], []⟩ twoTds = last at hend
  obtain ⟨s, rfl, hs⟩ := (Option.any_eq_true _ _).1 hend
  have hrun := Run.follow (fun _ _ _ h => h) twoTds (.start hinit) hlast
  rw [List.nil_append] at hrun
  exact ⟨s, hrun, of_decide_eq_true hs⟩

end RingSystem

end MiniVisor.Drivers
