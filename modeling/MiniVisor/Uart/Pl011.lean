import MiniVisor.Lib.Ring
import MiniVisor.Lib.Transition

/-!
# The receive side of the emulated PL011

`Pl011Mmio::push` and the accesses to `UART_DR`, `UART_IMSC` and `UART_ICR` of `mmio/pl011.rs`, with
the FIFO as the circular buffer that it is. The fields of the output side are in `Uart/Output`, and
the registers without an effect are left out.

`Pl011Mmio.Ok` is the invariant of the FIFO and of its two flags. `interrupt_heard_iff` is about the
interrupt of a received byte: the raw status follows the mask, so a byte that arrives while the
interrupt is masked is never announced.
-/

set_option autoImplicit false

namespace MiniVisor.Uart

open MiniVisor.Lib

def uartFrRxfe : BitVec 16 := 1#16 <<< 4
def uartFrRxff : BitVec 16 := 1#16 <<< 6
def uartImscRxim : BitVec 16 := 1#16 <<< 4
def uartRisRxris : BitVec 16 := 1#16 <<< 4

/-- `RX_FIFO_SIZE`. -/
def rxFifoSize : Nat := 256

structure Pl011Mmio where
  flag : BitVec 16
  interruptMask : BitVec 16
  rawInterruptStatus : BitVec 16
  rxFifo : Nat → UInt8
  rxFifoHead : Nat
  rxFifoLen : Nat

namespace Pl011Mmio

def new : Pl011Mmio := ⟨uartFrRxfe, 0, 0, fun _ => 0, 0, 0⟩

/-- A byte is put behind the last one. -/
def store (data : UInt8) (p : Pl011Mmio) : Pl011Mmio :=
  { p with
    rxFifo := Function.update p.rxFifo ((p.rxFifoHead + p.rxFifoLen) % rxFifoSize) data
    rxFifoLen := p.rxFifoLen + 1
    flag := if p.rxFifoLen + 1 = rxFifoSize then p.flag &&& ~~~uartFrRxfe ||| uartFrRxff
      else p.flag &&& ~~~uartFrRxfe }

/-- `push`, and whether it triggers the interrupt. -/
def push (data : UInt8) (p : Pl011Mmio) : Pl011Mmio × Bool :=
  if p.rxFifoLen = rxFifoSize then (p, false)
  else if p.interruptMask &&& uartImscRxim ≠ 0 then
    ({ p.store data with rawInterruptStatus := p.rawInterruptStatus ||| uartRisRxris }, true)
  else (p.store data, false)

/-- The oldest byte is taken out. -/
def drop (p : Pl011Mmio) : Pl011Mmio :=
  { p with
    rxFifoHead := (p.rxFifoHead + 1) % rxFifoSize
    rxFifoLen := p.rxFifoLen - 1
    flag := if p.rxFifoLen - 1 = 0 then p.flag &&& ~~~uartFrRxff ||| uartFrRxfe
      else p.flag &&& ~~~uartFrRxff
    rawInterruptStatus := if p.rxFifoLen - 1 = 0 then p.rawInterruptStatus &&& ~~~uartRisRxris
      else p.rawInterruptStatus }

/-- A read of `UART_DR`: the byte that leaves the FIFO, if there is one. The guest reads zero if
there is none. -/
def readDr (p : Pl011Mmio) : Option UInt8 × Pl011Mmio :=
  if p.rxFifoLen = 0 then (none, p) else (some (p.rxFifo p.rxFifoHead), p.drop)

def writeImsc (value : BitVec 16) (p : Pl011Mmio) : Pl011Mmio := { p with interruptMask := value }

def writeIcr (value : BitVec 16) (p : Pl011Mmio) : Pl011Mmio :=
  { p with rawInterruptStatus := p.rawInterruptStatus &&& ~~~value }

/-! ## The FIFO -/

/-- The bytes in the FIFO, the oldest first. -/
def contents (p : Pl011Mmio) : List UInt8 :=
  ringContents rxFifoSize p.rxFifo p.rxFifoHead p.rxFifoLen

/-- The head is inside the buffer, no more bytes are held than fit, and the flags tell an empty FIFO
and a full one. -/
structure Ok (p : Pl011Mmio) : Prop where
  head : p.rxFifoHead < rxFifoSize
  len : p.rxFifoLen ≤ rxFifoSize
  flag : p.flag = if p.rxFifoLen = 0 then uartFrRxfe
    else if p.rxFifoLen = rxFifoSize then uartFrRxff else 0

variable {p : Pl011Mmio}

theorem Ok.store (h : p.Ok) (hroom : p.rxFifoLen ≠ rxFifoSize) (data : UInt8) :
    (p.store data).Ok ∧ (p.store data).contents = p.contents ++ [data] := by
  have hlt : p.rxFifoLen < rxFifoSize := lt_of_le_of_ne h.len hroom
  -- There is space, so that `RXFE` is the only flag that can be set.
  have hcleared : p.flag &&& ~~~uartFrRxfe = 0 := by
    rw [h.flag, if_neg hroom]
    split <;> decide
  refine ⟨⟨h.head, hlt, ?_⟩, ringContents_push hlt data⟩
  show (if p.rxFifoLen + 1 = rxFifoSize then p.flag &&& ~~~uartFrRxfe ||| uartFrRxff
    else p.flag &&& ~~~uartFrRxfe) = if p.rxFifoLen + 1 = 0 then uartFrRxfe
      else if p.rxFifoLen + 1 = rxFifoSize then uartFrRxff else 0
  rw [hcleared, if_neg (Nat.succ_ne_zero _)]
  split
  · decide
  · rfl

/-- A byte is stored, or lost if the FIFO is full. -/
theorem Ok.push (h : p.Ok) (data : UInt8) :
    (p.push data).1.Ok ∧
      (p.push data).1.contents = p.contents ++ if p.rxFifoLen < rxFifoSize then [data] else [] := by
  unfold Pl011Mmio.push
  split
  · next hfull =>
    rw [if_neg (by omega), List.append_nil]
    exact ⟨h, rfl⟩
  · next hroom =>
    obtain ⟨hok, hcontents⟩ := h.store hroom data
    rw [if_pos (lt_of_le_of_ne h.len hroom)]
    split
    · exact ⟨⟨hok.head, hok.len, hok.flag⟩, hcontents⟩
    · exact ⟨hok, hcontents⟩

/-- A read takes the first byte. -/
theorem Ok.readDr (h : p.Ok) :
    p.readDr.2.Ok ∧ p.contents = p.readDr.1.toList ++ p.readDr.2.contents := by
  unfold Pl011Mmio.readDr
  split
  · exact ⟨h, rfl⟩
  · next hsome =>
    obtain ⟨len, hlen⟩ := Nat.exists_eq_succ_of_ne_zero hsome
    have hle := h.len
    have hcleared : p.flag &&& ~~~uartFrRxff = 0 := by
      rw [h.flag, if_neg hsome]
      split <;> decide
    have hpop : p.contents = p.rxFifo p.rxFifoHead ::
        ringContents rxFifoSize p.rxFifo ((p.rxFifoHead + 1) % rxFifoSize) len := by
      rw [contents, hlen]
      exact ringContents_pop h.head
    have hlast : p.rxFifoLen - 1 = len := by omega
    have hdrop : p.drop.contents =
        ringContents rxFifoSize p.rxFifo ((p.rxFifoHead + 1) % rxFifoSize) len := by
      rw [contents, ← hlast]
      rfl
    refine ⟨?_, hpop.trans (congrArg _ hdrop.symm)⟩
    refine ⟨Nat.mod_lt _ (by decide), show p.rxFifoLen - 1 ≤ rxFifoSize by omega, ?_⟩
    show (if p.rxFifoLen - 1 = 0 then p.flag &&& ~~~uartFrRxff ||| uartFrRxfe
      else p.flag &&& ~~~uartFrRxff) = if p.rxFifoLen - 1 = 0 then uartFrRxfe
        else if p.rxFifoLen - 1 = rxFifoSize then uartFrRxff else 0
    rw [hcleared, if_neg (show p.rxFifoLen - 1 ≠ rxFifoSize by omega)]
    split
    · decide
    · rfl

/-- `UART_IMSC` has the bit `RXIM`. -/
def Enabled (p : Pl011Mmio) : Prop := p.interruptMask &&& uartImscRxim ≠ 0

/-- `UART_RIS` has the bit `RXRIS`. -/
def Raised (p : Pl011Mmio) : Prop := p.rawInterruptStatus &&& uartRisRxris ≠ 0

instance (p : Pl011Mmio) : Decidable p.Enabled := inferInstanceAs (Decidable (_ ≠ _))
instance (p : Pl011Mmio) : Decidable p.Raised := inferInstanceAs (Decidable (_ ≠ _))

theorem and_rxris_ne_zero (x : BitVec 16) : x &&& uartRisRxris ≠ 0 ↔ x.getLsbD 4 = true := by
  have hbit : uartRisRxris = BitVec.twoPow 16 4 := by decide
  rw [hbit, BitVec.and_twoPow]
  split
  · next h => exact iff_of_true (by decide) h
  · next h => exact iff_of_false (fun hno => hno rfl) h

end Pl011Mmio

/-- What the receive side reacts to: a byte of input, and accesses of the guest. -/
inductive UartEvent where
  | byte (data : UInt8)
  | readDr
  | writeImsc (value : BitVec 16)
  | writeIcr (value : BitVec 16)

/-- The PL011 with the times of what happened last, in events. -/
structure Watch where
  uart : Pl011Mmio
  now : Nat
  /-- A byte arrived. -/
  byteAt : Option Nat
  /-- A write to `UART_IMSC` set `RXIM`. -/
  unmaskedAt : Option Nat
  /-- `PL011_INT_ID` was triggered. -/
  triggeredAt : Option Nat
  /-- A write to `UART_ICR` has cleared `RXRIS` since the last byte. -/
  cleared : Bool

namespace Watch

def new : Watch := ⟨.new, 0, none, none, none, false⟩

def next (s : Watch) : UartEvent → Watch
  | .byte data =>
    ⟨(s.uart.push data).1, s.now + 1, some s.now, s.unmaskedAt,
      if (s.uart.push data).2 then some s.now else s.triggeredAt, false⟩
  | .readDr => { s with uart := s.uart.readDr.2, now := s.now + 1 }
  | .writeImsc value =>
    { s with
      uart := s.uart.writeImsc value, now := s.now + 1
      unmaskedAt := if value &&& uartImscRxim ≠ 0 ∧ ¬s.uart.Enabled then some s.now
        else s.unmaskedAt }
  | .writeIcr value =>
    { s with
      uart := s.uart.writeIcr value, now := s.now + 1
      cleared := s.cleared || decide (value &&& uartRisRxris ≠ 0 ∧ s.uart.Raised) }

/-- The guest has been told of the bytes that wait: the status is raised, and the interrupt was
triggered no earlier than the last byte came and than the interrupt was unmasked. -/
def Heard (s : Watch) : Prop :=
  s.uart.rxFifoLen ≠ 0 → s.uart.Enabled → s.cleared = false →
    s.uart.Raised ∧ ∃ a u t, s.byteAt = some a ∧ s.unmaskedAt = some u ∧
      s.triggeredAt = some t ∧ a ≤ t ∧ u ≤ t

/-- The interrupt is not unmasked while bytes wait that were not acknowledged, and no byte comes
while the interrupt is unmasked and the FIFO is full. -/
def Unmissed (s : Watch) : UartEvent → Prop
  | .byte _ => s.uart.Enabled → s.uart.rxFifoLen ≠ rxFifoSize
  | .writeImsc value => value &&& uartImscRxim ≠ 0 → ¬s.uart.Enabled →
      s.uart.rxFifoLen = 0 ∨ s.cleared = true
  | .readDr | .writeIcr _ => True

/-- What has a time has happened. -/
structure Timed (s : Watch) : Prop where
  byte : s.uart.rxFifoLen ≠ 0 → ∃ a, s.byteAt = some a
  unmasked : s.uart.Enabled → ∃ u, s.unmaskedAt = some u
  unmasked_past : ∀ u, s.unmaskedAt = some u → u < s.now
  triggered_past : ∀ t, s.triggeredAt = some t → t < s.now

variable {s : Watch}

theorem timed_new : new.Timed :=
  ⟨fun h => absurd rfl h, fun h => absurd rfl h, fun _ h => (nomatch h), fun _ h => (nomatch h)⟩

/-- What `push` does to the registers. -/
theorem push_cases (p : Pl011Mmio) (data : UInt8) :
    (p.rxFifoLen = rxFifoSize ∧ p.push data = (p, false)) ∨
      (p.rxFifoLen ≠ rxFifoSize ∧ p.Enabled ∧ (p.push data).2 = true ∧ (p.push data).1.Raised ∧
        (p.push data).1.interruptMask = p.interruptMask) ∨
      (p.rxFifoLen ≠ rxFifoSize ∧ ¬p.Enabled ∧ (p.push data).2 = false ∧
        (p.push data).1.interruptMask = p.interruptMask) := by
  unfold Pl011Mmio.push
  split
  · next hfull => exact .inl ⟨hfull, rfl⟩
  · next hroom =>
    split
    · next henabled =>
      refine .inr (.inl ⟨hroom, henabled, rfl, (Pl011Mmio.and_rxris_ne_zero _).2 ?_, rfl⟩)
      show (p.rawInterruptStatus ||| uartRisRxris).getLsbD 4 = true
      rw [BitVec.getLsbD_or, show uartRisRxris.getLsbD 4 = true by decide, Bool.or_true]
    · next hno => exact .inr (.inr ⟨hroom, hno, rfl, rfl⟩)

theorem Timed.next (h : s.Timed) (event : UartEvent) : (s.next event).Timed := by
  have hpast : ∀ u, s.unmaskedAt = some u → u < s.now + 1 := fun u hu =>
    (h.unmasked_past u hu).trans (Nat.lt_succ_self _)
  have htrigger : ∀ t, s.triggeredAt = some t → t < s.now + 1 := fun t ht =>
    (h.triggered_past t ht).trans (Nat.lt_succ_self _)
  cases event with
  | byte data =>
    refine ⟨fun _ => ⟨s.now, rfl⟩, fun henabled => h.unmasked ?_, hpast, fun t ht => ?_⟩
    · show s.uart.interruptMask &&& uartImscRxim ≠ 0
      have hmask : (s.uart.push data).1.interruptMask = s.uart.interruptMask := by
        rcases push_cases s.uart data with ⟨-, h⟩ | ⟨-, -, -, -, h⟩ | ⟨-, -, -, h⟩
        · rw [h]
        · exact h
        · exact h
      rw [← hmask]
      exact henabled
    · change (if (s.uart.push data).2 then some s.now else s.triggeredAt) = some t at ht
      split at ht
      · cases ht
        exact Nat.lt_succ_self _
      · exact htrigger t ht
  | readDr =>
    refine ⟨fun hlen => h.byte fun hzero => hlen ?_, fun henabled => h.unmasked ?_, hpast, htrigger⟩
    · show s.uart.readDr.2.rxFifoLen = 0
      rw [Pl011Mmio.readDr, if_pos hzero]
      exact hzero
    · change s.uart.readDr.2.Enabled at henabled
      unfold Pl011Mmio.readDr at henabled
      split at henabled <;> exact henabled
  | writeImsc value =>
    refine ⟨h.byte, fun henabled => ?_, fun u hu => ?_, htrigger⟩
    · by_cases hbefore : s.uart.Enabled
      · exact ⟨_, (if_neg fun hno => hno.2 hbefore).trans (h.unmasked hbefore).choose_spec⟩
      · exact ⟨s.now, if_pos ⟨henabled, hbefore⟩⟩
    · change (if _ then some s.now else s.unmaskedAt) = some u at hu
      split at hu
      · cases hu
        exact Nat.lt_succ_self _
      · exact hpast u hu
  | writeIcr value => exact ⟨h.byte, h.unmasked, hpast, htrigger⟩

/-- No trigger of the past answers to what happens now. -/
theorem Timed.not_answered (h : s.Timed) {t : Nat} (ht : s.triggeredAt = some t) :
    ¬s.now ≤ t := Nat.not_le.2 (h.triggered_past t ht)

theorem heard_byte_iff (htimed : s.Timed) (data : UInt8) :
    (s.next (.byte data)).Heard ↔ s.Unmissed (.byte data) := by
  rcases push_cases s.uart data with ⟨hfull, hpush⟩ | ⟨hroom, henabled, htrigger, hraised, hmask⟩ |
    ⟨hroom, hmasked, -, hmask⟩
  · -- The byte is dropped, and the interrupt is not triggered.
    have hnext : s.next (.byte data) =
        ⟨s.uart, s.now + 1, some s.now, s.unmaskedAt, s.triggeredAt, false⟩ := by
      show Watch.mk _ _ _ _ _ _ = _
      rw [hpush]
      rfl
    rw [hnext]
    constructor
    · intro hheard henabled
      obtain ⟨-, a, u, t, ha, -, ht, hat, -⟩ :=
        hheard (by rw [hfull]; decide) henabled rfl
      cases ha
      exact absurd hat (htimed.not_answered ht)
    · exact fun hok _ henabled => absurd hfull (hok henabled)
  · refine iff_of_true (fun _ _ _ => ⟨hraised, ?_⟩) (fun _ => hroom)
    obtain ⟨u, hu⟩ := htimed.unmasked henabled
    exact ⟨s.now, u, s.now, rfl, hu, if_pos htrigger, le_rfl, (htimed.unmasked_past u hu).le⟩
  · refine iff_of_true (fun _ henabled => absurd ?_ hmasked) (fun _ => hroom)
    show s.uart.interruptMask &&& uartImscRxim ≠ 0
    rw [← hmask]
    exact henabled

theorem heard_readDr (hheard : s.Heard) : (s.next .readDr).Heard := by
  intro hlen henabled hcleared
  change s.uart.readDr.2.rxFifoLen ≠ 0 at hlen
  change s.uart.readDr.2.Enabled at henabled
  show s.uart.readDr.2.Raised ∧ _
  unfold Pl011Mmio.readDr at hlen henabled ⊢
  split at hlen
  · next hzero => exact absurd hzero hlen
  · next hsome =>
    rw [if_neg hsome] at henabled ⊢
    -- The status falls with the last byte only, and then nothing waits.
    have hlast : s.uart.rxFifoLen - 1 ≠ 0 := hlen
    obtain ⟨hraised, htimes⟩ := hheard hsome henabled hcleared
    refine ⟨?_, htimes⟩
    show (if s.uart.rxFifoLen - 1 = 0 then _ else s.uart.rawInterruptStatus) &&& uartRisRxris ≠ 0
    rw [if_neg hlast]
    exact hraised

theorem heard_writeImsc_iff (hheard : s.Heard) (htimed : s.Timed) (value : BitVec 16) :
    (s.next (.writeImsc value)).Heard ↔ s.Unmissed (.writeImsc value) := by
  -- Does the write unmask the interrupt? It is never triggered by that.
  by_cases hset : value &&& uartImscRxim ≠ 0 ∧ ¬s.uart.Enabled
  · have hat : (s.next (.writeImsc value)).unmaskedAt = some s.now := if_pos hset
    constructor
    · intro hnext _ _
      by_contra hno
      rw [not_or, Bool.not_eq_true] at hno
      obtain ⟨-, a, u, t, -, hu, ht, -, hut⟩ := hnext hno.1 hset.1 hno.2
      cases hat.symm.trans hu
      exact htimed.not_answered ht hut
    · intro hok hlen _ hcleared
      rcases hok hset.1 hset.2 with hempty | hack
      · exact absurd hempty hlen
      · exact absurd (hcleared.symm.trans hack) (by decide)
  · have hat : (s.next (.writeImsc value)).unmaskedAt = s.unmaskedAt := if_neg hset
    refine iff_of_true (fun hlen henabled hcleared => ?_) (fun hbit hmasked =>
      absurd ⟨hbit, hmasked⟩ hset)
    have hbefore : s.uart.Enabled := by
      by_contra hmasked
      exact hset ⟨henabled, hmasked⟩
    obtain ⟨hraised, a, u, t, ha, hu, hrest⟩ := hheard hlen hbefore hcleared
    exact ⟨hraised, a, u, t, ha, hat.trans hu, hrest⟩

theorem heard_writeIcr (hheard : s.Heard) (value : BitVec 16) :
    (s.next (.writeIcr value)).Heard := by
  intro hlen henabled hcleared
  obtain ⟨hbefore, hnot⟩ := Bool.or_eq_false_iff.1 hcleared
  obtain ⟨hraised, htimes⟩ := hheard hlen henabled hbefore
  refine ⟨?_, htimes⟩
  -- The write does not name the bit: it would have counted as the acknowledgement.
  have hother : value.getLsbD 4 = false := by
    by_contra hbit
    exact of_decide_eq_false hnot
      ⟨(Pl011Mmio.and_rxris_ne_zero _).2 (Bool.not_eq_false _ |>.mp hbit), hraised⟩
  refine (Pl011Mmio.and_rxris_ne_zero _).2 ?_
  show (s.uart.rawInterruptStatus &&& ~~~value).getLsbD 4 = true
  rw [BitVec.getLsbD_and, BitVec.getLsbD_not, hother, (Pl011Mmio.and_rxris_ne_zero _).1 hraised]
  rfl

theorem heard_next_iff (hheard : s.Heard) (htimed : s.Timed) (event : UartEvent) :
    (s.next event).Heard ↔ s.Unmissed event := by
  cases event with
  | byte data => exact heard_byte_iff htimed data
  | readDr => exact iff_of_true (heard_readDr hheard) trivial
  | writeImsc value => exact heard_writeImsc_iff hheard htimed value
  | writeIcr value => exact iff_of_true (heard_writeIcr hheard value) trivial

/-- **The receive interrupt.** It is heard after every event of a run exactly if at no event it is
missed: the interrupt is not unmasked over bytes that already wait, and no byte is dropped while it
is unmasked. -/
theorem interrupt_heard_iff (events : List UartEvent) :
    Along (fun s event t => t = s.next event) (fun _ _ t => t.Heard) new events ↔
      Along (fun s event t => t = s.next event) (fun s event _ => s.Unmissed event) new events := by
  refine along_congr (fun s => s.Heard ∧ s.Timed) ?_ ?_ events new
    ⟨fun hlen => absurd rfl hlen, timed_new⟩
  · rintro s event _ ⟨hheard, htimed⟩ rfl
    exact heard_next_iff hheard htimed event
  · rintro s event _ ⟨-, htimed⟩ rfl hheard
    exact ⟨hheard, htimed.next event⟩

/-- A byte arrives while the interrupt is masked, and the guest unmasks the interrupt: the byte
waits, and the status is not raised. -/
theorem waiting_byte_unheard :
    ¬Along (fun s event t => t = s.next event) (fun _ _ t => t.Heard) new
      [.byte 65, .writeImsc uartImscRxim] := by
  intro hal
  obtain ⟨-, hrest⟩ := hal _ rfl
  obtain ⟨hheard, -⟩ := hrest _ rfl
  have hraised := (hheard (by decide) (by decide) (by decide)).1
  exact absurd hraised (by decide)

end Watch

end MiniVisor.Uart
