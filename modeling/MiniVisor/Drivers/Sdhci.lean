import MiniVisor.Lib.Fault

/-!
# The SD host controller

A model of `set_clock` and of `operation_sync` of `drivers/sdhci.rs`. What the controller answers is
a parameter: whether its clock becomes stable, whether it takes a command, and for each block of a
transfer whether its buffer becomes ready.

`set_clock` doubles a divisor until the divided clock is low enough, and then programs half of the
divisor, which the controller takes twice. `clock_bounded_iff` says that the clock stays within its
target only when nothing has to be divided. `operation_sync` cuts the number of blocks and the
address of a request down to the registers; `transfer_right_iff` says that a request is transferred
as it was made exactly when it fits them.
-/

set_option autoImplicit false

namespace MiniVisor.Drivers.Sdhci

open MiniVisor.Lib

/-! ## The clock -/

def clockIntEn : BitVec 16 := 1#16 <<< 0
def clockIntStable : BitVec 16 := 1#16 <<< 1
def clockCardEn : BitVec 16 := 1#16 <<< 2

/-- The base clock that `SDHCI_CAPABILITIES` reports, or the one of the BCM2711. -/
def baseClockHz (capabilities : BitVec 32) : Nat :=
  let baseClockMhz := ((capabilities >>> 8) &&& 0xFF).toNat
  if baseClockMhz = 0 then 100000000 else baseClockMhz * 1000000

/-- The `while` loop of `set_clock`. -/
def findDivisor (baseClock targetHz : Nat) : (fuel divisor : Nat) → Except Fault Nat
  | 0, _ => .error .outOfFuel
  | fuel + 1, divisor =>
    if divisor < 0x3FF ∧ baseClock / (divisor * 2) > targetHz then
      findDivisor baseClock targetHz fuel (divisor * 2)
    else .ok divisor

/-- The divider field of the clock register: eight bits, and two more below them. -/
def clockControl (field : Nat) : BitVec 16 :=
  BitVec.ofNat 16 ((field &&& 0xFF) <<< 8) ||| BitVec.ofNat 16 (((field >>> 8) &&& 0x03) <<< 6)

/-- `set_clock`: whether it returns `Ok`, and what it writes to the clock register. `stable` is
whether the controller reports a stable clock in time. -/
def setClock (capabilities targetHz : BitVec 32) (stable : Bool) :
    Except Fault (Bool × List (BitVec 16)) := do
  let divisor ← findDivisor (baseClockHz capabilities) targetHz.toNat 11 1
  let control := clockControl (divisor / 2) ||| clockIntEn
  if stable then
    -- The register is read back with the bit that reports the stable clock.
    return (true, [0, control, control ||| clockIntStable ||| clockCardEn])
  return (false, [0, control])

/-- The divider that a controller takes from its clock register. -/
def divider (control : BitVec 16) : Nat :=
  ((control >>> 8) &&& 0xFF).toNat + 2 ^ 8 * ((control >>> 6) &&& 0x03).toNat

/-- A divider gives a card clock of at most the target. Zero selects the base clock, and any other
value the base clock divided by its double. -/
def AtMost (baseClock n targetHz : Nat) : Prop :=
  if n = 0 then baseClock ≤ targetHz else baseClock ≤ 2 * n * targetHz

instance (baseClock n targetHz : Nat) : Decidable (AtMost baseClock n targetHz) :=
  inferInstanceAs (Decidable (if n = 0 then baseClock ≤ targetHz else baseClock ≤ 2 * n * targetHz))

section Clock

variable {baseClock targetHz : Nat}

/-- The loop ends with a power of two. Each doubling was made because the clock was still too high
with the divisor that it leads to. -/
theorem findDivisor_spec (fuel : Nat) : ∀ k ≤ 10, k + fuel = 11 →
    (k = 0 ∨ targetHz < baseClock / 2 ^ k) →
      ∃ j ≤ 10, findDivisor baseClock targetHz fuel (2 ^ k) = .ok (2 ^ j) ∧
        (j = 0 ∨ targetHz < baseClock / 2 ^ j) := by
  induction fuel with
  | zero =>
    intro k hk hfuel _
    omega
  | succ fuel ih =>
    intro k hk hfuel h
    rw [findDivisor]
    split
    · next hmore =>
      have hnext : targetHz < baseClock / 2 ^ (k + 1) := by
        rw [Nat.pow_succ]
        exact hmore.2
      -- The bound of the loop is passed with the tenth power of two.
      have hk : k ≠ 10 := by
        rintro rfl
        exact absurd hmore.1 (by decide)
      exact ih (k + 1) (by omega) (by omega) (.inr hnext)
    · exact ⟨k, hk, rfl, h⟩

/-- The controller takes the divider that was put into its register, whatever the other bits. -/
theorem divider_control {j : Nat} (hj : j ≤ 10) :
    divider (clockControl (2 ^ j / 2) ||| clockIntEn) = 2 ^ j / 2 ∧
      divider (clockControl (2 ^ j / 2) ||| clockIntEn ||| clockIntStable ||| clockCardEn) =
        2 ^ j / 2 := by
  interval_cases j <;> decide

/-- With the base clock divided by the half of the divisor, twice, the last doubling is lost. -/
theorem atMost_half_iff {j : Nat} (hj : j = 0 ∨ targetHz < baseClock / 2 ^ j) :
    AtMost baseClock (2 ^ j / 2) targetHz ↔ baseClock ≤ targetHz := by
  cases j with
  | zero => exact Iff.rfl
  | succ j =>
    have hlt := hj.resolve_left (Nat.succ_ne_zero j)
    have hpos : 0 < 2 ^ j := Nat.two_pow_pos j
    have hhalf : 2 ^ (j + 1) / 2 = 2 ^ j := by
      rw [Nat.pow_succ, Nat.mul_div_cancel _ Nat.two_pos]
    have hmul : (targetHz + 1) * 2 ^ (j + 1) ≤ baseClock :=
      (Nat.le_div_iff_mul_le (Nat.two_pow_pos _)).1 hlt
    rw [Nat.pow_succ, Nat.add_mul, Nat.one_mul] at hmul
    rw [hhalf, AtMost, if_neg hpos.ne']
    have hcomm : 2 * 2 ^ j * targetHz = targetHz * (2 ^ j * 2) := by ring
    have hself : targetHz ≤ targetHz * (2 ^ j * 2) := Nat.le_mul_of_pos_right _ (by omega)
    constructor <;> intro h <;> omega

end Clock

/-- **The card clock.** `set_clock` returns, and the divider that it leaves in the register keeps
the card clock within the target whenever some divider of ten bits does, exactly if the base clock
itself is within the target or no divider is. -/
theorem clock_bounded_iff (capabilities targetHz : BitVec 32) (stable : Bool) :
    ∃ result control writes, setClock capabilities targetHz stable =
        .ok (result, writes ++ [control]) ∧
      (((∃ n < 2 ^ 10, AtMost (baseClockHz capabilities) n targetHz.toNat) →
          AtMost (baseClockHz capabilities) (divider control) targetHz.toNat) ↔
        baseClockHz capabilities ≤ targetHz.toNat ∨
          ∀ n < 2 ^ 10, ¬AtMost (baseClockHz capabilities) n targetHz.toNat) := by
  obtain ⟨j, hj, hfind, hhigh⟩ := @findDivisor_spec (baseClockHz capabilities) targetHz.toNat 11 0
    (Nat.zero_le _) rfl (.inl rfl)
  obtain ⟨hleft, hended⟩ := divider_control hj
  have hiff := atMost_half_iff hhigh
  rw [Nat.pow_zero] at hfind
  have hprogrammed : ∀ control, divider control = 2 ^ j / 2 →
      (((∃ n < 2 ^ 10, AtMost (baseClockHz capabilities) n targetHz.toNat) →
          AtMost (baseClockHz capabilities) (divider control) targetHz.toNat) ↔
        baseClockHz capabilities ≤ targetHz.toNat ∨
          ∀ n < 2 ^ 10, ¬AtMost (baseClockHz capabilities) n targetHz.toNat) := by
    intro control hcontrol
    rw [hcontrol, hiff, imp_iff_not_or, or_comm]
    refine or_congr_right ?_
    push Not
    rfl
  cases stable with
  | true =>
    refine ⟨true, _, [0, clockControl (2 ^ j / 2) ||| clockIntEn], ?_, hprogrammed _ hended⟩
    rw [setClock, hfind]
    rfl
  | false =>
    refine ⟨false, _, [0], ?_, hprogrammed _ hleft⟩
    rw [setClock, hfind]
    rfl

/-- With a base clock of 100 MHz and a target of 25 MHz the divider is 1: the card gets 50 MHz. -/
theorem default_speed_exceeded :
    (setClock 0x6400 25000000 true).map Prod.snd = .ok [0, 0x101, 0x107] ∧
      divider 0x107 = 1 ∧ baseClockHz 0x6400 = 100000000 ∧
      ¬AtMost (baseClockHz 0x6400) (divider 0x107) 25000000 ∧
      AtMost (baseClockHz 0x6400) 2 25000000 := by
  decide +kernel

/-! ## Transfers -/

def blockSize : Nat := 512

def trnsBlkCntEn : BitVec 16 := 1#16 <<< 1
def trnsAcmd12 : BitVec 16 := 1#16 <<< 2
def trnsRead : BitVec 16 := 1#16 <<< 4
def trnsMulti : BitVec 16 := 1#16 <<< 5

def cmdReadSingleBlock : Nat := 17
def cmdReadMultipleBlock : Nat := 18
def cmdWriteBlock : Nat := 24
def cmdWriteMultipleBlock : Nat := 25

/-- What the controller answers during a transfer. -/
structure Answers where
  /-- The lines are free before the command. -/
  uninhibited : Bool
  responds : Bool
  /-- The buffer becomes ready for a block. -/
  ready : Nat → Bool
  dataEnd : Bool

/-- The registers as they are when a command is issued. -/
structure Issued where
  commandIndex : Nat
  argument : BitVec 32
  blockCount : BitVec 16
  transferMode : BitVec 16

/-- A call of `operation_sync`: whether it returns `Ok`, the command that it issues, and the
addresses of the blocks in memory that it moves. -/
structure Outcome where
  result : Bool
  command : Option Issued
  moved : List Nat

def commandArgument (isHighCapacity : Bool) (blockAddress : Nat) : BitVec 32 :=
  if isHighCapacity then BitVec.ofNat 32 (blockAddress / blockSize)
  else BitVec.ofNat 32 blockAddress

/-- The loop of `pio_transfer` over the blocks. The address of the last word of a block is the one
that can overflow. -/
def pioLoop (answers : Answers) (bufferAddress : Nat) :
    (left block : Nat) → Except Fault (Bool × List Nat)
  | 0, _ => .ok (true, [])
  | left + 1, block =>
    if answers.ready block then do
      let last ← checkedAdd bufferAddress (block * blockSize + 508)
      let (result, moved) ← pioLoop answers bufferAddress left (block + 1)
      return (result, (last - 508) :: moved)
    else .ok (false, [])

def pioTransfer (answers : Answers) (bufferAddress numberOfBlocks : Nat) :
    Except Fault (Bool × List Nat) := do
  let (result, moved) ← pioLoop answers bufferAddress numberOfBlocks 0
  return (result && answers.dataEnd, moved)

def commandIndex (isWrite isMultiple : Bool) : Nat :=
  if isWrite then
    if isMultiple then cmdWriteMultipleBlock else cmdWriteBlock
  else if isMultiple then cmdReadMultipleBlock
  else cmdReadSingleBlock

def transferMode (isWrite isMultiple : Bool) : BitVec 16 :=
  trnsBlkCntEn ||| (if isWrite then 0 else trnsRead) |||
    (if isMultiple then trnsMulti ||| trnsAcmd12 else 0)

/-- `operation_sync`, which `read` and `write` call. -/
def operationSync (answers : Answers) (isHighCapacity : Bool)
    (bufferAddress blockAddress length : Nat) (isWrite : Bool) : Except Fault Outcome := do
  if blockAddress % blockSize ≠ 0 ∨ length % blockSize ≠ 0 then return ⟨false, none, []⟩
  -- `as u32`, and below `as u16`
  let numberOfBlocks := length / blockSize % 2 ^ 32
  if numberOfBlocks = 0 then return ⟨true, none, []⟩
  let isMultiple := decide (numberOfBlocks > 1)
  let issued : Issued := ⟨commandIndex isWrite isMultiple,
    commandArgument isHighCapacity blockAddress, BitVec.ofNat 16 numberOfBlocks,
    transferMode isWrite isMultiple⟩
  if ¬answers.uninhibited then return ⟨false, none, []⟩
  if ¬answers.responds then return ⟨false, some issued, []⟩
  let (result, moved) ← pioTransfer answers bufferAddress numberOfBlocks
  return ⟨result, some issued, moved⟩

/-- The byte that the argument of a command addresses. -/
def addressed (isHighCapacity : Bool) (argument : BitVec 32) : Nat :=
  if isHighCapacity then argument.toNat * blockSize else argument.toNat

/-- The request fits the registers of the controller. -/
def Expressible (isHighCapacity : Bool) (blockAddress length : Nat) : Prop :=
  length / blockSize < 2 ^ 16 ∧
    (if isHighCapacity then blockAddress / blockSize else blockAddress) < 2 ^ 32

/-- A request is transferred as it was made, or refused. -/
def TransfersRight (isHighCapacity : Bool) (bufferAddress blockAddress length : Nat)
    (isWrite : Bool) : Prop :=
  ∀ answers, ∃ out,
    operationSync answers isHighCapacity bufferAddress blockAddress length isWrite = .ok out ∧
      (∀ issued, out.command = some issued →
        issued.blockCount.toNat = length / blockSize ∧
        addressed isHighCapacity issued.argument = blockAddress ∧
        (out.result = true → out.moved.length = issued.blockCount.toNat)) ∧
      (length ≠ 0 → ¬Expressible isHighCapacity blockAddress length → out.result = false)

section Transfer

variable {isHighCapacity isWrite : Bool} {bufferAddress blockAddress length : Nat}

/-- The loop returns for a buffer in memory; it moves all blocks if it ends well, and it ends well
if the controller is ready for all of them. -/
theorem pioLoop_spec (answers : Answers) (left : Nat) :
    ∀ block, bufferAddress + (block + left) * blockSize < wordSize →
      ∃ result moved, pioLoop answers bufferAddress left block = .ok (result, moved) ∧
        (result = true → moved.length = left) ∧
        ((∀ i, answers.ready i = true) → result = true) := by
  induction left with
  | zero =>
    intro block _
    exact ⟨true, [], rfl, fun _ => rfl, fun _ => rfl⟩
  | succ left ih =>
    intro block hfits
    rw [pioLoop]
    split
    · next hready =>
      have hlast : bufferAddress + (block * blockSize + 508) < wordSize := by
        unfold blockSize at hfits ⊢
        omega
      obtain ⟨result, moved, hrest, hlength, hresult⟩ := ih (block + 1) (by
        rw [Nat.add_assoc, Nat.add_comm 1 left]
        exact hfits)
      refine ⟨result, (bufferAddress + (block * blockSize + 508) - 508) :: moved, ?_, ?_, hresult⟩
      · rw [checkedAdd_eq hlast, ok_bind, hrest]
        rfl
      · intro hr
        rw [List.length_cons, hlength hr]
    · next hready =>
      exact ⟨false, [], rfl, fun h => (nomatch h), fun h => absurd (h block) hready⟩

/-- What a call with an aligned request can do. A request of no blocks, as far as 32 bits tell,
returns at once. -/
theorem operationSync_spec (isHighCapacity isWrite : Bool) (answers : Answers)
    (haddress : blockAddress % blockSize = 0) (hlength : length % blockSize = 0)
    (hbuffer : bufferAddress + length < wordSize) :
    ∃ out, operationSync answers isHighCapacity bufferAddress blockAddress length isWrite =
        .ok out ∧
      (∀ issued, out.command = some issued →
        length ≠ 0 ∧ issued.blockCount = BitVec.ofNat 16 (length / blockSize % 2 ^ 32) ∧
        issued.argument = commandArgument isHighCapacity blockAddress ∧
        (out.result = true → out.moved.length = length / blockSize % 2 ^ 32)) ∧
      (answers.uninhibited = true → answers.responds = true → answers.dataEnd = true →
        (∀ i, answers.ready i = true) → out.result = true) := by
  have haligned : ¬(blockAddress % blockSize ≠ 0 ∨ length % blockSize ≠ 0) := by
    rintro (h | h)
    · exact h haddress
    · exact h hlength
  have hblocks : bufferAddress + (0 + length / blockSize % 2 ^ 32) * blockSize < wordSize := by
    have hmod := Nat.mod_le (length / blockSize) (2 ^ 32)
    have hdiv := Nat.div_mul_le_self length blockSize
    unfold blockSize at hmod hdiv ⊢
    omega
  obtain ⟨result, moved, hpio, hmoved, hresult⟩ := pioLoop_spec answers _ 0 hblocks
  unfold operationSync
  rw [if_neg haligned]
  dsimp only
  split
  · exact ⟨_, rfl, fun _ h => (nomatch h), fun _ _ _ _ => rfl⟩
  · next hsome =>
    have hpos : length ≠ 0 := by
      rintro rfl
      exact hsome rfl
    split
    · next hno => exact ⟨_, rfl, fun _ h => (nomatch h), fun h _ _ _ => absurd h hno⟩
    · split
      · next hno =>
        refine ⟨_, rfl, ?_, fun _ h _ _ => absurd h hno⟩
        rintro _ ⟨⟩
        exact ⟨hpos, rfl, rfl, fun h => nomatch h⟩
      · have htransfer : pioTransfer answers bufferAddress (length / blockSize % 2 ^ 32) =
            .ok (result && answers.dataEnd, moved) := by
          rw [pioTransfer, hpio]
          rfl
        rw [htransfer]
        refine ⟨_, rfl, ?_, fun _ _ hend hready => ?_⟩
        · rintro _ ⟨⟩
          exact ⟨hpos, rfl, rfl, fun h => hmoved (Bool.and_eq_true_iff.1 h).1⟩
        · exact Bool.and_eq_true_iff.2 ⟨hresult hready, hend⟩

/-- An argument that is not cut addresses the block. -/
theorem addressed_commandArgument (haddress : blockAddress % blockSize = 0)
    (h : (if isHighCapacity then blockAddress / blockSize else blockAddress) < 2 ^ 32) :
    addressed isHighCapacity (commandArgument isHighCapacity blockAddress) = blockAddress := by
  cases isHighCapacity with
  | true =>
    have hlt : blockAddress / blockSize < 2 ^ 32 := h
    show (BitVec.ofNat 32 (blockAddress / blockSize)).toNat * blockSize = blockAddress
    rw [BitVec.toNat_ofNat, Nat.mod_eq_of_lt hlt]
    exact Nat.div_mul_cancel (Nat.dvd_of_mod_eq_zero haddress)
  | false =>
    have hlt : blockAddress < 2 ^ 32 := h
    show (BitVec.ofNat 32 blockAddress).toNat = blockAddress
    rw [BitVec.toNat_ofNat, Nat.mod_eq_of_lt hlt]

/-- A request that does not fit is not refused by a controller that works. -/
theorem not_transfersRight (haddress : blockAddress % blockSize = 0)
    (hlength : length % blockSize = 0) (hbuffer : bufferAddress + length < wordSize)
    (hpos : length ≠ 0) (hno : ¬Expressible isHighCapacity blockAddress length) :
    ¬TransfersRight isHighCapacity bufferAddress blockAddress length isWrite := by
  intro hright
  obtain ⟨out, hrun, -, hrefused⟩ := hright ⟨true, true, fun _ => true, true⟩
  obtain ⟨out', hrun', -, hok⟩ := operationSync_spec isHighCapacity isWrite
    ⟨true, true, fun _ => true, true⟩ haddress hlength hbuffer
  obtain rfl : out = out' := Except.ok.inj (hrun.symm.trans hrun')
  exact nomatch (hrefused hpos hno).symm.trans (hok rfl rfl rfl fun _ => rfl)

end Transfer

/-- **The length of a transfer.** On any controller, the block count that is programmed is the
number of blocks that is moved and the one that was asked for, and the command addresses the block
that was asked for, exactly if the request is empty or fits the registers. -/
theorem transfer_right_iff (isHighCapacity isWrite : Bool) {bufferAddress blockAddress length : Nat}
    (haddress : blockAddress % blockSize = 0) (hlength : length % blockSize = 0)
    (hbuffer : bufferAddress + length < wordSize) :
    TransfersRight isHighCapacity bufferAddress blockAddress length isWrite ↔
      length = 0 ∨ Expressible isHighCapacity blockAddress length := by
  constructor
  · intro hright
    by_contra hno
    rw [not_or] at hno
    exact not_transfersRight haddress hlength hbuffer hno.1 hno.2 hright
  · intro hfits answers
    obtain ⟨out, hrun, hissued, -⟩ := operationSync_spec isHighCapacity isWrite answers haddress
      hlength hbuffer
    refine ⟨out, hrun, fun issued hcommand => ?_, fun hpos hno => ?_⟩
    · obtain ⟨hpos, hcount, hargument, hmoved⟩ := hissued issued hcommand
      obtain ⟨hblocks, hblock⟩ := hfits.resolve_left hpos
      have hwhole : length / blockSize % 2 ^ 32 = length / blockSize :=
        Nat.mod_eq_of_lt (hblocks.trans (by decide))
      have hregister : issued.blockCount.toNat = length / blockSize := by
        rw [hcount, BitVec.toNat_ofNat, hwhole, Nat.mod_eq_of_lt hblocks]
      refine ⟨hregister, ?_, fun hok => ?_⟩
      · rw [hargument]
        exact addressed_commandArgument haddress hblock
      · rw [hmoved hok, hregister, hwhole]
    · exact absurd hfits (not_or.2 ⟨hpos, hno⟩)

/-- A write of eight blocks from the second block of a card on. -/
theorem transfer_right_iff_blocks : TransfersRight true 0x1000 0x200 0x1000 true :=
  (transfer_right_iff true true (by decide) (by decide) (by decide)).2 (.inr ⟨by decide, by decide⟩)

/-- A read of 32 MiB, as `Fat32::read` makes it for a file in adjacent clusters, programs a block
count of zero and moves 65536 blocks. -/
theorem long_read_cut : ¬TransfersRight true 0x80000000 0 0x2000000 false ∧
    ∀ answers, ∃ out, operationSync answers true 0x80000000 0 0x2000000 false = .ok out ∧
      ∀ issued, out.command = some issued → issued.blockCount = 0 ∧
        (out.result = true → out.moved.length = 65536) := by
  refine ⟨not_transfersRight (by decide) (by decide) (by decide) (by decide)
    fun h => absurd h.1 (by decide), fun answers => ?_⟩
  obtain ⟨out, hrun, hissued, -⟩ := operationSync_spec true false answers
    (show 0 % blockSize = 0 by decide) (show 0x2000000 % blockSize = 0 by decide)
    (show 0x80000000 + 0x2000000 < wordSize by decide)
  refine ⟨out, hrun, fun issued hcommand => ?_⟩
  obtain ⟨-, hcount, -, hmoved⟩ := hissued issued hcommand
  exact ⟨hcount, hmoved⟩

end MiniVisor.Drivers.Sdhci
