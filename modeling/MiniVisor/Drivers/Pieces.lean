import MiniVisor.Drivers.MassStorage

/-!
# The pieces of a request to mass storage

`read` and `write` cut a request into commands of at most 65535 blocks. A block address has 64 bits,
is compared with a last block address of 64 bits, and is sent in a field of 32 bits.

A piece is `Sent` when the loop comes to it, which depends on the request and the device's capacity
only. `transferLoop_asks` says that every command is for such a piece, and `transferLoop_obliging`
that an obliging device gets the commands for all of them. So `right_blocks_iff` says for which
requests the commands address the right blocks.
-/

set_option autoImplicit false

namespace MiniVisor.Drivers.MassStorage

open MiniVisor.Lib

variable {δ : Type} (dev : Device δ)

/-! ## The pieces of a request -/

/-- The arguments of `read` and `write`. -/
structure Request where
  isWrite : Bool
  bufferAddress : Nat
  blockAddress : Nat
  length : Nat
  bufferAddress_lt : bufferAddress < 2 ^ 64
  blockAddress_lt : blockAddress < 2 ^ 64
  length_lt : length < 2 ^ 64

namespace UsbMassStorage

variable (storage : UsbMassStorage) (r : Request)

structure Aligned : Prop where
  address : r.blockAddress % storage.blockSize = 0
  length : r.length % storage.blockSize = 0

def firstLba : Nat := r.blockAddress / storage.blockSize

def totalBlocks : Nat := r.length / storage.blockSize

/-- The first block of a piece, before it is put into a command. -/
def lbaAt (k : Nat) : Nat := storage.firstLba r + k * maxBlocksPerCommand

def blocksAt (k : Nat) : Nat := min (storage.totalBlocks r - k * maxBlocksPerCommand)
    maxBlocksPerCommand

def bufferAt (k : Nat) : Nat := r.bufferAddress + k * maxBlocksPerCommand * storage.blockSize

/-- The command for a piece. -/
def commandAt (k : Nat) : Command := ⟨r.isWrite, storage.lbaAt r k % 2 ^ 32, storage.blocksAt r k⟩

def sliceAt (k : Nat) : Slice :=
  ⟨!r.isWrite, storage.bufferAt r k, storage.blocksAt r k * storage.blockSize⟩

/-- The loop comes to a piece and sends a command for it, when the commands before succeed. -/
structure Sent (k : Nat) : Prop where
  more : k * maxBlocksPerCommand < storage.totalBlocks r
  fits : storage.lbaAt r k + storage.blocksAt r k < 2 ^ 64
  exists_end : storage.lbaAt r k + storage.blocksAt r k ≤ storage.lastLba + 1
  buffer : storage.bufferAt r k < 2 ^ 64

/-- The loop comes to its end, when all commands succeed. -/
structure Complete : Prop where
  fits : storage.firstLba r + storage.totalBlocks r < 2 ^ 64
  exists_end : storage.firstLba r + storage.totalBlocks r ≤ storage.lastLba + 1
  buffer : r.bufferAddress + storage.totalBlocks r * storage.blockSize < 2 ^ 64

/-! ## The loop on any device -/

/-- The bulk transfers for a piece. -/
def stagesAt (k tag : Nat) : List BulkRequest :=
  transferStages tag r.isWrite (storage.lbaAt r k) (storage.blocksAt r k) (storage.bufferAt r k)
    (storage.blocksAt r k * storage.blockSize)

/-- Every bulk transfer that was asked for is that of a piece, or of a REQUEST SENSE. -/
def OnlyPieces (dev : Device δ) (t : Bot δ) : Prop :=
  ∀ x ∈ t.requests, Sense dev x ∨ ∃ k tag, storage.Sent r k ∧ x ∈ storage.stagesAt r k tag

/-- The first pieces were transferred, and nothing else. -/
structure Progress (dev : Device δ) (k : Nat) (t : Bot δ) : Prop where
  onlyPieces : storage.OnlyPieces r dev t
  commands_eq : commands t.requests = (List.range k).map (storage.commandAt r)
  slices_eq : slices t.requests = (List.range k).map (storage.sliceAt r)
  sent : ∀ i < k, storage.Sent r i

/-- All pieces were transferred. -/
def AllPieces (dev : Device δ) (t : Bot δ) : Prop :=
  (0 < storage.totalBlocks r → storage.Complete r) ∧
    ∃ k, storage.totalBlocks r ≤ k * maxBlocksPerCommand ∧ storage.Progress r dev k t

variable {storage r} {dev}

theorem maxBlocksPerCommand_eq : maxBlocksPerCommand = 65535 := rfl

/-- The number of blocks fits its field in the command. -/
theorem blocksAt_mod (storage : UsbMassStorage) (r : Request) (k : Nat) :
    storage.blocksAt r k % 2 ^ 16 = storage.blocksAt r k := by
  have hle : storage.blocksAt r k ≤ maxBlocksPerCommand := Nat.min_le_right _ _
  rw [maxBlocksPerCommand_eq] at hle
  omega

theorem bytesAt_lt (storage : UsbMassStorage) (r : Request) (k : Nat) :
    storage.blocksAt r k * storage.blockSize < 2 ^ 64 := by
  have hle : storage.blocksAt r k ≤ maxBlocksPerCommand := Nat.min_le_right _ _
  have hmul := Nat.mul_le_mul hle storage.blockSize_lt.le
  rw [maxBlocksPerCommand_eq] at hmul
  omega

/-- The commands are those of pieces. -/
theorem OnlyPieces.command {t : Bot δ} (h : storage.OnlyPieces r dev t) {c : Command}
    (hc : c ∈ commands t.requests) : ∃ k, storage.Sent r k ∧ c = storage.commandAt r k := by
  obtain ⟨x, hx, hcommand⟩ := List.mem_filterMap.1 hc
  rcases h x hx with hsense | ⟨k, tag, hsent, hmem⟩
  · cases x with
    | command cbw =>
      obtain ⟨tag, rfl⟩ := hsense
      cases hcommand
    | data _ _ _ => cases hcommand
    | status => cases hcommand
  · have hstages : c ∈ commands (storage.stagesAt r k tag) := List.mem_filterMap.2
      ⟨x, hmem, hcommand⟩
    rw [stagesAt, commands_transferStages, blocksAt_mod] at hstages
    exact ⟨k, hsent, List.mem_singleton.1 hstages⟩

/-- A piece may be asked for. -/
theorem OnlyPieces.asked {k tag : Nat} {s t : Bot δ} (h : storage.OnlyPieces r dev s)
    (hsent : storage.Sent r k) (ht : Asked dev (storage.stagesAt r k tag) s t) :
    storage.OnlyPieces r dev t := by
  obtain ⟨l, hl, hasked⟩ := ht
  intro x hx
  rw [hl] at hx
  rcases List.mem_append.1 hx with hold | hnew
  · exact h x hold
  · exact (hasked x hnew).symm.imp id fun hmem => ⟨k, tag, hsent, hmem⟩

theorem blocksAt_pos {k : Nat} (hmore : k * maxBlocksPerCommand < storage.totalBlocks r) :
    0 < storage.blocksAt r k :=
  Nat.lt_min.2 ⟨Nat.sub_pos_of_lt hmore, by decide⟩

theorem Sent.bytesAt_ne {k : Nat} (h : storage.Sent r k) :
    storage.blocksAt r k * storage.blockSize ≠ 0 :=
  Nat.mul_ne_zero (blocksAt_pos h.more).ne' storage.blockSize_pos.ne'

theorem Progress.next {k tag : Nat} {s t : Bot δ} (h : storage.Progress r dev k s)
    (hsent : storage.Sent r k) (ht : t.requests = s.requests ++ storage.stagesAt r k tag) :
    storage.Progress r dev (k + 1) t := by
  refine ⟨h.onlyPieces.asked hsent (asked_of_append ht fun _ hx => hx), ?_, ?_, fun i hi => ?_⟩
  · rw [ht, commands_append, h.commands_eq, stagesAt, commands_transferStages, blocksAt_mod,
      List.range_succ, List.map_append]
    rfl
  · rw [ht, slices_append, h.slices_eq, stagesAt, slices_transferStages _ _ _ _ _ hsent.bytesAt_ne,
      List.range_succ, List.map_append]
    rfl
  · rcases Nat.lt_succ_iff_lt_or_eq.1 hi with hlt | rfl
    · exact h.sent i hlt
    · exact hsent

/-- The last piece is the end of the request. -/
theorem Sent.complete {k : Nat} (h : storage.Sent r k)
    (hlast : storage.totalBlocks r - k * maxBlocksPerCommand = storage.blocksAt r k)
    (hbuffer : storage.bufferAt r k + storage.blocksAt r k * storage.blockSize < 2 ^ 64) :
    storage.Complete r := by
  obtain ⟨hmore, hfits, hend, -⟩ := h
  have htotal : k * maxBlocksPerCommand + storage.blocksAt r k = storage.totalBlocks r := by omega
  have hlba : storage.lbaAt r k + storage.blocksAt r k = storage.firstLba r + storage.totalBlocks
    r := by
    rw [← htotal, lbaAt, Nat.add_assoc]
  refine ⟨hlba ▸ hfits, hlba ▸ hend, ?_⟩
  rwa [bufferAt, Nat.add_assoc, ← Nat.add_mul, htotal] at hbuffer

theorem transferLoop_zero (dev : Device δ) (fuel left lba buffer : Nat) (isWrite : Bool) :
    storage.transferLoop dev fuel isWrite left lba 0 buffer = pure (some ()) := by
  cases left <;> rfl

/-- Behind a piece that is not the last one stands the next one. -/
theorem next_piece {k : Nat} (hmore : k * maxBlocksPerCommand < storage.totalBlocks r) :
    storage.totalBlocks r - k * maxBlocksPerCommand = storage.blocksAt r k ∨
      (storage.lbaAt r k + storage.blocksAt r k = storage.lbaAt r (k + 1) ∧
        storage.totalBlocks r - k * maxBlocksPerCommand - storage.blocksAt r k =
          storage.totalBlocks r - (k + 1) * maxBlocksPerCommand ∧
        storage.bufferAt r k + storage.blocksAt r k * storage.blockSize =
          storage.bufferAt r (k + 1) ∧
        (k + 1) * maxBlocksPerCommand < storage.totalBlocks r) := by
  rcases Nat.lt_or_ge maxBlocksPerCommand (storage.totalBlocks r - k * maxBlocksPerCommand) with
    hlt | hge
  · right
    have hblocks : storage.blocksAt r k = maxBlocksPerCommand := Nat.min_eq_right hlt.le
    rw [hblocks]
    refine ⟨?_, ?_, ?_, ?_⟩
    · rw [lbaAt, lbaAt, Nat.succ_mul, Nat.add_assoc]
    · rw [Nat.succ_mul, Nat.sub_sub]
    · rw [bufferAt, bufferAt, Nat.succ_mul, Nat.add_mul, Nat.add_assoc]
    · rw [Nat.succ_mul]
      omega
  · exact .inl (Nat.min_eq_left hge).symm

/-- What the loop asks for, from any piece on. -/
theorem transferLoop_asks (dev : Device δ) (fuel left k : Nat) (s : Bot δ)
    (h : storage.Progress r dev k s)
    (hmore : k * maxBlocksPerCommand < storage.totalBlocks r)
    (hbuffer : storage.bufferAt r k < 2 ^ 64) :
    wp (storage.transferLoop dev fuel r.isWrite left (storage.lbaAt r k)
        (storage.totalBlocks r - k * maxBlocksPerCommand) (storage.bufferAt r k))
      (fun _ t => storage.OnlyPieces r dev t)
      (fun res t => storage.OnlyPieces r dev t ∧ (res = some () → storage.AllPieces r dev t))
        s := by
  induction left generalizing k s with
  | zero =>
    obtain ⟨m, hm⟩ := Nat.exists_eq_succ_of_ne_zero (Nat.sub_ne_zero_of_lt hmore)
    rw [hm]
    exact h.onlyPieces
  | succ left ih =>
    have hblocks : min (storage.totalBlocks r - k * maxBlocksPerCommand) maxBlocksPerCommand =
        storage.blocksAt r k := rfl
    have hnext := next_piece hmore
    have hpos := blocksAt_pos hmore
    obtain ⟨m, hm⟩ := Nat.exists_eq_succ_of_ne_zero (Nat.sub_ne_zero_of_lt hmore)
    rw [hm] at hblocks hnext ⊢
    rw [transferLoop]
    simp only [hblocks]
    rw [wp_bind, wp_fits]
    refine ⟨fun hfits => ?_, fun _ => h.onlyPieces⟩
    rw [wp_ite]
    refine ⟨fun _ => ⟨h.onlyPieces, fun hno => nomatch hno⟩, fun hend => ?_⟩
    have hsent : storage.Sent r k := ⟨hmore, hfits, by omega, hbuffer⟩
    rw [wp_bind, wp_fits]
    refine ⟨fun _ => ?_, fun _ => h.onlyPieces⟩
    rw [wp_bind]
    have honly : ∀ {t : Bot δ}, Asked dev (storage.stagesAt r k s.tag) s t →
      storage.OnlyPieces r dev t :=
      fun ht => h.onlyPieces.asked hsent ht
    refine wp_mono (executeScsiCommand_asks _ _ _ _ _ _ s) (fun _ _ ht => honly ht)
      fun reply t ht => ?_
    cases reply with
    | none => exact ⟨honly ht.1, fun hno => nomatch hno⟩
    | some reply =>
    refine (wp_ite _ _ _).2 ⟨fun _ => ⟨honly ht.1, fun hno => nomatch hno⟩, fun _ => ?_⟩
    rw [wp_bind, wp_fits]
    refine ⟨fun hbuffer' => ?_, fun _ => honly ht.1⟩
    have hprogress := h.next hsent (ht.2 reply rfl)
    rcases hnext with hlast | ⟨hlba, hleft, hbuf, hmore'⟩
    · rw [hlast, Nat.sub_self, transferLoop_zero]
      refine ⟨hprogress.onlyPieces, fun _ => ⟨fun _ => hsent.complete (hm.trans hlast) hbuffer',
        k + 1, ?_, hprogress⟩⟩
      have hle : storage.blocksAt r k ≤ maxBlocksPerCommand := Nat.min_le_right _ _
      rw [Nat.succ_mul]
      omega
    · rw [hlba, hleft, hbuf]
      exact ih (k + 1) t hprogress hmore' (hbuf ▸ hbuffer')

/-- A call starts the loop at the first piece. -/
theorem transfer_eq (dev : Device δ) (fuel : Nat) (haligned : storage.Aligned r) :
    storage.transfer dev fuel r.isWrite r.bufferAddress r.blockAddress r.length =
      storage.transferLoop dev fuel r.isWrite (storage.totalBlocks r) (storage.lbaAt r 0)
        (storage.totalBlocks r - 0 * maxBlocksPerCommand) (storage.bufferAt r 0) := by
  have haddress := haligned.address
  have hlength := haligned.length
  rw [transfer, if_neg (by simp [haddress, hlength]), lbaAt, bufferAt, Nat.zero_mul, Nat.zero_mul]
  rfl

theorem progress_zero {s : Bot δ} (hs : s.requests = []) : storage.Progress r dev 0 s := by
  refine ⟨fun x hx => ?_, ?_, ?_, fun i hi => absurd hi (Nat.not_lt_zero i)⟩
  · rw [hs] at hx
    cases hx
  all_goals
    rw [hs]
    rfl

theorem bufferAt_zero_lt : storage.bufferAt r 0 < 2 ^ 64 := by
  rw [bufferAt, Nat.zero_mul, Nat.zero_mul]
  exact r.bufferAddress_lt

/-- What a call asks for. -/
theorem transfer_asks (dev : Device δ) (fuel : Nat) (haligned : storage.Aligned r) {s : Bot δ}
    (hs : s.requests = []) :
    wp (storage.transfer dev fuel r.isWrite r.bufferAddress r.blockAddress r.length)
      (fun _ t => storage.OnlyPieces r dev t)
      (fun res t => storage.OnlyPieces r dev t ∧ (res = some () → storage.AllPieces r dev t))
        s := by
  have hstart : storage.Progress r dev 0 s := progress_zero hs
  rw [transfer_eq dev fuel haligned]
  rcases Nat.eq_zero_or_pos (storage.totalBlocks r) with hzero | hpos
  · rw [hzero, Nat.zero_sub, transferLoop_zero]
    exact ⟨hstart.onlyPieces, fun _ => ⟨fun hno => absurd hno (by omega), 0, by omega, hstart⟩⟩
  · exact transferLoop_asks dev fuel _ 0 s hstart (by rwa [Nat.zero_mul]) bufferAt_zero_lt

/-! ## A device that serves every command -/

/-- The state is the last command block wrapper; `answer` gives the bytes of a data stage. -/
def obliging (answer : List UInt8 → List UInt8) : Device (List UInt8) where
  bulkTransfer
    | .command cbw => fun _ => (.ok (some ⟨31, []⟩), cbw)
    | .data _ _ length => fun cbw => (.ok (some ⟨length, answer cbw⟩), cbw)
    | .status => fun cbw =>
      (.ok (some ⟨13, le32 cswSignature ++ (cbw.drop 4).take 4 ++ [0, 0, 0, 0, 0]⟩), cbw)
  stackBuffer := 0

section Obliging

variable (answer : List UInt8 → List UInt8)

theorem obliging_command (cbw : List UInt8) (s : Bot (List UInt8)) :
    bulkTransfer (obliging answer) (.command cbw) s =
      (.ok (some ⟨31, []⟩), ⟨cbw, s.tag, s.requests ++ [.command cbw]⟩) := rfl

theorem obliging_data (directionIn : Bool) (bufferAddress length : Nat) (s : Bot (List UInt8)) :
    bulkTransfer (obliging answer) (.data directionIn bufferAddress length) s =
      (.ok (some ⟨length, answer s.device⟩),
        ⟨s.device, s.tag, s.requests ++ [.data directionIn bufferAddress length]⟩) := rfl

theorem obliging_status (s : Bot (List UInt8)) :
    bulkTransfer (obliging answer) .status s =
      (.ok (some ⟨13, le32 cswSignature ++ (s.device.drop 4).take 4 ++ [0, 0, 0, 0, 0]⟩),
        ⟨s.device, s.tag, s.requests ++ [.status]⟩) := rfl

theorem executeScsiCommand_obliging (fuel : Nat) (isWrite : Bool)
    (lba blocks buffer bytes : Nat) (hbytes : bytes ≠ 0) (s : Bot (List UInt8))
    (htag : s.tag < 2 ^ 32) :
    wp (executeScsiCommand (obliging answer) (fuel + 1) (transferCdb isWrite lba blocks) buffer
        bytes (!isWrite))
      (fun _ _ => False)
      (fun reply t => t.tag < 2 ^ 32 ∧ ∃ a, reply = some ⟨bytes, a⟩) s := by
  have hsignature : leNat (le32 cswSignature) = cswSignature := leNat_le32 (by decide)
  have hreturned : leNat (le32 s.tag) = s.tag := leNat_le32 htag
  rw [executeScsiCommand, wp_bind, wp_get, wp_bind, wp_modify]
  show wp (executeScsiCommandInner _ _ _ _ _ _ _) _ _ _
  rw [executeScsiCommandInner, if_neg (by simp [transferCdb, be32, be16]), wp_bind]
  refine wp_of_ok (obliging_command _ _ _) ?_
  rw [if_pos hbytes]
  refine (wp_bind _ _).2 (wp_of_ok (obliging_data _ _ _ _ _) ?_)
  refine (wp_bind _ _).2 (wp_of_ok (obliging_status _ _) ?_)
  refine (wp_ite _ _ _).2 ⟨fun hno => absurd rfl hno, fun _ => ?_⟩
  refine (wp_ite _ _ _).2 ⟨fun hno => absurd ⟨hsignature, hreturned⟩ (not_and_or.2 hno),
    fun _ => ?_⟩
  refine (wp_ite _ _ _).2 ⟨fun hno => absurd rfl hno, fun _ => ?_⟩
  exact ⟨Nat.mod_lt _ (by decide), _, rfl⟩

/-- The end of a piece. -/
theorem end_of_piece {k : Nat} (hmore : k * maxBlocksPerCommand < storage.totalBlocks r) :
    storage.lbaAt r k + storage.blocksAt r k =
      storage.firstLba r + min (storage.totalBlocks r) ((k + 1) * maxBlocksPerCommand) := by
  rw [lbaAt, blocksAt, Nat.succ_mul]
  omega

theorem bufferAt_mono {j k : Nat} (h : j ≤ k) : storage.bufferAt r j ≤ storage.bufferAt r k :=
  Nat.add_le_add_left (Nat.mul_le_mul_right _ (Nat.mul_le_mul_right _ h)) _

/-- The pieces before one that is sent are sent. -/
theorem Sent.mono {j k : Nat} (h : storage.Sent r k) (hle : j ≤ k) : storage.Sent r j := by
  obtain ⟨hmore, hfits, hend, hbuffer⟩ := h
  have hmul : j * maxBlocksPerCommand ≤ k * maxBlocksPerCommand := Nat.mul_le_mul_right _ hle
  have hj := end_of_piece (hmul.trans_lt hmore)
  have hk := end_of_piece hmore
  have hle' : min (storage.totalBlocks r) ((j + 1) * maxBlocksPerCommand) ≤
      min (storage.totalBlocks r) ((k + 1) * maxBlocksPerCommand) :=
    min_le_min_left _ (Nat.mul_le_mul_right _ (Nat.succ_le_succ hle))
  exact ⟨hmul.trans_lt hmore, by omega, by omega, (bufferAt_mono hle).trans_lt hbuffer⟩

/-- All pieces of a request that can be completed are sent. -/
theorem Complete.sent (h : storage.Complete r) {k : Nat}
    (hmore : k * maxBlocksPerCommand < storage.totalBlocks r) : storage.Sent r k := by
  have hk := end_of_piece hmore
  have hle := Nat.min_le_left (storage.totalBlocks r) ((k + 1) * maxBlocksPerCommand)
  refine ⟨hmore, ?_, ?_, ?_⟩
  · have hfits := h.fits
    omega
  · have hend := h.exists_end
    omega
  · refine Nat.lt_of_le_of_lt ?_ h.buffer
    exact Nat.add_le_add_left (Nat.mul_le_mul_right _ hmore.le) _

/-- A command was asked for each piece that can be sent, and its data stage. -/
def Reached (storage : UsbMassStorage) (r : Request) (t : Bot δ) : Prop :=
  ∀ k, storage.Sent r k →
    storage.commandAt r k ∈ commands t.requests ∧ storage.sliceAt r k ∈ slices t.requests

theorem Progress.reached {k : Nat} {t : Bot δ} (h : storage.Progress r dev k t)
    (hno : ∀ j, storage.Sent r j → j < k) : storage.Reached r t := by
  intro j hj
  have hmem := List.mem_range.2 (hno j hj)
  rw [h.commands_eq, h.slices_eq]
  exact ⟨List.mem_map_of_mem hmem, List.mem_map_of_mem hmem⟩

/-- On an obliging device the loop comes to every piece that can be sent, and to its end if there is
nothing against it. -/
theorem transferLoop_obliging (left k : Nat) (s : Bot (List UInt8))
    (h : storage.Progress r (obliging answer) k s) (htag : s.tag < 2 ^ 32)
    (hmore : k * maxBlocksPerCommand < storage.totalBlocks r)
    (hbuffer : storage.bufferAt r k < 2 ^ 64)
    (hleft : storage.totalBlocks r - k * maxBlocksPerCommand ≤ left) :
    wp (storage.transferLoop (obliging answer) 1 r.isWrite left (storage.lbaAt r k)
        (storage.totalBlocks r - k * maxBlocksPerCommand) (storage.bufferAt r k))
      (fun _ t => storage.Reached r t ∧ ¬storage.Complete r)
      (fun res t => storage.Reached r t ∧ (storage.Complete r → res = some ())) s := by
  induction left generalizing k s with
  | zero => omega
  | succ left ih =>
    -- a piece that cannot be sent is the last one that the loop looks at
    have hstop : ¬storage.Sent r k → storage.Reached r s ∧ ¬storage.Complete r := fun hno =>
      ⟨h.reached fun j hj => Nat.lt_of_not_le fun hle => hno (hj.mono hle),
        fun hc => hno (hc.sent hmore)⟩
    have hblocks : min (storage.totalBlocks r - k * maxBlocksPerCommand) maxBlocksPerCommand =
        storage.blocksAt r k := rfl
    have hnext := next_piece hmore
    have hpos := blocksAt_pos hmore
    obtain ⟨m, hm⟩ := Nat.exists_eq_succ_of_ne_zero (Nat.sub_ne_zero_of_lt hmore)
    rw [hm] at hblocks hnext hleft ⊢
    rw [transferLoop]
    simp only [hblocks]
    rw [wp_bind, wp_fits]
    refine ⟨fun hfits => ?_, fun hno => hstop fun hsent => hno hsent.fits⟩
    rw [wp_ite]
    refine ⟨fun hno => ?_, fun hend => ?_⟩
    · have hstop' := hstop fun hsent => absurd hsent.exists_end (by omega)
      exact ⟨hstop'.1, fun hc => absurd hc hstop'.2⟩
    have hsent : storage.Sent r k := ⟨hmore, hfits, by omega, hbuffer⟩
    rw [wp_bind, wp_fits]
    refine ⟨fun _ => ?_, fun hno => absurd (bytesAt_lt storage r k) hno⟩
    rw [wp_bind]
    refine wp_mono (wp_and (executeScsiCommand_asks 1 _ _ _ _ _ s)
      (executeScsiCommand_obliging answer 0 _ _ _ _ _ hsent.bytesAt_ne s htag))
      (fun _ _ ht => ht.2.elim) fun reply t ht => ?_
    obtain ⟨hasked, htag', a, rfl⟩ := ht
    have hprogress := h.next hsent (hasked.2 _ rfl)
    refine (wp_ite _ _ _).2 ⟨fun hno => absurd rfl hno, fun _ => ?_⟩
    rw [wp_bind, wp_fits]
    rcases hnext with hlast | ⟨hlba, hleft', hbuf, hmore'⟩
    · have hfull : (k + 1) * maxBlocksPerCommand ≥ storage.totalBlocks r := by
        have hle : storage.blocksAt r k ≤ maxBlocksPerCommand := Nat.min_le_right _ _
        rw [Nat.succ_mul]
        omega
      have hreached : storage.Reached r t := hprogress.reached fun j hj => by
        by_contra hge
        have hmul := Nat.mul_le_mul_right maxBlocksPerCommand (Nat.le_of_not_lt hge)
        exact absurd hj.more (by omega)
      have htotal : k * maxBlocksPerCommand + storage.blocksAt r k = storage.totalBlocks r := by
        omega
      rw [hlast, Nat.sub_self, transferLoop_zero]
      refine ⟨fun _ => ⟨hreached, fun _ => rfl⟩, fun hno => ⟨hreached, fun hc => hno ?_⟩⟩
      have hend := hc.buffer
      rwa [← htotal, Nat.add_mul, ← Nat.add_assoc] at hend
    · rw [hlba, hleft', hbuf]
      refine ⟨fun hfits' => ?_, fun hno => ⟨?_, fun hc => hno (hc.sent hmore').buffer⟩⟩
      · exact ih (k + 1) t hprogress htag' hmore' hfits' (by omega)
      · refine hprogress.reached fun j hj => Nat.lt_of_not_le fun hle => hno ?_
        exact (bufferAt_mono hle).trans_lt hj.buffer

/-- The same for a call. -/
theorem transfer_obliging (haligned : storage.Aligned r) (hpos : 0 < storage.totalBlocks r) :
    wp (storage.transfer (obliging answer) 1 r.isWrite r.bufferAddress r.blockAddress r.length)
      (fun _ t => storage.Reached r t ∧ ¬storage.Complete r)
      (fun res t => storage.Reached r t ∧ (storage.Complete r → res = some ())) ⟨[], 5, []⟩ := by
  rw [transfer_eq _ 1 haligned]
  exact transferLoop_obliging answer _ 0 _ (progress_zero rfl) (by decide) (by rwa [Nat.zero_mul])
    bufferAt_zero_lt (Nat.sub_le _ _)

theorem transfer_reaches (haligned : storage.Aligned r) (hpos : 0 < storage.totalBlocks r) :
    storage.Reached r (storage.transfer (obliging answer) 1 r.isWrite r.bufferAddress r.blockAddress
      r.length ⟨[], 5, []⟩).2 :=
  (wp_mono (transfer_obliging answer haligned hpos) (fun _ _ h => h.1) fun _ _ h => h.1).state

end Obliging

/-! ## The right blocks -/

section Main

variable (storage r)

/-- The data stage of a command moves the part of the buffer that belongs to its blocks. -/
def Matches (c : Command) (slice : Slice) : Prop :=
  c.isWrite = r.isWrite ∧ slice.directionIn = !r.isWrite ∧
    slice.address = r.bufferAddress + (c.lba - storage.firstLba r) * storage.blockSize ∧
    slice.length = c.blocks * storage.blockSize

/-- The commands cover the blocks of the request, in order and each once, with the matching parts of
the buffer. -/
structure Covers (requests : List BulkRequest) : Prop where
  lbas : (commands requests).flatMap Command.lbas =
    List.range' (storage.firstLba r) (storage.totalBlocks r)
  slices : List.Forall₂ (storage.Matches r) (commands requests) (slices requests)

/-- No command addresses a block that is not of the request. -/
def Inside (requests : List BulkRequest) : Prop :=
  ∀ c ∈ commands requests, ∀ lba ∈ c.lbas,
    storage.firstLba r ≤ lba ∧ lba < storage.firstLba r + storage.totalBlocks r

/-- The request addresses the right blocks, on any device. -/
def RightBlocks : Prop :=
  ∀ (δ : Type) (dev : Device δ) (fuel : Nat) (d : δ) (tag : Nat),
    let out := storage.transfer dev fuel r.isWrite r.bufferAddress r.blockAddress
      r.length ⟨d, tag, []⟩
    (out.1 = .ok (some ()) → storage.Covers r out.2.requests) ∧ storage.Inside r out.2.requests

variable {storage r}

/-- The blocks of the first pieces. -/
theorem lbas_of_pieces (hlow : ∀ k, storage.Sent r k → storage.lbaAt r k < 2 ^ 32) {k : Nat}
    (hsent : ∀ i < k, storage.Sent r i) :
    ((List.range k).map (storage.commandAt r)).flatMap Command.lbas =
      List.range' (storage.firstLba r) (min (storage.totalBlocks r) (k * maxBlocksPerCommand)) := by
  induction k with
  | zero => simp
  | succ k ih =>
    have hk := hsent k (Nat.lt_succ_self k)
    have hlbas : (storage.commandAt r k).lbas =
        List.range' (storage.lbaAt r k) (storage.blocksAt r k) := by
      rw [Command.lbas, commandAt, Nat.mod_eq_of_lt (hlow k hk)]
    rw [List.range_succ, List.map_append, List.flatMap_append,
      ih fun i hi => hsent i (Nat.lt_succ_of_lt hi), List.map_singleton, List.flatMap_singleton,
      hlbas, Nat.min_eq_right hk.more.le, lbaAt, List.range'_append_1]
    congr 1
    rw [blocksAt, Nat.succ_mul]
    have hmore := hk.more
    omega

theorem matches_piece {k : Nat} (hlow : storage.lbaAt r k < 2 ^ 32) :
    storage.Matches r (storage.commandAt r k) (storage.sliceAt r k) := by
  refine ⟨rfl, rfl, ?_, rfl⟩
  show storage.bufferAt r k = _ + (storage.lbaAt r k % 2 ^ 32 - _) * _
  rw [Nat.mod_eq_of_lt hlow, lbaAt, Nat.add_sub_cancel_left, bufferAt]

/-- A block address that does not fit the command belongs to another part of the buffer. -/
theorem not_matches_piece {k : Nat} (hhigh : 2 ^ 32 ≤ storage.lbaAt r k)
    (hstart : storage.firstLba r ≤ storage.lbaAt r k % 2 ^ 32) :
    ¬storage.Matches r (storage.commandAt r k) (storage.sliceAt r k) := by
  rintro ⟨-, -, haddress, -⟩
  change storage.bufferAt r k =
    r.bufferAddress + (storage.lbaAt r k % 2 ^ 32 - storage.firstLba r) *
      storage.blockSize at haddress
  have hblocks : k * maxBlocksPerCommand = storage.lbaAt r k % 2 ^ 32 - storage.firstLba r :=
    Nat.eq_of_mul_eq_mul_right storage.blockSize_pos (Nat.add_left_cancel haddress)
  have hlba : storage.lbaAt r k = storage.firstLba r + k * maxBlocksPerCommand := rfl
  have hmod := Nat.mod_lt (storage.lbaAt r k) (Nat.two_pow_pos 32)
  omega

theorem AllPieces.covers {t : Bot δ} (h : storage.AllPieces r dev t)
    (hlow : ∀ k, storage.Sent r k → storage.lbaAt r k < 2 ^ 32) : storage.Covers r t.requests := by
  obtain ⟨-, k, hk, hprogress⟩ := h
  refine ⟨?_, ?_⟩
  · rw [hprogress.commands_eq, lbas_of_pieces hlow hprogress.sent, Nat.min_eq_left hk]
  · rw [hprogress.commands_eq, hprogress.slices_eq, List.forall₂_map_left_iff,
      List.forall₂_map_right_iff, List.forall₂_same]
    exact fun i hi => matches_piece (hlow i (hprogress.sent i (List.mem_range.1 hi)))

/-- A command for a piece stays inside of the request if it does not start before it. -/
theorem inside_piece {k lba : Nat} (hsent : storage.Sent r k)
    (hstart : storage.firstLba r ≤ storage.lbaAt r k % 2 ^ 32)
    (hlba : lba ∈ (storage.commandAt r k).lbas) :
    storage.firstLba r ≤ lba ∧ lba < storage.firstLba r + storage.totalBlocks r := by
  have hend := end_of_piece hsent.more
  have hle := Nat.min_le_left (storage.totalBlocks r) ((k + 1) * maxBlocksPerCommand)
  have hmod := Nat.mod_le (storage.lbaAt r k) (2 ^ 32)
  obtain ⟨hge, hlt⟩ := List.mem_range'_1.1 hlba
  change storage.lbaAt r k % 2 ^ 32 ≤ lba at hge
  change lba < storage.lbaAt r k % 2 ^ 32 + storage.blocksAt r k at hlt
  omega

theorem firstLba_le_lbaAt (k : Nat) : storage.firstLba r ≤ storage.lbaAt r k := Nat.le_add_right _ _

/-- **A request addresses the right blocks** on every device exactly when no command is sent for a
piece that starts behind the first 2^32 blocks, unless the request goes over so many blocks that the
wrong ones are also of the request, and fails for certain. -/
theorem right_blocks_iff (storage : UsbMassStorage) (r : Request) (haligned : storage.Aligned r) :
    storage.RightBlocks r ↔ ∀ k, storage.Sent r k → 2 ^ 32 ≤ storage.lbaAt r k →
      ¬storage.Complete r ∧ storage.firstLba r ≤ storage.lbaAt r k % 2 ^ 32 := by
  constructor
  · intro hright k hsent hhigh
    obtain ⟨hcovers, hinside⟩ := hright _ (obliging fun _ => []) 1 [] 5
    have hpos : 0 < storage.totalBlocks r := Nat.zero_lt_of_lt hsent.more
    have hrun := transfer_obliging (fun _ => []) haligned hpos
    -- the command for the piece was sent
    have hreached := transfer_reaches (fun _ => []) haligned hpos
    have hstart : storage.firstLba r ≤ storage.lbaAt r k % 2 ^ 32 := by
      refine (hinside _ (hreached k hsent).1 _ (List.mem_range'_1.2 ⟨Nat.le_refl _, ?_⟩)).1
      exact Nat.lt_add_of_pos_right (blocksAt_pos hsent.more)
    refine ⟨fun hcomplete => ?_, hstart⟩
    -- every command succeeds, so the piece would have to match its part of the buffer
    have hasks := transfer_asks (obliging fun _ => []) 1 haligned (s := ⟨[], 5, []⟩) rfl
    have hok : (storage.transfer (obliging fun _ => []) 1 r.isWrite r.bufferAddress r.blockAddress
        r.length ⟨[], 5, []⟩).1 = .ok (some ()) := by
      rcases hout : storage.transfer (obliging fun _ => []) 1 r.isWrite
        r.bufferAddress r.blockAddress
        r.length ⟨[], 5, []⟩ with ⟨fault | res, t⟩
      · exact absurd hcomplete (hrun.error hout).2
      · rw [(hrun.ok hout).2 hcomplete]
    obtain ⟨-, m, hm, hprogress⟩ := (hasks.ok (Prod.ext hok rfl)).2 rfl
    have hmatches := (hcovers hok).slices
    rw [hprogress.commands_eq, hprogress.slices_eq, List.forall₂_map_left_iff,
      List.forall₂_map_right_iff, List.forall₂_same] at hmatches
    have hlt : k < m := Nat.lt_of_mul_lt_mul_right (hsent.more.trans_le hm)
    exact not_matches_piece hhigh hstart (hmatches k (List.mem_range.2 hlt))
  · intro hholds δ dev fuel d tag
    have hasks := transfer_asks dev fuel haligned (s := ⟨d, tag, []⟩) rfl
    refine ⟨fun hok => ?_, fun c hc lba hlba => ?_⟩
    · have hall := (hasks.ok (Prod.ext hok rfl)).2 rfl
      refine hall.covers fun k hsent => ?_
      by_contra hhigh
      exact (hholds k hsent (Nat.le_of_not_lt hhigh)).1 (hall.1 (Nat.zero_lt_of_lt hsent.more))
    · have honly := (wp_mono hasks (fun _ _ h => h) fun _ _ h => h.1).state
      obtain ⟨k, hsent, rfl⟩ := honly.command hc
      refine inside_piece hsent ?_ hlba
      rcases Nat.lt_or_ge (storage.lbaAt r k) (2 ^ 32) with hlow | hhigh
      · rw [Nat.mod_eq_of_lt hlow]
        exact firstLba_le_lbaAt k
      · exact (hholds k hsent hhigh).2

end Main

/-- A request for the first two blocks of a small disk. -/
def firstBlocks : Request := ⟨false, 0x100000, 0, 1024, by decide, by decide, by decide⟩

def smallDisk : UsbMassStorage := ⟨⟨0xFFFF, 512, by decide, by decide⟩, by decide⟩

theorem right_blocks_iff_small : smallDisk.Aligned firstBlocks ∧ smallDisk.RightBlocks
    firstBlocks := by
  have haligned : smallDisk.Aligned firstBlocks := ⟨by decide, by decide⟩
  refine ⟨haligned, (right_blocks_iff smallDisk firstBlocks haligned).2 fun k hsent hhigh => ?_⟩
  have hend : smallDisk.lbaAt firstBlocks k + smallDisk.blocksAt firstBlocks k ≤ 0x10000 :=
    hsent.exists_end
  omega

/-- A disk of 4 TiB. It reports its size by READ CAPACITY(16). -/
def largeDisk : Device (List UInt8) :=
  obliging fun cbw =>
    if cbw.getD 15 0 = scsiReadCapacity10 then [0xFF, 0xFF, 0xFF, 0xFF, 0, 0, 2, 0]
    else if cbw.getD 15 0 = scsiServiceActionIn16 then
      [0, 0, 0, 1, 0xFF, 0xFF, 0xFF, 0xFF, 0, 0, 2, 0]
    else []

/-- The driver starts on a disk, and a block is read. -/
def startAndRead (dev : Device (List UInt8)) (blockAddress : Nat) :
    Program (Bot (List UInt8)) (Option Unit) := do
  let some storage ← new dev 1 | return none
  modify fun s => { s with requests := [] }
  storage.read dev 1 0x100000 blockAddress 512

/-- The block at 2 TiB is asked for, and the first one is read. -/
theorem wrong_block_read :
    (startAndRead largeDisk (2 ^ 32 * 512) ⟨[], 0, []⟩).1 = .ok (some ()) ∧
      commands (startAndRead largeDisk (2 ^ 32 * 512) ⟨[], 0, []⟩).2.requests =
      [⟨false, 0, 1⟩] := by
  decide +kernel

end UsbMassStorage

end MiniVisor.Drivers.MassStorage
