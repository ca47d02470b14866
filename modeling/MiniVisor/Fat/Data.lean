import MiniVisor.Fat.Sound

/-!
# The bytes that reads and writes move

The record of a call says what it does with memory; `Host.after` carries this out on the contents of
host memory and of the device, where a transfer that succeeds moves exactly the bytes it names. A
byte of a file has a `position` on the device, by the cluster of the chain that it is in.

A run of adjacent clusters is one range of the device (`Start.position_add`). `Start.wp_readRuns`
and `Start.wp_writeRuns` are the rules for one round of the outer loops: how the inner loop ends,
which transfer it leads to, and what is left.
-/

set_option autoImplicit false

namespace MiniVisor.Fat

open MiniVisor.Lib

/-! ## Memory and the device -/

/-- The bytes of a range are replaced. -/
def overwrite (m : Nat → UInt8) (start length : Nat) (value : Nat → UInt8) : Nat → UInt8 :=
  fun a => if start ≤ a ∧ a < start + length then value (a - start) else m a

theorem overwrite_of_lt (m : Nat → UInt8) (start : Nat) {length i : Nat} (value : Nat → UInt8)
    (hi : i < length) : overwrite m start length value (start + i) = value i := by
  unfold overwrite
  rw [if_pos ⟨Nat.le_add_right _ _, Nat.add_lt_add_left hi _⟩, Nat.add_sub_cancel_left]

theorem overwrite_of_outside (m : Nat → UInt8) {start length a : Nat} (value : Nat → UInt8)
    (ha : a < start ∨ start + length ≤ a) : overwrite m start length value a = m a := by
  unfold overwrite
  rw [if_neg (by omega)]

/-- The contents of host memory and of the block device. -/
structure Host where
  memory : Nat → UInt8
  disk : Nat → UInt8

namespace Host

def transfer (h : Host) (t : Transfer) : Host :=
  if t.isWrite then
    { h with
      disk := overwrite h.disk t.blockAddress t.length fun i => h.memory (t.bufferAddress + i) }
  else
    { h with
      memory := overwrite h.memory t.bufferAddress t.length fun i => h.disk (t.blockAddress + i) }

/-- What an effect does. A transfer that fails moves nothing. -/
def apply (dev : Backend) (h : Host) : Effect → Host
  | .direct t => if dev.transfer t then h.transfer t else h
  | .bounce t => if dev.transfer t then h.transfer t else h
  | .copy source target length =>
    { h with memory := overwrite h.memory target length fun i => h.memory (source + i) }

/-- The contents after the effects of a call. -/
def after (dev : Backend) (h : Host) (effects : List Effect) : Host := effects.foldl (apply dev) h

@[simp] theorem after_nil (dev : Backend) (h : Host) : h.after dev [] = h := rfl

@[simp] theorem after_cons (dev : Backend) (h : Host) (e : Effect) (es : List Effect) :
    h.after dev (e :: es) = (h.apply dev e).after dev es := rfl

theorem after_append (dev : Backend) (h : Host) (es es' : List Effect) :
    h.after dev (es ++ es') = (h.after dev es).after dev es' := List.foldl_append

end Host

namespace Fat32

/-! ## Positions on the device -/

section Position

variable (fs : Fat32)

/-- The entry of a cluster in the FAT: the upper four bits are reserved. -/
def successor (cluster : Nat) : Option Nat :=
  let next := fs.fat cluster % 2 ^ 28
  if cluster < fs.fatSectors * fs.bytesPerSector / 4 ∧ 2 ≤ next ∧ next < 0x0FFFFFF8 then some next
  else none

/-- The clusters of a file by their number. -/
def clusters (file : FileInfo) : Nat → Option Nat
  | 0 => some file.entryCluster
  | k + 1 => (clusters file k).bind fs.successor

/-- The address on the device at which a cluster begins. -/
def clusterAddress (cluster : Nat) : Nat :=
  fs.baseLba * fs.lbaSize + (fs.reservedSectors + fs.numberOfFats * fs.fatSectors +
    (cluster - 2) * fs.sectorsPerCluster) * fs.bytesPerSector

/-- The address on the device of a byte of the file. -/
def position (file : FileInfo) (i : Nat) : Option Nat :=
  (fs.clusters file (i / fs.bytesPerCluster)).map fun cluster =>
    fs.clusterAddress cluster + i % fs.bytesPerCluster

/-- The upper four bits of every entry are zero. -/
def Plain : Prop := ∀ cluster, fs.fat cluster < 2 ^ 28

/-- The clusters of the file have room for all of it. -/
def Covered (file : FileInfo) : Prop :=
  ∀ k, k * fs.bytesPerCluster < file.fileSize → (fs.clusters file k).isSome = true

variable {fs} {file : FileInfo}

/-- The code follows the entries without masking them. -/
theorem Plain.clusters_eq (h : fs.Plain) (k : Nat) :
    fs.clusters file k = fs.chain file.entryCluster k := by
  have hnext : fs.successor = fs.getNextCluster := by
    funext cluster
    unfold successor getNextCluster
    rw [Nat.mod_eq_of_lt (h cluster)]
  induction k with
  | zero => rfl
  | succ k ih => rw [clusters, chain, ih, hnext]

theorem Plain.position_eq (h : fs.Plain) (i : Nat) :
    fs.position file i = (fs.chain file.entryCluster (i / fs.bytesPerCluster)).map fun cluster =>
      fs.clusterAddress cluster + i % fs.bytesPerCluster := by
  unfold position
  rw [h.clusters_eq]

/-- Adjacent clusters are one range. -/
theorem clusterAddress_add {cluster : Nat} (h : 2 ≤ cluster) (j : Nat) :
    fs.clusterAddress (cluster + j) = fs.clusterAddress cluster + j * fs.bytesPerCluster := by
  unfold clusterAddress bytesPerCluster
  rw [show cluster + j - 2 = cluster - 2 + j by omega]
  ring

/-- Different clusters begin at different addresses. -/
theorem clusterAddress_inj {c c' : Nat} (h : 2 ≤ c) (h' : 2 ≤ c') (hpos : fs.bytesPerCluster ≠ 0)
    (heq : fs.clusterAddress c = fs.clusterAddress c') : c = c' := by
  have haddress : ∀ {cluster}, 2 ≤ cluster → fs.clusterAddress cluster =
      fs.clusterAddress 2 + (cluster - 2) * fs.bytesPerCluster := by
    intro cluster hc
    rw [← clusterAddress_add (Nat.le_refl 2), Nat.add_sub_cancel' hc]
  rw [haddress h, haddress h', Nat.add_left_cancel_iff,
    Nat.mul_right_cancel_iff (Nat.pos_of_ne_zero hpos)] at heq
  omega

/-- The bytes of a run of adjacent clusters are at adjacent positions. -/
theorem Plain.position_of_linked (hplain : fs.Plain) {first c₀ j x : Nat} (hc : 2 ≤ c₀)
    (hpos : fs.bytesPerCluster ≠ 0) (hlinked : Linked fs file c₀ first j)
    (hx : x < (j + 1) * fs.bytesPerCluster) :
    fs.position file (first * fs.bytesPerCluster + x) = some (fs.clusterAddress c₀ + x) := by
  have hp := Nat.pos_of_ne_zero hpos
  have hdiv : (first * fs.bytesPerCluster + x) / fs.bytesPerCluster =
      first + x / fs.bytesPerCluster := by
    rw [Nat.add_comm, Nat.add_mul_div_right _ _ hp, Nat.add_comm]
  have hmod : (first * fs.bytesPerCluster + x) % fs.bytesPerCluster = x % fs.bytesPerCluster := by
    rw [Nat.add_comm, Nat.add_mul_mod_self_right]
  have hle : x / fs.bytesPerCluster ≤ j := Nat.le_of_lt_succ ((Nat.div_lt_iff_lt_mul hp).2 hx)
  rw [hplain.position_eq, hdiv, hmod, hlinked _ hle, Option.map_some, clusterAddress_add hc,
    Nat.add_assoc, Nat.div_add_mod']

end Position

/-! ## One round of the outer loops -/

section Round

variable {fs : Fat32} {file : FileInfo}

/-- The data offset of a request behind the skipped sectors. -/
def inSector (fs : Fat32) (offset : Nat) : Nat :=
  (fs.skipped (firstGather fs offset 0)).dataOffset

/-- The sectors that a request skips. -/
def skips (fs : Fat32) (offset : Nat) : Nat :=
  (fs.skipped (firstGather fs offset 0)).sectorOffset

theorem skipped_first (fs : Fat32) (offset cluster : Nat) :
    (fs.skipped (firstGather fs offset cluster)).dataOffset = fs.inSector offset ∧
      (fs.skipped (firstGather fs offset cluster)).sectorOffset = fs.skips offset := by
  unfold inSector skips skipped firstGather
  dsimp only
  split <;> exact ⟨rfl, rfl⟩

theorem skips_of_le {offset : Nat} (h : offset % fs.bytesPerCluster ≤ fs.bytesPerSector) :
    fs.skips offset = 0 ∧ fs.inSector offset = offset % fs.bytesPerCluster := by
  unfold skips inSector
  rw [skipped_of_le h]
  exact ⟨rfl, rfl⟩

theorem skips_of_lt {offset : Nat} (h : fs.bytesPerSector < offset % fs.bytesPerCluster) :
    fs.skips offset = offset % fs.bytesPerCluster / fs.bytesPerSector ∧
      fs.inSector offset = offset % fs.bytesPerCluster % fs.bytesPerSector := by
  unfold skips inSector skipped
  rw [if_pos (show (firstGather fs offset 0).dataOffset > fs.bytesPerSector from h)]
  exact ⟨rfl, rfl⟩

/-- The skipped sectors and the data offset are the offset into the cluster. -/
theorem skips_add_inSector (fs : Fat32) (offset : Nat) :
    fs.skips offset * fs.bytesPerSector + fs.inSector offset = offset % fs.bytesPerCluster := by
  rcases Nat.lt_or_ge fs.bytesPerSector (offset % fs.bytesPerCluster) with h | h
  · rw [(skips_of_lt h).1, (skips_of_lt h).2, Nat.div_add_mod']
  · rw [(skips_of_le h).1, (skips_of_le h).2, Nat.zero_mul, Nat.zero_add]

theorem skips_mul (fs : Fat32) (k : Nat) :
    fs.skips (k * fs.bytesPerCluster) = 0 ∧ fs.inSector (k * fs.bytesPerCluster) = 0 := by
  have hmod : k * fs.bytesPerCluster % fs.bytesPerCluster = 0 := Nat.mul_mod_left _ _
  have hle : k * fs.bytesPerCluster % fs.bytesPerCluster ≤ fs.bytesPerSector := by
    rw [hmod]
    exact Nat.zero_le _
  have h := skips_of_le hle
  rw [hmod] at h
  exact h

theorem wp_runTransfer_eq {isWrite : Bool} {buffer cluster : Nat} {g : Gather} {c : Call} :
    wp (fs.runTransfer isWrite buffer cluster g) (fun _ c' => c' = c)
      (fun t c' => c' = c ∧ 2 ≤ cluster ∧ t = ⟨isWrite, buffer,
        fs.clusterAddress cluster + g.sectorOffset * fs.bytesPerSector,
        g.sectors * fs.bytesPerSector⟩) c := by
  have haddress : fs.baseLba * fs.lbaSize + (fs.reservedSectors + fs.numberOfFats * fs.fatSectors +
      (cluster - 2) * fs.sectorsPerCluster + g.sectorOffset) * fs.bytesPerSector =
      fs.clusterAddress cluster + g.sectorOffset * fs.bytesPerSector := by
    unfold clusterAddress
    ring
  unfold runTransfer clusterToSector sectorAddress
  simp only [wp_bind, wp_fits, wp_minus, wp_pure, haddress]
  exact ⟨fun _ => ⟨fun _ => ⟨fun hc => ⟨fun _ => ⟨fun _ => ⟨fun _ => ⟨fun _ => ⟨fun _ =>
    ⟨trivial, hc, trivial⟩, fun _ => trivial⟩, fun _ => trivial⟩, fun _ => trivial⟩,
    fun _ => trivial⟩, fun _ => trivial⟩, fun _ => trivial⟩, fun _ => trivial⟩, fun _ => trivial⟩

/-- The transfer of a run. -/
def transferOf (fs : Fat32) (isWrite : Bool) (buffer cluster offset : Nat) (g : Gather) :
    Transfer :=
  ⟨isWrite, buffer, fs.clusterAddress cluster + fs.skips offset * fs.bytesPerSector,
    g.sectors * fs.bytesPerSector⟩

/-- What a read records for a run. -/
def readEffects (dataOffset address bytes : Nat) (t : Transfer) : List Effect :=
  if dataOffset ≠ 0 then [.bounce t, .copy (t.bufferAddress + dataOffset) address bytes]
  else [.direct t]

variable {offset length cluster : Nat} {dev : Backend} {address fuel runs pointer : Nat} {c : Call}
  {post : Option Nat → Call → Prop}

/-- One round of the outer loop of a read: how the inner loop ends, the transfer that this leads to,
and what is left. The call may fault before the transfer, behind it, and behind the copy. -/
theorem Start.wp_readRuns_run {fail : Fault → Call → Prop}
    (h : Start fs file offset length cluster) (hfault : ∀ fault, fail fault c)
    (hrefused : Refused fs file cluster (offset / fs.bytesPerCluster) (fs.inSector offset) length
      false → post none c)
    (hpages : (∃ pages, dev.allocateDmaPages pages = none) → post none c)
    (hran : ∀ g buffer t, Ran fs file false cluster (offset / fs.bytesPerCluster)
        (fs.inSector offset) (fs.skips offset) length g →
      Needed fs cluster (fs.inSector offset) length g → 2 ≤ cluster →
      (fs.inSector offset = 0 → buffer = address + pointer) →
      (fs.inSector offset ≠ 0 → ∃ pages, Room t.length pages ∧
        dev.allocateDmaPages pages = some buffer) →
      t = fs.transferOf false buffer cluster offset g →
      (∀ c', c' = { c with effects := c.effects ++
          [if fs.inSector offset ≠ 0 then .bounce t else .direct t] } →
        (∀ fault, fail fault c') ∧ (dev.transfer t = false → post none c')) ∧
      (dev.transfer t = true → (fs.inSector offset ≠ 0 → pointer = 0) →
        ∀ c', c' = { c with
            effects := c.effects ++ readEffects (fs.inSector offset) address g.bytes t } →
          (∀ fault, fail fault c') ∧
          (length = pointer + g.bytes → post (some length) c') ∧
          (length ≠ pointer + g.bytes → fs.getNextCluster g.cluster = none → post none c') ∧
          ∀ next, length ≠ pointer + g.bytes → fs.getNextCluster g.cluster = some next →
            wp (fs.readRuns dev address length fuel runs next 0 (pointer + g.bytes))
              fail post c')) :
    wp (fs.readRuns dev address length fuel (runs + 1) cluster (offset % fs.bytesPerCluster)
      pointer)
      fail post c := by
  obtain ⟨hd, hs⟩ := skipped_first fs offset cluster
  unfold Fat32.readRuns
  rw [wp_bind]
  refine wp_mono h.ran_needed (fun fault _ hf => hf.1 ▸ hfault fault) fun r c₁ hr => ?_
  obtain ⟨rfl, hr⟩ := hr
  rw [hd, hs] at hr
  cases r with
  | none => exact hrefused hr
  | some g =>
    obtain ⟨hr, hneeded⟩ := hr
    have hg : Gathered fs file _ _ _ length g := Ran.gathered hr
    have hbackup : g.dataOffsetBackup = fs.inSector offset := hg.backup
    simp only [wp_bind, hbackup]
    refine wp_mono (wp_bouncePages hg) (fun fault _ hf => hf.1 ▸ hfault fault) fun pages c₂ hc₂ =>
      ?_
    obtain ⟨hc₂, hroom⟩ := hc₂
    subst hc₂
    have hbuffer : wp (transferBuffer dev address pointer (fs.inSector offset) pages)
        (fun _ c' => c' = c₂) (fun r c' => c' = c₂ ∧
          (fs.inSector offset ≠ 0 → dev.allocateDmaPages pages = r) ∧
          (fs.inSector offset = 0 → r = some (address + pointer))) c₂ := by
      unfold transferBuffer
      simp only [wp_ite, wp_pure, wp_bind, wp_fits]
      exact ⟨fun hd => ⟨trivial, fun _ => trivial, fun hz => absurd hz hd⟩,
        fun hz => ⟨fun _ => ⟨trivial, fun hd => absurd hd hz, fun _ => trivial⟩, fun _ => trivial⟩⟩
    refine wp_mono hbuffer (fun fault _ hf => hf ▸ hfault fault) fun buffer c₃ hb => ?_
    obtain ⟨rfl, hbounced, hdirect⟩ := hb
    cases buffer with
    | none =>
      refine hpages ⟨pages, hbounced fun hz => ?_⟩
      cases hdirect hz
    | some buffer =>
      simp only [wp_bind]
      refine wp_mono wp_runTransfer_eq (fun fault _ hf => hf ▸ hfault fault) fun t c₄ ht => ?_
      obtain ⟨rfl, htwo, ht⟩ := ht
      rw [hg.skips] at ht
      obtain ⟨hissued, hmoved⟩ := hran g buffer t hr hneeded htwo
        (fun hz => Option.some.inj (hdirect hz)) (fun hd => ⟨pages, ht ▸ hroom, hbounced hd⟩) ht
      obtain ⟨hfault', hfailed⟩ := hissued _ rfl
      simp only [record, wp_modify, wp_ite, wp_pure, wp_bind]
      refine ⟨hfailed, fun hyes => ?_⟩
      rw [Bool.not_eq_false] at hyes
      -- The copy out of bounce pages belongs to the first run.
      have hcopied : wp (copyBounced buffer address pointer (fs.inSector offset) g.bytes)
          (fun _ c' => c' = { c₄ with effects := c₄.effects ++
            [if fs.inSector offset ≠ 0 then .bounce t else .direct t] })
          (fun _ c' => (fs.inSector offset ≠ 0 → pointer = 0) ∧ c' = { c₄ with
            effects := c₄.effects ++ readEffects (fs.inSector offset) address g.bytes t })
          { c₄ with effects := c₄.effects ++
            [if fs.inSector offset ≠ 0 then .bounce t else .direct t] } := by
        unfold copyBounced readEffects
        simp only [wp_ite, wp_throw, wp_pure, record, wp_modify]
        refine ⟨fun hd => ⟨fun _ => trivial, fun hp => ⟨fun _ => not_not.1 hp, ?_⟩⟩,
          fun hd => ⟨fun hno => absurd hno hd, ?_⟩⟩
        · rw [if_pos hd, if_pos hd, ht, List.append_assoc]
          rfl
        · rw [if_neg hd, if_neg hd]
      refine wp_mono hcopied (fun fault _ hf => hf ▸ hfault' fault) fun _ c₅ hc₅ => ?_
      obtain ⟨hfirst, hc₅⟩ := hc₅
      obtain ⟨hfault'', hend, hlost, hnext⟩ := hmoved hyes hfirst c₅ hc₅
      simp only [wp_fits]
      refine ⟨fun _ => ⟨fun heq => heq ▸ hend heq, fun hne => ?_⟩, fun _ => hfault'' _⟩
      split
      · next hnone => exact hlost hne hnone
      · next next hsome => exact hnext next hne hsome

/-- The same, when faults and failed transfers do not matter. -/
theorem Start.wp_readRuns (h : Start fs file offset length cluster)
    (hrefused : Refused fs file cluster (offset / fs.bytesPerCluster) (fs.inSector offset) length
      false → post none c)
    (hpages : (∃ pages, dev.allocateDmaPages pages = none) → post none c)
    (hfailed : ∀ t c', dev.transfer t = false → post none c')
    (hran : ∀ g buffer, Ran fs file false cluster (offset / fs.bytesPerCluster) (fs.inSector offset)
        (fs.skips offset) length g → 2 ≤ cluster →
      (fs.inSector offset = 0 → buffer = address + pointer) →
      (fs.inSector offset ≠ 0 → pointer = 0) →
      dev.transfer (fs.transferOf false buffer cluster offset g) = true →
      ∀ c', c' = { c with
          effects := c.effects ++ readEffects (fs.inSector offset) address g.bytes
            (fs.transferOf false buffer cluster offset g) } →
        (length = pointer + g.bytes → post (some length) c') ∧
        (length ≠ pointer + g.bytes → fs.getNextCluster g.cluster = none → post none c') ∧
        ∀ next, length ≠ pointer + g.bytes → fs.getNextCluster g.cluster = some next →
          wp (fs.readRuns dev address length fuel runs next 0 (pointer + g.bytes))
            (fun _ _ => True) post c') :
    wp (fs.readRuns dev address length fuel (runs + 1) cluster (offset % fs.bytesPerCluster)
      pointer)
      (fun _ _ => True) post c := by
  refine h.wp_readRuns_run (fun _ => trivial) hrefused hpages
    fun g buffer t hg _ htwo hdirect _ ht => ⟨fun c' _ => ⟨fun _ => trivial, hfailed t c'⟩, ?_⟩
  subst ht
  intro hyes hfirst c' hc'
  exact ⟨fun _ => trivial, hran g buffer hg htwo hdirect hfirst hyes c' hc'⟩

/-- One round of the outer loop of a write. The call may fault before the transfer and behind it. -/
theorem Start.wp_writeRuns_run {fail : Fault → Call → Prop}
    (h : Start fs file offset length cluster) (hfault : ∀ fault, fail fault c)
    (hrefused : Refused fs file cluster (offset / fs.bytesPerCluster) (fs.inSector offset) length
      true → post none c)
    (hunaligned : fs.inSector offset ≠ 0 → post none c)
    (hran : ∀ g, Ran fs file true cluster (offset / fs.bytesPerCluster) 0 (fs.skips offset) length g
      → 2 ≤ cluster → fs.inSector offset = 0 →
      ∀ t, t = fs.transferOf true (address + pointer) cluster offset g →
      ∀ c', c' = { c with effects := c.effects ++ [.direct t] } →
        (∀ fault, fail fault c') ∧ (dev.transfer t = false → post none c') ∧
        (dev.transfer t = true → length = pointer + g.bytes → post (some length) c') ∧
        (dev.transfer t = true → length ≠ pointer + g.bytes →
          fs.getNextCluster g.cluster = none → post none c') ∧
        ∀ next, dev.transfer t = true → length ≠ pointer + g.bytes →
          fs.getNextCluster g.cluster = some next →
          wp (fs.writeRuns dev address length fuel runs next 0 (pointer + g.bytes)) fail post c') :
    wp (fs.writeRuns dev address length fuel (runs + 1) cluster (offset % fs.bytesPerCluster)
      pointer)
      fail post c := by
  obtain ⟨hd, hs⟩ := skipped_first fs offset cluster
  unfold Fat32.writeRuns
  rw [wp_bind]
  refine wp_mono h.ran (fun fault _ hf => hf.1 ▸ hfault fault) fun r c₁ hr => ?_
  obtain ⟨rfl, hr⟩ := hr
  rw [hd, hs] at hr
  cases r with
  | none => exact hrefused hr
  | some g =>
    have hg : Gathered fs file _ _ _ length g := Ran.gathered hr
    have hbackup : g.dataOffsetBackup = fs.inSector offset := hg.backup
    simp only [wp_ite, wp_pure, wp_bind, wp_fits, hbackup]
    refine ⟨hunaligned, fun hd => ⟨fun _ => ?_, fun _ => hfault _⟩⟩
    have hzero : fs.inSector offset = 0 := not_not.1 hd
    refine wp_mono wp_runTransfer_eq (fun fault _ hf => hf ▸ hfault fault) fun t c₂ ht => ?_
    obtain ⟨rfl, htwo, ht⟩ := ht
    rw [hg.skips] at ht
    have hr : Ran fs file true cluster (offset / fs.bytesPerCluster) (fs.inSector offset)
        (fs.skips offset) length g := hr
    rw [hzero] at hr
    obtain ⟨hfault', hfailed, hend, hlost, hnext⟩ := hran g hr htwo hzero t ht _ rfl
    simp only [record, wp_modify]
    refine ⟨hfailed, fun hyes => ?_⟩
    rw [Bool.not_eq_false] at hyes
    refine ⟨fun _ => ⟨fun heq => heq ▸ hend hyes heq, fun hne => ?_⟩, fun _ => hfault' _⟩
    split
    · next hnone => exact hlost hyes hne hnone
    · next next hsome =>
      rw [hzero]
      exact hnext next hyes hne hsome

/-- The same, when faults do not matter. -/
theorem Start.wp_writeRuns (h : Start fs file offset length cluster)
    (hrefused : Refused fs file cluster (offset / fs.bytesPerCluster) (fs.inSector offset) length
      true → post none c)
    (hunaligned : fs.inSector offset ≠ 0 → post none c)
    (hran : ∀ g, Ran fs file true cluster (offset / fs.bytesPerCluster) 0 (fs.skips offset) length g
      → 2 ≤ cluster → fs.inSector offset = 0 →
      ∀ t, t = fs.transferOf true (address + pointer) cluster offset g →
      ∀ c', c' = { c with effects := c.effects ++ [.direct t] } →
        (dev.transfer t = false → post none c') ∧
        (dev.transfer t = true → length = pointer + g.bytes → post (some length) c') ∧
        (dev.transfer t = true → length ≠ pointer + g.bytes →
          fs.getNextCluster g.cluster = none → post none c') ∧
        ∀ next, dev.transfer t = true → length ≠ pointer + g.bytes →
          fs.getNextCluster g.cluster = some next →
          wp (fs.writeRuns dev address length fuel runs next 0 (pointer + g.bytes))
            (fun _ _ => True) post c') :
    wp (fs.writeRuns dev address length fuel (runs + 1) cluster (offset % fs.bytesPerCluster)
      pointer)
      (fun _ _ => True) post c := by
  refine h.wp_writeRuns_run (fun _ => trivial) hrefused hunaligned
    fun g hg htwo hzero t ht c' hc' => ?_
  exact ⟨fun _ => trivial, hran g hg htwo hzero t ht c' hc'⟩

end Round

/-! ## The positions of a request -/

section Request

variable {fs : Fat32} {file : FileInfo} {offset length cluster : Nat}

/-- The bytes of a request, as long as the clusters are adjacent. -/
theorem Start.position_add (h : Start fs file offset length cluster) (hplain : fs.Plain)
    (htwo : 2 ≤ cluster) {m i : Nat}
    (hlinked : Linked fs file cluster (offset / fs.bytesPerCluster) m)
    (hi : offset % fs.bytesPerCluster + i < (m + 1) * fs.bytesPerCluster) :
    fs.position file (offset + i) = some (fs.clusterAddress cluster +
      fs.skips offset * fs.bytesPerSector + (fs.inSector offset + i)) := by
  have hoffset := Nat.div_add_mod' offset fs.bytesPerCluster
  have hskips := skips_add_inSector fs offset
  have hat := hplain.position_of_linked htwo h.cluster_ne hlinked hi
  rw [← Nat.add_assoc, hoffset] at hat
  rw [hat]
  congr 1
  omega

/-- The clusters of a contiguous range of the file form one run. -/
theorem Contiguous.linked (hcontiguous : fs.Contiguous file offset length) (hplain : fs.Plain)
    (hcovered : fs.Covered file) (h : Start fs file offset length cluster) (hlength : 0 < length)
    (hin : offset + length ≤ file.fileSize) :
    Linked fs file cluster (offset / fs.bytesPerCluster)
      ((offset % fs.bytesPerCluster + length - 1) / fs.bytesPerCluster) := by
  have hp := Nat.pos_of_ne_zero h.cluster_ne
  have hoffset := Nat.div_add_mod' offset fs.bytesPerCluster
  have hlast : (offset + length - 1) / fs.bytesPerCluster = offset / fs.bytesPerCluster +
      (offset % fs.bytesPerCluster + length - 1) / fs.bytesPerCluster := by
    rw [← Nat.add_mul_div_right _ _ hp |>.trans (Nat.add_comm _ _)]
    congr 1
    omega
  intro i hi
  induction i with
  | zero => exact h.linked
  | succ i ih =>
    have hcluster := ih (Nat.le_of_succ_le hi)
    have hlt : offset / fs.bytesPerCluster + i < (offset + length - 1) / fs.bytesPerCluster := by
      omega
    have hnumber : (offset / fs.bytesPerCluster + (i + 1)) * fs.bytesPerCluster <
      file.fileSize := by
      have hmul := (Nat.le_div_iff_mul_le hp).1 (Nat.succ_le_of_lt hlt)
      rw [Nat.succ_eq_add_one, Nat.add_assoc] at hmul
      omega
    obtain ⟨next, hnext⟩ := Option.isSome_iff_exists.1 (hcovered _ hnumber)
    rw [hplain.clusters_eq] at hnext
    have hlink : fs.getNextCluster (cluster + i) = some next := by
      rw [← Nat.add_assoc, chain, hcluster] at hnext
      exact hnext
    rw [hnext, hcontiguous _ (Nat.le_add_right _ _) hlt _ _ hcluster hlink]
    rfl

end Request

end Fat32

end MiniVisor.Fat
