import MiniVisor.Fat.Model

/-!
# Requests inside a run of adjacent clusters

The clusters of a file form a chain. A valid hint names a cluster of it (`HintOk`), and the walk to
the first cluster of a request follows it (`wp_walk`).

`access_contiguous` is what a read or a write does when the clusters it touches are adjacent on the
device: it makes one transfer, which stays within the sectors of the request. A request that reaches
the end of a run of adjacent clusters does not: the outer loop then starts over with the whole
length.
-/

set_option autoImplicit false

namespace MiniVisor.Fat

open MiniVisor.Lib

namespace Fat32

variable (fs : Fat32)

/-! ## The chain of a file -/

/-- The cluster that is a number of links behind a cluster. -/
def chain (cluster : Nat) : Nat → Option Nat
  | 0 => some cluster
  | k + 1 => (chain cluster k).bind fs.getNextCluster

/-- The hint is unset, or it names a cluster of the file by its position. -/
def HintOk (file : FileInfo) (walkHint : Nat) : Prop :=
  2 ≤ walkHint % 2 ^ 32 →
    fs.chain file.entryCluster (walkHint / 2 ^ 32) = some (walkHint % 2 ^ 32)

variable {fs} {file : FileInfo}

theorem hintOk_zero : fs.HintOk file 0 := fun h => absurd h (by decide)

theorem getNextCluster_lt {cluster next : Nat} (h : fs.getNextCluster cluster = some next) :
    next < 2 ^ 28 := by
  unfold getNextCluster at h
  split at h
  · next hc =>
    cases h
    exact hc.2.2.trans (by decide)
  · cases h

theorem chain_none_of_le {cluster n m : Nat} (h : fs.chain cluster n = none) (hle : n ≤ m) :
    fs.chain cluster m = none := by
  induction hle with
  | refl => exact h
  | step _ ih => rw [chain, ih, Option.bind_none]

/-- The packed hint is read back. -/
theorem hintOk_packed {index cluster : Nat} (hindex : index < 2 ^ 32) (hcluster : cluster < 2 ^ 32)
    (h : fs.chain file.entryCluster index = some cluster) :
    fs.HintOk file (index * 2 ^ 32 % 2 ^ 64 ||| cluster) := by
  have hpacked : index * 2 ^ 32 % 2 ^ 64 ||| cluster = 2 ^ 32 * index + cluster := by
    rw [Nat.mod_eq_of_lt (by omega), Nat.mul_comm, Nat.two_pow_add_eq_or_of_lt hcluster]
  intro _
  have hdiv : (2 ^ 32 * index + cluster) / 2 ^ 32 = index := by omega
  have hmod : (2 ^ 32 * index + cluster) % 2 ^ 32 = cluster := by omega
  rw [hpacked, hdiv, hmod]
  exact h

/-- A walk starts at a cluster of the file, not behind the one it looks for. -/
theorem walkStart_spec {walkHint clustersToSkip : Nat} (h : fs.HintOk file walkHint) :
    (walkStart file walkHint clustersToSkip).2 ≤ clustersToSkip ∧
      fs.chain file.entryCluster (walkStart file walkHint clustersToSkip).2 =
        some (walkStart file walkHint clustersToSkip).1 := by
  unfold walkStart
  dsimp only
  split
  · next hc => exact ⟨hc.2, h hc.1⟩
  · exact ⟨Nat.zero_le _, rfl⟩

theorem wp_walk {count index cluster : Nat} {c : Call}
    (hstart : fs.chain file.entryCluster index = some cluster) (hlast : index + count < 2 ^ 32)
    (hhint : fs.HintOk file c.walkHint) :
    wp (fs.walk count index cluster) (fun _ _ => False)
      (fun r c' => fs.HintOk file c'.walkHint ∧ c'.effects = c.effects ∧
        fs.chain file.entryCluster (index + count) = r) c := by
  induction count generalizing index cluster c with
  | zero => exact ⟨hhint, rfl, hstart⟩
  | succ count ih =>
    have hnext : fs.chain file.entryCluster (index + 1) = fs.getNextCluster cluster := by
      rw [chain, hstart]
      rfl
    unfold walk
    split
    · next hnone => exact ⟨hhint, rfl, chain_none_of_le (hnext.trans hnone) (by omega)⟩
    · next next hsome =>
      have hlink := hnext.trans hsome
      have hsmall : next < 2 ^ 32 := (getNextCluster_lt hsome).trans (by decide)
      rw [wp_bind, updateWalkHint, wp_modify]
      have hrest := ih (c := { c with walkHint := (index + 1) * 2 ^ 32 % 2 ^ 64 ||| next }) hlink
        (by omega) (hintOk_packed (by omega) hsmall hlink)
      rw [Nat.add_right_comm, Nat.add_assoc] at hrest
      exact hrest

/-! ## One run of clusters -/

variable (fs)

/-- The clusters that a range of the file touches are adjacent on the device. -/
def Contiguous (file : FileInfo) (offset length : Nat) : Prop :=
  ∀ k, offset / fs.bytesPerCluster ≤ k → k < (offset + length - 1) / fs.bytesPerCluster →
    ∀ cluster next, fs.chain file.entryCluster k = some cluster →
      fs.getNextCluster cluster = some next → next = cluster + 1

/-- The numbers of the volume fit their words, for the clusters of the file, and the file ends. -/
structure Sound (file : FileInfo) : Prop where
  sector : 2 ≤ fs.bytesPerSector
  cluster : 1 ≤ fs.sectorsPerCluster
  lba : 1 ≤ fs.lbaSize ∧ fs.lbaSize ≤ 2 ^ 62
  base : fs.baseLba * fs.lbaSize ≤ 2 ^ 62
  chain : ∀ k cluster, fs.chain file.entryCluster k = some cluster → 2 ≤ cluster ∧
    cluster < 2 ^ 28 ∧ fs.reservedSectors + fs.numberOfFats * fs.fatSectors +
      (cluster - 1) * fs.sectorsPerCluster ≤ 2 ^ 32
  ends : ∃ n ≤ 2 ^ 28, fs.chain file.entryCluster n = none

/-- The sectors that are transferred for a number of bytes. -/
def sectorsOf (length : Nat) : Nat := 1 + (max length 1 - 1) / fs.bytesPerSector

/-- The locals after `skipSectors`. -/
def skipped (g : Gather) : Gather :=
  if g.dataOffset > fs.bytesPerSector then
    { g with
      sectorOffset := g.dataOffset / fs.bytesPerSector
      dataOffset := g.dataOffset % fs.bytesPerSector
      dataOffsetBackup := g.dataOffset % fs.bytesPerSector }
  else g

variable {fs}

theorem wp_skipSectors {g : Gather} {c : Call} {fail : Fault → Call → Prop}
    {post : Gather → Call → Prop} (hpos : fs.bytesPerSector ≠ 0) :
    wp (fs.skipSectors g) fail post c ↔ post (fs.skipped g) c := by
  unfold skipSectors skipped
  split
  · have hle : g.dataOffset / fs.bytesPerSector * fs.bytesPerSector ≤ g.dataOffset :=
      Nat.div_mul_le_self _ _
    have hmod : g.dataOffset - g.dataOffset / fs.bytesPerSector * fs.bytesPerSector =
        g.dataOffset % fs.bytesPerSector := by
      rw [Nat.mul_comm]
      exact (Nat.mod_eq_sub_mul_div).symm
    simp only [wp_bind, wp_quot, wp_minus, wp_pure, hpos, hle, hmod, not_true_eq_false,
      not_false_eq_true, false_implies, true_implies, and_true, true_and]
  · rw [wp_pure]

theorem skipped_of_le {g : Gather} (h : g.dataOffset ≤ fs.bytesPerSector) : fs.skipped g = g :=
  if_neg (Nat.not_lt.2 h)

theorem dataOffset_skipped_le (hpos : fs.bytesPerSector ≠ 0) (g : Gather) :
    (fs.skipped g).dataOffset ≤ fs.bytesPerSector := by
  unfold skipped
  split
  · exact (Nat.mod_lt _ (Nat.pos_of_ne_zero hpos)).le
  · next h => exact Nat.not_lt.1 h

/-- The locals of the inner loop after `j` whole clusters of a run that starts at the cluster number
`first` of the file, with a data offset `d` behind `s` sectors. -/
structure InRun (fs : Fat32) (file : FileInfo) (first d s length j : Nat) (g : Gather) : Prop where
  linked : fs.chain file.entryCluster (first + j) = some g.cluster
  sectors : g.sectors = j * fs.sectorsPerCluster
  bytes : g.bytes + d = j * fs.bytesPerCluster + g.dataOffset
  more : j = 0 ∨ j * fs.bytesPerCluster < length + d
  start : j = 0 ∧ g.dataOffset = d ∨ g.dataOffset = 0
  small : d ≤ fs.bytesPerSector
  backup : g.dataOffsetBackup = d
  skips : g.sectorOffset = s

/-- The locals at the end of a run. -/
structure Gathered (fs : Fat32) (file : FileInfo) (first d s length : Nat) (g : Gather) : Prop where
  linked : ∃ k, first ≤ k ∧ fs.chain file.entryCluster k = some g.cluster
  bytes : g.bytes ≤ length
  fits : g.sectors < 2 ^ 32
  backup : g.dataOffsetBackup = d
  skips : g.sectorOffset = s

/-- The run covers the whole request. -/
structure Covers (fs : Fat32) (d length : Nat) (g : Gather) : Prop where
  bytes : g.bytes = length
  sectors : d = 0 → g.sectors = fs.sectorsOf length

/-- The clusters that a request touches behind a cluster of the file are adjacent. -/
def Adjacent (fs : Fat32) (file : FileInfo) (first d length : Nat) : Prop :=
  ∀ i cluster next, (i + 1) * fs.bytesPerCluster < length + d →
    fs.chain file.entryCluster (first + i) = some cluster →
      fs.getNextCluster cluster = some next → next = cluster + 1

section InRun

variable {first d s length j : Nat} {g : Gather}

theorem InRun.dataOffset_le (h : InRun fs file first d s length j g) :
    g.dataOffset ≤ fs.bytesPerSector := by
  rcases h.start with hs | hs
  · exact hs.2 ▸ h.small
  · omega

theorem InRun.bytes_le (h : InRun fs file first d s length j g) : g.bytes ≤ length := by
  have hbytes := h.bytes
  rcases h.start with hs | hs
  · rw [hs.1, Nat.zero_mul] at hbytes
    omega
  · rcases h.more with rfl | hm
    · rw [Nat.zero_mul] at hbytes
      omega
    · omega

/-- What is left of the request, counted from the start of the cluster. -/
theorem InRun.rest (h : InRun fs file first d s length j g) :
    length - g.bytes + g.dataOffset + j * fs.bytesPerCluster = length + d := by
  have hbytes := h.bytes
  have hle := h.bytes_le
  omega

/-- The sectors of `j` clusters and of some more bytes. -/
theorem sectors_add (hpos : fs.bytesPerSector ≠ 0) (j n : Nat) :
    j * fs.sectorsPerCluster + n / fs.bytesPerSector =
      (j * fs.bytesPerCluster + n) / fs.bytesPerSector := by
  have hprod : j * fs.bytesPerCluster + n =
      n + j * fs.sectorsPerCluster * fs.bytesPerSector := by
    rw [bytesPerCluster, ← Nat.mul_assoc, Nat.add_comm]
  rw [hprod, Nat.add_mul_div_right _ _ (Nat.pos_of_ne_zero hpos), Nat.add_comm]

theorem InRun.sectorsOf_eq (h : InRun fs file first d s length j g) (hpos : fs.bytesPerSector ≠ 0) :
    g.sectors + (1 + (max (length - g.bytes + g.dataOffset) 1 - 1) / fs.bytesPerSector) =
      fs.sectorsOf (length + d) := by
  have hrest := h.rest
  have hsum : j * fs.bytesPerCluster + (max (length - g.bytes + g.dataOffset) 1 - 1) =
      max (length + d) 1 - 1 := by
    rcases h.more with hj | hm
    · rw [hj, Nat.zero_mul] at hrest ⊢
      omega
    · omega
  rw [h.sectors, sectorsOf, ← hsum, ← sectors_add hpos]
  omega

/-- On a sound volume the number of sectors fits its word. -/
theorem InRun.sectors_lt (h : InRun fs file first d s length j g) (hs : fs.Sound file)
    (hlength : length < 2 ^ 32) :
    g.sectors + (1 + (max (length - g.bytes + g.dataOffset) 1 - 1) / fs.bytesPerSector) <
      2 ^ 32 := by
  have hsector := hs.sector
  have hword := fs.bytesPerSector_lt
  have hsmall := h.small
  have hrest := h.rest
  have hsum : j * fs.bytesPerCluster + (max (length - g.bytes + g.dataOffset) 1 - 1) ≤
      2 ^ 32 + 2 ^ 16 := by omega
  have hdiv := Nat.div_le_div_right (c := fs.bytesPerSector) hsum
  have htwo : (2 ^ 32 + 2 ^ 16) / fs.bytesPerSector ≤ (2 ^ 32 + 2 ^ 16) / 2 :=
    Nat.div_le_div_left hsector (by decide)
  rw [← sectors_add (by omega), ← h.sectors] at hdiv
  omega

/-- The next cluster of the run, when the request goes on behind this one. -/
theorem InRun.next {next : Nat} (h : InRun fs file first d s length j g)
    (hmore : fs.bytesPerCluster < length - g.bytes + g.dataOffset)
    (hcluster : fs.bytesPerSector ≤ fs.bytesPerCluster)
    (hnext : fs.getNextCluster g.cluster = some next) :
    InRun fs file first d s length (j + 1)
      { g with
        cluster := next
        sectors := g.sectors + fs.sectorsPerCluster
        bytes := g.bytes + (fs.bytesPerCluster - g.dataOffset)
        dataOffset := 0 } := by
  have hbytes := h.bytes
  have hrest := h.rest
  have hle := h.dataOffset_le
  refine ⟨?_, ?_, ?_, ?_, Or.inr rfl, h.small, h.backup, h.skips⟩
  · rw [← Nat.add_assoc, chain, h.linked]
    exact hnext
  · show g.sectors + fs.sectorsPerCluster = (j + 1) * fs.sectorsPerCluster
    rw [h.sectors, Nat.add_one_mul]
  · show g.bytes + (fs.bytesPerCluster - g.dataOffset) + d = (j + 1) * fs.bytesPerCluster + 0
    rw [Nat.add_one_mul]
    omega
  · right
    rw [Nat.add_one_mul]
    omega

end InRun

/-- What is said about a fault: the loop is out of fuel, or the volume is not sound. -/
def Excused (fs : Fat32) (file : FileInfo) (fault : Fault) : Prop :=
  fault = .outOfFuel ∨ ¬fs.Sound file

section Ran

variable (fs file)

/-- The clusters of a run, the first of which is the cluster number `first` of the file. -/
def Linked (c₀ first j : Nat) : Prop :=
  ∀ i ≤ j, fs.chain file.entryCluster (first + i) = some (c₀ + i)

/-- How the inner loop ends. The run starts `d` bytes behind the `s` sectors that are skipped. -/
inductive Ran (isWrite : Bool) (c₀ first d s length : Nat) (g : Gather) : Prop
  /-- The run has the whole request. A write does not end with less than a sector. -/
  | all (j : Nat) (linked : Linked fs file c₀ first j)
      (whole : isWrite = true → j * fs.bytesPerCluster + fs.bytesPerSector ≤ length + d)
      (bound : length + d ≤ (j + 1) * fs.bytesPerCluster) (cluster : g.cluster = c₀ + j)
      (bytes : g.bytes = length) (sectors : g.sectors = fs.sectorsOf (length + d))
      (backup : g.dataOffsetBackup = d) (skips : g.sectorOffset = s) (fits : g.sectors < 2 ^ 32)
  /-- The next cluster is not adjacent. -/
  | gap (j next : Nat) (linked : Linked fs file c₀ first j)
      (bound : (j + 1) * fs.bytesPerCluster < length + d)
      (hnext : fs.getNextCluster (c₀ + j) = some next)
      (hgap : next ≠ c₀ + j + 1) (cluster : g.cluster = c₀ + j)
      (bytes : g.bytes + d = (j + 1) * fs.bytesPerCluster)
      (sectors : g.sectors = (j + 1) * fs.sectorsPerCluster) (backup : g.dataOffsetBackup = d)
      (skips : g.sectorOffset = s) (fits : g.sectors < 2 ^ 32)

/-- Why the inner loop ends without a run. -/
inductive Refused (c₀ first d length : Nat) (isWrite : Bool) : Prop
  /-- A write does not end with less than a sector. -/
  | short (j : Nat) (linked : Linked fs file c₀ first j) (hwrite : isWrite = true)
      (h : j = 0 ∧ length < fs.bytesPerSector ∨ j * fs.bytesPerCluster < length + d ∧
        length + d < j * fs.bytesPerCluster + fs.bytesPerSector)
  /-- The chain ends before the request does. -/
  | ended (j : Nat) (linked : Linked fs file c₀ first j)
      (bound : (j + 1) * fs.bytesPerCluster < length + d)
      (hnext : fs.getNextCluster (c₀ + j) = none)

variable {fs file}

theorem Linked.next {c₀ first j : Nat} (h : Linked fs file c₀ first j)
    (hnext : fs.getNextCluster (c₀ + j) = some (c₀ + j + 1)) : Linked fs file c₀ first (j + 1) := by
  intro i hi
  rcases Nat.lt_or_eq_of_le hi with hlt | rfl
  · exact h i (Nat.le_of_lt_succ hlt)
  · rw [← Nat.add_assoc, chain, h j (Nat.le_refl j)]
    exact hnext

theorem linked_zero {c₀ first : Nat} (h : fs.chain file.entryCluster first = some c₀) :
    Linked fs file c₀ first 0 := by
  intro i hi
  obtain rfl := Nat.le_zero.1 hi
  exact h

/-- A fault of the inner loop: the volume is not sound, or `n` iterations are not enough. -/
def Stuck (fs : Fat32) (file : FileInfo) (total n : Nat) (fault : Fault) : Prop :=
  ¬fs.Sound file ∨ fault = .outOfFuel ∧ (n = 0 ∨ n * fs.bytesPerCluster < total)

/-- A run goes no further than it has to: the request needs its last cluster. -/
def Needed (fs : Fat32) (c₀ d length : Nat) (g : Gather) : Prop :=
  ∃ j, (j = 0 ∨ j * fs.bytesPerCluster < length + d) ∧ g.cluster = c₀ + j

/-- The inner loop ends in a run, or without one. -/
theorem wp_gather {isWrite : Bool} {c₀ first d s length j fuel : Nat} {g : Gather} {c : Call}
    (hpos : fs.bytesPerSector ≠ 0) (hcluster : fs.bytesPerSector ≤ fs.bytesPerCluster)
    (hlength : length < 2 ^ 32) (h : InRun fs file first d s length j g)
    (hlinked : Linked fs file c₀ first j) :
    wp (fs.gather isWrite length fuel g)
      (fun fault c' => c' = c ∧ Stuck fs file (length + d) (j + fuel) fault)
      (fun r c' => c' = c ∧ match r with
        | some g' => Ran fs file isWrite c₀ first d s length g' ∧ Needed fs c₀ d length g'
        | none => Refused fs file c₀ first d length isWrite) c := by
  have hword := fs.bytesPerSector_lt
  induction fuel generalizing j g with
  | zero => exact ⟨rfl, .inr ⟨rfl, h.more⟩⟩
  | succ fuel ih =>
    have hle := h.bytes_le
    have hoffset := h.dataOffset_le
    have hrest := h.rest
    have hbytes := h.bytes
    have hat : g.cluster = c₀ + j :=
      Option.some.inj (h.linked.symm.trans (hlinked j (Nat.le_refl j)))
    unfold gather
    simp only [wp_bind, wp_minus, wp_ite, wp_pure, wp_skipSectors hpos, skipped_of_le hoffset]
    refine ⟨fun _ => ⟨fun hshort => ⟨trivial, .short j hlinked hshort.1 ?_⟩, fun hlong => ?_⟩,
      fun hno => absurd hle hno⟩
    · rcases h.more with rfl | hmore
      · left
        rw [Nat.zero_mul] at hbytes
        rcases h.start with hs | hs <;> exact ⟨rfl, by omega⟩
      · rcases h.start with ⟨rfl, hs⟩ | hs
        · left
          rw [Nat.zero_mul] at hbytes
          exact ⟨rfl, by omega⟩
        · right
          omega
    simp only [wp_fits, wp_quot]
    refine ⟨fun _ => ⟨fun hlast => ?_, fun hmore => ?_⟩, fun hno => absurd ?_ hno⟩
    · -- The request ends in this cluster.
      refine ⟨fun hz => absurd hz hpos, fun _ => ⟨fun hfits => ⟨trivial, ?_⟩,
        fun hno => ⟨trivial, .inl fun hs => hno (h.sectors_lt hs hlength)⟩⟩⟩
      refine ⟨.all j hlinked (fun hw => ?_) ?_ hat rfl (h.sectorsOf_eq hpos) h.backup h.skips hfits,
        j, h.more, hat⟩
      · have hge : fs.bytesPerSector ≤ length - g.bytes := Nat.not_lt.1 fun hlt => hlong ⟨hw, hlt⟩
        omega
      · rw [Nat.add_one_mul]
        omega
    · -- The request goes on in the next cluster.
      have hmore' : fs.bytesPerCluster < length - g.bytes + g.dataOffset := Nat.not_le.1 hmore
      have hbound : (j + 1) * fs.bytesPerCluster < length + d := by
        rw [Nat.add_one_mul]
        omega
      have hsectors : fs.Sound file → g.sectors + fs.sectorsPerCluster < 2 ^ 32 := by
        intro hs
        have := h.sectors_lt hs hlength
        have hspc : fs.sectorsPerCluster ≤
            (max (length - g.bytes + g.dataOffset) 1 - 1) / fs.bytesPerSector := by
          rw [Nat.le_div_iff_mul_le (Nat.pos_of_ne_zero hpos)]
          show fs.bytesPerCluster ≤ _
          omega
        omega
      refine ⟨fun hfits => ⟨fun _ => ⟨fun _ => ?_, fun hno => absurd ?_ hno⟩,
        fun hno => absurd (hoffset.trans hcluster) hno⟩,
        fun hno => ⟨trivial, .inl fun hs => hno (hsectors hs)⟩⟩
      · rw [hat]
        split
        · next hnone => exact ⟨rfl, .ended j hlinked hbound hnone⟩
        · next next hnext =>
          simp only [wp_bind, wp_fits, wp_ite, wp_pure]
          refine ⟨fun _ => ⟨fun hgap => ⟨trivial, ?_⟩, fun hadjacent => ?_⟩, fun hno =>
            ⟨trivial, .inl fun hs => hno ?_⟩⟩
          · refine ⟨.gap j next hlinked hbound hnext hgap rfl ?_ ?_ h.backup h.skips hfits,
              j, h.more, rfl⟩
            · show g.bytes + (fs.bytesPerCluster - g.dataOffset) + d = _
              rw [Nat.add_one_mul]
              omega
            · show g.sectors + fs.sectorsPerCluster = _
              rw [h.sectors, Nat.add_one_mul]
          · rw [not_not] at hadjacent
            subst hadjacent
            have hrec := ih (h.next hmore' hcluster (hat ▸ hnext)) (hlinked.next hnext)
            rw [hat, show j + 1 + fuel = j + (fuel + 1) by omega] at hrec
            exact hrec
          · have := (hs.chain _ _ (hlinked j (Nat.le_refl j))).2.1
            omega
      · omega
    · omega

variable {isWrite : Bool} {c₀ first d s length : Nat} {g : Gather}

theorem Ran.gathered (h : Ran fs file isWrite c₀ first d s length g) :
    Gathered fs file first d s length g := by
  cases h with
  | all j linked whole bound cluster bytes sectors backup skips fits =>
    exact ⟨⟨first + j, Nat.le_add_right _ _, cluster ▸ linked j (Nat.le_refl j)⟩,
      Nat.le_of_eq bytes, fits, backup, skips⟩
  | gap j next linked bound hnext hgap cluster bytes sectors backup skips fits =>
    exact ⟨⟨first + j, Nat.le_add_right _ _, cluster ▸ linked j (Nat.le_refl j)⟩,
      by omega, fits, backup, skips⟩

/-- Where the clusters are adjacent, the run covers the request. -/
theorem Ran.covers (h : Ran fs file isWrite c₀ first d s length g)
    (hadjacent : Adjacent fs file first d length) : Covers fs d length g := by
  cases h with
  | all j linked whole bound cluster bytes sectors backup skips fits =>
    refine ⟨bytes, fun hd => ?_⟩
    rw [sectors, hd, Nat.add_zero]
  | gap j next linked bound hnext hgap cluster bytes sectors backup skips fits =>
    exact absurd (hadjacent j _ next bound (linked j (Nat.le_refl j)) hnext) hgap

end Ran

/-! ## The transfer of a run -/

section Transfer

variable {first d s length cluster : Nat} {g : Gather} {c : Call}

/-- Some pages have room for a number of bytes, and fewer bytes than the address space. -/
def Room (bytes pages : Nat) : Prop := bytes ≤ pages * 2 ^ 12 ∧ pages ≤ 2 ^ 52

theorem or_le_add (a b : Nat) : a ||| b ≤ a + b := by
  induction a using Nat.strongRecOn generalizing b with
  | ind a ih =>
    rcases Nat.eq_zero_or_pos a with rfl | hpos
    · rw [Nat.zero_or, Nat.zero_add]
    · have hhalf := ih (a / 2) (by omega) (b / 2)
      have hdiv : (a ||| b) / 2 = a / 2 ||| b / 2 := Nat.or_div_two
      have hmod : (a ||| b) % 2 = 1 ↔ a % 2 = 1 ∨ b % 2 = 1 := Nat.or_mod_two_eq_one
      omega

/-- Masking out the bits below a size and adding the size makes a number larger. -/
theorem lt_and_add {bytes size : Nat} (hsize : 1 ≤ size) (hbytes : bytes < 2 ^ 64) :
    bytes < (bytes &&& (2 ^ 64 - 1 - (size - 1))) + size := by
  rcases Nat.lt_or_ge bytes size with hlt | hge
  · omega
  have hsplit : bytes &&& (2 ^ 64 - 1 - (size - 1)) ||| bytes &&& (size - 1) = bytes := by
    apply Nat.eq_of_testBit_eq
    intro i
    have hmask := Nat.testBit_two_pow_sub_succ (show size - 1 < 2 ^ 64 by omega) i
    rw [show 2 ^ 64 - 1 - (size - 1) = 2 ^ 64 - (size - 1 + 1) by omega, Nat.testBit_or,
      Nat.testBit_and, Nat.testBit_and, hmask]
    rcases Nat.lt_or_ge i 64 with hi | hi
    · cases bytes.testBit i <;> simp [hi]
    · rw [Nat.testBit_lt_two_pow (hbytes.trans_le (Nat.pow_le_pow_right (by decide) hi))]
      simp
  have hsum := or_le_add (bytes &&& (2 ^ 64 - 1 - (size - 1))) (bytes &&& (size - 1))
  rw [hsplit] at hsum
  have hle := Nat.and_le_right (n := bytes) (m := size - 1)
  omega

theorem wp_bouncePages (hg : Gathered fs file first d s length g) :
    wp (fs.bouncePages g) (fun _ c' => c' = c ∧ ¬fs.Sound file)
      (fun pages c' => c' = c ∧ Room (g.sectors * fs.bytesPerSector) pages) c := by
  have hword := fs.bytesPerSector_lt
  have hbytes : g.sectors * fs.bytesPerSector < 2 ^ 32 * 2 ^ 16 :=
    Nat.mul_lt_mul'' hg.fits hword
  unfold bouncePages
  simp only [wp_bind, wp_fits, wp_minus, wp_pure]
  refine ⟨fun _ => ⟨fun hlba => ⟨fun hfits => ⟨trivial, ?_⟩,
    fun hno => ⟨trivial, fun hs => hno ?_⟩⟩, fun hno => ⟨trivial, fun hs => hno hs.lba.1⟩⟩,
    fun hno => absurd ?_ hno⟩
  · have hlt := lt_and_add hlba (hbytes.trans (by decide))
    unfold Room
    omega
  · have hand := Nat.and_le_left (n := g.sectors * fs.bytesPerSector)
      (m := 2 ^ 64 - 1 - (fs.lbaSize - 1))
    have hlba := hs.lba.2
    omega
  · omega

theorem wp_clusterToSector {k : Nat} (hk : fs.chain file.entryCluster k = some cluster) :
    wp (fs.clusterToSector cluster) (fun _ c' => c' = c ∧ ¬fs.Sound file)
      (fun sector c' => c' = c ∧ (fs.Sound file → sector + fs.sectorsPerCluster ≤ 2 ^ 32)) c := by
  have hsum : fs.Sound file → 2 ≤ cluster ∧ fs.reservedSectors + fs.numberOfFats * fs.fatSectors +
      ((cluster - 2) * fs.sectorsPerCluster + fs.sectorsPerCluster) ≤ 2 ^ 32 := by
    intro hs
    obtain ⟨htwo, -, hle⟩ := hs.chain k cluster hk
    have hone : cluster - 1 = cluster - 2 + 1 := by omega
    rw [hone, Nat.add_one_mul] at hle
    exact ⟨htwo, hle⟩
  unfold clusterToSector
  simp only [wp_bind, wp_fits, wp_minus]
  refine ⟨fun _ => ⟨fun _ => ⟨fun _ => ⟨fun _ => ⟨fun _ => ⟨trivial, fun hs => ?_⟩, ?_⟩, ?_⟩, ?_⟩,
    ?_⟩, ?_⟩
  · have := (hsum hs).2
    omega
  all_goals
    refine fun hno => ⟨trivial, fun hs => hno ?_⟩
    have hone := hs.cluster
    have := hsum hs
    omega

theorem wp_runTransfer {isWrite : Bool} {buffer k : Nat}
    (hg : Gathered fs file first d s length g)
    (hk : fs.chain file.entryCluster k = some cluster) (hs : s ≤ fs.sectorsPerCluster - 1) :
    wp (fs.runTransfer isWrite buffer cluster g) (fun _ c' => c' = c ∧ ¬fs.Sound file)
      (fun t c' => c' = c ∧ t.bufferAddress = buffer ∧ t.isWrite = isWrite ∧
        t.length = g.sectors * fs.bytesPerSector) c := by
  unfold runTransfer
  rw [wp_bind]
  refine wp_mono (wp_clusterToSector hk) (fun _ _ h => h) fun first c' h => ?_
  obtain ⟨rfl, hfirst⟩ := h
  have hword := fs.bytesPerSector_lt
  simp only [wp_bind, wp_fits, wp_pure, sectorAddress]
  refine ⟨fun hsector => ⟨fun _ => ⟨fun _ => ⟨trivial, trivial, trivial, trivial⟩, ?_⟩, ?_⟩, ?_⟩
  · refine fun hno => ⟨trivial, fun hsound => hno ?_⟩
    have hbase := hsound.base
    have hbytes : (first + g.sectorOffset) * fs.bytesPerSector < 2 ^ 32 * 2 ^ 16 :=
      Nat.mul_lt_mul'' hsector hword
    omega
  · refine fun hno => ⟨trivial, fun hsound => hno ?_⟩
    have hbase := hsound.base
    omega
  · refine fun hno => ⟨trivial, fun hsound => hno ?_⟩
    have hle := hfirst hsound
    have hone := hsound.cluster
    rw [hg.skips]
    omega

end Transfer

/-- The buffer memory that an effect uses starts at an address and has at most a length. -/
def Stays (address length : Nat) : Effect → Prop
  | .direct t => t.bufferAddress = address ∧ t.length ≤ length
  | .bounce _ => True
  | .copy _ bufferAddress n => bufferAddress = address ∧ n ≤ length

theorem le_sectorsOf (hpos : fs.bytesPerSector ≠ 0) (length : Nat) :
    length ≤ fs.sectorsOf length * fs.bytesPerSector := by
  have hdiv := Nat.div_add_mod (max length 1 - 1) fs.bytesPerSector
  have hmod := Nat.mod_lt (max length 1 - 1) (Nat.pos_of_ne_zero hpos)
  rw [sectorsOf, Nat.add_mul, Nat.one_mul, Nat.mul_comm _ fs.bytesPerSector]
  omega

/-- The buffer memory that a call has used stays in a range. -/
def Done (address length : Nat) (c : Call) : Prop :=
  ∀ e ∈ c.effects, Stays address length e

theorem Done.record {address length : Nat} {c : Call} (h : Done address length c)
    {e : Effect} (he : Stays address length e) :
    Done address length { c with effects := c.effects ++ [e] } := by
  intro x hx
  rcases List.mem_append.1 hx with hx | hx
  · exact h x hx
  · rw [List.mem_singleton.1 hx]
    exact he

theorem skipped_skipped (hpos : fs.bytesPerSector ≠ 0) (g : Gather) :
    fs.skipped (fs.skipped g) = fs.skipped g :=
  skipped_of_le (dataOffset_skipped_le hpos g)

theorem bytes_skipped (g : Gather) : (fs.skipped g).bytes = g.bytes := by
  unfold skipped
  split <;> rfl

/-- The sectors are skipped in the first iteration. -/
theorem wp_gather_skipped {isWrite : Bool} {length fuel : Nat} {g : Gather} {c : Call}
    {fail : Fault → Call → Prop} {post : Option Gather → Call → Prop}
    (hpos : fs.bytesPerSector ≠ 0)
    (h : wp (fs.gather isWrite length fuel (fs.skipped g)) fail post c) :
    wp (fs.gather isWrite length fuel g) fail post c := by
  cases fuel with
  | zero => exact h
  | succ fuel =>
    unfold gather at h ⊢
    simp only [wp_bind, wp_minus, wp_ite, wp_skipSectors hpos, skipped_skipped hpos,
      bytes_skipped] at h ⊢
    exact h

/-- A request that starts at a cluster of the file. -/
structure Start (fs : Fat32) (file : FileInfo) (offset length cluster : Nat) : Prop where
  sector_ne : fs.bytesPerSector ≠ 0
  cluster_ne : fs.bytesPerCluster ≠ 0
  length_lt : length < 2 ^ 32
  linked : fs.chain file.entryCluster (offset / fs.bytesPerCluster) = some cluster

section Start

variable {offset length cluster : Nat}

/-- The locals of the inner loop at the start of a request. -/
def firstGather (fs : Fat32) (offset cluster : Nat) : Gather :=
  ⟨cluster, 0, 0, 0, offset % fs.bytesPerCluster, offset % fs.bytesPerCluster⟩

theorem skipped_firstGather (fs : Fat32) (offset cluster : Nat) :
    (fs.skipped (firstGather fs offset cluster)).dataOffset ≤ offset % fs.bytesPerCluster ∧
      (fs.skipped (firstGather fs offset cluster)).dataOffsetBackup =
        (fs.skipped (firstGather fs offset cluster)).dataOffset := by
  unfold skipped
  split
  · exact ⟨Nat.mod_le _ _, rfl⟩
  · exact ⟨Nat.le_refl _, rfl⟩

theorem Start.sectorOffset_le (h : Start fs file offset length cluster) :
    (fs.skipped (firstGather fs offset cluster)).sectorOffset ≤ fs.sectorsPerCluster - 1 := by
  unfold skipped
  split
  · have hlt : offset % fs.bytesPerCluster < fs.sectorsPerCluster * fs.bytesPerSector :=
      Nat.mod_lt _ (Nat.pos_of_ne_zero h.cluster_ne)
    have hdiv := Nat.div_lt_of_lt_mul (Nat.mul_comm _ _ ▸ hlt)
    exact Nat.le_sub_one_of_lt hdiv
  · exact Nat.zero_le _

theorem Start.inRun (h : Start fs file offset length cluster) :
    InRun fs file (offset / fs.bytesPerCluster)
      (fs.skipped (firstGather fs offset cluster)).dataOffset
      (fs.skipped (firstGather fs offset cluster)).sectorOffset length 0
      (fs.skipped (firstGather fs offset cluster)) := by
  have hfields : (fs.skipped (firstGather fs offset cluster)).cluster = cluster ∧
      (fs.skipped (firstGather fs offset cluster)).sectors = 0 ∧
      (fs.skipped (firstGather fs offset cluster)).bytes = 0 := by
    unfold skipped
    split <;> exact ⟨rfl, rfl, rfl⟩
  refine ⟨?_, ?_, ?_, Or.inl rfl, Or.inl ⟨rfl, rfl⟩, dataOffset_skipped_le h.sector_ne _,
    (skipped_firstGather fs offset cluster).2, rfl⟩
  · rw [hfields.1]
    exact h.linked
  · rw [hfields.2.1, Nat.zero_mul]
  · rw [hfields.2.2, Nat.zero_mul]

/-- The clusters that the inner loop goes through are adjacent. -/
theorem Start.adjacent (h : Start fs file offset length cluster)
    (hcontiguous : fs.Contiguous file offset length) :
    Adjacent fs file (offset / fs.bytesPerCluster)
      (fs.skipped (firstGather fs offset cluster)).dataOffset length := by
  intro i found next hi hfound hnext
  refine hcontiguous _ (Nat.le_add_right _ _) ?_ _ _ hfound hnext
  have hpos := Nat.pos_of_ne_zero h.cluster_ne
  have hle := (skipped_firstGather fs offset cluster).1
  have hoffset := Nat.div_add_mod offset fs.bytesPerCluster
  have hmul : (offset / fs.bytesPerCluster + i + 1) * fs.bytesPerCluster =
      fs.bytesPerCluster * (offset / fs.bytesPerCluster) + (i + 1) * fs.bytesPerCluster := by
    rw [Nat.add_assoc, Nat.add_mul, Nat.mul_comm]
  rw [Nat.lt_iff_add_one_le, Nat.le_div_iff_mul_le hpos, hmul]
  omega

/-- The first run of a request. -/
def FirstRun (fs : Fat32) (file : FileInfo) (offset length cluster : Nat) (g : Gather) : Prop :=
  Gathered fs file (offset / fs.bytesPerCluster)
      (fs.skipped (firstGather fs offset cluster)).dataOffset
      (fs.skipped (firstGather fs offset cluster)).sectorOffset length g ∧
    (fs.Contiguous file offset length →
      Covers fs (fs.skipped (firstGather fs offset cluster)).dataOffset length g)

theorem Start.sector_le (h : Start fs file offset length cluster) :
    fs.bytesPerSector ≤ fs.bytesPerCluster := by
  refine Nat.le_mul_of_pos_left _ (Nat.pos_of_ne_zero fun hz => h.cluster_ne ?_)
  rw [bytesPerCluster, hz, Nat.zero_mul]

theorem Start.ran_needed {isWrite : Bool} {fuel : Nat} {c : Call}
    (h : Start fs file offset length cluster) :
    wp (fs.gather isWrite length fuel (firstGather fs offset cluster))
      (fun fault c' => c' = c ∧
        Stuck fs file (length + (fs.skipped (firstGather fs offset cluster)).dataOffset) fuel fault)
      (fun r c' => c' = c ∧ match r with
        | some g => Ran fs file isWrite cluster (offset / fs.bytesPerCluster)
            (fs.skipped (firstGather fs offset cluster)).dataOffset
            (fs.skipped (firstGather fs offset cluster)).sectorOffset length g ∧
          Needed fs cluster (fs.skipped (firstGather fs offset cluster)).dataOffset length g
        | none => Refused fs file cluster (offset / fs.bytesPerCluster)
            (fs.skipped (firstGather fs offset cluster)).dataOffset length isWrite) c := by
  refine wp_mono (wp_gather_skipped h.sector_ne (wp_gather h.sector_ne h.sector_le h.length_lt
    h.inRun (linked_zero h.linked))) (fun _ _ hf => ?_) fun _ _ hr => hr
  rwa [Nat.zero_add] at hf

theorem Start.ran {isWrite : Bool} {fuel : Nat} {c : Call}
    (h : Start fs file offset length cluster) :
    wp (fs.gather isWrite length fuel (firstGather fs offset cluster))
      (fun fault c' => c' = c ∧
        Stuck fs file (length + (fs.skipped (firstGather fs offset cluster)).dataOffset) fuel fault)
      (fun r c' => c' = c ∧ match r with
        | some g => Ran fs file isWrite cluster (offset / fs.bytesPerCluster)
            (fs.skipped (firstGather fs offset cluster)).dataOffset
            (fs.skipped (firstGather fs offset cluster)).sectorOffset length g
        | none => Refused fs file cluster (offset / fs.bytesPerCluster)
            (fs.skipped (firstGather fs offset cluster)).dataOffset length isWrite) c := by
  refine wp_mono h.ran_needed (fun _ _ hf => hf) fun r _ hr => ⟨hr.1, ?_⟩
  cases r with
  | none => exact hr.2
  | some g => exact hr.2.1

theorem Start.gather {isWrite : Bool} {fuel : Nat} {c : Call}
    (h : Start fs file offset length cluster) :
    wp (fs.gather isWrite length fuel (firstGather fs offset cluster))
      (fun fault c' => c' = c ∧ Excused fs file fault)
      (fun r c' => c' = c ∧ ∀ g, r = some g → FirstRun fs file offset length cluster g) c := by
  refine wp_mono h.ran (fun _ _ hf => ⟨hf.1, hf.2.symm.imp And.left id⟩) fun r c' hr => ?_
  obtain ⟨rfl, hr⟩ := hr
  refine ⟨rfl, fun g hg => ?_⟩
  subst hg
  exact ⟨hr.gathered, fun hc => hr.covers (h.adjacent hc)⟩

variable {dev : Backend} {address fuel runs : Nat} {c : Call}

/-- The transfer of a run without a data offset stays in the sectors of the request. -/
theorem Covers.stays {d : Nat} {g : Gather} {t : Transfer} (hg : Covers fs d length g)
    (hd : d = 0) (ht : t.bufferAddress = address)
    (hlength : t.length = g.sectors * fs.bytesPerSector) :
    Stays address (fs.sectorsOf length * fs.bytesPerSector) (.direct t) := by
  refine ⟨ht, Nat.le_of_eq ?_⟩
  rw [hlength, hg.sectors hd]

theorem Start.readRuns (h : Start fs file offset length cluster)
    (hcontiguous : fs.Contiguous file offset length) (haddress : address < 2 ^ 64)
    (hc : Done address (fs.sectorsOf length * fs.bytesPerSector) c) :
    wp (fs.readRuns dev address length fuel runs cluster (offset % fs.bytesPerCluster) 0)
      (fun _ c' => Done address (fs.sectorsOf length * fs.bytesPerSector) c')
      (fun _ c' => Done address (fs.sectorsOf length * fs.bytesPerSector) c') c := by
  cases runs with
  | zero => exact hc
  | succ runs =>
    unfold Fat32.readRuns
    rw [wp_bind]
    refine wp_mono h.gather (fun _ _ hf => hf.1 ▸ hc) fun r c' hr => ?_
    obtain ⟨rfl, hr⟩ := hr
    cases r with
    | none => exact hc
    | some g =>
      obtain ⟨hg, hcovers⟩ := hr g rfl
      have hcovers := hcovers hcontiguous
      simp only [wp_bind]
      refine wp_mono (wp_bouncePages hg) (fun _ _ hf => hf.1 ▸ hc) fun pages c'' h'' => ?_
      obtain ⟨h'', -⟩ := h''
      subst h''
      have hbuffer : wp (transferBuffer dev address 0 g.dataOffsetBackup pages)
          (fun _ _ => False)
          (fun buffer c' => c' = c'' ∧ (g.dataOffsetBackup = 0 → buffer = some address)) c'' := by
        unfold transferBuffer
        simp only [wp_ite, wp_pure, wp_bind, wp_fits]
        exact ⟨fun hd => ⟨trivial, fun hz => absurd hz hd⟩,
          fun _ => ⟨fun _ => ⟨trivial, fun _ => rfl⟩, fun hno => absurd haddress hno⟩⟩
      refine wp_mono hbuffer (fun _ _ hf => hf.elim) fun buffer c' hb => ?_
      obtain ⟨rfl, hb⟩ := hb
      cases buffer with
      | none => exact hc
      | some buffer =>
        simp only [wp_bind]
        refine wp_mono (wp_runTransfer hg h.linked h.sectorOffset_le)
          (fun _ _ hf => hf.1 ▸ hc) fun t c'' ht => ?_
        obtain ⟨rfl, htbuffer, -, htlength⟩ := ht
        -- The transfer uses the caller's buffer only if there is no data offset.
        have hrecord : Done address (fs.sectorsOf length * fs.bytesPerSector)
            { c'' with effects := c''.effects ++
              [if g.dataOffsetBackup ≠ 0 then .bounce t else .direct t] } := by
          refine hc.record ?_
          split
          · trivial
          · next hd =>
            have hd' : g.dataOffsetBackup = 0 := not_not.1 hd
            refine hcovers.stays (hg.backup ▸ hd') ?_ htlength
            rw [htbuffer]
            exact Option.some.inj (hb hd')
        simp only [record, wp_modify, wp_ite, wp_pure, wp_bind]
        refine ⟨fun _ => hrecord, fun _ => ?_⟩
        have hcopied : wp (copyBounced buffer address 0 g.dataOffsetBackup g.bytes)
          (fun _ _ => False)
            (fun _ c' => Done address (fs.sectorsOf length * fs.bytesPerSector) c')
            { c'' with effects := c''.effects ++
              [if g.dataOffsetBackup ≠ 0 then .bounce t else .direct t] } := by
          unfold copyBounced
          simp only [wp_ite, wp_throw, wp_pure, record, wp_modify]
          refine ⟨fun _ => ⟨fun hno => hno rfl, fun _ => hrecord.record ⟨rfl, ?_⟩⟩,
            fun _ => hrecord⟩
          rw [hcovers.bytes]
          exact le_sectorsOf h.sector_ne length
        refine wp_mono hcopied (fun _ _ hf => hf.elim) fun _ c' hdone => ?_
        have hbytes : 0 + g.bytes = length := by rw [Nat.zero_add, hcovers.bytes]
        have hfits : length < 2 ^ 64 := h.length_lt.trans (by decide)
        simp only [wp_fits, hbytes]
        exact ⟨fun _ => ⟨fun _ => hdone, fun hno => absurd trivial hno⟩,
          fun hno => absurd hfits hno⟩

theorem Start.writeRuns (h : Start fs file offset length cluster)
    (hcontiguous : fs.Contiguous file offset length) (haddress : address < 2 ^ 64)
    (hc : Done address (fs.sectorsOf length * fs.bytesPerSector) c) :
    wp (fs.writeRuns dev address length fuel runs cluster (offset % fs.bytesPerCluster) 0)
      (fun _ c' => Done address (fs.sectorsOf length * fs.bytesPerSector) c')
      (fun _ c' => Done address (fs.sectorsOf length * fs.bytesPerSector) c') c := by
  cases runs with
  | zero => exact hc
  | succ runs =>
    unfold Fat32.writeRuns
    rw [wp_bind]
    refine wp_mono h.gather (fun _ _ hf => hf.1 ▸ hc) fun r c' hr => ?_
    obtain ⟨rfl, hr⟩ := hr
    cases r with
    | none => exact hc
    | some g =>
      obtain ⟨hg, hcovers⟩ := hr g rfl
      have hcovers := hcovers hcontiguous
      simp only [wp_ite, wp_pure, wp_bind, wp_fits]
      refine ⟨fun _ => hc, fun hd => ⟨fun _ => ?_, fun hno => absurd haddress hno⟩⟩
      refine wp_mono (wp_runTransfer hg h.linked h.sectorOffset_le)
        (fun _ _ hf => hf.1 ▸ hc) fun t c'' ht => ?_
      obtain ⟨rfl, htbuffer, -, htlength⟩ := ht
      have hrecord : Done address (fs.sectorsOf length * fs.bytesPerSector)
          { c'' with effects := c''.effects ++ [.direct t] } :=
        hc.record (hcovers.stays (hg.backup ▸ not_not.1 hd) htbuffer htlength)
      have hbytes : 0 + g.bytes = length := by rw [Nat.zero_add, hcovers.bytes]
      have hfits : length < 2 ^ 64 := h.length_lt.trans (by decide)
      simp only [record, wp_modify, hbytes]
      exact ⟨fun _ => hrecord, fun _ => ⟨fun _ => ⟨fun _ => hrecord,
        fun hno => absurd trivial hno⟩, fun hno => absurd hfits hno⟩⟩

end Start

/-! ## Reads and writes -/

theorem Contiguous.mono {offset length length' : Nat} (h : fs.Contiguous file offset length)
    (hle : length' ≤ length) : fs.Contiguous file offset length' :=
  fun k hlow hhigh => h k hlow (hhigh.trans_le (Nat.div_le_div_right (by omega)))

/-- The part of a request that lies in the file. -/
def clamped (file : FileInfo) (offset length : Nat) : Nat :=
  min length (file.fileSize - offset)

/-- The buffer memory that a request may use: whole sectors, and none for a request behind the end
of the file. -/
def span (fs : Fat32) (file : FileInfo) (offset length : Nat) : Nat :=
  if offset + length > file.fileSize ∧ offset ≥ file.fileSize then 0
  else fs.sectorsOf (clamped file offset length) * fs.bytesPerSector

/-- The rule for a read or a write: the sum of the offset and the length, a request behind the end
of the file, the walk to the first cluster, and the runs from there. -/
theorem wp_access {isWrite : Bool} {dev : Backend} {fuel address offset length : Nat} {c : Call}
    {fail : Fault → Call → Prop} {post : Option Nat → Call → Prop}
    (hhint : fs.HintOk file c.walkHint)
    (hsum : ¬offset + length < 2 ^ 64 → fail .overflow c)
    (hbeyond : file.fileSize ≤ offset → file.fileSize < offset + length → post (some 0) c)
    (hdiv : fs.bytesPerCluster = 0 → fail .divisionByZero c)
    (hlost : ∀ c', fs.chain file.entryCluster (offset / fs.bytesPerCluster) = none →
      fs.HintOk file c'.walkHint → c'.effects = c.effects → post none c')
    (hrun : ¬(offset + length > file.fileSize ∧ offset ≥ file.fileSize) →
      ∀ cluster c', Start fs file offset (clamped file offset length) cluster →
        fs.HintOk file c'.walkHint → c'.effects = c.effects →
        wp (if isWrite then fs.writeRuns dev address (clamped file offset length) fuel fuel cluster
              (offset % fs.bytesPerCluster) 0
            else fs.readRuns dev address (clamped file offset length) fuel fuel cluster
              (offset % fs.bytesPerCluster) 0) fail post c') :
    wp (fs.access isWrite file dev fuel address offset length) fail post c := by
  have hsize := file.fileSize_lt
  unfold access
  simp only [wp_bind, wp_fits]
  rw [wp_ite]
  refine ⟨fun _ => ⟨fun hb => hbeyond hb.2 hb.1, fun hin => ?_⟩, hsum⟩
  have hclamped : (if offset + length > file.fileSize then file.fileSize - offset else length) =
      clamped file offset length := by
    unfold clamped
    split <;> omega
  have hoffset : offset < 2 ^ 32 := by omega
  rw [hclamped, wp_bind, wp_quot]
  refine ⟨hdiv, fun hpos => ?_⟩
  have hstart : (walkStart file c.walkHint (offset / fs.bytesPerCluster)).2 ≤
      offset / fs.bytesPerCluster ∧ fs.chain file.entryCluster
        (walkStart file c.walkHint (offset / fs.bytesPerCluster)).2 =
          some (walkStart file c.walkHint (offset / fs.bytesPerCluster)).1 :=
    walkStart_spec hhint
  have hquot : offset / fs.bytesPerCluster ≤ offset := Nat.div_le_self _ _
  have hmod : offset - offset / fs.bytesPerCluster * fs.bytesPerCluster =
      offset % fs.bytesPerCluster := by
    rw [Nat.mul_comm]
    exact Nat.mod_eq_sub_mul_div.symm
  simp only [wp_bind, wp_get, hmod]
  refine wp_mono (wp_walk hstart.2 (by omega) hhint) (fun _ _ hf => hf.elim) fun r c' hr => ?_
  obtain ⟨hhint', heffects, hfound⟩ := hr
  -- Without a valid hint the walk would have ended at another cluster.
  rw [Nat.add_sub_cancel' hstart.1] at hfound
  cases r with
  | none => exact hlost c' hfound hhint' heffects
  | some cluster =>
    refine hrun hin cluster c' ⟨fun hz => hpos ?_, hpos, ?_, hfound⟩ hhint' heffects
    · rw [bytesPerCluster, hz, Nat.mul_zero]
    · unfold clamped
      omega

/-- A read or a write that touches adjacent clusters stays within the sectors of the request. -/
theorem access_contiguous {isWrite : Bool} {dev : Backend} {fuel address offset length : Nat}
    {c : Call} (haddress : address < 2 ^ 64) (hhint : fs.HintOk file c.walkHint)
    (hcontiguous : fs.Contiguous file offset (clamped file offset length))
    (hc : Done address (fs.span file offset length) c) :
    wp (fs.access isWrite file dev fuel address offset length)
      (fun _ c' => Done address (fs.span file offset length) c')
      (fun _ c' => Done address (fs.span file offset length) c') c := by
  refine wp_access hhint (fun _ => hc) (fun _ _ => hc) (fun _ => hc)
    (fun c' _ _ he e hmem => hc e (he ▸ hmem)) fun hin cluster c' hstart _ heffects => ?_
  have hc' : Done address (fs.span file offset length) c' := fun e hmem => hc e (heffects ▸ hmem)
  have hspan : fs.span file offset length =
      fs.sectorsOf (clamped file offset length) * fs.bytesPerSector := if_neg hin
  rw [hspan] at hc' ⊢
  rw [wp_ite]
  exact ⟨fun _ => hstart.writeRuns hcontiguous haddress hc',
    fun _ => hstart.readRuns hcontiguous haddress hc'⟩

end Fat32

end MiniVisor.Fat
