import MiniVisor.Fat.Read

/-!
# Writes change only the bytes they are asked to change

`WritesRight` says of a request that every write of it either fails and leaves the device as it was,
or succeeds and has changed exactly the bytes of the request, on any device and from any hint.

A write has no way back: once a run is written, the failure of a later one leaves it there. The last
sector of a run is written as a whole. And as in a read, the skipped sectors are not counted when
the loop looks for the end of the cluster. `write_correct` is the exact condition under which none
of this matters (`Whole`).
-/

set_option autoImplicit false

namespace MiniVisor.Fat

open MiniVisor.Lib

namespace Fat32

variable (fs : Fat32) (file : FileInfo)

/-- The bytes of a request hold the bytes of the buffer, and all others are as they were. -/
structure Written (host : Host) (address offset n : Nat) (disk : Nat → UInt8) : Prop where
  bytes : ∀ i < n, ∃ p, fs.position file (offset + i) = some p ∧ disk p = host.memory (address + i)
  others : ∀ a, (∀ i < n, fs.position file (offset + i) ≠ some a) → disk a = host.disk a

/-- What a write has to come to. -/
def WriteEnds (dev : Backend) (host : Host) (address offset length : Nat) (r : Option Nat)
    (c : Call) : Prop :=
  match r with
  | none => (host.after dev c.effects).disk = host.disk
  | some n => n = min length (file.fileSize - offset) ∧
      Written fs file host address offset n (host.after dev c.effects).disk

/-- Every write of a request fails and changes nothing, or changes what it should. -/
def WritesRight (offset length : Nat) : Prop :=
  ∀ (dev : Backend) (host : Host) (fuel address walkHint : Nat) (r : Option Nat) (c : Call),
    fs.HintOk file walkHint →
    fs.write file dev fuel address offset length ⟨walkHint, []⟩ = (.ok r, c) →
    WriteEnds fs file dev host address offset length r c

/-- The part of a request that is in the file is written in one go, or not at all: it does not start
at a sector of its own, or it is shorter than a sector, or it consists of whole sectors in adjacent
clusters, or it is refused for its end before anything is written. -/
def Whole (offset length : Nat) : Prop :=
  file.fileSize ≤ offset ∨ fs.inSector offset ≠ 0 ∨
    clamped file offset length < fs.bytesPerSector ∨
    (fs.bytesPerSector ∣ clamped file offset length ∧
      fs.Contiguous file offset (clamped file offset length)) ∨
    (Adjacent fs file (offset / fs.bytesPerCluster) 0 (clamped file offset length) ∧
      fs.bytesPerCluster < clamped file offset length ∧
      0 < clamped file offset length % fs.bytesPerCluster ∧
      clamped file offset length % fs.bytesPerCluster < fs.bytesPerSector)

variable {fs file}

section Runs

variable {dev : Backend} {host : Host} {address offset length cluster fuel runs pointer : Nat}
  {c : Call}

/-- The device after one transfer of a write. -/
theorem after_write {t : Transfer} (ht : dev.transfer t = true) (hw : t.isWrite = true) :
    (host.after dev [.direct t]).disk = overwrite host.disk t.blockAddress t.length
      fun i => host.memory (t.bufferAddress + i) := by
  rw [Host.after_cons, Host.after_nil, Host.apply, if_pos ht, Host.transfer, if_pos hw]

theorem after_failed {t : Transfer} (ht : dev.transfer t = false) :
    host.after dev [.direct t] = host := by
  rw [Host.after_cons, Host.after_nil, Host.apply, if_neg (by rw [ht]; exact Bool.false_ne_true)]

/-- Whole sectors take no room behind the request. -/
theorem sectorsOf_mul (hpos : fs.bytesPerSector ≠ 0) (hdvd : fs.bytesPerSector ∣ length)
    (hlength : 0 < length) : fs.sectorsOf length * fs.bytesPerSector = length := by
  obtain ⟨q, rfl⟩ := hdvd
  obtain ⟨q, rfl⟩ : ∃ q', q = q' + 1 := ⟨q - 1, by
    have := Nat.pos_of_mul_pos_left hlength
    omega⟩
  have hp := Nat.pos_of_ne_zero hpos
  have hdiv : (fs.bytesPerSector * (q + 1) - 1) / fs.bytesPerSector = q := by
    rw [Nat.div_eq_iff hp]
    rw [Nat.mul_add_one, Nat.mul_comm]
    omega
  rw [sectorsOf, Nat.max_eq_left hlength, hdiv, Nat.mul_comm, Nat.add_comm]

/-- A run that covers whole sectors of adjacent clusters. -/
theorem Start.written (h : Start fs file offset length cluster) (hplain : fs.Plain)
    (hcovered : fs.Covered file) (hin : offset + length ≤ file.fileSize)
    (hcontiguous : fs.Contiguous file offset length) (hlength : 0 < length) (htwo : 2 ≤ cluster)
    (hzero : fs.inSector offset = 0) :
    Written fs file host address offset length (overwrite host.disk
      (fs.clusterAddress cluster + fs.skips offset * fs.bytesPerSector) length
      fun i => host.memory (address + i)) := by
  have hlinked := hcontiguous.linked hplain hcovered h hlength hin
  have hposition : ∀ i < length, fs.position file (offset + i) =
      some (fs.clusterAddress cluster + fs.skips offset * fs.bytesPerSector + i) := by
    intro i hi
    have hp := Nat.pos_of_ne_zero h.cluster_ne
    have hmul := Nat.div_add_mod' (offset % fs.bytesPerCluster + length - 1) fs.bytesPerCluster
    have hrest := Nat.mod_lt (offset % fs.bytesPerCluster + length - 1) hp
    have hat := h.position_add hplain htwo (i := i) hlinked (by rw [Nat.add_one_mul]; omega)
    rwa [hzero, Nat.zero_add] at hat
  refine ⟨fun i hi => ⟨_, hposition i hi, overwrite_of_lt _ _ _ hi⟩, fun a ha => ?_⟩
  refine overwrite_of_outside _ _ ?_
  by_contra hno
  obtain ⟨i, rfl⟩ := Nat.exists_eq_add_of_le
    (show fs.clusterAddress cluster + fs.skips offset * fs.bytesPerSector ≤ a by omega)
  exact ha i (by omega) (hposition i (by omega))

/-- A request that ends with less than a sector in its last cluster has no run that covers it. -/
theorem Ran.not_short {c₀ first s : Nat} {g : Gather} (hg : Ran fs file true c₀ first 0 s length g)
    (hadjacent : Adjacent fs file first 0 length) (hlow : 0 < length % fs.bytesPerCluster)
    (hhigh : length % fs.bytesPerCluster < fs.bytesPerSector) : False := by
  cases hg with
  | all j linked whole bound _ _ _ _ _ _ =>
    have hmul := Nat.div_add_mod' length fs.bytesPerCluster
    have hwhole := whole rfl
    have hj : j * fs.bytesPerCluster < length / fs.bytesPerCluster * fs.bytesPerCluster := by omega
    have hlt := Nat.lt_of_mul_lt_mul_right hj
    have hle := Nat.mul_le_mul_right fs.bytesPerCluster (Nat.succ_le_of_lt hlt)
    rw [Nat.succ_eq_add_one] at hle
    omega
  | gap j next linked bound hnext hgap _ _ _ _ _ _ =>
    exact hgap (hadjacent j _ next bound (linked j (Nat.le_refl j)) hnext)

/-- A run of a write is not shorter than a sector. -/
theorem Ran.sector_le {c₀ first s : Nat} {g : Gather} (hg : Ran fs file true c₀ first 0 s length g)
    (hcluster : fs.bytesPerSector ≤ fs.bytesPerCluster) : fs.bytesPerSector ≤ length := by
  cases hg with
  | all j linked whole bound _ _ _ _ _ _ =>
    have hwhole := whole rfl
    omega
  | gap j next linked bound hnext hgap _ _ _ _ _ _ =>
    rw [Nat.add_one_mul] at bound
    omega

/-- Contiguous clusters are adjacent, also when no sectors are counted. -/
theorem Contiguous.adjacent (h : fs.Contiguous file offset length)
    (hpos : fs.bytesPerCluster ≠ 0) :
    Adjacent fs file (offset / fs.bytesPerCluster) 0 length := by
  intro i found next hi hfound hnext
  refine h _ (Nat.le_add_right _ _) ?_ _ _ hfound hnext
  have hoffset := Nat.div_add_mod' offset fs.bytesPerCluster
  rw [Nat.lt_iff_add_one_le, Nat.le_div_iff_mul_le (Nat.pos_of_ne_zero hpos), Nat.add_assoc,
    Nat.add_mul]
  omega

/-- The runs of a request that is written in one go. -/
theorem Start.writeRuns_right (h : Start fs file offset (clamped file offset length) cluster)
    (hplain : fs.Plain) (hcovered : fs.Covered file) (hwhole : Whole fs file offset length)
    (heffects : c.effects = []) :
    wp (fs.writeRuns dev address (clamped file offset length) fuel runs cluster
        (offset % fs.bytesPerCluster) 0) (fun _ _ => True)
      (fun r c' => WriteEnds fs file dev host address offset length r c') c := by
  cases runs with
  | zero => trivial
  | succ runs =>
    have hnothing : WriteEnds fs file dev host address offset length none c := by
      show (host.after dev c.effects).disk = host.disk
      rw [heffects, Host.after_nil]
    refine h.wp_writeRuns (fun _ => hnothing) (fun _ => hnothing)
      fun g hg htwo hzero t ht c' hc' => ?_
    have hword := h.sector_le
    have heffects' : c'.effects = [.direct t] := by
      rw [hc', heffects]
      rfl
    -- A run exists only for whole sectors in adjacent clusters.
    have hsectors : fs.bytesPerSector ∣ clamped file offset length ∧
        fs.Contiguous file offset (clamped file offset length) ∧
        0 < clamped file offset length ∧ g.bytes = clamped file offset length ∧
        g.sectors = fs.sectorsOf (clamped file offset length) := by
      have hle := hg.sector_le hword
      have hpos := Nat.pos_of_ne_zero h.sector_ne
      rcases hwhole with hbeyond | hunaligned | hshort | ⟨hdvd, hcontiguous⟩ |
        ⟨hadjacent, -, hlow, hhigh⟩
      · unfold clamped at hle
        omega
      · exact absurd hzero hunaligned
      · omega
      · have hcovers := hg.covers (hcontiguous.adjacent h.cluster_ne)
        exact ⟨hdvd, hcontiguous, by omega, hcovers.bytes, hcovers.sectors rfl⟩
      · exact (hg.not_short hadjacent hlow hhigh).elim
    obtain ⟨hdvd, hcontiguous, hlength, hbytes, hsectors⟩ := hsectors
    refine ⟨fun hfailed => ?_, fun hyes heq => ⟨rfl, ?_⟩, fun _ hne => absurd (by omega) hne,
      fun _ _ hne => absurd (by omega) hne⟩
    · show (host.after dev c'.effects).disk = host.disk
      rw [heffects', after_failed hfailed]
    · rw [heffects', after_write hyes (by rw [ht]; rfl), ht]
      show Written fs file host address offset _ (overwrite host.disk
        (fs.clusterAddress cluster + fs.skips offset * fs.bytesPerSector)
        (g.sectors * fs.bytesPerSector) fun i => host.memory (address + 0 + i))
      rw [hsectors, sectorsOf_mul h.sector_ne hdvd hlength]
      exact h.written hplain hcovered (by unfold clamped at hlength ⊢; omega)
        hcontiguous hlength htwo
        hzero

/-! ## Writes that go wrong -/

theorem Linked.adjacent {c₀ first j i found next : Nat} (h : Linked fs file c₀ first j) (hi : i < j)
    (hfound : fs.chain file.entryCluster (first + i) = some found)
    (hnext : fs.getNextCluster found = some next) : next = found + 1 := by
  obtain rfl : found = c₀ + i := Option.some.inj (hfound.symm.trans (h i hi.le))
  have hlink := h (i + 1) hi
  rw [← Nat.add_assoc, chain, hfound] at hlink
  exact Option.some.inj (hnext.symm.trans hlink)

/-- A run that covers the request goes over adjacent clusters. -/
theorem Linked.adjacent_of_le {c₀ first j n : Nat} (h : Linked fs file c₀ first j)
    (hn : n ≤ (j + 1) * fs.bytesPerCluster) : Adjacent fs file first 0 n := by
  intro i found next hi hfound hnext
  have hlt := Nat.lt_of_mul_lt_mul_right (hi.trans_le hn)
  exact h.adjacent (by omega) hfound hnext

/-- A request for a part of the file is refused for its end alone. -/
theorem Start.refused (h : Start fs file offset length cluster) (hplain : fs.Plain)
    (hcovered : fs.Covered file) (hin : offset + length ≤ file.fileSize)
    (hr : Refused fs file cluster (offset / fs.bytesPerCluster) 0 length true) :
    length < fs.bytesPerSector ∨
      Adjacent fs file (offset / fs.bytesPerCluster) 0 length ∧ fs.bytesPerCluster < length ∧
        0 < length % fs.bytesPerCluster ∧ length % fs.bytesPerCluster < fs.bytesPerSector := by
  have hword := h.sector_le
  have hoffset := Nat.div_add_mod' offset fs.bytesPerCluster
  cases hr with
  | short j linked _ hshort =>
    rcases hshort with ⟨-, hlt⟩ | ⟨hlow, hhigh⟩
    · exact .inl hlt
    · rw [Nat.add_zero] at hlow hhigh
      rcases Nat.eq_zero_or_pos j with rfl | hj
      · exact .inl (by omega)
      · have hadjacent : Adjacent fs file (offset / fs.bytesPerCluster) 0 length :=
          linked.adjacent_of_le (by rw [Nat.add_one_mul]; omega)
        have hcluster : fs.bytesPerCluster ≤ j * fs.bytesPerCluster := Nat.le_mul_of_pos_left _ hj
        obtain ⟨rest, rfl⟩ := Nat.exists_eq_add_of_le hlow.le
        have hmod : (j * fs.bytesPerCluster + rest) % fs.bytesPerCluster = rest := by
          rw [Nat.add_comm, Nat.add_mul_mod_self_right, Nat.mod_eq_of_lt (by omega)]
        exact .inr ⟨hadjacent, by omega, by omega, by omega⟩
  | ended j linked bound hnone =>
    -- The file has room for the request.
    have hnumber : (offset / fs.bytesPerCluster + j + 1) * fs.bytesPerCluster < file.fileSize := by
      rw [Nat.add_assoc, Nat.add_mul]
      omega
    have hsome := hcovered _ hnumber
    rw [hplain.clusters_eq, chain, linked j (Nat.le_refl j), Option.bind_some, hnone] at hsome
    cases hsome

/-- A device that fails unless the buffer is at the start of memory. -/
def onlyFirst : Backend := ⟨fun t => t.bufferAddress == 0, fun _ => none⟩

/-- Memory that differs from the device everywhere. -/
def different : Host := ⟨fun _ => 1, fun _ => 0⟩

/-- A write over a gap leaves its first run on the device when it fails. -/
theorem Start.writeRuns_broken (h : Start fs file offset length cluster) (hplain : fs.Plain)
    (hcovered : fs.Covered file) (hin : offset + length ≤ file.fileSize)
    (hzero : fs.inSector offset = 0) (hlength : fs.bytesPerSector ≤ length)
    (hgap : ¬Adjacent fs file (offset / fs.bytesPerCluster) 0 length) (heffects : c.effects = []) :
    wp (fs.writeRuns onlyFirst 0 length fuel (runs + 1) cluster (offset % fs.bytesPerCluster) 0)
      (fun _ _ => True)
      (fun r c' => r = none ∧ (different.after onlyFirst c'.effects).disk ≠ different.disk) c := by
  refine h.wp_writeRuns (fun hr => ?_) (fun hno => absurd hzero hno)
    fun g hg htwo _ t ht c' hc' => ?_
  · rw [hzero] at hr
    rcases h.refused hplain hcovered hin hr with hlt | hadjacent
    · omega
    · exact absurd hadjacent.1 hgap
  cases hg with
  | all j linked whole bound _ _ _ _ _ _ => exact absurd (linked.adjacent_of_le (by omega)) hgap
  | gap j next linked bound hnext _ hcluster bytes sectors _ _ _ =>
    have hp := Nat.pos_of_ne_zero h.cluster_ne
    have hwritten : onlyFirst.transfer t = true := by
      rw [ht]
      rfl
    have heffects' : c'.effects = [.direct t] := by
      rw [hc', heffects]
      rfl
    have hchanged : (different.after onlyFirst c'.effects).disk ≠ different.disk := by
      intro hsame
      have hlong : 0 < t.length := by
        rw [ht]
        show 0 < g.sectors * fs.bytesPerSector
        rw [sectors, Nat.mul_assoc, ← bytesPerCluster]
        exact Nat.mul_pos (Nat.succ_pos j) hp
      rw [heffects', after_write hwritten (by rw [ht]; rfl)] at hsame
      have hbyte := congrFun hsame (t.blockAddress + 0)
      rw [overwrite_of_lt _ _ _ hlong] at hbyte
      exact absurd hbyte (show (1 : UInt8) ≠ 0 by decide)
    refine ⟨fun hno => (by cases hwritten.symm.trans hno), fun _ heq => absurd heq (by omega),
      fun _ _ _ => ⟨rfl, hchanged⟩, fun next' _ _ hnext' => ?_⟩
    -- The second transfer fails, if there is one.
    have hpointer : 0 < 0 + g.bytes := by
      rw [Nat.add_one_mul] at bytes
      omega
    cases runs with
    | zero => trivial
    | succ runs =>
      obtain ⟨hskips, hsector⟩ := skips_mul fs (offset / fs.bytesPerCluster + j + 1)
      have hstart := h.next linked hcluster hnext'
      have hmod : (offset / fs.bytesPerCluster + j + 1) * fs.bytesPerCluster %
        fs.bytesPerCluster = 0 :=
        Nat.mul_mod_left _ _
      suffices hround : wp (fs.writeRuns onlyFirst 0 length fuel (runs + 1) next'
          ((offset / fs.bytesPerCluster + j + 1) * fs.bytesPerCluster % fs.bytesPerCluster)
          (0 + g.bytes)) (fun _ _ => True)
          (fun r c' => r = none ∧ (different.after onlyFirst c'.effects).disk ≠ different.disk)
            c' by
        rwa [hmod] at hround
      refine hstart.wp_writeRuns (fun _ => ⟨rfl, hchanged⟩) (fun _ => ⟨rfl, hchanged⟩)
        fun g' _ _ _ t' ht' c'' hc'' => ?_
      have hfailed : onlyFirst.transfer t' = false := by
        rw [ht']
        exact beq_eq_false_iff_ne.2 (by show 0 + (0 + g.bytes) ≠ 0; omega)
      refine ⟨fun _ => ⟨rfl, ?_⟩, fun hyes => (by cases hfailed.symm.trans hyes),
        fun hyes => (by cases hfailed.symm.trans hyes),
        fun _ hyes => (by cases hfailed.symm.trans hyes)⟩
      rw [hc'']
      show (different.after onlyFirst (c'.effects ++ [.direct t'])).disk ≠ _
      rw [Host.after_append, after_failed hfailed]
      exact hchanged

/-- A write over adjacent clusters that is not refused writes whole sectors. -/
theorem Start.writeRuns_all (host : Host) (h : Start fs file offset length cluster)
    (hplain : fs.Plain) (hcovered : fs.Covered file) (hin : offset + length ≤ file.fileSize)
    (hzero : fs.inSector offset = 0) (hlength : fs.bytesPerSector ≤ length)
    (hadjacent : Adjacent fs file (offset / fs.bytesPerCluster) 0 length)
    (hends : ¬(fs.bytesPerCluster < length ∧ 0 < length % fs.bytesPerCluster ∧
      length % fs.bytesPerCluster < fs.bytesPerSector)) (heffects : c.effects = []) :
    wp (fs.writeRuns reliable 0 length fuel (runs + 1) cluster (offset % fs.bytesPerCluster) 0)
      (fun _ _ => True)
      (fun r c' => r = some length ∧ (host.after reliable c'.effects).disk = overwrite host.disk
        (fs.clusterAddress cluster + fs.skips offset * fs.bytesPerSector)
        (fs.sectorsOf length * fs.bytesPerSector) host.memory) c := by
  refine h.wp_writeRuns (fun hr => ?_) (fun hno => absurd hzero hno)
    fun g hg htwo _ t ht c' hc' => ?_
  · rw [hzero] at hr
    rcases h.refused hplain hcovered hin hr with hlt | hshort
    · omega
    · exact absurd hshort.2 hends
  have hcovers := hg.covers hadjacent
  have hbytes := hcovers.bytes
  refine ⟨fun hno => (nomatch hno), fun hyes _ => ⟨rfl, ?_⟩, fun _ hne => absurd (by omega) hne,
    fun _ _ hne => absurd (by omega) hne⟩
  have heffects' : c'.effects = [.direct t] := by
    rw [hc', heffects]
    rfl
  rw [heffects', after_write hyes (by rw [ht]; rfl), ht]
  show overwrite host.disk _ (g.sectors * fs.bytesPerSector) (fun i => host.memory (0 + 0 + i)) = _
  rw [hcovers.sectors rfl]
  simp only [Nat.zero_add]
  rfl

end Runs

/-! ## Requests -/

section Request

variable {offset length : Nat}

theorem Whole.writesRight (h : Whole fs file offset length) (hplain : fs.Plain)
    (hcovered : fs.Covered file) : fs.WritesRight file offset length := by
  intro dev host fuel address walkHint r c hhint hwrite
  have hspec : wp (fs.access true file dev fuel address offset length) (fun _ _ => True)
      (fun r c' => WriteEnds fs file dev host address offset length r c') ⟨walkHint, []⟩ := by
    refine wp_access hhint (fun _ => trivial) (fun hbeyond _ => ?_) (fun _ => trivial)
      (fun c' _ _ heffects => ?_) fun _ cluster c' hstart _ heffects => ?_
    · refine ⟨by omega, fun i hi => absurd hi (Nat.not_lt_zero i), fun a _ => rfl⟩
    · show (host.after dev c'.effects).disk = host.disk
      rw [heffects, Host.after_nil]
    · rw [if_pos rfl]
      exact hstart.writeRuns_right hplain hcovered h heffects
  exact hspec.ok hwrite

/-- A write that starts at a sector of the file ends as its runs do. -/
theorem exists_write (dev : Backend) {cluster : Nat} {post : Option Nat → Call → Prop}
    (hs : fs.Sound file) (hin : offset < file.fileSize) (hsum : offset + length < 2 ^ 64)
    (hfirst : fs.chain file.entryCluster (offset / fs.bytesPerCluster) = some cluster)
    (hruns : ∀ c, Start fs file offset (clamped file offset length) cluster → c.effects = [] →
      wp (fs.writeRuns dev 0 (clamped file offset length) (2 ^ 33) (2 ^ 33) cluster
        (offset % fs.bytesPerCluster) 0) (fun _ _ => True) post c) :
    ∃ r c, fs.write file dev iterations 0 offset length ⟨0, []⟩ = (.ok r, c) ∧ post r c := by
  have hspec : wp (fs.access true file dev iterations 0 offset length) (fun _ _ => True) post
      ⟨0, []⟩ := by
    refine wp_access hintOk_zero (fun _ => trivial) (fun hbeyond _ => absurd hbeyond (by omega))
      (fun _ => trivial) (fun _ hnone => ?_) fun _ found c' hstart _ heffects => ?_
    · exact nomatch hnone.symm.trans hfirst
    · obtain rfl : found = cluster := Option.some.inj (hstart.linked.symm.trans hfirst)
      rw [if_pos rfl]
      exact hruns c' hstart heffects
  have hreturns : wp (fs.access true file dev iterations 0 offset length) (fun _ _ => False)
      (fun _ _ => True) ⟨0, []⟩ :=
    access_returns (by omega) hsum hs hintOk_zero (Nat.le_refl _)
  rcases hwrite : fs.access true file dev iterations 0 offset length ⟨0, []⟩ with ⟨_ | r, c⟩
  · exact (hreturns.error hwrite).elim
  · exact ⟨r, c, hwrite, hspec.ok hwrite⟩

/-- Memory with one byte that is set, and an empty device. -/
def marked (x : Nat) : Host := ⟨fun i => if i = x then 1 else 0, fun _ => 0⟩

/-- The set byte is found where it was written. -/
theorem overwrite_marked {x block n a : Nat} (hx : x < n) :
    overwrite (marked x).disk block n (marked x).memory a = 1 ↔ a = block + x := by
  refine ⟨fun h => ?_, fun h => ?_⟩
  · by_contra hne
    have hzero : overwrite (marked x).disk block n (marked x).memory a = 0 := by
      by_cases hin : block ≤ a ∧ a < block + n
      · obtain ⟨i, rfl⟩ := Nat.exists_eq_add_of_le hin.1
        rw [overwrite_of_lt _ _ _ (by omega)]
        exact if_neg (by omega)
      · exact overwrite_of_outside _ _ (by omega)
    exact absurd (hzero.symm.trans h) (by decide)
  · rw [h, overwrite_of_lt _ _ _ hx]
    exact if_pos rfl

section Wrong

variable {cluster n : Nat}

/-- A write that does not end with a sector also writes the rest of the sector. -/
theorem not_written_rounded {block : Nat} (hn : length < n) :
    ¬Written fs file (marked length) 0 offset length
      (overwrite (marked length).disk block n (marked length).memory) := by
  intro h
  have hset : overwrite (marked length).disk block n (marked length).memory (block + length) = 1 :=
    (overwrite_marked hn).2 rfl
  by_cases hex : ∃ i < length, fs.position file (offset + i) = some (block + length)
  · obtain ⟨i, hi, hposition⟩ := hex
    obtain ⟨p, hp, hbyte⟩ := h.bytes i hi
    obtain rfl := Option.some.inj (hposition.symm.trans hp)
    rw [hset] at hbyte
    have hunset : (marked length).memory (0 + i) = 0 := if_neg (by omega)
    exact absurd (hbyte.trans hunset) (by decide)
  · have hkept := h.others (block + length) fun i hi hposition => hex ⟨i, hi, hposition⟩
    rw [hset] at hkept
    exact absurd hkept (show (1 : UInt8) ≠ 0 by decide)

/-- A write over a gap puts the byte behind it into the adjacent cluster. -/
theorem not_written_across {m next x : Nat} (hplain : fs.Plain) (hs : fs.Sound file)
    (hzero : fs.inSector offset = 0)
    (hlinked : Linked fs file cluster (offset / fs.bytesPerCluster) m)
    (hnext : fs.getNextCluster (cluster + m) = some next) (hgap : next ≠ cluster + m + 1)
    (hx : offset % fs.bytesPerCluster + x = (m + 1) * fs.bytesPerCluster) (hlength : x < length)
    (hn : x < n) :
    ¬Written fs file (marked x) 0 offset length (overwrite (marked x).disk
      (fs.clusterAddress cluster + fs.skips offset * fs.bytesPerSector) n (marked x).memory) := by
  intro h
  have hp := Nat.pos_of_ne_zero hs.cluster_ne
  have hoffset := Nat.div_add_mod' offset fs.bytesPerCluster
  have hskips := skips_add_inSector fs offset
  have hchain : fs.chain file.entryCluster (offset / fs.bytesPerCluster + m + 1) = some next := by
    rw [chain, hlinked m (Nat.le_refl m)]
    exact hnext
  have htwo : 2 ≤ cluster := (hs.chain _ _ (hlinked 0 (Nat.zero_le m))).1
  have htwo' : 2 ≤ next := (hs.chain _ _ hchain).1
  obtain ⟨p, hposition, hbyte⟩ := h.bytes x hlength
  have hat : offset + x = (offset / fs.bytesPerCluster + m + 1) * fs.bytesPerCluster := by
    rw [Nat.add_assoc, Nat.add_mul]
    omega
  rw [hat, hplain.position_eq, Nat.mul_div_cancel _ hp, hchain, Nat.mul_mod_left] at hposition
  have hnextAddress : p = fs.clusterAddress next := (Option.some.inj hposition).symm
  have hset : (marked x).memory (0 + x) = 1 := if_pos (Nat.zero_add x)
  rw [hset, overwrite_marked hn] at hbyte
  have hadjacentAddress : p = fs.clusterAddress (cluster + (m + 1)) := by
    rw [clusterAddress_add htwo, hbyte]
    omega
  exact hgap (clusterAddress_inj htwo' (by omega) hs.cluster_ne
    (hnextAddress.symm.trans hadjacentAddress))

end Wrong

theorem WritesRight.whole (h : fs.WritesRight file offset length) (hplain : fs.Plain)
    (hcovered : fs.Covered file) (hs : fs.Sound file) (hsum : offset + length < 2 ^ 64) :
    Whole fs file offset length := by
  by_contra hno
  unfold Whole at hno
  push Not at hno
  obtain ⟨hin, hzero, hlength, hcontiguous, hends⟩ := hno
  have hp := Nat.pos_of_ne_zero hs.cluster_ne
  have hoffset := Nat.div_add_mod' offset fs.bytesPerCluster
  have hclamped : offset + clamped file offset length ≤ file.fileSize := by
    unfold clamped
    omega
  have hfirst : ∃ cluster, fs.chain file.entryCluster (offset / fs.bytesPerCluster) =
    some cluster := by
    have hsome := hcovered (offset / fs.bytesPerCluster) (by omega)
    rw [hplain.clusters_eq] at hsome
    exact Option.isSome_iff_exists.1 hsome
  obtain ⟨cluster, hfirst⟩ := hfirst
  by_cases hadjacent :
      Adjacent fs file (offset / fs.bytesPerCluster) 0 (clamped file offset length)
  · -- One run is written, and it is not what was asked for.
    have hwritten : ∀ host : Host, Written fs file host 0 offset (clamped file offset length)
        (overwrite host.disk (fs.clusterAddress cluster + fs.skips offset * fs.bytesPerSector)
          (fs.sectorsOf (clamped file offset length) * fs.bytesPerSector) host.memory) := by
      intro host
      obtain ⟨r, c, hwrite, rfl, hdisk⟩ := exists_write reliable hs hin hsum hfirst
        fun c hstart heffects => hstart.writeRuns_all host hplain hcovered hclamped hzero
          hlength hadjacent
          (fun hend => Nat.not_lt.2 (hends hadjacent hend.1 hend.2.1) hend.2.2) heffects
      have hends := (h reliable host _ _ _ _ c hintOk_zero hwrite).2
      rwa [hdisk] at hends
    have hle := le_sectorsOf hs.sector_ne (clamped file offset length)
    by_cases hdvd : fs.bytesPerSector ∣ clamped file offset length
    · obtain ⟨k, last, next, hlow, hhigh, hlast, hnext, hne, hmin⟩ :=
        exists_first_gap (hcontiguous hdvd)
      obtain ⟨m, rfl⟩ := Nat.exists_eq_add_of_le hlow
      have hlinked := linked_of_adjacent hfirst hlast hmin
      obtain rfl : last = cluster + m :=
        Option.some.inj (hlast.symm.trans (hlinked m (Nat.le_refl m)))
      have hbound := (Nat.le_div_iff_mul_le hp).1 (Nat.succ_le_of_lt hhigh)
      rw [Nat.succ_eq_add_one, Nat.add_assoc, Nat.add_mul] at hbound
      have hmod := Nat.mod_lt offset hp
      have hcluster : fs.bytesPerCluster ≤ (m + 1) * fs.bytesPerCluster :=
        Nat.le_mul_of_pos_left _ (Nat.succ_pos m)
      obtain ⟨x, hx⟩ := Nat.exists_eq_add_of_le (hmod.le.trans hcluster)
      exact not_written_across hplain hs hzero hlinked hnext hne hx.symm (by omega) (by omega)
        (hwritten (marked x))
    · refine not_written_rounded (lt_of_le_of_ne hle fun heq => hdvd ?_)
        (hwritten (marked (clamped file offset length)))
      exact ⟨_, heq.trans (Nat.mul_comm _ _)⟩
  · -- The first run is written, the second one fails.
    obtain ⟨r, c, hwrite, rfl, hchanged⟩ := exists_write onlyFirst hs hin hsum hfirst
      fun c hstart heffects => hstart.writeRuns_broken hplain hcovered hclamped hzero hlength
        hadjacent heffects
    exact hchanged (h onlyFirst different _ _ _ _ c hintOk_zero hwrite)

end Request

end Fat32

end MiniVisor.Fat
