import MiniVisor.Fat.Data

/-!
# Reads return the bytes of the file

`ReadsRight` says of a request that every read of it that succeeds has moved the bytes of the file
into the buffer, on any device and from any hint.

The inner loop counts what is left of a request from the start of the sector that it begins in. A
request that begins behind the first sectors of its cluster therefore seems to end earlier than it
does, and a read of it goes on over the end of the cluster without a look at the chain.
`read_correct` says when this cannot go wrong: the request starts in the first sector of its
cluster, or at its end, or all the clusters it touches are adjacent (`Straight`).
-/

set_option autoImplicit false

namespace MiniVisor.Fat

open MiniVisor.Lib

namespace Fat32

/-! ## The bytes in the buffer -/

section Held

variable (dev : Backend) (host : Host) (address : Nat) (source : Nat → Option Nat)

/-- The effects of a call have moved a number of bytes into the buffer. The source of each byte is
an address on the device. -/
structure Held (n : Nat) (c : Call) : Prop where
  disk : (host.after dev c.effects).disk = host.disk
  bytes : ∀ i < n, ∃ p, source i = some p ∧
    (host.after dev c.effects).memory (address + i) = host.disk p

variable {dev host address source}

theorem held_zero {c : Call} (h : c.effects = []) : Held dev host address source 0 c :=
  ⟨by rw [h, Host.after_nil], fun i hi => absurd hi (Nat.not_lt_zero i)⟩

variable {n m d block buffer length : Nat} {c : Call}

/-- A transfer into the buffer. -/
theorem Held.direct (h : Held dev host address source n c) (hlength : m ≤ length)
    (ht : dev.transfer ⟨false, address + n, block, length⟩ = true)
    (hpos : ∀ i < m, source (n + i) = some (block + i)) :
    Held dev host address source (n + m)
      { c with effects := c.effects ++ [.direct ⟨false, address + n, block, length⟩] } := by
  have hafter : host.after dev (c.effects ++ [.direct ⟨false, address + n, block, length⟩]) =
      ⟨overwrite (host.after dev c.effects).memory (address + n) length
        fun i => host.disk (block + i), host.disk⟩ := by
    rw [Host.after_append, Host.after_cons, Host.after_nil, Host.apply, if_pos ht, Host.transfer,
      if_neg Bool.false_ne_true, h.disk]
  refine ⟨by rw [hafter], fun i hi => ?_⟩
  rw [hafter]
  dsimp only
  rcases Nat.lt_or_ge i n with hlt | hge
  · obtain ⟨p, hp, hbyte⟩ := h.bytes i hlt
    exact ⟨p, hp, (overwrite_of_outside _ _ (.inl (Nat.add_lt_add_left hlt _))).trans hbyte⟩
  · obtain ⟨j, rfl⟩ := Nat.exists_eq_add_of_le hge
    have hj : j < m := Nat.lt_of_add_lt_add_left hi
    refine ⟨block + j, hpos j hj, ?_⟩
    rw [← Nat.add_assoc]
    exact overwrite_of_lt _ _ _ (hj.trans_le hlength)

/-- A transfer into bounce pages and the copy out of them. -/
theorem Held.bounced (h : Held dev host address source 0 c) (hlength : d + m ≤ length)
    (ht : dev.transfer ⟨false, buffer, block, length⟩ = true)
    (hpos : ∀ i < m, source i = some (block + (d + i))) :
    Held dev host address source m
      { c with effects := c.effects ++
        [.bounce ⟨false, buffer, block, length⟩, .copy (buffer + d) address m] } := by
  have hafter : host.after dev
      (c.effects ++ [.bounce ⟨false, buffer, block, length⟩, .copy (buffer + d) address m]) =
      ⟨overwrite (overwrite (host.after dev c.effects).memory buffer length
          fun i => host.disk (block + i)) address m
        fun i => overwrite (host.after dev c.effects).memory buffer length
          (fun i => host.disk (block + i)) (buffer + d + i), host.disk⟩ := by
    rw [Host.after_append, Host.after_cons, Host.after_cons, Host.after_nil, Host.apply, Host.apply,
      if_pos ht, Host.transfer, if_neg Bool.false_ne_true, h.disk]
  refine ⟨by rw [hafter], fun i hi => ⟨_, hpos i hi, ?_⟩⟩
  rw [hafter]
  dsimp only
  rw [overwrite_of_lt _ _ _ hi, Nat.add_assoc, overwrite_of_lt _ _ _ (by omega)]

/-- The effects of a run. -/
theorem Held.run (h : Held dev host address source n c) (hbounced : d ≠ 0 → n = 0)
    (hdirect : d = 0 → buffer = address + n) (hlength : d + m ≤ length)
    (ht : dev.transfer ⟨false, buffer, block, length⟩ = true)
    (hpos : ∀ i < m, source (n + i) = some (block + (d + i))) :
    Held dev host address source (n + m)
      { c with
        effects := c.effects ++ readEffects d address m ⟨false, buffer, block, length⟩ } := by
  unfold readEffects
  by_cases hd : d = 0
  · rw [if_neg (not_not.2 hd)]
    subst hd
    obtain rfl := hdirect rfl
    simp only [Nat.zero_add] at hpos hlength
    exact h.direct hlength ht hpos
  · rw [if_pos hd]
    obtain rfl := hbounced hd
    simp only [Nat.zero_add] at hpos ⊢
    exact h.bounced hlength ht hpos

end Held

/-! ## Runs -/

section Runs

variable {fs : Fat32} {file : FileInfo} {dev : Backend} {host : Host}
  {address offset length cluster fuel runs pointer k : Nat} {c : Call}

/-- The bytes of a run are in its sectors. -/
theorem Ran.le_sectors {isWrite : Bool} {c₀ first d s : Nat} {g : Gather}
    (hg : Ran fs file isWrite c₀ first d s length g) (hpos : fs.bytesPerSector ≠ 0) :
    d + g.bytes ≤ g.sectors * fs.bytesPerSector := by
  cases hg with
  | all j linked whole bound cluster bytes sectors backup skips fits =>
    have hle := le_sectorsOf hpos (length + d)
    rw [sectors, bytes]
    omega
  | gap j next linked bound hnext hgap cluster bytes sectors backup skips fits =>
    rw [sectors, Nat.mul_assoc, ← bytesPerCluster]
    omega

/-- The start of the next run. -/
theorem Start.next {g : Gather} {next j first : Nat} (h : Start fs file offset length cluster)
    (hlinked : Linked fs file cluster first j) (hg : g.cluster = cluster + j)
    (hnext : fs.getNextCluster g.cluster = some next) :
    Start fs file ((first + j + 1) * fs.bytesPerCluster) length next := by
  refine ⟨h.sector_ne, h.cluster_ne, h.length_lt, ?_⟩
  rw [Nat.mul_div_cancel _ (Nat.pos_of_ne_zero h.cluster_ne), chain, hlinked j
    (Nat.le_refl j), ← hg]
  exact hnext

/-- The runs behind the first one. The pointer into the buffer can only reach the length at a gap
between two clusters: a run that covers the whole length goes too far. -/
theorem Start.readRuns_later (h : Start fs file (k * fs.bytesPerCluster) length cluster)
    (hplain : fs.Plain) (hpointer : 0 < pointer)
    (hheld : pointer ≤ length → offset + pointer = k * fs.bytesPerCluster ∧
      Held dev host address (fs.position file <| offset + ·) pointer c) :
    wp (fs.readRuns dev address length fuel runs cluster 0 pointer) (fun _ _ => True)
      (fun r c' => ∀ n, r = some n → n = length ∧ Held dev host address
        (fs.position file <| offset + ·) n c') c := by
  induction runs generalizing k cluster pointer c with
  | zero => trivial
  | succ runs ih =>
    have hp := Nat.pos_of_ne_zero h.cluster_ne
    obtain ⟨hskips, hsector⟩ := skips_mul fs k
    have hmod : k * fs.bytesPerCluster % fs.bytesPerCluster = 0 := Nat.mul_mod_left _ _
    have hdiv : k * fs.bytesPerCluster / fs.bytesPerCluster = k := Nat.mul_div_cancel _ hp
    suffices hround : wp (fs.readRuns dev address length fuel (runs + 1) cluster
        (k * fs.bytesPerCluster % fs.bytesPerCluster) pointer) (fun _ _ => True)
        (fun r c' => ∀ n, r = some n → n = length ∧ Held dev host address
          (fs.position file <| offset + ·) n c') c by
      rwa [hmod] at hround
    refine h.wp_readRuns (fun _ _ hno => nomatch hno) (fun _ _ hno => nomatch hno)
      (fun _ _ _ _ hno => nomatch hno) fun g buffer hg htwo hdirect _ ht c' hc' => ?_
    -- A transfer of a run that is not too long moves the next bytes of the file.
    have hmoved : pointer + g.bytes ≤ length → ∀ j, Linked fs file cluster k j →
        g.bytes ≤ (j + 1) * fs.bytesPerCluster →
        Held dev host address (fs.position file <| offset + ·) (pointer + g.bytes) c' := by
      intro hle j hlinked hbytes
      obtain ⟨hat, hheld⟩ := hheld (by omega)
      rw [hc']
      refine hheld.run (fun hno => absurd hsector hno) hdirect (hg.le_sectors h.sector_ne) ht
        fun i hi => ?_
      rw [← Nat.add_assoc, hat]
      refine h.position_add hplain htwo (hdiv.symm ▸ hlinked) ?_
      rw [hmod]
      omega
    refine ⟨fun heq n hn => ?_, (fun _ _ _ hno => nomatch hno), fun next hne hnext => ?_⟩
    · cases hn
      cases hg with
      | all j linked whole bound hcluster bytes sectors backup skips fits => omega
      | gap j next linked bound hnext hgap hcluster bytes sectors backup skips fits =>
        refine ⟨rfl, ?_⟩
        have hheld' := hmoved (Nat.le_of_eq heq.symm) j (hdiv ▸ linked) (by omega)
        rwa [← heq] at hheld'
    · cases hg with
      | all j linked whole bound hcluster bytes sectors backup skips fits =>
        exact ih (h.next (hdiv ▸ linked) hcluster hnext) (by omega)
          (fun hle => absurd hle (by omega))
      | gap j next' linked bound hnext' hgap hcluster bytes sectors backup skips fits =>
        refine ih (h.next (hdiv ▸ linked) hcluster hnext) (by omega) fun hle => ⟨?_, ?_⟩
        · have hat := (hheld (by omega)).1
          rw [hsector] at bytes
          rw [Nat.add_assoc k, Nat.add_mul]
          omega
        · exact hmoved hle j (hdiv ▸ linked) (by omega)

/-- The first run of a request that begins in the first sector of its cluster, or whose clusters are
adjacent. -/
theorem Start.readRuns_right (h : Start fs file offset length cluster) (hplain : fs.Plain)
    (hcovered : fs.Covered file) (hin : offset + length ≤ file.fileSize)
    (hstraight : offset % fs.bytesPerCluster ≤ fs.bytesPerSector ∨
      fs.Contiguous file offset length)
    (hheld : Held dev host address (fs.position file <| offset + ·) 0 c) :
    wp (fs.readRuns dev address length fuel runs cluster (offset % fs.bytesPerCluster) 0)
      (fun _ _ => True)
      (fun r c' => ∀ n, r = some n → n = length ∧ Held dev host address
        (fs.position file <| offset + ·) n c') c := by
  cases runs with
  | zero => trivial
  | succ runs =>
    have hp := Nat.pos_of_ne_zero h.cluster_ne
    have hskips := skips_add_inSector fs offset
    have hoffset := Nat.div_add_mod' offset fs.bytesPerCluster
    have hlt := Nat.mod_lt offset hp
    refine h.wp_readRuns (fun _ _ hno => nomatch hno) (fun _ _ hno => nomatch hno)
      (fun _ _ _ _ hno => nomatch hno) fun g buffer hg htwo hdirect hbounced ht c' hc' => ?_
    have hmoved : ∀ m, Linked fs file cluster (offset / fs.bytesPerCluster) m →
        offset % fs.bytesPerCluster + g.bytes ≤ (m + 1) * fs.bytesPerCluster →
        Held dev host address (fs.position file <| offset + ·) (0 + g.bytes) c' := by
      intro m hlinked hbytes
      rw [hc']
      refine hheld.run hbounced hdirect (hg.le_sectors h.sector_ne) ht fun i hi => ?_
      rw [Nat.zero_add]
      exact h.position_add hplain htwo hlinked (by omega)
    -- A run that ends at a gap is one of a request that skips no sectors.
    have hskipped : ∀ j next, (j + 1) * fs.bytesPerCluster < length + fs.inSector offset →
        fs.chain file.entryCluster (offset / fs.bytesPerCluster + j) = some (cluster + j) →
        fs.getNextCluster (cluster + j) = some next → next ≠ cluster + j + 1 →
        fs.inSector offset = offset % fs.bytesPerCluster := by
      intro j next hj hlinked hnext hgap
      rcases hstraight with hle | hcontiguous
      · exact (skips_of_le hle).2
      · have hadjacent := h.adjacent hcontiguous
        rw [(skipped_first fs offset cluster).1] at hadjacent
        exact absurd (hadjacent j _ next hj hlinked hnext) hgap
    cases hg with
    | all j linked whole bound hcluster bytes sectors backup skips fits =>
      refine ⟨fun heq n hn => ?_, fun hne => absurd (by omega) hne,
        fun _ hne => absurd (by omega) hne⟩
      cases hn
      refine ⟨rfl, ?_⟩
      rw [Nat.zero_add, bytes] at hmoved
      rcases hstraight with hle | hcontiguous
      · have hd := (skips_of_le hle).2
        exact hmoved j linked (by omega)
      · rcases Nat.eq_zero_or_pos length with hz | hlength
        · refine hmoved 0 (linked_zero h.linked) ?_
          omega
        · refine hmoved _ (hcontiguous.linked hplain hcovered h hlength hin) ?_
          have hmul := Nat.div_add_mod' (offset % fs.bytesPerCluster + length - 1)
            fs.bytesPerCluster
          have hrest := Nat.mod_lt (offset % fs.bytesPerCluster + length - 1) hp
          rw [Nat.add_one_mul]
          omega
    | gap j next linked bound hnext hgap hcluster bytes sectors backup skips fits =>
      have hd := hskipped j next bound (linked j (Nat.le_refl j)) hnext hgap
      refine ⟨fun heq => absurd heq (by omega), (fun _ _ _ hno => nomatch hno), fun next'
        hne hnext' => ?_⟩
      have hmul : (j + 1) * fs.bytesPerCluster = j * fs.bytesPerCluster + fs.bytesPerCluster :=
        Nat.add_one_mul _ _
      refine (h.next linked hcluster hnext').readRuns_later hplain (by omega) fun _ => ⟨?_, ?_⟩
      · rw [Nat.add_assoc (offset / fs.bytesPerCluster), Nat.add_mul]
        omega
      · exact hmoved j linked (by omega)

end Runs

/-! ## Requests -/

section Request

variable (fs : Fat32) (file : FileInfo)

/-- Every read of a request that succeeds returns the bytes of the file. -/
def ReadsRight (offset length : Nat) : Prop :=
  ∀ (dev : Backend) (host : Host) (fuel address walkHint n : Nat) (c : Call),
    fs.HintOk file walkHint →
    fs.read file dev fuel address offset length ⟨walkHint, []⟩ = (.ok (some n), c) →
    n = min length (file.fileSize - offset) ∧
      ∀ i < n, ∃ p, fs.position file (offset + i) = some p ∧
        (host.after dev c.effects).memory (address + i) = host.disk p

/-- A request of at most a length is behind the end of the file, or it begins in the first sector of
its cluster or at its end, or the clusters it touches are adjacent. -/
def Straight (offset length : Nat) : Prop :=
  file.fileSize ≤ offset ∨ offset % fs.bytesPerCluster ≤ fs.bytesPerSector ∨
    fs.Contiguous file offset (min length (file.fileSize - offset))

variable {fs file}

theorem Straight.readsRight {offset length : Nat} (h : Straight fs file offset length)
    (hplain : fs.Plain) (hcovered : fs.Covered file) (hlength : 0 < length) :
    fs.ReadsRight file offset length := by
  intro dev host fuel address walkHint n c hhint hread
  have hspec : wp (fs.access false file dev fuel address offset length) (fun _ _ => True)
      (fun r c' => ∀ n, r = some n → n = clamped file offset length ∧
        Held dev host address (fs.position file <| offset + ·) n c') ⟨walkHint, []⟩ := by
    refine wp_access hhint (fun _ => trivial) (fun hbeyond _ n hn => ?_) (fun _ => trivial)
      (fun _ _ _ _ _ hno => nomatch hno) fun hin cluster c' hstart _ heffects => ?_
    · cases hn
      refine ⟨?_, held_zero rfl⟩
      unfold clamped
      omega
    · rw [if_neg Bool.false_ne_true]
      refine hstart.readRuns_right hplain hcovered ?_ (h.resolve_left ?_) (held_zero heffects)
      · unfold clamped
        omega
      · omega
  obtain ⟨hn, hheld⟩ := hspec.ok hread n rfl
  exact ⟨hn, hheld.bytes⟩

/-! ## Requests that cross a gap -/

/-- A device that never fails. -/
def reliable : Backend := ⟨fun _ => true, fun _ => some 0⟩

/-- A request that skips sectors ends in a run before its first gap is looked at: the byte behind
the gap is taken from the adjacent cluster. -/
theorem Start.readRuns_across {offset length cluster m : Nat} {host : Host} {c : Call}
    (h : Start fs file offset length cluster)
    (hlinked : Linked fs file cluster (offset / fs.bytesPerCluster) m)
    (hlast : length + fs.inSector offset ≤ (m + 1) * fs.bytesPerCluster) (heffects : c.effects = [])
    (runs fuel : Nat) :
    wp (fs.readRuns reliable 0 length fuel (runs + 1) cluster (offset % fs.bytesPerCluster) 0)
      (fun _ _ => True)
      (fun r c' => r = some length ∧ Held reliable host 0
        (fun i => some (fs.clusterAddress cluster + offset % fs.bytesPerCluster + i)) length c')
        c := by
  have hskips := skips_add_inSector fs offset
  have hle : ∀ {j}, (j + 1) * fs.bytesPerCluster < length + fs.inSector offset → j + 1 ≤ m := by
    intro j hj
    have hlt := Nat.lt_of_mul_lt_mul_right (hj.trans_le hlast)
    omega
  have hnext : ∀ {j}, (j + 1) * fs.bytesPerCluster < length + fs.inSector offset →
      fs.getNextCluster (cluster + j) = some (cluster + j + 1) := by
    intro j hj
    have hsome := hlinked (j + 1) (hle hj)
    rw [← Nat.add_assoc, chain, hlinked j (Nat.le_of_succ_le (hle hj))] at hsome
    exact hsome
  refine h.wp_readRuns (fun hrefused => ?_) (fun hno => ?_) (fun _ _ hno => by cases hno)
    fun g buffer hg htwo hdirect hbounced ht c' hc' => ?_
  · cases hrefused with
    | short j linked hwrite _ => cases hwrite
    | ended j linked bound hnone => cases hnone.symm.trans (hnext bound)
  · obtain ⟨pages, hpages⟩ := hno
    cases hpages
  · have hsectors := hg.le_sectors h.sector_ne
    cases hg with
    | gap j next linked bound hsome hgap _ _ _ _ _ _ =>
      exact absurd (Option.some.inj (hsome.symm.trans (hnext bound))) hgap
    | all j linked whole bound hcluster bytes sectors backup skips fits =>
      refine ⟨fun heq => ⟨rfl, ?_⟩, fun hne => absurd (by omega) hne,
        fun _ hne => absurd (by omega) hne⟩
      have hsource : ∀ i, some (fs.clusterAddress cluster + offset % fs.bytesPerCluster + (0 + i)) =
          some (fs.clusterAddress cluster + fs.skips offset * fs.bytesPerSector +
            (fs.inSector offset + i)) := by
        intro i
        congr 1
        omega
      have hzero : Held reliable host 0
          (fun i => some (fs.clusterAddress cluster + offset % fs.bytesPerCluster + i)) 0 c :=
        held_zero heffects
      have hheld := hzero.run hbounced hdirect hsectors ht fun i _ => hsource i
      rw [Nat.zero_add, bytes] at hheld
      rw [hc', bytes]
      exact hheld

/-- The first gap of a range of the file. -/
theorem exists_first_gap {offset length : Nat} (h : ¬fs.Contiguous file offset length) :
    ∃ k cluster next, offset / fs.bytesPerCluster ≤ k ∧
      k < (offset + length - 1) / fs.bytesPerCluster ∧
      fs.chain file.entryCluster k = some cluster ∧ fs.getNextCluster cluster = some next ∧
      next ≠ cluster + 1 ∧ ∀ k' < k, offset / fs.bytesPerCluster ≤ k' → ∀ cluster' next',
        fs.chain file.entryCluster k' = some cluster' → fs.getNextCluster cluster' = some next' →
          next' = cluster' + 1 := by
  classical
  have hex : ∃ k, ∃ cluster next, offset / fs.bytesPerCluster ≤ k ∧
      k < (offset + length - 1) / fs.bytesPerCluster ∧
      fs.chain file.entryCluster k = some cluster ∧ fs.getNextCluster cluster = some next ∧
      next ≠ cluster + 1 := by
    unfold Contiguous at h
    push Not at h
    obtain ⟨k, hlow, hhigh, cluster, next, hcluster, hnext, hgap⟩ := h
    exact ⟨k, cluster, next, hlow, hhigh, hcluster, hnext, hgap⟩
  obtain ⟨cluster, next, hlow, hhigh, hcluster, hnext, hgap⟩ := Nat.find_spec hex
  refine ⟨Nat.find hex, cluster, next, hlow, hhigh, hcluster, hnext, hgap, ?_⟩
  intro k hbefore hk cluster' next' hcluster' hnext'
  by_contra hne
  exact Nat.find_min hex hbefore ⟨cluster', next', hk, hbefore.trans hhigh, hcluster', hnext', hne⟩

/-- In front of a gap that is the first, the clusters are adjacent. -/
theorem linked_of_adjacent {first m cluster last : Nat}
    (hfirst : fs.chain file.entryCluster first = some cluster)
    (hlast : fs.chain file.entryCluster (first + m) = some last)
    (hmin : ∀ k < first + m, first ≤ k → ∀ cluster next, fs.chain file.entryCluster k = some cluster
      → fs.getNextCluster cluster = some next → next = cluster + 1) :
    Linked fs file cluster first m := by
  intro i hi
  induction i with
  | zero => exact hfirst
  | succ i ih =>
    have hprev := ih (Nat.le_of_succ_le hi)
    cases hnext : fs.getNextCluster (cluster + i) with
    | none =>
      have hnone : fs.chain file.entryCluster (first + i + 1) = none := by
        rw [chain, hprev]
        exact hnext
      cases (chain_none_of_le hnone (by omega)).symm.trans hlast
    | some next =>
      have hadjacent := hmin (first + i) (by omega) (by omega) _ _ hprev hnext
      rw [← Nat.add_assoc, chain, hprev, ← Nat.add_assoc, ← hadjacent]
      exact hnext

/-- A request that skips sectors and ends with the first byte behind a gap. -/
theorem wrong_behind_gap {offset length cluster m next : Nat} (hplain : fs.Plain)
    (hs : fs.Sound file) (hskips : fs.bytesPerSector < offset % fs.bytesPerCluster)
    (hin : offset + length ≤ file.fileSize)
    (hlinked : Linked fs file cluster (offset / fs.bytesPerCluster) m)
    (hnext : fs.getNextCluster (cluster + m) = some next) (hgap : next ≠ cluster + m + 1)
    (hlength : offset % fs.bytesPerCluster + length = (m + 1) * fs.bytesPerCluster + 1) :
    ¬fs.ReadsRight file offset length := by
  intro hright
  have hp := Nat.pos_of_ne_zero hs.cluster_ne
  have hsize := file.fileSize_lt
  have hoffset := Nat.div_add_mod' offset fs.bytesPerCluster
  have hmod := Nat.mod_lt offset hp
  have hcluster : fs.bytesPerCluster ≤ (m + 1) * fs.bytesPerCluster :=
    Nat.le_mul_of_pos_left _ (Nat.succ_pos m)
  have hchain : fs.chain file.entryCluster (offset / fs.bytesPerCluster + m + 1) = some next := by
    rw [chain, hlinked m (Nat.le_refl m)]
    exact hnext
  have htwo : 2 ≤ cluster := (hs.chain _ _ (hlinked 0 (Nat.zero_le m))).1
  have htwo' : 2 ≤ next := (hs.chain _ _ hchain).1
  -- The device tells the byte behind the gap from all others.
  obtain ⟨host, hhost⟩ : ∃ host : Host,
      host.disk = fun a => if a = fs.clusterAddress next then 1 else 0 := ⟨⟨fun _ => 0, _⟩, rfl⟩
  have hclamped : clamped file offset length = length := by
    unfold clamped
    omega
  have hinner : length + fs.inSector offset ≤ (m + 1) * fs.bytesPerCluster := by
    have hsum := skips_add_inSector fs offset
    have hone : fs.bytesPerSector ≤ fs.skips offset * fs.bytesPerSector := by
      refine Nat.le_mul_of_pos_left _ ?_
      rw [(skips_of_lt hskips).1]
      exact Nat.div_pos hskips.le (Nat.pos_of_ne_zero hs.sector_ne)
    have hpos := Nat.pos_of_ne_zero hs.sector_ne
    omega
  have hspec : wp (fs.access false file reliable iterations 0 offset length) (fun _ _ => True)
      (fun r c' => r = some length ∧ Held reliable host 0
        (fun i => some (fs.clusterAddress cluster + offset % fs.bytesPerCluster + i)) length c')
      ⟨0, []⟩ := by
    refine wp_access hintOk_zero (fun _ => trivial) (fun hbeyond _ => absurd hbeyond (by omega))
      (fun _ => trivial) (fun _ hnone => ?_) fun _ found c' hstart _ heffects => ?_
    · cases hnone.symm.trans (hlinked 0 (Nat.zero_le m))
    · have hfound : found = cluster :=
        Option.some.inj (hstart.linked.symm.trans (hlinked 0 (Nat.zero_le m)))
      subst hfound
      rw [if_neg Bool.false_ne_true]
      rw [hclamped] at hstart ⊢
      exact hstart.readRuns_across hlinked hinner heffects _ _
  have hreturns : wp (fs.access false file reliable iterations 0 offset length) (fun _ _ => False)
      (fun _ _ => True) ⟨0, []⟩ :=
    access_returns (by omega) (by omega) hs hintOk_zero (Nat.le_refl _)
  rcases hread : fs.access false file reliable iterations 0 offset length ⟨0, []⟩ with ⟨_ | r, c⟩
  · exact hreturns.error hread
  obtain ⟨rfl, hheld⟩ := hspec.ok hread
  obtain ⟨p, hposition, hbyte⟩ := (hright reliable host iterations 0 0 length c hintOk_zero hread).2
    (length - 1) (by omega)
  obtain ⟨p', hsource, hbyte'⟩ := hheld.bytes (length - 1) (by omega)
  have hlast : offset + (length - 1) =
      (offset / fs.bytesPerCluster + m + 1) * fs.bytesPerCluster := by
    rw [Nat.add_assoc, Nat.add_mul]
    omega
  rw [hlast, hplain.position_eq, Nat.mul_div_cancel _ hp, hchain, Nat.mul_mod_left] at hposition
  have hnextAddress : p = fs.clusterAddress next := (Option.some.inj hposition).symm
  have hadjacentAddress : p' = fs.clusterAddress (cluster + (m + 1)) := by
    rw [clusterAddress_add htwo, ← Option.some.inj hsource]
    omega
  have hdisk := hbyte.symm.trans hbyte'
  rw [hhost] at hdisk
  dsimp only at hdisk
  rw [if_pos hnextAddress, if_neg fun heq => ?_] at hdisk
  · exact absurd hdisk (by decide)
  · exact hgap (clusterAddress_inj htwo' (by omega) hs.cluster_ne
      (heq.symm.trans hadjacentAddress))

/-- A request that skips sectors and touches clusters with a gap between them: one that is not
longer is read wrong. -/
theorem exists_wrong {offset bound : Nat} (hplain : fs.Plain) (hcovered : fs.Covered file)
    (hs : fs.Sound file) (hin : offset < file.fileSize)
    (hskips : fs.bytesPerSector < offset % fs.bytesPerCluster)
    (hgap : ¬fs.Contiguous file offset (min bound (file.fileSize - offset))) :
    ∃ length, 0 < length ∧ length ≤ bound ∧ ¬fs.ReadsRight file offset length := by
  obtain ⟨k, last, next, hlow, hhigh, hlast, hnext, hne, hmin⟩ := exists_first_gap hgap
  have hp := Nat.pos_of_ne_zero hs.cluster_ne
  obtain ⟨m, rfl⟩ := Nat.exists_eq_add_of_le hlow
  have hoffset := Nat.div_add_mod' offset fs.bytesPerCluster
  have hmod := Nat.mod_lt offset hp
  have hcluster : fs.bytesPerCluster ≤ (m + 1) * fs.bytesPerCluster :=
    Nat.le_mul_of_pos_left _ (Nat.succ_pos m)
  have hfirst : ∃ cluster, fs.chain file.entryCluster (offset / fs.bytesPerCluster) =
    some cluster := by
    have hsome := hcovered (offset / fs.bytesPerCluster) (by omega)
    rw [hplain.clusters_eq] at hsome
    exact Option.isSome_iff_exists.1 hsome
  obtain ⟨cluster, hfirst⟩ := hfirst
  have hlinked := linked_of_adjacent hfirst hlast hmin
  obtain rfl : last = cluster + m :=
    Option.some.inj (hlast.symm.trans (hlinked m (Nat.le_refl m)))
  have hbound := (Nat.le_div_iff_mul_le hp).1 (Nat.succ_le_of_lt hhigh)
  rw [Nat.succ_eq_add_one, Nat.add_assoc, Nat.add_mul] at hbound
  obtain ⟨length, hlength⟩ : ∃ length,
      offset % fs.bytesPerCluster + length = (m + 1) * fs.bytesPerCluster + 1 :=
    ⟨(m + 1) * fs.bytesPerCluster + 1 - offset % fs.bytesPerCluster, by omega⟩
  exact ⟨length, by omega, by omega,
    wrong_behind_gap hplain hs hskips (by omega) hlinked hnext hne hlength⟩

/-- Reads of any length up to a bound return the bytes of the file exactly if they are straight:
every straight one does, and on a sound volume there is one that does not where they are not. -/
theorem read_correct (hplain : fs.Plain) (hcovered : fs.Covered file) (offset bound : Nat) :
    (Straight fs file offset bound →
      ∀ length, 0 < length → length ≤ bound → fs.ReadsRight file offset length) ∧
    (fs.Sound file → (∀ length, 0 < length → length ≤ bound → fs.ReadsRight file offset length) →
      Straight fs file offset bound) := by
  refine ⟨fun h length hlength hle => ?_, fun hs h => ?_⟩
  · refine Straight.readsRight (h.imp_right (Or.imp_right fun hc => hc.mono ?_)) hplain hcovered
      hlength
    omega
  · by_contra hno
    unfold Straight at hno
    push Not at hno
    obtain ⟨length, hlength, hle, hwrong⟩ := exists_wrong hplain hcovered hs hno.1 hno.2.1 hno.2.2
    exact hwrong (h length hlength hle)

end Request

/-! ## A file in two parts -/

section Split

/-- A volume with clusters of two sectors. -/
def splitVolume : Fat32 where
  baseLba := 0
  lbaSize := 512
  bytesPerSector := 512
  sectorsPerCluster := 2
  reservedSectors := 32
  fatSectors := 8
  numberOfFats := 2
  fat cluster := if cluster = 2 then 4 else if cluster = 4 then 0x0FFFFFFF else 0
  bytesPerSector_lt := by decide
  sectorsPerCluster_lt := by decide

/-- A file in the clusters 2 and 4. -/
def splitFile : FileInfo := ⟨2, 2048, by decide, by decide⟩

theorem splitVolume_plain : splitVolume.Plain := by
  intro cluster
  show (if cluster = 2 then 4 else if cluster = 4 then 0x0FFFFFFF else 0) < 2 ^ 28
  split_ifs <;> decide

theorem splitVolume_covered : splitVolume.Covered splitFile := by
  intro k hk
  have hlt : k < 2 := by
    have : k * 1024 < 2048 := hk
    omega
  interval_cases k <;> decide

/-- A read from the start of the file on succeeds and is right. -/
theorem read_correct_split :
    (splitVolume.read splitFile reliable 1 0 0 1000 ⟨0, []⟩).1 = .ok (some 1000) ∧
      splitVolume.ReadsRight splitFile 0 1000 :=
  ⟨by decide +kernel, (read_correct splitVolume_plain splitVolume_covered 0 1000).1
    (.inr (.inl (by decide))) 1000 (by decide) (by decide)⟩

/-- A read of 500 bytes from the second sector on succeeds, and its last bytes are those of the
cluster 3, which is not one of the file. -/
theorem read_crosses_gap : splitVolume.Plain ∧ splitVolume.Covered splitFile ∧
    ¬splitVolume.ReadsRight splitFile 600 500 := by
  refine ⟨splitVolume_plain, splitVolume_covered, fun h => ?_⟩
  obtain ⟨-, hbytes⟩ := h reliable
    ⟨fun _ => 0, fun a => if a = splitVolume.clusterAddress 4 then 1 else 0⟩ 1 0 0 500 _
      hintOk_zero rfl
  obtain ⟨p, hp, hbyte⟩ := hbytes 424 (by decide)
  have hposition : p = splitVolume.clusterAddress 4 := by
    have : splitVolume.position splitFile 1024 = some (splitVolume.clusterAddress 4) := by decide
    exact Option.some.inj (hp.symm.trans this)
  subst hposition
  revert hbyte
  decide +kernel

end Split

end Fat32

end MiniVisor.Fat
