import MiniVisor.Fat.Hint

/-!
# Requests on a sound volume

What a read or a write does whatever clusters it touches: on a volume whose numbers fit their words
(`Sound`) it fails only on the sum of the offset and the length (`access_sound`), and ends
(`access_returns`). A file that is scattered over the device takes several runs; the position in its
chain bounds how far the pointer into the buffer has moved and how many runs there are.
-/

set_option autoImplicit false

namespace MiniVisor.Fat

open MiniVisor.Lib

namespace Fat32

variable {fs : Fat32} {file : FileInfo}

/-! ## Faults -/

/-- A cluster of the file of a sound volume is not far from its start. -/
theorem Sound.position_lt (hs : fs.Sound file) {k cluster : Nat}
    (hk : fs.chain file.entryCluster k = some cluster) : k < 2 ^ 28 := by
  obtain ⟨n, hn, hnone⟩ := hs.ends
  by_contra hge
  exact nomatch hk.symm.trans (chain_none_of_le hnone (hn.trans (Nat.not_lt.1 hge)))

theorem Sound.sector_ne (hs : fs.Sound file) : fs.bytesPerSector ≠ 0 := by
  have := hs.sector
  omega

theorem Sound.cluster_ne (hs : fs.Sound file) : fs.bytesPerCluster ≠ 0 := by
  have := hs.cluster
  exact Nat.mul_ne_zero (by omega) hs.sector_ne

/-- A bound on the iterations of the inner loop. -/
def iterations : Nat := 2 ^ 33

/-- The inner loop ends within the bound. -/
theorem Sound.stuck (hs : fs.Sound file) {total n : Nat} {fault : Fault} (htotal : total ≤ 2 ^ 33)
    (h : Stuck fs file total n fault) : fault = .outOfFuel ∧ n < iterations := by
  obtain ⟨rfl, h⟩ := h.resolve_left fun hno => hno hs
  refine ⟨rfl, ?_⟩
  have hle : n ≤ n * fs.bytesPerCluster :=
    Nat.le_mul_of_pos_right n (Nat.pos_of_ne_zero hs.cluster_ne)
  unfold iterations
  omega

/-- The outer loop at a cluster of the file. The pointer into the buffer has moved by less than 4
GiB for each cluster in front of it, and data that starts inside a sector is the first. -/
structure AtRun (fs : Fat32) (file : FileInfo) (length k cluster dataOffset bufferPointer : Nat) :
    Prop where
  linked : fs.chain file.entryCluster k = some cluster
  length_lt : length < 2 ^ 32
  dataOffset_lt : dataOffset < fs.bytesPerCluster
  pointer_le : bufferPointer ≤ k * 2 ^ 32
  first : bufferPointer ≠ 0 → dataOffset = 0

section Runs

variable {length k cluster dataOffset bufferPointer address fuel : Nat}

/-- The cluster and the data offset as an offset into the file. -/
theorem AtRun.start (h : AtRun fs file length k cluster dataOffset bufferPointer)
    (hs : fs.Sound file) :
    (k * fs.bytesPerCluster + dataOffset) / fs.bytesPerCluster = k ∧
      (k * fs.bytesPerCluster + dataOffset) % fs.bytesPerCluster = dataOffset ∧
      Start fs file (k * fs.bytesPerCluster + dataOffset) length cluster := by
  have hpos := Nat.pos_of_ne_zero hs.cluster_ne
  have hdiv : (k * fs.bytesPerCluster + dataOffset) / fs.bytesPerCluster = k := by
    rw [Nat.add_comm, Nat.add_mul_div_right _ _ hpos, Nat.div_eq_of_lt h.dataOffset_lt,
      Nat.zero_add]
  have hmod : (k * fs.bytesPerCluster + dataOffset) % fs.bytesPerCluster = dataOffset := by
    rw [Nat.add_comm, Nat.add_mul_mod_self_right, Nat.mod_eq_of_lt h.dataOffset_lt]
  refine ⟨hdiv, hmod, hs.sector_ne, hs.cluster_ne, h.length_lt, ?_⟩
  rw [hdiv]
  exact h.linked

theorem AtRun.pointer_lt (h : AtRun fs file length k cluster dataOffset bufferPointer)
    (hs : fs.Sound file) : bufferPointer < 2 ^ 60 := by
  have hk := hs.position_lt h.linked
  have hle := h.pointer_le
  omega

/-- What a run comes to, for any clusters. -/
structure RunEnds (fs : Fat32) (file : FileInfo) (length k cluster dataOffset : Nat) (g : Gather) :
    Prop where
  linked : ∃ k', k ≤ k' ∧ fs.chain file.entryCluster k' = some g.cluster
  bytes : g.bytes ≤ length
  backup : g.dataOffsetBackup ≤ dataOffset
  transfer : ∀ (isWrite : Bool) (buffer : Nat) (c : Call),
    wp (fs.runTransfer isWrite buffer cluster g) (fun _ _ => False) (fun _ _ => True) c
  pages : ∀ c : Call, wp (fs.bouncePages g) (fun _ _ => False) (fun _ _ => True) c

theorem AtRun.gather {isWrite : Bool} {c : Call}
    (h : AtRun fs file length k cluster dataOffset bufferPointer) (hs : fs.Sound file) :
    wp (fs.gather isWrite length fuel ⟨cluster, 0, 0, 0, dataOffset, dataOffset⟩)
      (fun fault _ => fault = .outOfFuel ∧ fuel < iterations)
      (fun r _ => ∀ g, r = some g → RunEnds fs file length k cluster dataOffset g) c := by
  obtain ⟨hdiv, hmod, hstart⟩ := h.start hs
  have hfirst : firstGather fs (k * fs.bytesPerCluster + dataOffset) cluster =
      ⟨cluster, 0, 0, 0, dataOffset, dataOffset⟩ := by
    unfold firstGather
    rw [hmod]
  rw [← hfirst]
  have hsmall := hstart.inRun.small
  have hword := fs.bytesPerSector_lt
  have hlength := h.length_lt
  refine wp_mono hstart.ran (fun _ _ hf => hs.stuck (by omega) hf.2) fun r c' hr g hg => ?_
  subst hg
  have hrun := hr.2.gathered
  obtain ⟨k', hk', hlinked⟩ := hrun.linked
  refine ⟨⟨k', hdiv ▸ hk', hlinked⟩, hrun.bytes, ?_, fun isWrite buffer c => ?_, fun c => ?_⟩
  · rw [hrun.backup]
    exact (skipped_firstGather _ _ _).1.trans (Nat.le_of_eq hmod)
  · exact wp_mono (wp_runTransfer hrun h.linked hstart.sectorOffset_le) (fun _ _ hf => hf.2 hs)
      fun _ _ _ => trivial
  · exact wp_mono (wp_bouncePages hrun) (fun _ _ hf => hf.2 hs) fun _ _ _ => trivial

/-- The next run starts behind the last cluster of this one. -/
theorem AtRun.next {g : Gather} {next : Nat}
    (h : AtRun fs file length k cluster dataOffset bufferPointer) (hs : fs.Sound file)
    (hg : RunEnds fs file length k cluster dataOffset g)
    (hnext : fs.getNextCluster g.cluster = some next) :
    ∃ k' > k, AtRun fs file length k' next 0 (bufferPointer + g.bytes) := by
  obtain ⟨k', hk', hlinked⟩ := hg.linked
  refine ⟨k' + 1, Nat.lt_succ_of_le hk', ?_, h.length_lt, Nat.pos_of_ne_zero hs.cluster_ne,
    ?_, fun _ => rfl⟩
  · rw [chain, hlinked]
    exact hnext
  · have hle := h.pointer_le
    have hlength := h.length_lt
    have hbytes := hg.bytes
    omega

theorem readRuns_sound {dev : Backend} {runs : Nat} {c : Call} (hs : fs.Sound file)
    (haddress : address ≤ 2 ^ 63)
    (h : AtRun fs file length k cluster dataOffset bufferPointer) :
    wp (fs.readRuns dev address length fuel runs cluster dataOffset bufferPointer)
      (fun fault _ => fault = .outOfFuel ∧ (fuel < iterations ∨ runs + k < 2 ^ 28))
      (fun _ _ => True) c := by
  induction runs generalizing k cluster dataOffset bufferPointer c with
  | zero =>
    refine ⟨rfl, .inr ?_⟩
    rw [Nat.zero_add]
    exact hs.position_lt h.linked
  | succ runs ih =>
    have hpointer := h.pointer_lt hs
    have hlength := h.length_lt
    unfold readRuns
    rw [wp_bind]
    refine wp_mono (h.gather hs) (fun _ _ hf => ⟨hf.1, .inl hf.2⟩) fun r c₁ hr => ?_
    cases r with
    | none => trivial
    | some g =>
      have hg := hr g rfl
      have hbytes := hg.bytes
      simp only [wp_bind]
      refine wp_mono (hg.pages c₁) (fun _ _ hf => hf.elim) fun pages c₂ _ => ?_
      have hbuffer : wp (transferBuffer dev address bufferPointer g.dataOffsetBackup pages)
          (fun _ _ => False) (fun _ _ => True) c₂ := by
        unfold transferBuffer
        simp only [wp_ite, wp_pure, wp_bind, wp_fits]
        exact ⟨fun _ => trivial, fun _ => ⟨fun _ => trivial, fun hno => absurd (by omega) hno⟩⟩
      refine wp_mono hbuffer (fun _ _ hf => hf.elim) fun buffer c₃ _ => ?_
      cases buffer with
      | none => trivial
      | some buffer =>
        simp only [wp_bind]
        refine wp_mono (hg.transfer false buffer c₃) (fun _ _ hf => hf.elim) fun t c₄ _ => ?_
        simp only [record, wp_modify, wp_ite, wp_pure, wp_bind]
        refine ⟨fun _ => trivial, fun _ => ?_⟩
        -- Only the first run can start inside a sector.
        have hcopy : ∀ c, wp (copyBounced buffer address bufferPointer g.dataOffsetBackup g.bytes)
            (fun _ _ => False) (fun _ _ => True) c := by
          intro c
          unfold copyBounced
          simp only [wp_ite, wp_throw, wp_pure, record, wp_modify]
          refine ⟨fun hd => ⟨fun hp => absurd ?_ hd, fun _ => trivial⟩, fun _ => trivial⟩
          have hzero := h.first hp
          have hle := hg.backup
          omega
        refine wp_mono (hcopy _) (fun _ _ hf => hf.elim) fun _ c₅ _ => ?_
        simp only [wp_fits]
        refine ⟨fun _ => ⟨fun _ => trivial, fun _ => ?_⟩, fun hno => absurd (by omega) hno⟩
        split
        · trivial
        · next next hnext =>
          obtain ⟨k', hk', hrun⟩ := h.next hs hg hnext
          exact wp_mono (ih hrun) (fun _ _ hf => ⟨hf.1, hf.2.imp_right (by omega)⟩) fun _ _ _ =>
            trivial

theorem writeRuns_sound {dev : Backend} {runs : Nat} {c : Call} (hs : fs.Sound file)
    (haddress : address ≤ 2 ^ 63)
    (h : AtRun fs file length k cluster dataOffset bufferPointer) :
    wp (fs.writeRuns dev address length fuel runs cluster dataOffset bufferPointer)
      (fun fault _ => fault = .outOfFuel ∧ (fuel < iterations ∨ runs + k < 2 ^ 28))
      (fun _ _ => True) c := by
  induction runs generalizing k cluster dataOffset bufferPointer c with
  | zero =>
    refine ⟨rfl, .inr ?_⟩
    rw [Nat.zero_add]
    exact hs.position_lt h.linked
  | succ runs ih =>
    have hpointer := h.pointer_lt hs
    have hlength := h.length_lt
    unfold writeRuns
    rw [wp_bind]
    refine wp_mono (h.gather hs) (fun _ _ hf => ⟨hf.1, .inl hf.2⟩) fun r c₁ hr => ?_
    cases r with
    | none => trivial
    | some g =>
      have hg := hr g rfl
      have hbytes := hg.bytes
      simp only [wp_ite, wp_pure, wp_bind, wp_fits]
      refine ⟨fun _ => trivial, fun hd => ⟨fun _ => ?_, fun hno => absurd (by omega) hno⟩⟩
      refine wp_mono (hg.transfer true _ c₁) (fun _ _ hf => hf.elim) fun t c₂ _ => ?_
      simp only [record, wp_modify]
      refine ⟨fun _ => trivial, fun _ => ⟨fun _ => ⟨fun _ => trivial, fun _ => ?_⟩,
        fun hno => absurd (by omega) hno⟩⟩
      split
      · trivial
      · next next hnext =>
        obtain ⟨k', hk', hrun⟩ := h.next hs hg hnext
        rw [not_not.1 hd]
        exact wp_mono (ih hrun) (fun _ _ hf => ⟨hf.1, hf.2.imp_right (by omega)⟩) fun _ _ _ =>
          trivial

end Runs

/-- On a sound volume a read or a write fails only on the sum of the offset and the length. -/
theorem access_sound {isWrite : Bool} {dev : Backend} {fuel address offset length : Nat} {c : Call}
    (haddress : address ≤ 2 ^ 63) (hsum : offset + length < 2 ^ 64) (hs : fs.Sound file)
    (hhint : fs.HintOk file c.walkHint) :
    wp (fs.access isWrite file dev fuel address offset length)
      (fun fault _ => fault = .outOfFuel ∧ fuel < iterations) (fun _ _ => True) c := by
  refine wp_access hhint (fun hno => absurd hsum hno) (fun _ _ => trivial)
    (fun hz => absurd hz hs.cluster_ne) (fun _ _ _ _ => trivial) fun _ cluster c' hstart _ _ => ?_
  have hrun : AtRun fs file (clamped file offset length) (offset / fs.bytesPerCluster) cluster
      (offset % fs.bytesPerCluster) 0 :=
    ⟨hstart.linked, hstart.length_lt, Nat.mod_lt _ (Nat.pos_of_ne_zero hs.cluster_ne),
      Nat.zero_le _, fun hno => absurd rfl hno⟩
  have hfuel : ∀ fault : Fault, fault = .outOfFuel ∧
      (fuel < iterations ∨ fuel + offset / fs.bytesPerCluster < 2 ^ 28) →
      fault = .outOfFuel ∧ fuel < iterations := by
    intro fault hf
    exact ⟨hf.1, hf.2.elim id fun hlt =>
      ((Nat.le_add_right _ _).trans_lt hlt).trans (by decide : 2 ^ 28 < iterations)⟩
  rw [wp_ite]
  exact ⟨fun _ => wp_mono (writeRuns_sound hs haddress hrun) (fun fault _ => hfuel fault)
      fun _ _ _ => trivial,
    fun _ => wp_mono (readRuns_sound hs haddress hrun) (fun fault _ => hfuel fault)
      fun _ _ _ => trivial⟩

/-- On a sound volume a read or a write ends. -/
theorem access_returns {isWrite : Bool} {dev : Backend} {fuel address offset length : Nat}
    {c : Call} (haddress : address ≤ 2 ^ 63) (hsum : offset + length < 2 ^ 64) (hs : fs.Sound file)
    (hhint : fs.HintOk file c.walkHint) (hfuel : iterations ≤ fuel) :
    wp (fs.access isWrite file dev fuel address offset length) (fun _ _ => False)
      (fun _ _ => True) c :=
  wp_mono (access_sound haddress hsum hs hhint) (fun _ _ hf => Nat.not_lt.2 hfuel hf.2)
    fun _ _ hpost => hpost

end Fat32

end MiniVisor.Fat
