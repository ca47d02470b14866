import MiniVisor.Fat.Accept

/-!
# Reads and the end of their buffer

A read should change no memory but the buffer of the caller and its own bounce pages. It transfers
whole sectors, and if the data starts with a sector it transfers them straight into the buffer. So
the last sector may go over the end of the buffer.

`read_inside_iff` says which reads stay inside. It needs the runs of a request. `RunFrom` says which
clusters a run takes, how many bytes it counts for and how many sectors it transfers; `Visits` says
where runs begin, and how much of the buffer is used by then. Every run is for the whole length,
also one behind a gap, so not only the last run of a request may go too far. A read stays in its
buffer exactly if each of its runs `Fits`.
-/

set_option autoImplicit false

namespace MiniVisor.Fat

open MiniVisor.Lib

/-! ## The memory that effects change -/

section Memory

variable {dev : Backend} {a : Nat}

/-- The effect may change a byte of memory. -/
def Touches (dev : Backend) (a : Nat) : Effect → Prop
  | .direct t => dev.transfer t = true ∧ t.bufferAddress ≤ a ∧ a < t.bufferAddress + t.length
  | .bounce t => t.bufferAddress ≤ a ∧ a < t.bufferAddress + t.length
  | .copy _ bufferAddress length => bufferAddress ≤ a ∧ a < bufferAddress + length

theorem Host.memory_transfer {h : Host} {t : Transfer}
    (ha : ¬(t.bufferAddress ≤ a ∧ a < t.bufferAddress + t.length)) :
    (h.transfer t).memory a = h.memory a := by
  unfold Host.transfer
  split
  · rfl
  · have hout : a < t.bufferAddress ∨ t.bufferAddress + t.length ≤ a := by omega
    dsimp only
    exact overwrite_of_outside _ _ hout

theorem Host.memory_apply {h : Host} {e : Effect} (he : ¬Touches dev a e) :
    (h.apply dev e).memory a = h.memory a := by
  cases e with
  | direct t =>
    unfold Host.apply
    dsimp only
    split
    · next hyes => exact Host.memory_transfer fun hin => he ⟨hyes, hin⟩
    · rfl
  | bounce t =>
    unfold Host.apply
    dsimp only
    split
    · exact Host.memory_transfer he
    · rfl
  | copy source target length =>
    have hno : ¬(target ≤ a ∧ a < target + length) := he
    have hout : a < target ∨ target + length ≤ a := by omega
    unfold Host.apply
    dsimp only
    exact overwrite_of_outside _ _ hout

/-- A byte that no effect touches is kept. -/
theorem Host.memory_after {es : List Effect} (hes : ∀ e ∈ es, ¬Touches dev a e) (h : Host) :
    (h.after dev es).memory a = h.memory a := by
  induction es generalizing h with
  | nil => rfl
  | cons e es ih =>
    rw [Host.after_cons, ih (fun e' he' => hes e' (List.mem_cons_of_mem e he')),
      Host.memory_apply (hes e List.mem_cons_self)]

/-- A device that never fails, with bounce pages at an address. -/
def pagesAt (pages : Nat) : Backend := ⟨fun _ => true, fun _ => some pages⟩

/-- Every byte on the device differs from every byte in memory. -/
def blank : Host := ⟨fun _ => 0, fun _ => 1⟩

/-- The effect transfers nothing to the device, and touches the byte at most with a direct
transfer. -/
def OnlyDirect (a : Nat) : Effect → Prop
  | .direct t => t.isWrite = false
  | .bounce t => t.isWrite = false ∧ ¬(t.bufferAddress ≤ a ∧ a < t.bufferAddress + t.length)
  | .copy _ bufferAddress length => ¬(bufferAddress ≤ a ∧ a < bufferAddress + length)

/-- A byte that a direct transfer touches has a byte of the device. -/
theorem Host.memory_marked {pages : Nat} {es : List Effect} {h : Host} (hdisk : h.disk = blank.disk)
    (hes : ∀ e ∈ es, OnlyDirect a e)
    (ha : h.memory a = 1 ∨ ∃ t, Effect.direct t ∈ es ∧ t.bufferAddress ≤ a ∧
      a < t.bufferAddress + t.length) :
    (h.after (pagesAt pages) es).memory a = 1 := by
  induction es generalizing h with
  | nil =>
    rcases ha with ha | ⟨t, ht, -⟩
    · exact ha
    · cases ht
  | cons e es ih =>
    have hrest : ∀ e' ∈ es, OnlyDirect a e' := fun e' he' => hes e' (List.mem_cons_of_mem e he')
    have he := hes e List.mem_cons_self
    rw [Host.after_cons]
    cases e with
    | direct t =>
      have happly : h.apply (pagesAt pages) (.direct t) = { h with
          memory := overwrite h.memory t.bufferAddress t.length
            fun i => h.disk (t.blockAddress + i) } := by
        show h.transfer t = _
        unfold Host.transfer
        rw [if_neg (by rw [show t.isWrite = false from he]; decide)]
      rw [happly]
      refine ih hdisk hrest ?_
      dsimp only
      by_cases hin : t.bufferAddress ≤ a ∧ a < t.bufferAddress + t.length
      · left
        unfold overwrite
        rw [if_pos hin, hdisk]
        rfl
      · refine ha.imp (fun hone => ?_) ?_
        · have hout : a < t.bufferAddress ∨ t.bufferAddress + t.length ≤ a := by omega
          rw [overwrite_of_outside _ _ hout]
          exact hone
        · rintro ⟨t', ht', hin'⟩
          rcases List.mem_cons.1 ht' with heq | hmem
          · cases heq
            exact absurd hin' hin
          · exact ⟨t', hmem, hin'⟩
    | bounce t =>
      have hdisk' : (h.apply (pagesAt pages) (.bounce t)).disk = blank.disk := by
        show (h.transfer t).disk = _
        unfold Host.transfer
        rw [if_neg (by rw [show t.isWrite = false from he.1]; decide)]
        exact hdisk
      have hkept : ¬Touches (pagesAt pages) a (.bounce t) := he.2
      refine ih hdisk' hrest (ha.imp (fun hone => (Host.memory_apply hkept).trans hone) ?_)
      rintro ⟨t', ht', hin⟩
      exact ⟨t', (List.mem_cons.1 ht').resolve_left (fun hno => nomatch hno), hin⟩
    | copy source target length =>
      have hkept : ¬Touches (pagesAt pages) a (.copy source target length) := he
      refine ih hdisk hrest (ha.imp (fun hone => (Host.memory_apply hkept).trans hone) ?_)
      rintro ⟨t', ht', hin⟩
      exact ⟨t', (List.mem_cons.1 ht').resolve_left (fun hno => nomatch hno), hin⟩

end Memory

namespace Fat32

/-! ## The runs of a request -/

section Runs

variable (fs : Fat32) (file : FileInfo)

/-- The run that begins at an offset: the number of its clusters, the bytes that it counts for, and
the sectors that it transfers. It ends at a gap, or it has all of the length. -/
inductive RunFrom (offset length : Nat) : Nat → Nat → Nat → Prop
  | gap {c₀ j : Nat} (linked : Linked fs file c₀ (offset / fs.bytesPerCluster) j)
      (bound : (j + 1) * fs.bytesPerCluster < length + fs.inSector offset)
      (gap : fs.Gap file (offset / fs.bytesPerCluster + j)) :
      RunFrom offset length (j + 1) ((j + 1) * fs.bytesPerCluster - fs.inSector offset)
        ((j + 1) * fs.sectorsPerCluster)
  | all {c₀ j : Nat} (linked : Linked fs file c₀ (offset / fs.bytesPerCluster) j)
      (needed : j = 0 ∨ j * fs.bytesPerCluster < length + fs.inSector offset)
      (bound : length + fs.inSector offset ≤ (j + 1) * fs.bytesPerCluster) :
      RunFrom offset length (j + 1) length (fs.sectorsOf (length + fs.inSector offset))

/-- Where the runs of a request begin, and the bytes of the buffer that are used by then. -/
inductive Visits (offset length : Nat) : Nat → Nat → Prop
  | start : Visits offset length offset 0
  | next {o p n bytes sectors : Nat} (visits : Visits offset length o p)
      (run : fs.RunFrom file o length n bytes sectors) (more : length ≠ p + bytes)
      (chain : (fs.chain file.entryCluster (o / fs.bytesPerCluster + n)).isSome) :
      Visits offset length ((o / fs.bytesPerCluster + n) * fs.bytesPerCluster) (p + bytes)

/-- Each run goes to bounce pages, or its sectors end in the buffer. -/
def Fits (offset length : Nat) : Prop :=
  ∀ o p n bytes sectors, fs.Visits file offset (clamped file offset length) o p →
    fs.RunFrom file o (clamped file offset length) n bytes sectors →
      fs.inSector o ≠ 0 ∨ p + sectors * fs.bytesPerSector ≤ length

variable {fs file} {offset length o p n n' bytes bytes' sectors sectors' : Nat}

theorem RunFrom.chain_isSome (h : fs.RunFrom file o length n bytes sectors) :
    (fs.chain file.entryCluster (o / fs.bytesPerCluster)).isSome := by
  cases h with
  | gap linked _ _ => exact Option.isSome_of_eq_some (linked 0 (Nat.zero_le _))
  | all linked _ _ => exact Option.isSome_of_eq_some (linked 0 (Nat.zero_le _))

/-- A request whose first cluster is missing has no runs. -/
theorem Visits.chain_isSome (h : fs.Visits file offset length o p)
    (ho : (fs.chain file.entryCluster (o / fs.bytesPerCluster)).isSome) :
    (fs.chain file.entryCluster (offset / fs.bytesPerCluster)).isSome := by
  induction h with
  | start => exact ho
  | next _ run _ _ ih => exact ih run.chain_isSome

/-- There is one run at most. -/
theorem RunFrom.unique (h : fs.RunFrom file o length n bytes sectors)
    (h' : fs.RunFrom file o length n' bytes' sectors') :
    n = n' ∧ bytes = bytes' ∧ sectors = sectors' := by
  cases h with
  | @gap c j linked bound gap =>
    cases h' with
    | @gap c' j' linked' bound' gap' =>
      obtain rfl : j = j' := by
        rcases Nat.lt_trichotomy j j' with hlt | heq | hgt
        · exact absurd gap (linked'.not_gap hlt)
        · exact heq
        · exact absurd gap' (linked.not_gap hgt)
      exact ⟨rfl, rfl, rfl⟩
    | @all c' j' linked' needed' bound' =>
      have hlt := Nat.lt_of_mul_lt_mul_right (bound.trans_le bound')
      exact absurd gap (linked'.not_gap (by omega))
  | @all c j linked needed bound =>
    cases h' with
    | @gap c' j' linked' bound' gap' =>
      have hlt := Nat.lt_of_mul_lt_mul_right (bound'.trans_le bound)
      exact absurd gap' (linked.not_gap (by omega))
    | @all c' j' linked' needed' bound' =>
      have hle : j ≤ j' := by
        rcases needed with rfl | hlt
        · exact Nat.zero_le _
        · have := Nat.lt_of_mul_lt_mul_right (hlt.trans_le bound')
          omega
      have hge : j' ≤ j := by
        rcases needed' with rfl | hlt
        · exact Nat.zero_le _
        · have := Nat.lt_of_mul_lt_mul_right (hlt.trans_le bound)
          omega
      obtain rfl := Nat.le_antisymm hle hge
      exact ⟨rfl, rfl, rfl⟩

/-- The inner loop finds the run. -/
theorem Ran.runFrom {cluster s : Nat} {g : Gather}
    (h : Ran fs file false cluster (o / fs.bytesPerCluster) (fs.inSector o) s length g)
    (hneeded : Needed fs cluster (fs.inSector o) length g) :
    ∃ j, fs.RunFrom file o length (j + 1) g.bytes g.sectors ∧ g.cluster = cluster + j ∧
      Linked fs file cluster (o / fs.bytesPerCluster) j := by
  cases h with
  | all j linked whole bound hcluster hbytes hsectors backup skips fits =>
    obtain ⟨j', hneeded, hat⟩ := hneeded
    obtain rfl : j = j' := Nat.add_left_cancel (hcluster.symm.trans hat)
    rw [hbytes, hsectors]
    exact ⟨j, .all linked hneeded bound, hcluster, linked⟩
  | gap j next linked bound hnext hgap hcluster hbytes hsectors backup skips fits =>
    have hcount : g.bytes = (j + 1) * fs.bytesPerCluster - fs.inSector o := by omega
    rw [hsectors, hcount]
    exact ⟨j, .gap linked bound ⟨_, next, linked j (Nat.le_refl j), hnext, hgap⟩, hcluster, linked⟩

/-- The inner loop gives up only where there is no run. -/
theorem Refused.not_runFrom {cluster : Nat}
    (h : Refused fs file cluster (o / fs.bytesPerCluster) (fs.inSector o) length false) :
    ¬fs.RunFrom file o length n bytes sectors := by
  intro hrun
  cases h with
  | short _ _ hwrite _ => cases hwrite
  | ended j linked bound hend =>
    cases hrun with
    | gap _ _ gap => exact linked.not_gap_of_end hend _ gap
    | @all c' j' linked' _ bound' =>
      have hlt := Nat.lt_of_mul_lt_mul_right (bound.trans_le bound')
      have hsome := linked' (j + 1) (by omega)
      rw [← Nat.add_assoc, chain, linked j (Nat.le_refl j), Option.bind_some, hend] at hsome
      cases hsome

/-- The next run of a request. -/
theorem Visits.advance {cluster next j : Nat} {g : Gather} (h : fs.Visits file offset length o p)
    (hstart : Start fs file o length cluster)
    (hrun : fs.RunFrom file o length (j + 1) g.bytes g.sectors) (hcluster : g.cluster = cluster + j)
    (hlinked : Linked fs file cluster (o / fs.bytesPerCluster) j) (hne : length ≠ p + g.bytes)
    (hnext : fs.getNextCluster g.cluster = some next) :
    fs.Visits file offset length ((o / fs.bytesPerCluster + j + 1) * fs.bytesPerCluster)
        (p + g.bytes) ∧
      Start fs file ((o / fs.bytesPerCluster + j + 1) * fs.bytesPerCluster) length next := by
  have hstart' := hstart.next hlinked hcluster hnext
  have hlinked' := hstart'.linked
  rw [Nat.mul_div_cancel _ (Nat.pos_of_ne_zero hstart.cluster_ne)] at hlinked'
  exact ⟨h.next hrun hne (Option.isSome_of_eq_some hlinked'), hstart'⟩

end Runs

/-! ## What a read records -/

section Record

variable {fs : Fat32} {file : FileInfo} {dev : Backend} {address offset length o p : Nat}

/-- An effect of a read. The transfers to the caller's buffer end in it if every run fits. -/
def Recorded (fs : Fat32) (file : FileInfo) (dev : Backend) (address offset length : Nat) :
    Effect → Prop
  | .direct t => t.isWrite = false ∧ (fs.Fits file offset length →
      address ≤ t.bufferAddress ∧ t.bufferAddress + t.length ≤ address + length)
  | .bounce t => t.isWrite = false ∧ ∃ pages, dev.allocateDmaPages pages = some t.bufferAddress
  | .copy _ bufferAddress n => bufferAddress = address ∧ n ≤ length

/-- The runs of a request record such effects, however they end. -/
theorem Visits.readRuns_recorded {cluster fuel runs : Nat} {c : Call}
    (h : fs.Visits file offset (clamped file offset length) o p)
    (hstart : Start fs file o (clamped file offset length) cluster)
    (hc : ∀ e ∈ c.effects, Recorded fs file dev address offset length e) :
    wp (fs.readRuns dev address (clamped file offset length) fuel runs cluster
        (o % fs.bytesPerCluster) p)
      (fun _ c' => ∀ e ∈ c'.effects, Recorded fs file dev address offset length e)
      (fun _ c' => ∀ e ∈ c'.effects, Recorded fs file dev address offset length e) c := by
  induction runs generalizing o p cluster c with
  | zero => exact hc
  | succ runs ih =>
    refine hstart.wp_readRuns_run (fun _ => hc) (fun _ => hc) (fun _ => hc)
      fun g buffer t hg hneeded _ hdirect hbounced ht => ?_
    obtain ⟨j, hrun, hcluster, hlinked⟩ := hg.runFrom hneeded
    have hbytes : g.bytes ≤ length :=
      hg.gathered.bytes.trans (by unfold clamped; exact Nat.min_le_left _ _)
    have hissued : ∀ e ∈ [if fs.inSector o ≠ 0 then Effect.bounce t else .direct t],
        Recorded fs file dev address offset length e := by
      intro e he
      rw [List.mem_singleton.1 he, ht]
      split
      · next hd =>
        obtain ⟨pages, -, hpages⟩ := hbounced hd
        exact ⟨rfl, pages, hpages⟩
      · next hd =>
        have hd : fs.inSector o = 0 := not_not.1 hd
        refine ⟨rfl, fun hfits => ?_⟩
        have hend := (hfits o p _ _ _ h hrun).resolve_left fun hno => hno hd
        show address ≤ buffer ∧ buffer + g.sectors * fs.bytesPerSector ≤ address + length
        rw [hdirect hd]
        omega
    have hmoved : ∀ e ∈ readEffects (fs.inSector o) address g.bytes t,
        Recorded fs file dev address offset length e := by
      unfold readEffects
      split
      · next hd =>
        rw [if_pos hd] at hissued
        have hcopy : ∀ e ∈ [Effect.copy (t.bufferAddress + fs.inSector o) address g.bytes],
            Recorded fs file dev address offset length e :=
          List.forall_mem_singleton.2 ⟨rfl, hbytes⟩
        exact List.forall_mem_append.2 ⟨hissued, hcopy⟩
      · next hd =>
        rw [if_neg hd] at hissued
        exact hissued
    refine ⟨fun c' hc' => ?_, fun _ _ c' hc' => ?_⟩
    · subst hc'
      have hafter := List.forall_mem_append.2 ⟨hc, hissued⟩
      exact ⟨fun _ => hafter, fun _ => hafter⟩
    · have hafter : ∀ e ∈ c'.effects, Recorded fs file dev address offset length e := by
        subst hc'
        exact List.forall_mem_append.2 ⟨hc, hmoved⟩
      refine ⟨fun _ => hafter, fun _ => hafter, fun _ _ => hafter, fun next hne hnext => ?_⟩
      obtain ⟨hvisits, hstart'⟩ := h.advance hstart hrun hcluster hlinked hne hnext
      have hrest := ih hvisits hstart' hafter
      rwa [Nat.mul_mod_left] at hrest

end Record

/-! ## Runs that go too far -/

section Overran

variable {fs : Fat32} {file : FileInfo} {offset length o p n bytes sectors cluster fuel runs : Nat}
  {c : Call}

/-- The call with effects in front of those that it has recorded. -/
def withEarlier (effects : List Effect) (c : Call) : Call :=
  { c with effects := effects ++ c.effects }

theorem recordable_withEarlier : Recordable withEarlier := by
  intro v c effect
  show Call.mk c.walkHint (v ++ c.effects ++ [effect]) =
    Call.mk c.walkHint (v ++ (c.effects ++ [effect]))
  rw [List.append_assoc]

/-- A direct transfer ends at an address. -/
def Overran (last : Nat) (c : Call) : Prop :=
  ∃ t, Effect.direct t ∈ c.effects ∧ t.length ≠ 0 ∧ t.bufferAddress + t.length = last

/-- The runs keep what is recorded. -/
theorem Overran.readRuns {dev : Backend} {address dataOffset last : Nat} (h : Overran last c) :
    wp (fs.readRuns dev address length fuel runs cluster dataOffset p) (fun _ _ => True)
      (fun _ c' => Overran last c') c := by
  have hblind : Blind withEarlier (fs.readRuns dev address length fuel runs cluster dataOffset p) :=
    readRuns_blind recordable_withEarlier dev address length fuel runs cluster dataOffset p
  have hgrows := hblind c.effects ⟨c.walkHint, []⟩
  have hc : withEarlier c.effects ⟨c.walkHint, []⟩ = c := by
    show Call.mk c.walkHint (c.effects ++ []) = c
    rw [List.append_nil]
  rw [hc] at hgrows
  obtain ⟨t, ht, hlast⟩ := h
  have hkept : Overran last
      (fs.readRuns dev address length fuel runs cluster dataOffset p c).2 := by
    rw [hgrows]
    exact ⟨t, List.mem_append_left _ ht, hlast⟩
  unfold wp
  rcases hx : fs.readRuns dev address length fuel runs cluster dataOffset p c with ⟨_ | r, c'⟩
  · trivial
  · rw [hx] at hkept
    exact hkept

theorem RunFrom.sectors_ne (h : fs.RunFrom file o length n bytes sectors)
    (hpos : fs.bytesPerCluster ≠ 0) : sectors * fs.bytesPerSector ≠ 0 := by
  have hsector : fs.bytesPerSector ≠ 0 := right_ne_zero_of_mul hpos
  refine Nat.mul_ne_zero ?_ hsector
  cases h with
  | gap _ _ _ => exact Nat.mul_ne_zero (Nat.succ_ne_zero _) (left_ne_zero_of_mul hpos)
  | all _ _ _ => exact Nat.ne_of_gt (Nat.add_pos_left Nat.one_pos _)

/-- A run at the start of a sector ends where its last sector does. -/
theorem RunFrom.overran {pages : Nat} (h : fs.RunFrom file o length n bytes sectors)
    (hd : fs.inSector o = 0) (hstart : Start fs file o length cluster) :
    wp (fs.readRuns (pagesAt pages) 0 length fuel runs cluster (o % fs.bytesPerCluster) p)
      (fun _ _ => True) (fun _ c' => Overran (p + sectors * fs.bytesPerSector) c') c := by
  cases runs with
  | zero => trivial
  | succ runs =>
    refine hstart.wp_readRuns_run (fun _ => trivial) (fun hr => absurd h hr.not_runFrom)
      (fun ⟨_, hno⟩ => nomatch hno) fun g buffer t hg hneeded _ hdirect _ ht => ?_
    obtain ⟨j, hrun, -, -⟩ := hg.runFrom hneeded
    obtain ⟨-, -, hsectors⟩ := h.unique hrun
    refine ⟨fun c' _ => ⟨fun _ => trivial, fun hno => nomatch hno⟩, fun _ _ c' hc' => ?_⟩
    have hover : Overran (p + sectors * fs.bytesPerSector) c' := by
      rw [hc', readEffects, if_neg (not_not.2 hd)]
      refine ⟨t, List.mem_append_right _ (List.mem_singleton.2 rfl), ?_, ?_⟩
      · rw [ht]
        exact hrun.sectors_ne hstart.cluster_ne
      · rw [ht, hsectors]
        show buffer + g.sectors * fs.bytesPerSector = _
        rw [hdirect hd, Nat.zero_add]
    exact ⟨fun _ => trivial, fun _ => hover, fun _ _ => hover, fun _ _ _ => hover.readRuns⟩

/-- A read gets to every run of its request. -/
theorem Visits.reached {pages : Nat} {post : Option Nat → Call → Prop}
    (h : fs.Visits file offset length o p)
    (hpost : ∀ runs cluster c, Start fs file o length cluster →
      wp (fs.readRuns (pagesAt pages) 0 length fuel runs cluster (o % fs.bytesPerCluster) p)
        (fun _ _ => True) post c)
    (hstart : Start fs file offset length cluster) :
    wp (fs.readRuns (pagesAt pages) 0 length fuel runs cluster (offset % fs.bytesPerCluster) 0)
      (fun _ _ => True) post c := by
  induction h with
  | start => exact hpost runs cluster c hstart
  | @next o p n bytes sectors _ run more hchain ih =>
    refine ih fun runs cluster c hstart => ?_
    cases runs with
    | zero => trivial
    | succ runs =>
      refine hstart.wp_readRuns_run (fun _ => trivial) (fun hr => absurd run hr.not_runFrom)
        (fun ⟨_, hno⟩ => nomatch hno) fun g buffer t hg hneeded _ _ _ _ => ?_
      obtain ⟨j, hrun, hcluster, hlinked⟩ := hg.runFrom hneeded
      obtain ⟨rfl, rfl, -⟩ := run.unique hrun
      refine ⟨fun c' _ => ⟨fun _ => trivial, fun hno => nomatch hno⟩, fun _ _ c' _ =>
        ⟨fun _ => trivial, fun heq => absurd heq more, fun _ hnone => ?_, fun next _ hnext => ?_⟩⟩
      · rw [← Nat.add_assoc, chain, hlinked j (Nat.le_refl j), Option.bind_some, ← hcluster, hnone]
          at hchain
        cases hchain
      · have hrest := hpost runs next c' (hstart.next hlinked hcluster hnext)
        rwa [Nat.mul_mod_left] at hrest

end Overran

/-! ## Reads -/

section Reads

variable (fs : Fat32) (file : FileInfo)

/-- The byte is in the bounce pages of a transfer. -/
def Bounced (effects : List Effect) (a : Nat) : Prop :=
  ∃ t, Effect.bounce t ∈ effects ∧ t.bufferAddress ≤ a ∧ a < t.bufferAddress + t.length

/-- Whatever the device does and memory holds, a read changes no byte outside of its buffer, apart
from bounce pages. -/
def ReadsInside (offset length : Nat) : Prop :=
  ∀ (dev : Backend) (host : Host) (fuel address walkHint : Nat), fs.HintOk file walkHint →
    ∀ c, (fs.read file dev fuel address offset length ⟨walkHint, []⟩).2 = c →
      ∀ a, (a < address ∨ address + length ≤ a) → ¬Bounced c.effects a →
        (host.after dev c.effects).memory a = host.memory a

/-- The read does nothing, or each of its runs fits. -/
def InBuffer (offset length : Nat) : Prop :=
  2 ^ 64 ≤ offset + length ∨ (file.fileSize ≤ offset ∧ file.fileSize < offset + length) ∨
    fs.Fits file offset length

variable {fs file} {offset length : Nat}

/-- What every read records. -/
theorem read_recorded {dev : Backend} {fuel address : Nat} {c : Call}
    (hhint : fs.HintOk file c.walkHint) (heffects : c.effects = []) :
    wp (fs.read file dev fuel address offset length)
      (fun _ c' => ∀ e ∈ c'.effects, Recorded fs file dev address offset length e)
      (fun _ c' => ∀ e ∈ c'.effects, Recorded fs file dev address offset length e) c := by
  have hnone : ∀ c' : Call, c'.effects = c.effects →
      ∀ e ∈ c'.effects, Recorded fs file dev address offset length e := by
    intro c' hc' e he
    rw [hc', heffects] at he
    cases he
  exact wp_access hhint (fun _ => hnone c rfl) (fun _ _ => hnone c rfl) (fun _ => hnone c rfl)
    (fun c' _ _ hc' => hnone c' hc') fun _ cluster c' hstart _ hc' =>
      Visits.start.readRuns_recorded hstart (hnone c' hc')

theorem InBuffer.readsInside (h : fs.InBuffer file offset length) :
    fs.ReadsInside file offset length := by
  intro dev host fuel address walkHint hhint c hc a hout hbounced
  refine Host.memory_after (fun e he htouches => ?_) host
  have hnothing : 2 ^ 64 ≤ offset + length ∨
      (file.fileSize ≤ offset ∧ file.fileSize < offset + length) → c.effects = [] := by
    intro hno
    have hspec : wp (fs.access false file dev fuel address offset length)
        (fun _ c' => c'.effects = []) (fun _ c' => c'.effects = []) ⟨walkHint, []⟩ := by
      unfold access
      rw [wp_bind, wp_fits]
      refine ⟨fun hlt => ?_, fun _ => rfl⟩
      have hbeyond := hno.resolve_left (Nat.not_le.2 hlt)
      rw [if_pos ⟨hbeyond.2, hbeyond.1⟩]
      rfl
    rw [← hc]
    exact hspec.state
  have hrecorded : Recorded fs file dev address offset length e :=
    (read_recorded (c := ⟨walkHint, []⟩) hhint rfl).state e (hc ▸ he)
  rcases h with hno | hno | hfits
  · rw [hnothing (.inl hno)] at he
    cases he
  · rw [hnothing (.inr hno)] at he
    cases he
  · cases e with
    | direct t =>
      have hrange := hrecorded.2 hfits
      have hin := htouches.2
      omega
    | bounce t => exact hbounced ⟨t, he, htouches⟩
    | copy source target n =>
      obtain ⟨rfl, hn⟩ := hrecorded
      have hin : target ≤ a ∧ a < target + n := htouches
      omega

/-- On a sound volume a run that does not fit is read, and changes the byte in front of its end. -/
theorem ReadsInside.inBuffer (h : fs.ReadsInside file offset length) (hs : fs.Sound file) :
    fs.InBuffer file offset length := by
  by_contra hno
  unfold InBuffer Fits at hno
  push Not at hno
  obtain ⟨hsum, hbeyond, o, p, n, bytes, sectors, hvisits, hrun, hd, hend⟩ := hno
  have hover : wp (fs.read file (pagesAt (p + sectors * fs.bytesPerSector)) iterations 0 offset
      length) (fun _ _ => True)
      (fun _ c => Overran (p + sectors * fs.bytesPerSector) c) ⟨0, []⟩ := by
    refine wp_access hintOk_zero (fun _ => trivial)
      (fun hle hlt => absurd hlt (Nat.not_lt.2 (hbeyond hle))) (fun _ => trivial)
      (fun _ hlost _ _ => ?_)
      fun _ cluster c hstart _ _ => ?_
    · have hsome := hvisits.chain_isSome hrun.chain_isSome
      rw [hlost] at hsome
      cases hsome
    · exact hvisits.reached (fun _ _ _ hstart => hrun.overran hd hstart) hstart
  have hreturns : wp (fs.read file (pagesAt (p + sectors * fs.bytesPerSector)) iterations 0 offset
      length) (fun _ _ => False) (fun _ _ => True) ⟨0, []⟩ :=
    access_returns (Nat.zero_le _) hsum hs hintOk_zero (Nat.le_refl _)
  have hrecorded : wp (fs.read file (pagesAt (p + sectors * fs.bytesPerSector)) iterations 0 offset
      length) _ _ ⟨0, []⟩ := read_recorded hintOk_zero rfl
  rcases hread : fs.read file (pagesAt (p + sectors * fs.bytesPerSector)) iterations 0 offset length
    ⟨0, []⟩ with ⟨_ | r, c⟩
  · exact hreturns.error hread
  obtain ⟨t, ht, hlength, hlast⟩ := hover.ok hread
  have hrecorded := hrecorded.ok hread
  -- The bounce pages begin where the run ends, so they do not have the byte.
  have hbounced : ∀ t', Effect.bounce t' ∈ c.effects →
      t'.bufferAddress = p + sectors * fs.bytesPerSector := by
    intro t' ht'
    obtain ⟨-, pages, hpages⟩ := hrecorded _ ht'
    exact (Option.some.inj hpages).symm
  have hkept := h _ blank _ 0 0 hintOk_zero c (by rw [hread])
    (p + sectors * fs.bytesPerSector - 1) (.inr (by omega)) fun ⟨t', ht', hle, _⟩ => by
      have := hbounced t' ht'
      omega
  have hreads : ∀ e ∈ c.effects, OnlyDirect (p + sectors * fs.bytesPerSector - 1) e := by
    intro e he
    cases e with
    | direct t' => exact (hrecorded _ he).1
    | bounce t' =>
      refine ⟨(hrecorded _ he).1, fun hin => ?_⟩
      have := hbounced t' he
      omega
    | copy source target k =>
      obtain ⟨rfl, hk⟩ := hrecorded _ he
      intro hin
      omega
  have hmarked : (blank.after (pagesAt (p + sectors * fs.bytesPerSector)) c.effects).memory
      (p + sectors * fs.bytesPerSector - 1) = 1 :=
    Host.memory_marked rfl hreads (.inr ⟨t, ht, by omega, by omega⟩)
  rw [hmarked] at hkept
  exact absurd (show (1 : UInt8) = 0 from hkept) (by decide)

/-- A read whose runs fit changes nothing outside of its buffer. On a sound volume these are the
only reads that do not. -/
theorem read_inside_iff (fs : Fat32) (file : FileInfo) (offset length : Nat) :
    (fs.InBuffer file offset length → fs.ReadsInside file offset length) ∧
      (fs.Sound file → (fs.ReadsInside file offset length ↔ fs.InBuffer file offset length)) :=
  ⟨InBuffer.readsInside, fun hs => ⟨fun h => h.inBuffer hs, InBuffer.readsInside⟩⟩

/-- A request that is one run fits if the run does. -/
theorem RunFrom.fits {n sectors : Nat}
    (h : fs.RunFrom file offset (clamped file offset length) n (clamped file offset length) sectors)
    (hfits : fs.inSector offset ≠ 0 ∨ sectors * fs.bytesPerSector ≤ length) :
    fs.Fits file offset length := by
  intro o p n' bytes' sectors' hvisits
  obtain ⟨rfl, rfl⟩ : o = offset ∧ p = 0 := by
    induction hvisits with
    | start => exact ⟨rfl, rfl⟩
    | next _ run more _ ih =>
      obtain ⟨rfl, rfl⟩ := ih
      exact absurd (by rw [Nat.zero_add, ← (h.unique run).2.1]) more
  intro hrun
  rw [Nat.zero_add, ← (h.unique hrun).2.2]
  exact hfits

theorem read_inside_split : splitVolume.ReadsInside splitFile 0 1024 := by
  refine (read_inside_iff splitVolume splitFile 0 1024).1 (.inr (.inr ?_))
  have hlinked : Linked splitVolume splitFile 2 (0 / splitVolume.bytesPerCluster) 0 :=
    linked_zero (by decide)
  exact (RunFrom.all hlinked (.inl rfl) (by decide)).fits (.inr (by decide))

/-- A read of one byte, and a read of none, transfer a sector to the buffer. -/
theorem read_overruns : splitVolume.Sound splitFile ∧ ¬splitVolume.ReadsInside splitFile 0 1 ∧
    ¬splitVolume.ReadsInside splitFile 0 0 := by
  have hrecord : ∀ length ∈ [0, 1],
      (splitVolume.read splitFile reliable 1 0 0 length ⟨0, []⟩).2.effects =
        [.direct ⟨false, 0, splitVolume.clusterAddress 2, 512⟩] := by decide +kernel
  have hchanged : ∀ length ∈ [0, 1], ¬splitVolume.ReadsInside splitFile 0 length := by
    intro length hlength h
    have hle : length ≤ 1 := by fin_cases hlength <;> decide
    have hkept := h reliable blank 1 0 0 hintOk_zero _ rfl 1 (.inr (by omega))
    rw [hrecord length hlength] at hkept
    have hsame := hkept fun ⟨t, ht, _⟩ => nomatch List.mem_singleton.1 ht
    exact absurd hsame (by decide +kernel)
  exact ⟨splitVolume_sound, hchanged 1 (by decide), hchanged 0 (by decide)⟩

end Reads

end Fat32

end MiniVisor.Fat
