import MiniVisor.Fat.Write

/-!
# Which requests are accepted

A read or a write returns a count when its runs come out at the length. `Taken` says for which
requests they do (`Start.runs_taken`), and `access_accepted_iff` is the result for calls.

A write of whole sectors to a part of the file, on a device that does not fail, should be accepted:
`write` returns its length. `write_accepted_iff` says when it is. There are two conditions.

The write must not start at the second sector of a cluster. The comparison that skips sectors is a
strict one, so for that sector nothing is skipped, and what is left of the offset looks like an
offset into a sector.

And the write must take one run of adjacent clusters, or end with a cluster behind which the chain
has a `Gap`. The outer loop starts every run with the whole length. So the bytes that are written
add up to the length only if every run ends at a gap; when one does, the position of the gap
decides.
-/

set_option autoImplicit false

namespace MiniVisor.Fat

open MiniVisor.Lib

/-- A device that does not fail, with the bounce pages that reads need. -/
structure Backend.Dependable (dev : Backend) (isWrite : Bool) : Prop where
  transfer : ∀ t, dev.transfer t = true
  pages : isWrite = false → ∀ n, dev.allocateDmaPages n ≠ none

namespace Fat32

section Definitions

variable (fs : Fat32) (file : FileInfo)

/-- The chain goes on behind a cluster of the file, with a cluster that is not adjacent. -/
def Gap (i : Nat) : Prop :=
  ∃ last next, fs.chain file.entryCluster i = some last ∧ fs.getNextCluster last = some next ∧
    next ≠ last + 1

/-- The write starts at the first sector of a cluster or behind the second one, and its clusters are
adjacent, or it ends with a cluster in front of a gap. -/
def Accepts (offset length : Nat) : Prop :=
  offset % fs.bytesPerCluster ≠ fs.bytesPerSector ∧
    ((∃ cluster, Linked fs file cluster (offset / fs.bytesPerCluster)
        ((length - 1) / fs.bytesPerCluster)) ∨
      ∃ n, (n + 1) * fs.bytesPerCluster = length ∧
        fs.Gap file (offset / fs.bytesPerCluster + n))

end Definitions

variable {fs : Fat32} {file : FileInfo} {offset length : Nat}

/-! ## Gaps -/

theorem Gap.chain_isSome {i : Nat} (h : fs.Gap file i) :
    (fs.chain file.entryCluster (i + 1)).isSome := by
  obtain ⟨last, next, hlast, hnext, -⟩ := h
  rw [chain, hlast, Option.bind_some, hnext]
  rfl

/-- There is no gap inside a run. -/
theorem Linked.not_gap {c₀ first j i : Nat} (h : Linked fs file c₀ first j) (hi : i < j) :
    ¬fs.Gap file (first + i) := by
  rintro ⟨last, next, hlast, hnext, hgap⟩
  exact hgap (h.adjacent hi hlast hnext)

/-- There is no gap behind the start of the last run of a chain. -/
theorem Linked.not_gap_of_end {c₀ first j : Nat} (h : Linked fs file c₀ first j)
    (hend : fs.getNextCluster (c₀ + j) = none) (i : Nat) : ¬fs.Gap file (first + i) := by
  intro hgap
  rcases Nat.lt_or_ge i j with hlt | hge
  · exact h.not_gap hlt hgap
  · have hnone : fs.chain file.entryCluster (first + j + 1) = none := by
      rw [chain, h j (Nat.le_refl j), Option.bind_some, hend]
    have hsome := hgap.chain_isSome
    rw [chain_none_of_le hnone (by omega)] at hsome
    cases hsome

/-! ## Sectors -/

theorem bytesPerSector_dvd_cluster (fs : Fat32) : fs.bytesPerSector ∣ fs.bytesPerCluster :=
  Nat.dvd_mul_left _ _

/-- An aligned write has an offset into a sector exactly if it starts at the second sector. -/
theorem inSector_eq_zero_iff (hpos : fs.bytesPerSector ≠ 0) (hdvd : fs.bytesPerSector ∣ offset) :
    fs.inSector offset = 0 ↔ offset % fs.bytesPerCluster ≠ fs.bytesPerSector := by
  have hmod : fs.bytesPerSector ∣ offset % fs.bytesPerCluster :=
    (Nat.dvd_mod_iff fs.bytesPerSector_dvd_cluster).2 hdvd
  rcases Nat.lt_or_ge fs.bytesPerSector (offset % fs.bytesPerCluster) with hlt | hle
  · rw [(skips_of_lt hlt).2, Nat.mod_eq_zero_of_dvd hmod]
    exact iff_of_true rfl (Nat.ne_of_gt hlt)
  · rw [(skips_of_le hle).2]
    refine ⟨fun hz heq => hpos (heq.symm.trans hz), fun hne => ?_⟩
    exact Nat.eq_zero_of_dvd_of_lt hmod (Nat.lt_of_le_of_ne hle hne)

/-- Two numbers of whole sectors do not differ by less than a sector. -/
theorem add_sector_le {m n : Nat} (hm : fs.bytesPerSector ∣ m) (hn : fs.bytesPerSector ∣ n)
    (hlt : m < n) : m + fs.bytesPerSector ≤ n := by
  have hle := Nat.le_of_dvd (Nat.sub_pos_of_lt hlt) (Nat.dvd_sub hn hm)
  omega

/-! ## Runs -/

variable {dev : Backend} {isWrite : Bool} {address cluster fuel runs pointer k : Nat} {c : Call}

/-- The gaps behind a run that does not end at the length. -/
theorem Linked.gap_iff {c₀ j : Nat} (h : Linked fs file c₀ k j)
    (hne : length ≠ pointer + (j + 1) * fs.bytesPerCluster) :
    (∃ n, pointer + (j + 1) * fs.bytesPerCluster + (n + 1) * fs.bytesPerCluster = length ∧
        fs.Gap file (k + j + 1 + n)) ↔
      ∃ n, pointer + (n + 1) * fs.bytesPerCluster = length ∧ fs.Gap file (k + n) := by
  have hsum : ∀ n, pointer + (j + 1) * fs.bytesPerCluster + (n + 1) * fs.bytesPerCluster =
      pointer + (j + 1 + n + 1) * fs.bytesPerCluster := fun n => by ring
  have hat : ∀ n, k + j + 1 + n = k + (j + 1 + n) := fun n => by omega
  constructor
  · rintro ⟨n, hn, hgap⟩
    exact ⟨j + 1 + n, hsum n ▸ hn, hat n ▸ hgap⟩
  · rintro ⟨n, hn, hgap⟩
    -- The gap is not inside this run, and not at its end.
    have hge : j ≤ n := Nat.not_lt.1 fun hlt => h.not_gap hlt hgap
    have hlt : j < n := Nat.lt_of_le_of_ne hge fun heq => hne (heq ▸ hn.symm)
    obtain ⟨m, rfl⟩ := Nat.exists_eq_add_of_le hlt
    refine ⟨m, (hsum m).trans hn, ?_⟩
    rw [hat]
    exact hgap

/-- The outer loop of `read` or of `write`. -/
def runsOf (fs : Fat32) (isWrite : Bool) (dev : Backend)
    (address length fuel runs cluster dataOffset pointer : Nat) : Program Call (Option Nat) :=
  if isWrite then fs.writeRuns dev address length fuel runs cluster dataOffset pointer
  else fs.readRuns dev address length fuel runs cluster dataOffset pointer

theorem runsOf_zero {dataOffset : Nat} {post : Option Nat → Call → Prop} :
    wp (fs.runsOf isWrite dev address length fuel 0 cluster dataOffset pointer) (fun _ _ => True)
      post c := by
  cases isWrite <;> trivial

/-- One round of the outer loop of a read or a write. -/
theorem Start.wp_runs {post : Option Nat → Call → Prop} (h : Start fs file offset length cluster)
    (hrefused : Refused fs file cluster (offset / fs.bytesPerCluster) (fs.inSector offset) length
      isWrite → post none c)
    (hunaligned : isWrite = true → fs.inSector offset ≠ 0 → post none c)
    (hbroken : ¬dev.Dependable isWrite → ∀ c', post none c')
    (hran : ∀ g buffer t, Ran fs file isWrite cluster (offset / fs.bytesPerCluster)
        (fs.inSector offset) (fs.skips offset) length g → 2 ≤ cluster →
      (fs.inSector offset = 0 → buffer = address + pointer) →
      (fs.inSector offset ≠ 0 → isWrite = false ∧ pointer = 0) →
      t = fs.transferOf isWrite buffer cluster offset g → dev.transfer t = true →
      ∀ c', c' = { c with
          effects := c.effects ++ readEffects (fs.inSector offset) address g.bytes t } →
        (length = pointer + g.bytes → post (some length) c') ∧
        (length ≠ pointer + g.bytes → fs.getNextCluster g.cluster = none → post none c') ∧
        ∀ next, length ≠ pointer + g.bytes → fs.getNextCluster g.cluster = some next →
          wp (fs.runsOf isWrite dev address length fuel runs next 0 (pointer + g.bytes))
            (fun _ _ => True) post c') :
    wp (fs.runsOf isWrite dev address length fuel (runs + 1) cluster
      (offset % fs.bytesPerCluster) pointer) (fun _ _ => True) post c := by
  have hfailed : ∀ {t : Transfer}, dev.transfer t = false → ¬dev.Dependable isWrite :=
    fun hno hdev => nomatch hno.symm.trans (hdev.transfer _)
  cases isWrite with
  | true =>
    refine h.wp_writeRuns hrefused (hunaligned rfl) fun g hg htwo hzero t ht c' hc' => ?_
    have heffects : readEffects (fs.inSector offset) address g.bytes t = [.direct t] :=
      if_neg (not_not.2 hzero)
    rw [← hzero] at hg
    have hnext := fun hyes => hran g (address + pointer) t hg htwo (fun _ => rfl)
      (fun hno => absurd hzero hno) ht hyes c' (by rw [heffects]; exact hc')
    exact ⟨fun hno => hbroken (hfailed hno) c', fun hyes => (hnext hyes).1,
      fun hyes => (hnext hyes).2.1, fun next hyes => (hnext hyes).2.2 next⟩
  | false =>
    refine h.wp_readRuns hrefused (fun hno => hbroken (fun hdev => ?_) c)
      (fun t c' hno => hbroken (hfailed hno) c') fun g buffer hg htwo hdirect hfirst hyes c' hc' =>
      ?_
    · obtain ⟨pages, hnone⟩ := hno
      exact hdev.pages rfl pages hnone
    · exact hran g buffer _ hg htwo hdirect (fun hd => ⟨rfl, hfirst hd⟩) rfl hyes c' hc'

/-- One round at the start of a cluster. -/
theorem Start.wp_runs_at {post : Option Nat → Call → Prop}
    (h : Start fs file (k * fs.bytesPerCluster) length cluster)
    (hrefused : Refused fs file cluster k 0 length isWrite → post none c)
    (hbroken : ¬dev.Dependable isWrite → ∀ c', post none c')
    (hran : ∀ g t, Ran fs file isWrite cluster k 0 0 length g → 2 ≤ cluster →
      t = ⟨isWrite, address + pointer, fs.clusterAddress cluster, g.sectors * fs.bytesPerSector⟩ →
      dev.transfer t = true → ∀ c', c' = { c with effects := c.effects ++ [.direct t] } →
        (length = pointer + g.bytes → post (some length) c') ∧
        (length ≠ pointer + g.bytes → fs.getNextCluster g.cluster = none → post none c') ∧
        ∀ next, length ≠ pointer + g.bytes → fs.getNextCluster g.cluster = some next →
          wp (fs.runsOf isWrite dev address length fuel runs next 0 (pointer + g.bytes))
            (fun _ _ => True) post c') :
    wp (fs.runsOf isWrite dev address length fuel (runs + 1) cluster 0 pointer) (fun _ _ => True)
      post c := by
  obtain ⟨hskips, hsector⟩ := skips_mul fs k
  have hmod : k * fs.bytesPerCluster % fs.bytesPerCluster = 0 := Nat.mul_mod_left _ _
  have hdiv : k * fs.bytesPerCluster / fs.bytesPerCluster = k :=
    Nat.mul_div_cancel _ (Nat.pos_of_ne_zero h.cluster_ne)
  suffices hround : wp (fs.runsOf isWrite dev address length fuel (runs + 1) cluster
      (k * fs.bytesPerCluster % fs.bytesPerCluster) pointer) (fun _ _ => True) post c by
    rwa [hmod] at hround
  refine h.wp_runs (fun hr => hrefused ?_) (fun _ hno => absurd hsector hno) hbroken
    fun g buffer t hg htwo hdirect _ ht hyes c' hc' => ?_
  · rwa [hdiv, hsector] at hr
  · rw [hdiv, hskips, hsector] at hg
    have heffects : readEffects (fs.inSector (k * fs.bytesPerCluster)) address g.bytes t =
        [.direct t] := if_neg (not_not.2 hsector)
    rw [hdirect hsector, transferOf, hskips, Nat.zero_mul, Nat.add_zero] at ht
    exact hran g t hg htwo ht hyes c' (by rw [← heffects]; exact hc')

/-! ## Requests that are taken -/

/-- A result says whether a condition holds: it is a count only if it does, and on a dependable
device it is missing only if it does not. -/
def Answers (dev : Backend) (isWrite : Bool) (P : Prop) (n : Nat) (r : Option Nat) : Prop :=
  r = some n ∧ P ∨ r = none ∧ (dev.Dependable isWrite → ¬P)

section Answers

variable {P Q : Prop} {n : Nat} {r : Option Nat}

theorem answers_some (h : P) : Answers dev isWrite P n (some n) := .inl ⟨rfl, h⟩

theorem answers_none (h : dev.Dependable isWrite → ¬P) : Answers dev isWrite P n none :=
    .inr ⟨rfl, h⟩

theorem Answers.congr (h : Answers dev isWrite P n r) (hPQ : P ↔ Q) :
    Answers dev isWrite Q n r := by
  rwa [← hPQ]

theorem Answers.eq_some_iff (h : Answers dev isWrite P n r) (hdev : dev.Dependable isWrite) :
    r = some n ↔ P := by
  rcases h with ⟨hr, hP⟩ | ⟨rfl, hno⟩
  · exact iff_of_true hr hP
  · exact iff_of_false (fun hno => nomatch hno) (hno hdev)

end Answers

/-- The runs behind the first one come out at the length exactly if they do so at a gap. -/
theorem Start.runs_later_taken (h : Start fs file (k * fs.bytesPerCluster) length cluster)
    (hpointer : 0 < pointer)
    (hwhole : isWrite = true → pointer ≤ length → fs.bytesPerCluster ∣ pointer) :
    wp (fs.runsOf isWrite dev address length fuel runs cluster 0 pointer) (fun _ _ => True)
      (fun r _ => Answers dev isWrite
        (∃ n, pointer + (n + 1) * fs.bytesPerCluster = length ∧ fs.Gap file (k + n)) length r)
          c := by
  have hp := Nat.pos_of_ne_zero h.cluster_ne
  have hle := h.sector_le
  induction runs generalizing k cluster pointer c with
  | zero => exact runsOf_zero
  | succ runs ih =>
    refine h.wp_runs_at (fun hr => answers_none fun _ => ?_) (fun hno _ => answers_none fun hdev =>
      absurd hdev hno) fun g t hg _ _ _ c' _ => ?_
    · rintro ⟨n, hn, hgap⟩
      cases hr with
      | short j linked hwrite hshort =>
        -- The length is a number of whole clusters.
        have hcluster : fs.bytesPerCluster ∣ length :=
          hn ▸ Nat.dvd_add (hwhole hwrite (by omega)) (Nat.dvd_mul_left _ _)
        have hsector : fs.bytesPerSector ∣ length :=
          fs.bytesPerSector_dvd_cluster.trans hcluster
        rcases hshort with ⟨-, hlt⟩ | ⟨hlow, hhigh⟩
        · exact absurd (Nat.le_of_dvd (by omega) hsector) (Nat.not_le.2 hlt)
        · exact absurd (add_sector_le (fs.bytesPerSector_dvd_cluster.mul_left j) hsector hlow)
            (Nat.not_le.2 hhigh)
      | ended j linked bound hend => exact linked.not_gap_of_end hend n hgap
    cases hg with
    | all j linked whole bound hcluster bytes sectors backup skips fits =>
      -- The run has the whole length, so the pointer is too far from here on.
      have hnever : ¬∃ n, pointer + (n + 1) * fs.bytesPerCluster = length ∧
        fs.Gap file (k + n) := by
        rintro ⟨n, hn, hgap⟩
        have hlt : (n + 1) * fs.bytesPerCluster < (j + 1) * fs.bytesPerCluster := by omega
        have hnj := Nat.lt_of_mul_lt_mul_right hlt
        exact linked.not_gap (by omega) hgap
      refine ⟨fun heq => absurd heq (by omega), fun _ _ => answers_none fun _ => hnever,
        fun next _ hnext => ?_⟩
      refine wp_mono (ih (h.next linked hcluster hnext) (by omega)
        (fun _ hle => absurd hle (by omega))) (fun _ _ _ => trivial) fun r _ hr => ?_
      refine hr.congr (iff_of_false ?_ hnever)
      rintro ⟨n, hn, -⟩
      omega
    | gap j next' linked bound hnext' hgap hcluster bytes sectors backup skips fits =>
      have hat : fs.Gap file (k + j) := ⟨_, next', linked j (Nat.le_refl j), hnext', hgap⟩
      rw [Nat.add_zero] at bytes
      refine ⟨fun heq => answers_some ⟨j, by omega, hat⟩, fun _ hnone => ?_,
        fun next hne hnext => ?_⟩
      · rw [hcluster, hnext'] at hnone
        cases hnone
      · have hmore : isWrite = true → pointer + g.bytes ≤ length →
            fs.bytesPerCluster ∣ pointer + g.bytes := fun hw hle' =>
          Nat.dvd_add (hwhole hw (by omega)) (bytes ▸ Nat.dvd_mul_left _ _)
        refine wp_mono (ih (h.next linked hcluster hnext) (by omega) hmore) (fun _ _ _ => trivial)
          fun r _ hr => ?_
        rw [bytes] at hr hne
        exact hr.congr (linked.gap_iff hne)

/-- The runs of a request come out at its length: its clusters are adjacent, or it ends with a
cluster in front of a gap. A write starts at a sector and has no less than a sector in its last
cluster. -/
def Taken (fs : Fat32) (file : FileInfo) (isWrite : Bool) (offset length : Nat) : Prop :=
  (isWrite = true → fs.inSector offset = 0 ∧
    (length - 1) / fs.bytesPerCluster * fs.bytesPerCluster + fs.bytesPerSector ≤ length) ∧
  ((∃ cluster, Linked fs file cluster (offset / fs.bytesPerCluster)
      ((length + fs.inSector offset - 1) / fs.bytesPerCluster)) ∨
    ∃ n, (n + 1) * fs.bytesPerCluster = length + fs.inSector offset ∧
      fs.Gap file (offset / fs.bytesPerCluster + n))

theorem inSector_lt (hpos : fs.bytesPerCluster ≠ 0) (offset : Nat) :
    fs.inSector offset < fs.bytesPerCluster := by
  have hsum := skips_add_inSector fs offset
  have hlt := Nat.mod_lt offset (Nat.pos_of_ne_zero hpos)
  omega

/-- A request that is taken is not refused. -/
theorem Taken.not_refused (h : fs.Taken file isWrite offset length)
    (hpos : fs.bytesPerCluster ≠ 0) (hle : fs.bytesPerSector ≤ fs.bytesPerCluster)
    (hr : Refused fs file cluster (offset / fs.bytesPerCluster) (fs.inSector offset)
      length isWrite) : False := by
  have hp := Nat.pos_of_ne_zero hpos
  cases hr with
  | short j linked hwrite hshort =>
    obtain ⟨hzero, hlast⟩ := h.1 hwrite
    rw [hzero, Nat.add_zero] at hshort
    rcases hshort with ⟨-, hlt⟩ | ⟨hlow, hhigh⟩
    · omega
    · have hj : (length - 1) / fs.bytesPerCluster = j := by
        rw [Nat.div_eq_iff hp]
        omega
      rw [hj] at hlast
      omega
  | ended j linked bound hend =>
    rcases h.2 with ⟨c₀, hall⟩ | ⟨n, -, hgap⟩
    · have hlink := hall (j + 1) (Nat.le_div_iff_mul_le hp |>.2 (by omega))
      rw [← Nat.add_assoc, chain, linked j (Nat.le_refl j), Option.bind_some, hend] at hlink
      cases hlink
    · exact linked.not_gap_of_end hend n hgap

/-- The runs of a request come out at its length exactly if it is taken. -/
theorem Start.runs_taken (h : Start fs file offset length cluster) :
    wp (fs.runsOf isWrite dev address length fuel runs cluster (offset % fs.bytesPerCluster) 0)
      (fun _ _ => True) (fun r _ => Answers dev isWrite (fs.Taken file isWrite offset length)
        length r) c := by
  have hp := Nat.pos_of_ne_zero h.cluster_ne
  have hle := h.sector_le
  have hsector := Nat.pos_of_ne_zero h.sector_ne
  have hd := inSector_lt h.cluster_ne offset
  cases runs with
  | zero => exact runsOf_zero
  | succ runs =>
    refine h.wp_runs (fun hr => answers_none fun _ htaken => htaken.not_refused h.cluster_ne hle hr)
      (fun hw hno => answers_none fun _ htaken => hno (htaken.1 hw).1)
      (fun hno _ => answers_none fun hdev => absurd hdev hno)
      fun g buffer t hg _ _ hfirst _ _ c' _ => ?_
    have haligned : isWrite = true → fs.inSector offset = 0 := by
      intro hw
      by_contra hno
      exact nomatch hw.symm.trans (hfirst hno).1
    cases hg with
    | all j linked whole bound hcluster bytes sectors backup skips fits =>
      have hend : length = 0 + g.bytes := by rw [bytes, Nat.zero_add]
      refine ⟨fun _ => answers_some ⟨fun hw => ⟨haligned hw, ?_⟩, .inl ⟨cluster, fun i hi => ?_⟩⟩,
        fun hne => absurd hend hne, fun _ hne => absurd hend hne⟩
      · have hwhole := whole hw
        rw [haligned hw, Nat.add_zero] at hwhole bound
        rw [Nat.add_one_mul] at bound
        have hj : (length - 1) / fs.bytesPerCluster = j := by
          rw [Nat.div_eq_iff hp]
          omega
        rwa [hj]
      · have hmul : 0 < (j + 1) * fs.bytesPerCluster := Nat.mul_pos (Nat.succ_pos j) hp
        have hlt : (length + fs.inSector offset - 1) / fs.bytesPerCluster < j + 1 :=
          Nat.div_lt_of_lt_mul (by rw [Nat.mul_comm]; omega)
        exact linked i (by omega)
    | gap j next' linked bound hnext' hgap hcluster bytes sectors backup skips fits =>
      have hat : fs.Gap file (offset / fs.bytesPerCluster + j) :=
        ⟨_, next', linked j (Nat.le_refl j), hnext', hgap⟩
      have hmul : fs.bytesPerCluster ≤ (j + 1) * fs.bytesPerCluster :=
        Nat.le_mul_of_pos_left _ (Nat.succ_pos j)
      refine ⟨fun heq => absurd heq (by omega), fun _ hnone => ?_, fun next hne hnext => ?_⟩
      · rw [hcluster, hnext'] at hnone
        cases hnone
      have hmore : isWrite = true → 0 + g.bytes ≤ length → fs.bytesPerCluster ∣ 0 + g.bytes := by
        intro hw _
        rw [haligned hw, Nat.add_zero] at bytes
        rw [Nat.zero_add, bytes]
        exact Nat.dvd_mul_left _ _
      refine wp_mono ((h.next linked hcluster hnext).runs_later_taken (by omega) hmore)
        (fun _ _ _ => trivial) fun r _ hr => hr.congr ?_
      have hne' : length + fs.inSector offset ≠ 0 + (j + 1) * fs.bytesPerCluster := by omega
      have hgaps := linked.gap_iff hne'
      constructor
      · rintro ⟨n, hn, hgap'⟩
        obtain ⟨m, hm, hgap''⟩ := hgaps.1 ⟨n, by omega, hgap'⟩
        rw [Nat.zero_add] at hm
        refine ⟨fun hw => ⟨haligned hw, ?_⟩, .inr ⟨m, hm, hgap''⟩⟩
        rw [haligned hw, Nat.add_zero] at hm
        have hlast : (length - 1) / fs.bytesPerCluster = m := by
          rw [Nat.div_eq_iff hp]
          rw [Nat.add_one_mul] at hm
          omega
        rw [hlast]
        rw [Nat.add_one_mul] at hm
        omega
      · rintro ⟨-, ⟨c₀, hall⟩ | ⟨n, hn, hgap'⟩⟩
        · -- The gap that ended the run is inside the request.
          have hle' : j + 1 ≤ (length + fs.inSector offset - 1) / fs.bytesPerCluster :=
            (Nat.le_div_iff_mul_le hp).2 (by omega)
          exact absurd hat (hall.not_gap hle')
        · obtain ⟨m, hm, hgap''⟩ := hgaps.2 ⟨n, by omega, hgap'⟩
          exact ⟨m, by omega, hgap''⟩

/-- A request that can return a count: it is behind the end of the file, or its part in the file is
taken. -/
def Accepted (fs : Fat32) (file : FileInfo) (isWrite : Bool) (offset length : Nat) : Prop :=
  (file.fileSize ≤ offset ∧ file.fileSize < offset + length) ∨
    fs.Taken file isWrite offset (clamped file offset length)

theorem Taken.chain_isSome (h : fs.Taken file isWrite offset length) :
    (fs.chain file.entryCluster (offset / fs.bytesPerCluster)).isSome := by
  rcases h.2 with ⟨c₀, hall⟩ | ⟨n, -, last, next, hlast, -⟩
  · exact Option.isSome_of_eq_some (hall 0 (Nat.zero_le _))
  · by_contra hno
    rw [Option.not_isSome_iff_eq_none] at hno
    exact nomatch hlast.symm.trans (chain_none_of_le hno (Nat.le_add_right _ _))

/-- A request behind the end of the file returns at once. -/
theorem access_beyond (hbeyond : file.fileSize ≤ offset ∧ file.fileSize < offset + length) :
    wp (fs.access isWrite file dev fuel address offset length) (fun _ _ => True)
      (fun r _ => r = some 0) c := by
  unfold access
  simp only [wp_bind, wp_fits, wp_ite, wp_pure]
  exact ⟨fun _ => ⟨fun _ => trivial, fun hno => absurd hbeyond.symm hno⟩, fun _ => trivial⟩

/-- A call returns a count exactly if the request is accepted, as far as the device does not fail.
-/
theorem access_answers (hhint : fs.HintOk file c.walkHint) :
    wp (fs.access isWrite file dev fuel address offset length) (fun _ _ => True)
      (fun r _ => Answers dev isWrite (fs.Accepted file isWrite offset length)
        (clamped file offset length) r) c := by
  by_cases hbeyond : file.fileSize ≤ offset ∧ file.fileSize < offset + length
  · refine wp_mono (access_beyond hbeyond) (fun _ _ _ => trivial) fun r _ hr => ?_
    have hnone : clamped file offset length = 0 := by
      unfold clamped
      omega
    rw [hr, hnone]
    exact answers_some (.inl hbeyond)
  have htaken : fs.Taken file isWrite offset (clamped file offset length) ↔
      fs.Accepted file isWrite offset length := ⟨.inr, fun hacc => hacc.resolve_left hbeyond⟩
  refine wp_access hhint (fun _ => trivial) (fun hlow hhigh => absurd ⟨hlow, hhigh⟩ hbeyond)
    (fun _ => trivial) (fun _ hlost _ _ => ?_) fun _ cluster c' hstart _ _ => ?_
  · refine answers_none fun _ hacc => ?_
    have hsome := (htaken.2 hacc).chain_isSome
    rw [hlost] at hsome
    cases hsome
  · exact wp_mono hstart.runs_taken (fun _ _ _ => trivial) fun r _ hr => hr.congr htaken

/-- On a sound volume and a dependable device, a call ends with its count exactly if the request is
accepted. -/
theorem access_accepted_iff (hs : fs.Sound file) (hdev : dev.Dependable isWrite)
    (haddress : address ≤ 2 ^ 63) (hsum : offset + length < 2 ^ 64) (hfuel : iterations ≤ fuel)
    (hhint : fs.HintOk file c.walkHint) :
    wp (fs.access isWrite file dev fuel address offset length) (fun _ _ => False)
      (fun r _ => r = some (clamped file offset length)) c ↔
        fs.Accepted file isWrite offset length := by
  have hreturns : wp (fs.access isWrite file dev fuel address offset length) (fun _ _ => False)
      (fun _ _ => True) c := access_returns haddress hsum hs hhint hfuel
  refine wp_iff_of_total (wp_mono (wp_and hreturns (access_answers hhint)) (fun _ _ h => h.1)
    fun _ _ h => h.2.eq_some_iff hdev)

/-! ## Writes -/

/-- For whole sectors, a write has no less than a sector in its last cluster. -/
theorem taken_iff_accepts (hpos : fs.bytesPerSector ≠ 0) (hoffset : fs.bytesPerSector ∣ offset)
    (hdvd : fs.bytesPerSector ∣ length) (hlength : 0 < length) :
    fs.Taken file true offset length ↔ fs.Accepts file offset length := by
  have haligned := inSector_eq_zero_iff hpos hoffset
  have hlast : (length - 1) / fs.bytesPerCluster * fs.bytesPerCluster +
    fs.bytesPerSector ≤ length := by
    refine add_sector_le (fs.bytesPerSector_dvd_cluster.mul_left _) hdvd ?_
    have hle := Nat.div_mul_le_self (length - 1) fs.bytesPerCluster
    omega
  unfold Taken Accepts
  constructor
  · rintro ⟨hwrite, hruns⟩
    obtain ⟨hzero, -⟩ := hwrite rfl
    rw [hzero, Nat.add_zero] at hruns
    exact ⟨haligned.1 hzero, hruns⟩
  · rintro ⟨hne, hruns⟩
    have hzero := haligned.2 hne
    rw [hzero, Nat.add_zero]
    exact ⟨fun _ => ⟨rfl, hlast⟩, hruns⟩

/-- A write of whole sectors to a part of the file ends, on a sound volume and a device that does
not fail, and it returns its length exactly under the two conditions. -/
theorem write_accepted_iff (hs : fs.Sound file) (hoffset : fs.bytesPerSector ∣ offset)
    (hdvd : fs.bytesPerSector ∣ length) (hlength : 0 < length)
    (hin : offset + length ≤ file.fileSize) {dev : Backend} (hdev : ∀ t, dev.transfer t = true)
    {fuel address : Nat} (hfuel : iterations ≤ fuel) (haddress : address ≤ 2 ^ 63) {c : Call}
    (hhint : fs.HintOk file c.walkHint) :
    wp (fs.write file dev fuel address offset length) (fun _ _ => False)
      (fun r _ => r = some length) c ↔ fs.Accepts file offset length := by
  have hsize := file.fileSize_lt
  have hclamped : clamped file offset length = length := by
    unfold clamped
    omega
  have hiff : fs.Accepted file true offset length ↔ fs.Accepts file offset length := by
    unfold Accepted
    rw [hclamped, taken_iff_accepts hs.sector_ne hoffset hdvd hlength]
    exact or_iff_right fun hno => by omega
  have hwrites : dev.Dependable true := ⟨hdev, fun hno => nomatch hno⟩
  have hsum : offset + length < 2 ^ 64 := by omega
  have hcount := access_accepted_iff hs hwrites haddress hsum hfuel hhint
  rw [hclamped] at hcount
  exact hcount.trans hiff

/-! ## A file in two parts -/

theorem splitVolume_chain (k : Nat) : splitVolume.chain splitFile.entryCluster (k + 2) = none :=
  chain_none_of_le (by decide : splitVolume.chain splitFile.entryCluster 2 = none) (by omega)

theorem splitVolume_sound : splitVolume.Sound splitFile := by
  refine ⟨by decide, by decide, by decide, by decide,
    fun k cluster hk => ?_, 2, by decide, by decide⟩
  match k with
  | 0 =>
    obtain rfl : 2 = cluster := Option.some.inj hk
    decide
  | 1 =>
    obtain rfl : 4 = cluster := Option.some.inj hk
    decide
  | k + 2 => exact nomatch (splitVolume_chain k).symm.trans hk

/-- A write of the first cluster is accepted. -/
theorem write_accepted_split : wp (splitVolume.write splitFile reliable iterations 0 0 1024)
    (fun _ _ => False) (fun r _ => r = some 1024) ⟨0, []⟩ := by
  refine (write_accepted_iff splitVolume_sound (by decide) (by decide) (by decide) (by decide)
    (fun _ => rfl) (Nat.le_refl _) (by decide) hintOk_zero).2 ⟨by decide, .inl ⟨2, fun i hi => ?_⟩⟩
  obtain rfl : i = 0 := Nat.le_zero.1 hi
  decide

/-- A write of the second sector of the file is refused, and so is a write of the whole file. -/
theorem second_sector_refused : splitVolume.Sound splitFile ∧ splitVolume.Covered splitFile ∧
    ∀ fuel, (splitVolume.write splitFile reliable (fuel + 2) 0 512 512 ⟨0, []⟩).1 = .ok none ∧
      (splitVolume.write splitFile reliable (fuel + 2) 0 0 2048 ⟨0, []⟩).1 = .ok none :=
  ⟨splitVolume_sound, splitVolume_covered, fun _ => ⟨rfl, rfl⟩⟩

end Fat32

end MiniVisor.Fat
