import MiniVisor.Fat.Chain

/-!
# The hint of a file is not observable

A file remembers the last cluster that a request walked to, and the next walk starts there unless it
is too far. `hint_invisible` says that this is only a matter of time: after any requests on a file
the hint is unset or names a cluster of the chain by its position, and the next request transfers
the same sectors and has the same result as it would without the hint.

The walk is the only part of a request that looks at the hint: everything behind it is `Blind` to
it. So a request from a valid hint is the request that follows the chain from its first cluster
(`unhinted`), up to the hint that it leaves (`access_eq`). This needs no assumption about the
volume. A chain may be broken or circular, and a request may fail on any of its numbers: the two
requests then fail alike.
-/

set_option autoImplicit false

namespace MiniVisor.Fat

open MiniVisor.Lib

/-- The call with another hint. -/
def Call.withHint (walkHint : Nat) (c : Call) : Call := { c with walkHint := walkHint }

theorem Call.withHint_withHint (walkHint walkHint' : Nat) (c : Call) :
    (c.withHint walkHint').withHint walkHint = c.withHint walkHint := rfl

namespace Fat32

variable {fs : Fat32} {file : FileInfo}

/-! ## The runs do not look at the hint

They do not look at the record either: they append to it. So the rules are for every part of the
call that is put in without getting in the way of that. -/

section Blind

variable {τ : Type} {put : τ → Call → Call}

/-- What is put into a call does not get in the way of the effects that are recorded. -/
def Recordable (put : τ → Call → Call) : Prop :=
  ∀ v c (effect : Effect), { put v c with effects := (put v c).effects ++ [effect] } =
    put v { c with effects := c.effects ++ [effect] }

theorem recordable_withHint : Recordable Call.withHint := fun _ _ _ => rfl

theorem gather_blind (isWrite : Bool) (length fuel : Nat) (g : Gather) :
    Blind put (fs.gather isWrite length fuel g) := by
  induction fuel generalizing g with
  | zero => exact blind_throw _
  | succ fuel ih =>
    have hskip : Blind put (fs.skipSectors g) := by
      unfold skipSectors
      exact blind_ite (blind_bind (blind_quot _ _) fun _ =>
        blind_bind (blind_minus _ _) fun _ => blind_pure _) (blind_pure _)
    unfold gather
    refine blind_bind (blind_minus _ _) fun left => blind_ite (blind_pure _) ?_
    refine blind_bind hskip fun g' => blind_bind (blind_fits _ _) fun rest => ?_
    refine blind_ite ?_ ?_
    · exact blind_bind (blind_quot _ _) fun _ =>
        blind_bind (blind_fits _ _) fun _ => blind_pure _
    · refine blind_bind (blind_fits _ _) fun _ => blind_bind (blind_minus _ _)
        fun _ => blind_bind (blind_fits _ _) fun _ => ?_
      split
      · exact blind_pure _
      · exact blind_bind (blind_fits _ _) fun _ => blind_ite (blind_pure _) (ih _)

theorem runTransfer_blind (isWrite : Bool) (buffer cluster : Nat) (g : Gather) :
    Blind put (fs.runTransfer isWrite buffer cluster g) := by
  have hsector : Blind put (fs.clusterToSector cluster) := by
    unfold clusterToSector
    exact blind_bind (blind_fits _ _) fun _ => blind_bind (blind_fits _ _) fun _ =>
      blind_bind (blind_minus _ _) fun _ => blind_bind (blind_fits _ _) fun _ =>
        blind_fits _ _
  have haddress : ∀ sector, Blind put (fs.sectorAddress sector) := fun _ =>
    blind_bind (blind_fits _ _) fun _ => blind_fits _ _
  unfold runTransfer
  exact blind_bind hsector fun _ => blind_bind (blind_fits _ _) fun _ =>
    blind_bind (haddress _) fun _ => blind_pure _

theorem bouncePages_blind (g : Gather) : Blind put (fs.bouncePages g) := by
  unfold bouncePages
  exact blind_bind (blind_fits _ _) fun _ => blind_bind (blind_minus _ _) fun _ =>
    blind_bind (blind_fits _ _) fun _ => blind_pure _

theorem record_blind (hput : Recordable put) (effect : Effect) : Blind put (record effect) :=
  blind_modify fun v c => hput v c effect

theorem readRuns_blind (hput : Recordable put) (dev : Backend)
    (address length fuel runs cluster dataOffset bufferPointer : Nat) : Blind put
      (fs.readRuns dev address length fuel runs cluster dataOffset bufferPointer) := by
  induction runs generalizing cluster dataOffset bufferPointer with
  | zero => exact blind_throw _
  | succ runs ih =>
    unfold readRuns
    refine blind_bind (gather_blind _ _ _ _) fun r => ?_
    cases r with
    | none => exact blind_pure _
    | some g =>
      have hbuffer : ∀ pages, Blind put
          (transferBuffer dev address bufferPointer g.dataOffsetBackup pages) := fun pages =>
        blind_ite (blind_pure _) (blind_bind (blind_fits _ _) fun _ => blind_pure _)
      have hcopy : ∀ buffer, Blind put
          (copyBounced buffer address bufferPointer g.dataOffsetBackup g.bytes) :=
        fun _ => blind_ite (blind_ite (blind_throw _) (record_blind hput _)) (blind_pure _)
      refine blind_bind (bouncePages_blind g) fun pages =>
        blind_bind (hbuffer pages) fun buffer => ?_
      cases buffer with
      | none => exact blind_pure _
      | some buffer =>
        refine blind_bind (runTransfer_blind _ _ _ _) fun t =>
          blind_bind (record_blind hput _) fun _ => blind_ite (blind_pure _) ?_
        refine blind_bind (hcopy _) fun _ => blind_bind (blind_fits _ _) fun _ =>
          blind_ite (blind_pure _) ?_
        split
        · exact blind_pure _
        · exact ih _ _ _

theorem writeRuns_blind (hput : Recordable put) (dev : Backend)
    (address length fuel runs cluster dataOffset bufferPointer : Nat) : Blind put
      (fs.writeRuns dev address length fuel runs cluster dataOffset bufferPointer) := by
  induction runs generalizing cluster dataOffset bufferPointer with
  | zero => exact blind_throw _
  | succ runs ih =>
    unfold writeRuns
    refine blind_bind (gather_blind _ _ _ _) fun r => ?_
    cases r with
    | none => exact blind_pure _
    | some g =>
      refine blind_ite (blind_pure _) (blind_bind (blind_fits _ _) fun buffer => ?_)
      refine blind_bind (runTransfer_blind _ _ _ _) fun t =>
        blind_bind (record_blind hput _) fun _ => blind_ite (blind_pure _) ?_
      refine blind_bind (blind_fits _ _) fun _ => blind_ite (blind_pure _) ?_
      split
      · exact blind_pure _
      · exact ih _ _ _

end Blind

/-! ## The walk -/

section Walk

variable (fs)

/-- The chain from the second cluster on. -/
theorem chain_succ (cluster k : Nat) :
    fs.chain cluster (k + 1) = (fs.getNextCluster cluster).bind fun next => fs.chain next k := by
  induction k with
  | zero =>
    show (some cluster).bind fs.getNextCluster = _
    cases h : fs.getNextCluster cluster with
    | none => exact h
    | some next => exact h
  | succ k ih =>
    rw [chain, ih]
    cases fs.getNextCluster cluster <;> rfl

/-- The chain from a cluster in its middle. -/
theorem chain_add (cluster i k : Nat) :
    fs.chain cluster (i + k) = (fs.chain cluster i).bind fun found => fs.chain found k := by
  induction k with
  | zero => cases fs.chain cluster i <;> rfl
  | succ k ih =>
    rw [← Nat.add_assoc, chain, ih]
    cases fs.chain cluster i <;> rfl

variable (file)

/-- The hint names a cluster of the file by its position in the chain. -/
def Named (walkHint : Nat) : Prop :=
  ∃ k < 2 ^ 32, ∃ cluster < 2 ^ 32,
    walkHint = k * 2 ^ 32 + cluster ∧ fs.chain file.entryCluster k = some cluster

variable {fs file}

theorem Named.hintOk {walkHint : Nat} (h : fs.Named file walkHint) : fs.HintOk file walkHint := by
  obtain ⟨k, hk, cluster, hcluster, rfl, hchain⟩ := h
  intro _
  have hdiv : (k * 2 ^ 32 + cluster) / 2 ^ 32 = k := by omega
  have hmod : (k * 2 ^ 32 + cluster) % 2 ^ 32 = cluster := by omega
  rw [hdiv, hmod]
  exact hchain

/-- The hint that the walk leaves at a cluster. -/
theorem named_packed {index cluster : Nat} (hindex : index < 2 ^ 32) (hcluster : cluster < 2 ^ 32)
    (h : fs.chain file.entryCluster index = some cluster) :
    fs.Named file (index * 2 ^ 32 % 2 ^ 64 ||| cluster) := by
  have hpacked : index * 2 ^ 32 % 2 ^ 64 ||| cluster = index * 2 ^ 32 + cluster := by
    rw [Nat.mod_eq_of_lt (by omega), Nat.mul_comm index]
    exact (Nat.two_pow_add_eq_or_of_lt hcluster index).symm
  exact ⟨index, hindex, cluster, hcluster, hpacked, h⟩

theorem updateWalkHint_apply (index cluster : Nat) (c : Call) :
    updateWalkHint index cluster c =
      (.ok (), c.withHint (index * 2 ^ 32 % 2 ^ 64 ||| cluster)) := rfl

/-- The walk ends at the cluster of the chain, and changes nothing but the hint. -/
theorem walk_eq {count index cluster : Nat} (c : Call)
    (hstart : fs.chain file.entryCluster index = some cluster) (hlast : index + count < 2 ^ 32) :
    ∃ walkHint, (walkHint = c.walkHint ∨ fs.Named file walkHint) ∧
      fs.walk count index cluster c = (.ok (fs.chain cluster count), c.withHint walkHint) := by
  induction count generalizing index cluster c with
  | zero => exact ⟨c.walkHint, Or.inl rfl, rfl⟩
  | succ count ih =>
    rw [chain_succ]
    unfold walk
    cases hnext : fs.getNextCluster cluster with
    | none => exact ⟨c.walkHint, Or.inl rfl, rfl⟩
    | some next =>
      have hlink : fs.chain file.entryCluster (index + 1) = some next := by
        rw [chain, hstart]
        exact hnext
      have hsmall : next < 2 ^ 32 := (getNextCluster_lt hnext).trans (by decide)
      have hnamed := named_packed (by omega) hsmall hlink
      obtain ⟨walkHint, hhint, hwalk⟩ :=
        ih (c.withHint ((index + 1) * 2 ^ 32 % 2 ^ 64 ||| next)) hlink (by omega)
      rw [Call.withHint_withHint] at hwalk
      refine ⟨walkHint, Or.inr (hhint.elim (fun h => ?_) id), ?_⟩
      · rw [h]
        exact hnamed
      · dsimp only
        rw [bind_of_ok (updateWalkHint_apply _ _ _), hwalk, Option.bind_some]

/-- The walk from a cluster of the file to the cluster number `n`. -/
theorem walk_to {n index cluster : Nat} (c : Call)
    (hstart : fs.chain file.entryCluster index = some cluster) (hle : index ≤ n)
    (hlast : n < 2 ^ 32) :
    ∃ walkHint, (walkHint = c.walkHint ∨ fs.Named file walkHint) ∧
      fs.walk (n - index) index cluster c =
        (.ok (fs.chain file.entryCluster n), c.withHint walkHint) := by
  have hchain := chain_add fs file.entryCluster index (n - index)
  rw [Nat.add_sub_cancel' hle, hstart, Option.bind_some] at hchain
  rw [hchain]
  exact walk_eq c hstart (by omega)

end Walk

/-! ## Requests without a hint -/

section Unhinted

variable (fs file)

/-- A request that follows the chain from its first cluster. -/
def unhinted (isWrite : Bool) (dev : Backend) (fuel bufferAddress offset length : Nat) :
    Program Call (Option Nat) := do
  let last ← fits 64 (offset + length)
  if last > file.fileSize ∧ offset ≥ file.fileSize then
    return some 0
  else
    let length := if last > file.fileSize then file.fileSize - offset else length
    let clustersToSkip ← quot offset fs.bytesPerCluster
    let dataOffset := offset - clustersToSkip * fs.bytesPerCluster
    match fs.chain file.entryCluster clustersToSkip with
    | none => return none
    | some cluster =>
      if isWrite then fs.writeRuns dev bufferAddress length fuel fuel cluster dataOffset 0
      else fs.readRuns dev bufferAddress length fuel fuel cluster dataOffset 0

variable {fs file} (isWrite : Bool) (dev : Backend) (fuel address offset length : Nat)

theorem unhinted_blind :
    Blind Call.withHint (fs.unhinted file isWrite dev fuel address offset length) := by
  unfold unhinted
  refine blind_bind (blind_fits _ _) fun last => blind_ite (blind_pure _) ?_
  refine blind_bind (blind_quot _ _) fun clustersToSkip => ?_
  split
  · exact blind_pure _
  · exact blind_ite (writeRuns_blind recordable_withHint _ _ _ _ _ _ _ _)
      (readRuns_blind recordable_withHint _ _ _ _ _ _ _ _)

/-- A request from a valid hint is the request without one, up to the hint that it leaves. -/
theorem access_eq {c : Call} (h : fs.HintOk file c.walkHint) :
    ∃ walkHint, (walkHint = c.walkHint ∨ fs.Named file walkHint) ∧
      fs.access isWrite file dev fuel address offset length c =
        fs.unhinted file isWrite dev fuel address offset length (c.withHint walkHint) := by
  have hsize := file.fileSize_lt
  unfold access unhinted
  by_cases hsum : offset + length < 2 ^ 64
  swap
  · refine ⟨c.walkHint, Or.inl rfl, ?_⟩
    simp only [fits, if_neg hsum, bind_apply]
    rfl
  simp only [fits, if_pos hsum, pure_bind]
  by_cases hbeyond : offset + length > file.fileSize ∧ offset ≥ file.fileSize
  · simp only [if_pos hbeyond]
    exact ⟨c.walkHint, Or.inl rfl, rfl⟩
  simp only [if_neg hbeyond]
  by_cases hdiv : fs.bytesPerCluster = 0
  · refine ⟨c.walkHint, Or.inl rfl, ?_⟩
    simp only [quot, if_pos hdiv, bind_apply]
    rfl
  simp only [quot, if_neg hdiv, pure_bind]
  -- The hint is behind the start of the chain, and not behind the cluster that is looked for.
  have hstart : (walkStart file c.walkHint (offset / fs.bytesPerCluster)).2 ≤
      offset / fs.bytesPerCluster ∧ fs.chain file.entryCluster
        (walkStart file c.walkHint (offset / fs.bytesPerCluster)).2 =
          some (walkStart file c.walkHint (offset / fs.bytesPerCluster)).1 :=
    walkStart_spec h
  have hquot : offset / fs.bytesPerCluster ≤ offset := Nat.div_le_self _ _
  obtain ⟨walkHint, hhint, hwalk⟩ := walk_to (n := offset / fs.bytesPerCluster) c hstart.2
    hstart.1 (by omega)
  refine ⟨walkHint, hhint, ?_⟩
  rw [bind_apply]
  show ((fs.walk _ _ _ >>= _) : Program Call (Option Nat)) c = _
  rewrite [bind_apply, hwalk]
  cases fs.chain file.entryCluster (offset / fs.bytesPerCluster) <;> rfl

/-- What a request does does not depend on a valid hint. -/
theorem access_same {c : Call} (h : fs.HintOk file c.walkHint) (walkHint : Nat) :
    (fs.access isWrite file dev fuel address offset length c).1 =
        (fs.unhinted file isWrite dev fuel address offset length (c.withHint walkHint)).1 ∧
      (fs.access isWrite file dev fuel address offset length c).2.effects =
        (fs.unhinted file isWrite dev fuel address offset length
          (c.withHint walkHint)).2.effects := by
  obtain ⟨left, -, heq⟩ := access_eq isWrite dev fuel address offset length h
  rw [heq, unhinted_blind _ _ _ _ _ _ left c, unhinted_blind _ _ _ _ _ _ walkHint c]
  exact ⟨rfl, rfl⟩

/-- A request leaves the hint as it is, or sets it to a cluster of the file. -/
theorem access_walkHint {c : Call} (h : fs.HintOk file c.walkHint) :
    (fs.access isWrite file dev fuel address offset length c).2.walkHint = c.walkHint ∨
      fs.Named file (fs.access isWrite file dev fuel address offset length c).2.walkHint := by
  obtain ⟨walkHint, hhint, heq⟩ := access_eq isWrite dev fuel address offset length h
  rw [heq, unhinted_blind _ _ _ _ _ _ walkHint c]
  exact hhint

end Unhinted

/-- The hint is valid. -/
def Hinted (fs : Fat32) (file : FileInfo) (c : Call) : Prop := fs.HintOk file c.walkHint

theorem access_hint {isWrite : Bool} {dev : Backend} {fuel address offset length : Nat} :
    Preserves (fs.Hinted file) (fs.access isWrite file dev fuel address offset length) := by
  intro c h
  have hstate : fs.Hinted file (fs.access isWrite file dev fuel address offset length c).2 := by
    unfold Hinted
    rcases access_walkHint isWrite dev fuel address offset length h with heq | hnamed
    · rw [heq]
      exact h
    · exact hnamed.hintOk
  unfold wp
  rcases hx : fs.access isWrite file dev fuel address offset length c with ⟨_ | r, t⟩ <;>
    rw [hx] at hstate <;> exact hstate

/-! ## Sequences of requests -/

/-- The arguments of a request. -/
structure Request where
  isWrite : Bool
  dev : Backend
  fuel : Nat
  bufferAddress : Nat
  offset : Nat
  length : Nat

section Sequence

variable (fs file)

def Request.run (r : Request) : Program Call (Option Nat) :=
  fs.access r.isWrite file r.dev r.fuel r.bufferAddress r.offset r.length

/-- The hint of the file after a request, however it ended. -/
def Request.hint (walkHint : Nat) (r : Request) : Nat := (r.run fs file ⟨walkHint, []⟩).2.walkHint

/-- The hint of the file after requests, from the time when it was opened. -/
def hintAfter (requests : List Request) : Nat := requests.foldl (Request.hint fs file) 0

variable {fs file}

theorem hintAfter_concat (requests : List Request) (r : Request) :
    fs.hintAfter file (requests ++ [r]) = r.hint fs file (fs.hintAfter file requests) := by
  unfold hintAfter
  rw [List.foldl_append]
  rfl

/-- One request keeps a hint unset or sets it to a cluster of the file. -/
theorem Request.hint_named (r : Request) {walkHint : Nat}
    (h : walkHint = 0 ∨ fs.Named file walkHint) :
    r.hint fs file walkHint = 0 ∨ fs.Named file (r.hint fs file walkHint) := by
  have hok : fs.HintOk file walkHint := by
    rcases h with rfl | hnamed
    · exact hintOk_zero
    · exact hnamed.hintOk
  rcases access_walkHint r.isWrite r.dev r.fuel r.bufferAddress r.offset r.length
    (c := ⟨walkHint, []⟩) hok with heq | hnamed
  · unfold Request.hint Request.run
    rw [heq]
    exact h
  · exact Or.inr hnamed

theorem hintAfter_named (fs : Fat32) (file : FileInfo) (requests : List Request) :
    fs.hintAfter file requests = 0 ∨ fs.Named file (fs.hintAfter file requests) := by
  induction requests using List.reverseRecOn with
  | nil => exact Or.inl rfl
  | append_singleton requests r ih =>
    rw [hintAfter_concat]
    exact r.hint_named ih

/-- After any requests the hint is unset or a cluster of the file with its position, and the next
request does the same as with the hint unset. -/
theorem hint_invisible (fs : Fat32) (file : FileInfo) (requests : List Request) (r : Request) :
    (fs.hintAfter file requests = 0 ∨ fs.Named file (fs.hintAfter file requests)) ∧
      (r.run fs file ⟨fs.hintAfter file requests, []⟩).1 = (r.run fs file ⟨0, []⟩).1 ∧
      (r.run fs file ⟨fs.hintAfter file requests, []⟩).2.effects =
        (r.run fs file ⟨0, []⟩).2.effects := by
  have hnamed := hintAfter_named fs file requests
  have hok : fs.HintOk file (fs.hintAfter file requests) := by
    rcases hnamed with hzero | hnamed
    · rw [hzero]
      exact hintOk_zero
    · exact hnamed.hintOk
  -- Both requests are the request without a hint.
  have hhinted := access_same r.isWrite r.dev r.fuel r.bufferAddress r.offset r.length
    (c := ⟨fs.hintAfter file requests, []⟩) hok 0
  have hzero : fs.HintOk file (Call.walkHint ⟨0, []⟩) := hintOk_zero
  have hreset := access_same r.isWrite r.dev r.fuel r.bufferAddress r.offset r.length hzero 0
  exact ⟨hnamed, hhinted.1.trans hreset.1.symm, hhinted.2.trans hreset.2.symm⟩

end Sequence

end Fat32

end MiniVisor.Fat
