import MiniVisor.Gic.Trigger

/-!
# Accesses and handlers without a fault

`Safe` is the condition, on the state before an event, under which the event does not index past the
end of an array: none of the last four INTIDs is delivered, and no INTID above 1023 is looked up.
`succeeds_exec` says that it is exact for each event, and the main result, `no_fault_iff`, is over
any sequence of accesses, triggers and interrupts.
-/

set_option autoImplicit false

namespace MiniVisor.Gic

open MiniVisor.Lib

/-! ## Writes that set bits -/

/-- The bits of a write to `GICD_ISENABLER` that can be handled. -/
def EnableOk (current : Cpu) (d : GicDistributorMmio) (intId : Nat) : Prop :=
  intId < 1024 ∧ (bitOf d .pending current intId = true →
    bitOf d .enable current intId = true → Routable d intId)

/-- The bits of a write to `GICD_ISPENDR` that can be handled. -/
def PendOk (current : Cpu) (d : GicDistributorMmio) (intId : Nat) : Prop :=
  intId < 1024 ∧ (bitOf d .enable current intId = true → Routable d intId)

theorem Raised.routable {intId i : Nat} {d d' : GicDistributorMmio} (h : Raised intId d d') :
    Routable d' i ↔ Routable d i := by
  unfold Routable
  rw [h.distributorEnabled, h.ownTarget]

theorem Raised.enableOk {intId i : Nat} {d d' : GicDistributorMmio} (current : Cpu)
    (h : Raised intId d d') (hi : i ≠ intId) : EnableOk current d' i ↔ EnableOk current d i := by
  unfold EnableOk
  rw [h.pending current i hi, h.bitOf_enable, h.routable]

theorem Raised.pendOk {intId i : Nat} {d d' : GicDistributorMmio} (current : Cpu)
    (h : Raised intId d d') (_ : i ≠ intId) : PendOk current d' i ↔ PendOk current d i := by
  unfold PendOk
  rw [h.bitOf_enable, h.routable]

theorem succeeds_retriggerBit_enable (current : Cpu) (v : Vgic) (intId : Nat) :
    Succeeds (retriggerBit getPending current intId true v) ↔
      EnableOk current v.distributor intId := by
  rw [succeeds_retriggerBit, EnableOk]
  by_cases h : intId < 1024
  · rw [getPending_eq _ current h, succeeds_retrigger h]
    simp [h]
  · simp [getPending_eq_error _ current (not_lt.1 h), h]

theorem succeeds_retriggerBit_pend (current : Cpu) (v : Vgic) (intId : Nat) :
    Succeeds (retriggerBit getEnable current intId true v) ↔
      PendOk current v.distributor intId := by
  rw [succeeds_retriggerBit, PendOk]
  by_cases h : intId < 1024
  · rw [getEnable_eq _ current h, succeeds_retrigger h]
    simp [h]
  · simp [getEnable_eq_error _ current (not_lt.1 h), h]

/-- The bits that a write sets in a bitmap, seen from the CPU that writes. -/
theorem bitOf_or_word (d : GicDistributorMmio) (bank : Bank) (current : Cpu) {n k : Nat}
    {value : BitVec 64} (hk : value.getLsbD k = true) :
    bitOf (d.update (placeOf bank current n) fun old => old ||| value.truncate 32) bank current
        (n * 32 + k) = true ↔ k < 32 ∨ bitOf d bank current (n * 32 + k) = true := by
  unfold bitOf
  rw [d.get_update]
  by_cases hlow : k < 32
  · have hdiv : (n * 32 + k) / 32 = n := by omega
    have hmod : (n * 32 + k) % 32 = k := by omega
    rw [hdiv, hmod, if_pos rfl, BitVec.getLsbD_or, BitVec.truncate_eq_setWidth,
      BitVec.getLsbD_setWidth, hk]
    simp [hlow]
  · have hdiv : (n * 32 + k) / 32 ≠ n := by omega
    rw [if_neg (fun h => hdiv (placeOf_inj.1 h).1)]
    simp [hlow]

/-! ## Registers in bounds -/

/-- The index of a register is inside its array. -/
def DistributorRegister.InBounds : DistributorRegister → Prop
  | .igroupr n | .isenabler n | .icenabler n | .ispendr n | .icpendr n | .isactiver n
  | .icactiver n => n < 32
  | .ipriorityr n _ | .itargetsr n _ => n < 255
  | .icfgr n => n < 64
  | _ => True

/-- One link of the chain of `decode`. -/
theorem decode_ite {P : DistributorRegister → Prop} {p : Prop} [Decidable p]
    {a r : DistributorRegister} {x : Option DistributorRegister} (ha : p → P a)
    (hx : x = some r → P r) : (if p then some a else x) = some r → P r := by
  split
  · next hp =>
    intro h
    cases h
    exact ha hp
  · exact hx

theorem decode_inBounds {offset : Nat} {r : DistributorRegister} :
    decode offset = some r → r.InBounds := by
  unfold decode
  repeat' apply decode_ite
  -- The last link is the offset of no register; at every other one the range gives the bound.
  case hx => exact nofun
  all_goals
    intro h
    simp only [DistributorRegister.InBounds]
    try omega

theorem succeeds_updateRegister {v : Vgic} {bank : Bank} {cpu : Cpu} {n : Nat} {f : Word → Word}
    (h : n < bank.sharedLength) : Succeeds (updateRegister v (register bank cpu n) f) := by
  rw [updateRegister, register_eq h]
  exact ⟨_, rfl⟩

theorem succeeds_readRegister {d : GicDistributorMmio} {bank : Bank} {cpu : Cpu} {n : Nat}
    (h : n < bank.sharedLength) : Succeeds (readRegister d (register bank cpu n)) := by
  rw [readRegister, register_eq h]
  exact ⟨_, rfl⟩

theorem targetRegister_eq {n : Nat} (h : n < 255) : targetRegister n = .ok n := if_pos h

theorem succeeds_updateTarget {v : Vgic} {n : Nat} {f : Word → Word} (h : n < 255) :
    Succeeds (updateTarget v n f) := by
  rw [updateTarget, targetRegister_eq h]
  exact ⟨_, rfl⟩

/-- A read never faults. -/
theorem succeeds_read (d : GicDistributorMmio) (current : Cpu) (offset accessWidth : Nat) :
    Succeeds (read d current offset accessWidth) := by
  unfold read
  cases hr : decode offset with
  | none => exact ⟨_, rfl⟩
  | some r =>
    have hb := decode_inBounds hr
    cases r with
    | ctlr => dsimp only; split <;> exact ⟨_, rfl⟩
    | typer => dsimp only; split <;> exact ⟨_, rfl⟩
    | sgir => exact ⟨_, rfl⟩
    | pidr2 => dsimp only; split <;> exact ⟨_, rfl⟩
    | ipriorityr n byte =>
      dsimp only
      split
      · rw [succeeds_bind]
        have hs : Succeeds (readRegister d (priorityRegister current n)) := succeeds_readRegister hb
        obtain ⟨w, hw⟩ := hs
        exact ⟨w, hw, _, rfl⟩
      · split
        · exact succeeds_readRegister hb
        · exact ⟨_, rfl⟩
    | itargetsr n byte =>
      dsimp only
      rw [targetRegister_eq hb]
      split
      · split <;> exact ⟨_, rfl⟩
      · split
        · split <;> exact ⟨_, rfl⟩
        · exact ⟨_, rfl⟩
    | _ n =>
      dsimp only
      split
      · exact succeeds_readRegister hb
      · exact ⟨_, rfl⟩

/-! ## The maintenance interrupt -/

theorem virtualId_lt (entry : Word) : (virtualId entry).toNat < 1024 := by
  unfold virtualId gichLrVirtualId
  rw [BitVec.toNat_and]
  exact Nat.lt_of_le_of_lt Nat.and_le_right (by decide)

/-- What the collection of the completed List Registers in a list does. The pending bit of an INTID
that was completed is cleared in the views that share it with the CPU. -/
structure Collected (current : Cpu) (eoiBits : Nat → Bool) (l : List Nat) (v v' : Vgic) : Prop where
  ctlr : v'.distributor.ctlr = v.distributor.ctlr
  ownTarget : v'.distributor.ownTarget = v.distributor.ownTarget
  queue : v'.distributor.toInjectInterrupt = v.distributor.toInjectInterrupt
  enable : ∀ c i, bitOf v'.distributor .enable c i = bitOf v.distributor .enable c i
  pending : ∀ c i, bitOf v'.distributor .pending c i = true ↔
    bitOf v.distributor .pending c i = true ∧
      ∀ j ∈ l, eoiBits j = true → i = (virtualId (v.lr current j)).toNat → ¬SameBit i c current
  lr : ∀ c j, v'.lr c j = if c = current ∧ j ∈ l ∧ eoiBits j = true then 0 else v.lr c j
  numberOfLrn : v'.numberOfLrn = v.numberOfLrn
  timerIntId : v'.timerIntId = v.timerIntId
  outstanding : v'.outstanding = v.outstanding

/-- The state after one completed List Register is collected. -/
def collectOne (v : Vgic) (current : Cpu) (i : Nat) : Vgic :=
  let intId := (virtualId (v.lr current i)).toNat
  let d := v.distributor.update (placeOf .pending current (intId / 32)) (changeBit intId false)
  (v.setDistributor
    (d.update (placeOf .active current (intId / 32)) (changeBit intId false))).setLr current i 0

theorem collectCompleted_cons (current : Cpu) (eoiBits : Nat → Bool) (i : Nat) (rest : List Nat)
    (v : Vgic) :
    collectCompleted current eoiBits (i :: rest) v =
      collectCompleted current eoiBits rest (if eoiBits i then collectOne v current i else v) := by
  have hlt := virtualId_lt (v.lr current i)
  simp only [collectCompleted, changePendingStatusOf_eq _ current hlt,
    changeActiveStatus_eq _ current hlt, ok_bind]
  split <;> rfl

theorem bitOf_collectOne_pending (v : Vgic) (current c : Cpu) (i j : Nat) :
    bitOf (collectOne v current j).distributor .pending c i = true ↔
      bitOf v.distributor .pending c i = true ∧
        (i = (virtualId (v.lr current j)).toNat → ¬SameBit i c current) := by
  unfold collectOne
  simp only [distributor_setLr, distributor_setDistributor]
  rw [bitOf_update_of_ne _ (by simp), bitOf_changeBit _ isBitmap_pending]
  by_cases hi : i = (virtualId (v.lr current j)).toNat
  · subst hi
    by_cases hs : SameBit (virtualId (v.lr current j)).toNat c current <;> simp [hs]
  · simp [hi]

theorem collectCompleted_spec (current : Cpu) (eoiBits : Nat → Bool) (l : List Nat) :
    ∀ v : Vgic, l.Nodup → ∃ v', collectCompleted current eoiBits l v = .ok v' ∧
      Collected current eoiBits l v v' := by
  induction l with
  | nil =>
    intro v _
    exact ⟨v, rfl, rfl, rfl, rfl, fun _ _ => rfl, by simp, by simp, rfl, rfl, rfl⟩
  | cons i rest ih =>
    intro v hl
    obtain ⟨hi, hl⟩ := List.nodup_cons.1 hl
    rw [collectCompleted_cons]
    cases he : eoiBits i with
    | false =>
      obtain ⟨v', hv, h⟩ := ih v hl
      refine ⟨v', hv, h.ctlr, h.ownTarget, h.queue, h.enable, fun c n => ?_, fun c j => ?_,
        h.numberOfLrn, h.timerIntId, h.outstanding⟩
      · rw [h.pending, List.forall_mem_cons]
        simp [he]
      · rw [h.lr]
        by_cases hj : j = i
        · subst hj
          simp [he]
        · simp [hj]
    | true =>
      obtain ⟨v', hv, h⟩ := ih (collectOne v current i) hl
      have hlr : ∀ c j, (collectOne v current i).lr c j =
          if c = current ∧ j = i then 0 else v.lr c j := fun _ _ => rfl
      -- The registers that are still to be collected have not been changed.
      have hrest : ∀ j ∈ rest, (collectOne v current i).lr current j = v.lr current j := by
        intro j hj
        rw [hlr, if_neg]
        rintro ⟨-, rfl⟩
        exact hi hj
      refine ⟨v', hv, h.ctlr.trans ?_, h.ownTarget.trans ?_, h.queue.trans ?_, fun c n => ?_,
        fun c n => ?_, fun c j => ?_, h.numberOfLrn, h.timerIntId, h.outstanding⟩
      · simp [collectOne]
      · simp [collectOne]
      · simp [collectOne]
      · rw [h.enable]
        simp only [collectOne, distributor_setLr, distributor_setDistributor]
        rw [bitOf_update_of_ne _ (by simp), bitOf_update_of_ne _ (by simp)]
      · rw [h.pending, bitOf_collectOne_pending, List.forall_mem_cons, and_assoc]
        refine and_congr_right fun _ => and_congr (by simp [he]) ?_
        exact forall₂_congr fun j hj => by rw [hrest j hj]
      · rw [h.lr, hlr]
        by_cases hc : c = current
        · by_cases hj : j = i
          · subst hj
            simp [hc, he]
          · simp [hc, hj]
        · simp [hc]

@[simp] theorem distributor_injectEntries (current : Cpu) (queue : List (Target × Word)) :
    ∀ v : Vgic, (injectEntries current queue v).2.distributor = v.distributor := by
  induction queue with
  | nil => exact fun _ => rfl
  | cons head rest ih =>
    intro v
    obtain ⟨target, entry⟩ := head
    unfold injectEntries
    split
    · exact (ih _).trans (distributor_addVirtualInterrupt _ _ _)
    · exact ih _

@[simp] theorem get_queue (d : GicDistributorMmio) (queue : List (Target × Word)) (p : Place) :
    GicDistributorMmio.get { d with toInjectInterrupt := queue } p = d.get p := by
  cases p <;> rfl

@[simp] theorem bitOf_queue (d : GicDistributorMmio) (queue : List (Target × Word)) (bank : Bank)
    (c : Cpu) (i : Nat) : bitOf { d with toInjectInterrupt := queue } bank c i = bitOf
      d bank c i := by
  unfold bitOf
  rw [get_queue]

/-- `inject_interrupt_handler` changes the queue and no register. -/
theorem distributor_injectInterruptHandler (v : Vgic) (current : Cpu) :
    (injectInterruptHandler v current).distributor =
      { v.distributor with
        toInjectInterrupt :=
          (injectEntries current v.distributor.toInjectInterrupt v).1 } := by
  simp only [injectInterruptHandler, distributor_setDistributor, distributor_injectEntries]

@[simp] theorem distributorEnabled_injectInterruptHandler (v : Vgic) (current : Cpu) :
    distributorEnabled (injectInterruptHandler v current).distributor =
      distributorEnabled v.distributor := by
  rw [distributor_injectInterruptHandler]
  rfl

@[simp] theorem ownTarget_injectInterruptHandler (v : Vgic) (current : Cpu) :
    (injectInterruptHandler v current).distributor.ownTarget = v.distributor.ownTarget := by
  rw [distributor_injectInterruptHandler]

section Candidates

variable {d : GicDistributorMmio} {cpu : Cpu}

/-- An INTID that the scan takes. -/
def Candidate (d : GicDistributorMmio) (cpu : Cpu) (intId : Nat) : Prop :=
  intId ≠ 27 ∧ bitOf d .pending cpu intId = true ∧ bitOf d .enable cpu intId = true

instance (d : GicDistributorMmio) (cpu : Cpu) (intId : Nat) : Decidable (Candidate d cpu intId) :=
  inferInstanceAs (Decidable (_ ∧ _ ∧ _))

@[simp] theorem candidate_injectInterruptHandler {v : Vgic} {current : Cpu} {intId : Nat} :
    Candidate (injectInterruptHandler v current).distributor cpu intId ↔
      Candidate v.distributor cpu intId := by
  simp only [Candidate, distributor_injectInterruptHandler, bitOf_queue]

theorem pendingCandidates_cons {intId : Nat} {rest : List Nat} (h : intId < 1024) :
    pendingCandidates d cpu (intId :: rest) =
      if Candidate d cpu intId then do
        let priority ← getPriority d cpu intId
        let candidates ← pendingCandidates d cpu rest
        return (priority.toNat, intId) :: candidates
      else pendingCandidates d cpu rest := by
  rw [pendingCandidates, getPending_eq d cpu h, getEnable_eq d cpu h]
  unfold Candidate
  by_cases h27 : intId = 27
  · simp [h27]
  · by_cases hp : bitOf d .pending cpu intId = true <;>
      by_cases he : bitOf d .enable cpu intId = true <;> simp [h27, hp, he]

/-- The candidates that a scan returns are those of its list. -/
theorem mem_pendingCandidates (l : List Nat) :
    ∀ {candidates : List (Nat × Nat)}, (∀ intId ∈ l, intId < 1024) →
      pendingCandidates d cpu l = .ok candidates →
        ∀ x ∈ candidates, x.2 ∈ l ∧ Candidate d cpu x.2 ∧ x.2 < 1020 := by
  induction l with
  | nil =>
    intro candidates _ h
    cases h
    simp
  | cons intId rest ih =>
    intro candidates hl h x hx
    obtain ⟨hlt, hl⟩ := List.forall_mem_cons.1 hl
    rw [pendingCandidates_cons hlt] at h
    split at h
    · next hc =>
      obtain ⟨priority, hp, h⟩ := bind_eq_ok.1 h
      obtain ⟨more, hm, h⟩ := bind_eq_ok.1 h
      cases h
      rcases List.mem_cons.1 hx with rfl | hx
      · refine ⟨List.mem_cons_self, hc, ?_⟩
        by_contra hge
        rw [getPriority_eq_error d cpu (not_lt.1 hge)] at hp
        cases hp
      · obtain ⟨hmem, hx⟩ := ih hl hm x hx
        exact ⟨List.mem_cons_of_mem _ hmem, hx⟩
    · obtain ⟨hmem, hx⟩ := ih hl h x hx
      exact ⟨List.mem_cons_of_mem _ hmem, hx⟩

theorem succeeds_pendingCandidates (l : List Nat) (hl : ∀ intId ∈ l, intId < 1024) :
    Succeeds (pendingCandidates d cpu l) ↔ ∀ intId ∈ l, Candidate d cpu intId → intId < 1020 := by
  induction l with
  | nil => simp [pendingCandidates]
  | cons intId rest ih =>
    obtain ⟨hlt, hl⟩ := List.forall_mem_cons.1 hl
    rw [pendingCandidates_cons hlt, List.forall_mem_cons, ← ih hl]
    by_cases hc : Candidate d cpu intId
    · rw [if_pos hc, succeeds_bind]
      constructor
      · rintro ⟨priority, hp, hs⟩
        rw [succeeds_bind] at hs
        obtain ⟨more, hm, -⟩ := hs
        refine ⟨fun _ => ?_, more, hm⟩
        by_contra hge
        rw [getPriority_eq_error d cpu (not_lt.1 hge)] at hp
        cases hp
      · rintro ⟨hlow, more, hm⟩
        exact ⟨_, getPriority_eq d cpu (hlow hc), by rw [hm]; exact ⟨_, rfl⟩⟩
    · rw [if_neg hc]
      simp [hc]

/-- The candidates of a scan can all be made into entries. -/
theorem succeeds_injectCandidates (candidates : List (Nat × Nat)) :
    ∀ v : Vgic, (∀ x ∈ candidates, x.2 < 1020) →
      Succeeds (injectCandidates cpu candidates v) := by
  induction candidates with
  | nil => exact fun v _ => ⟨v, rfl⟩
  | cons x rest ih =>
    intro v hl
    obtain ⟨hx, hrest⟩ := List.forall_mem_cons.1 hl
    simp only [injectCandidates, listEntry_eq _ cpu hx, ok_bind]
    split
    · exact ih _ hrest
    · exact ⟨_, rfl⟩

end Candidates

/-- The INTIDs that the scan on a CPU visits. -/
def scanLength (d : GicDistributorMmio) (current : Cpu) : Nat :=
  if targetOf current = d.ownTarget then 1024 else 32

theorem scanLength_le (d : GicDistributorMmio) (current : Cpu) : scanLength d current ≤ 1024 := by
  unfold scanLength
  split <;> omega

theorem succeeds_injectPendingForCurrentCpu {v : Vgic} {current : Cpu} :
    Succeeds (injectPendingForCurrentCpu v current) ↔
      (distributorEnabled v.distributor = true → targetOf current = v.distributor.ownTarget →
        ∀ intId, 1020 ≤ intId → intId < 1024 → ¬Candidate v.distributor current intId) := by
  have hl : ∀ intId ∈ List.range (scanLength v.distributor current), intId < 1024 := by
    intro intId h
    exact (List.mem_range.1 h).trans_le (scanLength_le _ _)
  unfold injectPendingForCurrentCpu
  cases hd : distributorEnabled v.distributor with
  | false => simp
  | true =>
    simp only [Bool.not_true, Bool.false_eq_true, if_false, true_implies]
    change Succeeds (pendingCandidates v.distributor current
      (List.range (scanLength v.distributor current)) >>= _) ↔ _
    rw [succeeds_bind]
    constructor
    · rintro ⟨candidates, hc, -⟩ hown intId hge hlt hcand
      have hmem : intId ∈ List.range (scanLength v.distributor current) := by
        rw [List.mem_range, scanLength, if_pos hown]
        exact hlt
      have := (succeeds_pendingCandidates _ hl).1 ⟨_, hc⟩ intId hmem hcand
      omega
    · intro hno
      have hok : ∀ intId ∈ List.range (scanLength v.distributor current),
          Candidate v.distributor current intId → intId < 1020 := by
        intro intId hmem hcand
        rw [List.mem_range, scanLength] at hmem
        by_contra hge
        split at hmem
        · next hown => exact hno hown intId (not_lt.1 hge) hmem hcand
        · omega
      obtain ⟨candidates, hc⟩ := (succeeds_pendingCandidates _ hl).2 hok
      refine ⟨candidates, hc, succeeds_injectCandidates _ _ fun x hx => ?_⟩
      exact (mem_pendingCandidates _ hl hc x ((List.mem_insertionSort _).1 hx)).2.2

/-- A completed List Register of the CPU holds the INTID. -/
def Completed (v : Vgic) (current : Cpu) (intId : Nat) : Prop :=
  ∃ i < v.supportedLrn, awaitsMaintenance (v.lr current i) = true ∧
    intId = (virtualId (v.lr current i)).toNat

theorem collected_bitOf_current {v v' : Vgic} {current : Cpu} {intId : Nat}
    (h : Collected current (fun i => awaitsMaintenance (v.lr current i))
      (List.range v.supportedLrn) v v') :
    bitOf v'.distributor .pending current intId = true ↔
      bitOf v.distributor .pending current intId = true ∧ ¬Completed v current intId := by
  rw [h.pending]
  refine and_congr_right fun _ => ?_
  unfold Completed
  constructor
  · rintro hno ⟨i, hi, ha, hid⟩
    exact hno i (List.mem_range.2 hi) ha hid (Or.inr rfl)
  · intro hno i hi ha hid _
    exact hno ⟨i, List.mem_range.1 hi, ha, hid⟩

theorem succeeds_maintenanceInterruptHandler {v : Vgic} {current : Cpu} :
    Succeeds (maintenanceInterruptHandler v current) ↔
      (distributorEnabled v.distributor = true → targetOf current = v.distributor.ownTarget →
        ∀ intId, 1020 ≤ intId → intId < 1024 → Candidate v.distributor current intId →
          Completed v current intId) := by
  obtain ⟨v', hv, hc⟩ := collectCompleted_spec current
    (fun i => awaitsMaintenance (v.lr current i)) _ v (List.nodup_range (n := v.supportedLrn))
  unfold maintenanceInterruptHandler
  rw [hv, ok_bind, succeeds_injectPendingForCurrentCpu]
  have hcand : ∀ intId, Candidate v'.distributor current intId ↔
      Candidate v.distributor current intId ∧ ¬Completed v current intId := by
    intro intId
    unfold Candidate
    rw [collected_bitOf_current hc, hc.enable]
    tauto
  have henabled : distributorEnabled v'.distributor = distributorEnabled v.distributor := by
    unfold distributorEnabled
    rw [hc.ctlr]
  simp only [candidate_injectInterruptHandler, distributorEnabled_injectInterruptHandler,
    ownTarget_injectInterruptHandler, hcand, not_and, not_not, hc.ownTarget, henabled]

/-! ## Events -/

/-- The condition under which a write does not fault. -/
def SafeWrite (v : Vgic) (current : Cpu) (offset accessWidth : Nat) (value : BitVec 64) : Prop :=
  match decode offset with
  | some (.isenabler n) => accessWidth = 32 → ∀ k, value.getLsbD k = true →
    n * 32 + k < 1024 ∧ (bitOf v.distributor .pending current (n * 32 + k) = true →
      k < 32 ∨ bitOf v.distributor .enable current (n * 32 + k) = true →
        Routable v.distributor (n * 32 + k))
  | some (.ispendr n) => accessWidth = 32 → ∀ k, value.getLsbD k = true →
    n * 32 + k < 1024 ∧ (bitOf v.distributor .enable current (n * 32 + k) = true →
      Routable v.distributor (n * 32 + k))
  | _ => True

/-- The condition under which an event does not fault, on the state before it. -/
def Safe (v : Vgic) : Action → Prop
  | .write current offset accessWidth value => SafeWrite v current offset accessWidth value
  | .trigger _ intId targets =>
    ∀ b, (targets &&& targetOf b) ≠ 0 → TriggerOk v.distributor b intId
  | .maintenance current =>
    distributorEnabled v.distributor = true → targetOf current = v.distributor.ownTarget →
      ∀ intId, 1020 ≤ intId → intId < 1024 → Candidate v.distributor current intId →
        Completed v current intId
  | _ => True

theorem succeeds_ite {α : Type} {p : Prop} [Decidable p] {x : Except Fault α} {a : α} :
    Succeeds (if p then x else .ok a) ↔ (p → Succeeds x) := by
  by_cases h : p <;> simp [h]

theorem succeeds_bind_snd {α β : Type} {x : Except Fault (α × β)} :
    Succeeds (x >>= fun r => pure r.2) ↔ Succeeds x := by
  cases x with
  | error e => simp
  | ok r => exact ⟨fun _ => ⟨r, rfl⟩, fun _ => ⟨r.2, rfl⟩⟩

/-- Setting bits of a register leaves what the routing of an INTID reads. -/
theorem routable_update (d : GicDistributorMmio) (p : Place) (f : Word → Word) (intId : Nat) :
    Routable (d.update p f) intId ↔ Routable d intId := by
  unfold Routable distributorEnabled
  rw [d.ctlr_update, d.ownTarget_update]

section Writes

variable {v : Vgic} {current : Cpu} {n : Nat} {value : BitVec 64}

theorem succeeds_isenabler (hn : n < 32) :
    Succeeds (updateRegister v (enableRegister current n) (fun old => old ||| value.truncate 32) >>=
        retriggerLoop getPending current 64 (n * 32) value) ↔
      ∀ k, value.getLsbD k = true → n * 32 + k < 1024 ∧
        (bitOf v.distributor .pending current (n * 32 + k) = true →
          k < 32 ∨ bitOf v.distributor .enable current (n * 32 + k) = true →
            Routable v.distributor (n * 32 + k)) := by
  rw [updateRegister, enableRegister, register_eq hn, ok_bind]
  change Succeeds (retriggerLoop getPending current 64 (n * 32) value _) ↔ _
  rw [succeeds_retriggerLoop (succeeds_retriggerBit_enable current) (Raised.enableOk current) 64
    value.isLt]
  refine forall₂_congr fun k hk => ?_
  unfold EnableOk
  rw [distributor_setDistributor, bitOf_or_word _ _ _ hk, bitOf_update_of_ne _ (by simp),
    routable_update]

theorem succeeds_ispendr (hn : n < 32) :
    Succeeds (updateRegister v (pendingRegister current n) (fun old => old ||| value.truncate 32)
        >>= retriggerLoop getEnable current 64 (n * 32) value) ↔
      ∀ k, value.getLsbD k = true → n * 32 + k < 1024 ∧
        (bitOf v.distributor .enable current (n * 32 + k) = true →
          Routable v.distributor (n * 32 + k)) := by
  rw [updateRegister, pendingRegister, register_eq hn, ok_bind]
  change Succeeds (retriggerLoop getEnable current 64 (n * 32) value _) ↔ _
  rw [succeeds_retriggerLoop (succeeds_retriggerBit_pend current) (Raised.pendOk current) 64
    value.isLt]
  refine forall₂_congr fun k hk => ?_
  unfold PendOk
  rw [distributor_setDistributor, bitOf_update_of_ne _ (by simp), routable_update]

end Writes

theorem succeeds_write {v : Vgic} {current : Cpu} {offset accessWidth : Nat} {value : BitVec 64} :
    Succeeds (write v current offset accessWidth value) ↔
      SafeWrite v current offset accessWidth value := by
  unfold write SafeWrite
  cases hr : decode offset with
  | none => simp
  | some r =>
    have hb := decode_inBounds hr
    cases r with
    | isenabler n =>
      dsimp only
      rw [succeeds_ite]
      exact imp_congr_right fun _ => succeeds_isenabler hb
    | ispendr n =>
      dsimp only
      rw [succeeds_ite]
      exact imp_congr_right fun _ => succeeds_ispendr hb
    | ctlr => simp [succeeds_ite]
    | typer => simp
    | pidr2 => simp
    | sgir =>
      dsimp only
      rw [succeeds_ite, iff_true]
      intro _
      -- An SGI has one of the INTIDs 0 to 15.
      have hid : ((value.truncate 32 &&& 0xF : Word)).toNat < 1020 := by
        rw [BitVec.toNat_and]
        exact Nat.lt_of_le_of_lt Nat.and_le_right (by decide)
      exact succeeds_bind_snd.2 (succeeds_triggerInterruptTo.2 fun b _ => .of_low hid)
    | ipriorityr n byte =>
      dsimp only
      rw [iff_true]
      split
      · exact succeeds_updateRegister hb
      · exact succeeds_ite.2 fun _ => succeeds_updateRegister hb
    | itargetsr n byte =>
      dsimp only
      rw [iff_true]
      split
      · exact ⟨_, rfl⟩
      · split
        · exact succeeds_updateTarget hb
        · exact succeeds_ite.2 fun _ => succeeds_updateTarget hb
    | _ n =>
      dsimp only
      rw [iff_true]
      exact succeeds_ite.2 fun _ => succeeds_updateRegister hb

/-- An event faults exactly when it is not safe. -/
theorem succeeds_exec (v : Vgic) (action : Action) : Succeeds (exec v action) ↔ Safe v action := by
  cases action with
  | read cpu offset accessWidth =>
    obtain ⟨value, h⟩ := succeeds_read v.distributor cpu offset accessWidth
    simp only [exec, h, ok_bind, Safe, iff_true]
    exact ⟨_, rfl⟩
  | write cpu offset accessWidth value => exact succeeds_write
  | trigger cpu intId targets => exact succeeds_bind_snd.trans succeeds_triggerInterruptTo
  | timer cpu =>
    refine succeeds_bind_snd.trans (succeeds_triggerInterruptTo.trans ?_)
    simp only [Safe, iff_true]
    exact fun b _ => .of_low (by decide)
  | acknowledge cpu i => simp [exec, Safe]
  | endOfInterrupt cpu i => simp [exec, Safe]
  | inject cpu => simp [exec, Safe]
  | maintenance cpu => exact succeeds_maintenanceInterruptHandler

/-! ## Sequences of events -/

def execAll : Vgic → List Action → Except Fault Vgic
  | v, [] => .ok v
  | v, action :: rest => exec v action >>= fun v' => execAll v' rest

/-- Each event of a sequence is safe in the state that the events before it lead to. -/
def SafeRun : Vgic → List Action → Prop
  | _, [] => True
  | v, action :: rest => Safe v action ∧ ∀ v', exec v action = .ok v' → SafeRun v' rest

/-- A sequence of guest accesses, device triggers and interrupts runs without a fault from a state
exactly when each of its events is safe. -/
theorem no_fault_iff (actions : List Action) :
    ∀ v : Vgic, Succeeds (execAll v actions) ↔ SafeRun v actions := by
  induction actions with
  | nil => simp [execAll, SafeRun]
  | cons action rest ih =>
    intro v
    rw [execAll, SafeRun, succeeds_bind, ← succeeds_exec]
    constructor
    · rintro ⟨v', hv, hs⟩
      refine ⟨⟨v', hv⟩, fun w hw => ?_⟩
      rw [hv] at hw
      cases hw
      exact (ih v').1 hs
    · rintro ⟨⟨v', hv⟩, hs⟩
      exact ⟨v', hv, (ih v').2 (hs v' hv)⟩

/-- A guest that turns the Distributor on, enables INTID 1020 and makes it pending faults in the
last write. -/
theorem last_word_faults :
    execAll (Vgic.new (targetOf 0) 4 30)
      [.write 0 0x0000 32 1, .write 0 0x017C 32 0x10000000, .write 0 0x027C 32 0x10000000] =
        .error .indexOutOfBounds := by
  rfl

end MiniVisor.Gic
