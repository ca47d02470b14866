import MiniVisor.Gic.Delivery
import MiniVisor.Gic.Injection

/-!
# Interrupts that are delivered at most once

`Tally` counts, for every INTID and CPU, the triggers and the guest's acknowledges. An interrupt is
in flight while it is pending in a List Register or waits in the queue. Triggers, injections and
acknowledges keep the acknowledges and the interrupts in flight together at most the number of
triggers.

Two operations put an interrupt in flight without a trigger: the scan for pending bits at a
maintenance interrupt, and a write to `GICD_ISENABLER` that finds the INTID pending. The pending bit
outlives the acknowledge, so both can deliver an interrupt again. `Covered` says that they do so
only for a trigger that has not been delivered, and `at_most_once` that no run of such steps
acknowledges an INTID more often than it was triggered.
-/

set_option autoImplicit false

namespace MiniVisor.Gic

open MiniVisor.Lib

/-! ## Interrupts in flight -/

/-- The INTID is pending in a List Register of the CPU, or waits in the queue for it. -/
def inFlight (v : Vgic) (t : Cpu) (intId : Nat) : Nat :=
  (if LrPending v t intId then 1 else 0) + queuedFor v t intId

/-- The acknowledges `A` and what is in flight are covered by the triggers `T`. -/
def Within (A T : Cpu → Nat → Nat) (v : Vgic) : Prop := ∀ t id, A t id + inFlight v t id ≤ T t id

section InFlight

variable {v v' : Vgic} {t : Cpu} {id : Nat}

theorem inFlight_le (hlr : LrPending v' t id → LrPending v t id)
    (hq : queuedFor v' t id ≤ queuedFor v t id) : inFlight v' t id ≤ inFlight v t id := by
  unfold inFlight
  refine Nat.add_le_add ?_ hq
  by_cases h : LrPending v' t id
  · rw [if_pos h, if_pos (hlr h)]
  · rw [if_neg h]
    exact Nat.zero_le _

theorem inFlight_le_succ : inFlight v t id ≤ 1 + queuedFor v t id := by
  unfold inFlight
  split <;> omega

theorem queuedFor_pos_iff : 0 < queuedFor v t id ↔ Queued v t id := by
  unfold queuedFor Queued
  rw [List.countP_pos_iff]
  refine exists_congr fun x => and_congr_right fun _ => ?_
  rw [Bool.and_eq_true, beq_iff_eq, beq_iff_eq]

/-- The List Registers and the queue are as before. -/
structure Quiet (v v' : Vgic) : Prop where
  lr : v'.lr = v.lr
  numberOfLrn : v'.numberOfLrn = v.numberOfLrn
  queue : v'.distributor.toInjectInterrupt = v.distributor.toInjectInterrupt

theorem Quiet.lrPending (h : Quiet v v') : LrPending v' t id ↔ LrPending v t id := by
  unfold LrPending Vgic.supportedLrn
  rw [h.lr, h.numberOfLrn]

theorem Quiet.inFlight (h : Quiet v v') : Gic.inFlight v' t id = Gic.inFlight v t id := by
  unfold Gic.inFlight
  rw [if_congr h.lrPending rfl rfl, queuedFor_congr h.queue]

theorem Quiet.within {A T : Cpu → Nat → Nat} (h : Quiet v v') (hw : Within A T v) :
    Within A T v' := by
  intro t id
  rw [h.inFlight]
  exact hw t id

theorem quiet_updateRegister {place : Except Fault Place} {f : Word → Word}
    (h : updateRegister v place f = .ok v') : Quiet v v' := by
  obtain ⟨p, -, h⟩ := bind_eq_ok.1 h
  cases h
  exact ⟨rfl, rfl, v.distributor.toInjectInterrupt_update _ _⟩

theorem quiet_updateTarget {n : Nat} {f : Word → Word} (h : updateTarget v n f = .ok v') :
    Quiet v v' := by
  obtain ⟨p, -, h⟩ := bind_eq_ok.1 h
  cases h
  exact ⟨rfl, rfl, rfl⟩

end InFlight

/-! ## Triggers -/

section Trigger

variable {v v' : Vgic} {current : Cpu} {intId : Nat} {p : Option Word} {targets : Target}
  {added : Bool}

/-- A trigger puts at most one interrupt in flight for each target on which it is enabled. -/
theorem inFlight_triggerInterruptTo
    (h : triggerInterruptTo v current intId p targets = .ok (added, v')) (t : Cpu) (id : Nat) :
    inFlight v' t id ≤ inFlight v t id +
      if id = intId ∧ (targets &&& targetOf t) ≠ 0 ∧ Enabled v.distributor t intId then 1
      else 0 := by
  have hq := queuedFor_triggerInterruptTo h t id
  have hlr : LrPending v' t id → _ := lrPending_triggerInterruptTo h
  by_cases hc : id = intId ∧ (targets &&& targetOf t) ≠ 0 ∧ Enabled v.distributor t intId
  · rw [if_pos hc]
    by_cases ht : t = current
    · -- The entry is injected.
      rw [if_neg fun hc => hc.1 ht] at hq
      refine (inFlight_le_succ).trans ?_
      unfold inFlight
      omega
    · -- The entry is queued.
      have hold : LrPending v' t id → LrPending v t id := fun hp =>
        (hlr hp).resolve_right fun hnew => ht hnew.1
      have hle : (if LrPending v' t id then 1 else 0) ≤ if LrPending v t id then 1 else 0 := by
        by_cases hp : LrPending v' t id
        · rw [if_pos hp, if_pos (hold hp)]
        · rw [if_neg hp]
          exact Nat.zero_le _
      rw [if_pos ⟨ht, hc⟩] at hq
      unfold inFlight
      omega
  · rw [if_neg hc]
    rw [if_neg fun hc' => hc hc'.2] at hq
    refine inFlight_le (fun hp => (hlr hp).resolve_right fun hnew => hc ?_) hq
    obtain ⟨rfl, hid, hbit⟩ := hnew
    exact ⟨hid, hbit⟩

/-- An INTID that is pending on the CPU itself is not put in flight there again. -/
theorem inFlight_trigger_pending
    (h : triggerInterruptTo v current intId p targets = .ok (added, v'))
    (hp : LrPending v current intId) : inFlight v' current intId ≤ inFlight v current intId := by
  have hq := queuedFor_triggerInterruptTo h current intId
  rw [if_neg fun hc => hc.1 rfl] at hq
  exact inFlight_le (fun _ => hp) hq

theorem within_trigger {A T : Cpu → Nat → Nat} (hw : Within A T v)
    (h : triggerInterruptTo v current intId p targets = .ok (added, v')) :
    Within A (fun t id => T t id + if id = intId ∧ (targets &&& targetOf t) ≠ 0 then 1 else 0)
      v' := by
  intro t id
  have hle := inFlight_triggerInterruptTo h t id
  have hold := hw t id
  by_cases hc : id = intId ∧ (targets &&& targetOf t) ≠ 0
  · have hone : (if id = intId ∧ (targets &&& targetOf t) ≠ 0 ∧ Enabled v.distributor t intId then 1
        else 0) ≤ 1 := by split <;> omega
    dsimp only
    rw [if_pos hc]
    omega
  · rw [if_neg fun hc' => hc ⟨hc'.1, hc'.2.1⟩] at hle
    dsimp only
    rw [if_neg hc]
    omega

end Trigger

/-! ## Writes that retrigger -/

/-- The targets of `retrigger`. -/
def retriggerTargets (d : GicDistributorMmio) (current : Cpu) (intId : Nat) : Target :=
  if intId < 32 then targetOf current else d.ownTarget

/-- The redelivery of an INTID adds nothing, or a trigger of it is not in flight and not
acknowledged. -/
def Owed (A T : Cpu → Nat → Nat) (v : Vgic) (current : Cpu) (intId : Nat) : Prop :=
  ∀ t, (retriggerTargets v.distributor current intId &&& targetOf t) ≠ 0 →
    Enabled v.distributor t intId →
      (t = current ∧ LrPending v current intId) ∨ A t intId + inFlight v t intId < T t intId

section Retrigger

variable {A T : Cpu → Nat → Nat} {v v' : Vgic} {current : Cpu}

theorem within_retrigger {intId : Nat} {added : Bool} (hw : Within A T v)
    (ho : Owed A T v current intId) (h : retrigger v current intId = .ok (added, v')) :
    Within A T v' := by
  have h' : triggerInterruptTo v current intId none (retriggerTargets v.distributor current intId) =
      .ok (added, v') := h
  intro t id
  have hle := inFlight_triggerInterruptTo h' t id
  have hold := hw t id
  by_cases hc : id = intId ∧ (retriggerTargets v.distributor current intId &&& targetOf t) ≠ 0 ∧
      Enabled v.distributor t intId
  · obtain ⟨rfl, hbit, hen⟩ := hc
    rcases ho t hbit hen with ⟨rfl, hp⟩ | hlt
    · have := inFlight_trigger_pending h' hp
      omega
    · rw [if_pos ⟨rfl, hbit, hen⟩] at hle
      omega
  · rw [if_neg hc] at hle
    omega

/-- What an INTID is owed does not change when another one is retriggered. -/
theorem Owed.of_trigger {intId i : Nat} {targets : Target} {added : Bool} {p : Option Word}
    (ho : Owed A T v current i) (hi : i ≠ intId)
    (h : triggerInterruptTo v current intId p targets = .ok (added, v')) :
    Owed A T v' current i := by
  have hraised := triggerInterruptTo_raised h
  intro t hbit hen
  have hbit' : (retriggerTargets v.distributor current i &&& targetOf t) ≠ 0 := by
    unfold retriggerTargets at hbit ⊢
    rwa [hraised.ownTarget] at hbit
  have hen' : Enabled v.distributor t i := by
    unfold Enabled at hen ⊢
    rwa [hraised.distributorEnabled, hraised.bitOf_enable] at hen
  rcases ho t hbit' hen' with ⟨ht, hp⟩ | hlt
  · exact Or.inl ⟨ht, lrPending_triggerInterruptTo_mono h hp⟩
  · have hle := inFlight_triggerInterruptTo h t i
    rw [if_neg fun hc => hi hc.1] at hle
    exact Or.inr (by omega)

/-- The loop over the bits of a value keeps within the triggers when each pending INTID that it
retriggers is owed. The bits are independent: each one is another INTID. -/
theorem within_retriggerLoop (fuel : Nat) :
    ∀ {base : Nat} {value : BitVec 64} {v : Vgic}, Within A T v →
      (∀ k, value.getLsbD k = true → bitOf v.distributor .pending current (base + k) = true →
        Owed A T v current (base + k)) →
      retriggerLoop getPending current fuel base value v = .ok v' → Within A T v' := by
  induction fuel with
  | zero =>
    intro base value v hw _ h
    rw [retriggerLoop] at h
    split at h
    · cases h
      exact hw
    · cases h
  | succ fuel ih =>
    intro base value v hw ho h
    rw [retriggerLoop] at h
    split at h
    · cases h
      exact hw
    · obtain ⟨w, hbit, hloop⟩ := bind_eq_ok.1 h
      have hshift : ∀ k, (value >>> 1).getLsbD k = value.getLsbD (k + 1) := by
        intro k
        rw [BitVec.getLsbD_ushiftRight, Nat.add_comm]
      have hnext : ∀ k, base + 1 + k = base + (k + 1) := fun k => by omega
      rcases retriggerBit_cases looksAtBit_getPending hbit with
        ⟨hset, hpend, added, hr⟩ | ⟨-, rfl⟩
      · have hr' : triggerInterruptTo v current base none
            (retriggerTargets v.distributor current base) = .ok (added, w) := hr
        have hraised := triggerInterruptTo_raised hr'
        refine ih (within_retrigger hw (ho 0 hset hpend) hr) (fun k hk hp => ?_) hloop
        rw [hnext] at hp ⊢
        have hne : base + (k + 1) ≠ base := by omega
        rw [hraised.pending _ _ hne] at hp
        exact (ho (k + 1) (hshift k ▸ hk) hp).of_trigger hne hr'
      · refine ih hw (fun k hk => ?_) hloop
        rw [hnext]
        exact ho (k + 1) (hshift k ▸ hk)

end Retrigger

/-! ## Injection from the queue -/

section Inject

variable {v v' : Vgic} {current : Cpu}

/-- The indicator of a pending List Register after an insertion. -/
theorem lrPending_insert_le {entry : Word} {added : Bool} (h : Inserted v current entry added v')
    (t : Cpu) (id : Nat) :
    (if LrPending v' t id then 1 else 0) ≤ (if LrPending v t id then 1 else 0) +
      if added = true ∧ t = current ∧ (virtualId entry).toNat = id then 1 else 0 := by
  by_cases hp : LrPending v' t id
  · rw [if_pos hp]
    cases added with
    | false =>
      cases h with
      | full hfull => rw [if_pos hp]; omega
    | true =>
      rcases h.lrPending_inv hp with hold | hnew
      · rw [if_pos hold]
        omega
      · have hcond : true = true ∧ t = current ∧ (virtualId entry).toNat = id := ⟨rfl, hnew⟩
        rw [if_pos hcond]
        omega
  · rw [if_neg hp]
    exact Nat.zero_le _

/-- What is taken out of the queue becomes pending, and what stays in it stays. -/
theorem inFlight_injectEntries (queue : List (Target × Word)) (t : Cpu) (id : Nat) :
    ∀ v : Vgic, (if LrPending (injectEntries current queue v).2 t id then 1 else 0) +
        (injectEntries current queue v).1.countP
          (fun x => x.1 == targetOf t && (virtualId x.2).toNat == id) ≤
      (if LrPending v t id then 1 else 0) +
        queue.countP (fun x => x.1 == targetOf t && (virtualId x.2).toNat == id) := by
  induction queue with
  | nil => exact fun v => Nat.le_refl _
  | cons head rest ih =>
    intro v
    obtain ⟨target, entry⟩ := head
    rw [List.countP_cons]
    by_cases ht : target = targetOf current
    · have hins := inserted_addVirtualInterrupt v current entry
      have hle := lrPending_insert_le hins t id
      have hih := ih (addVirtualInterrupt v current entry).2
      have hmatch : (target == targetOf t && (virtualId entry).toNat == id) = true ↔
          t = current ∧ (virtualId entry).toNat = id := by
        rw [Bool.and_eq_true, beq_iff_eq, beq_iff_eq, ht, targetOf_inj, eq_comm]
      simp only [injectEntries, if_pos ht]
      cases hadded : (addVirtualInterrupt v current entry).1 with
      | true =>
        rw [hadded] at hle
        simp only [hmatch, if_true]
        simp only [true_and] at hle
        omega
      | false =>
        rw [hadded] at hle
        simp only [Bool.false_eq_true, if_false, List.countP_cons]
        simp only [Bool.false_eq_true, false_and, if_false] at hle
        omega
    · have hih := ih v
      simp only [injectEntries, if_neg ht, List.countP_cons]
      omega

theorem inFlight_injectInterruptHandler (v : Vgic) (current t : Cpu) (id : Nat) :
    inFlight (injectInterruptHandler v current) t id ≤ inFlight v t id := by
  have hq : queuedFor (injectInterruptHandler v current) t id =
      (injectEntries current v.distributor.toInjectInterrupt v).1.countP
        (fun x => x.1 == targetOf t && (virtualId x.2).toNat == id) := by
    unfold queuedFor
    rw [distributor_injectInterruptHandler]
  unfold inFlight
  rw [hq]
  exact inFlight_injectEntries v.distributor.toInjectInterrupt t id v

/-- All List Registers are in use with other INTIDs. -/
def FullWithout (v : Vgic) (cpu : Cpu) (id : Nat) : Prop :=
  ∀ i < v.supportedLrn, isInactive (v.lr cpu i) = false ∧ (virtualId (v.lr cpu i)).toNat ≠ id

theorem FullWithout.insert {entry : Word} {added : Bool} {cpu : Cpu} {id : Nat}
    (hf : FullWithout v cpu id) (h : Inserted v cpu entry added v') : FullWithout v' cpu id := by
  cases h with
  | merged i hi huse hid =>
    intro j hj
    by_cases hji : j = i
    · subst hji
      rw [lr_setLr_self, virtualId_or_pending]
      exact ⟨isInactive_of_isPending _ (isPending_or_pending _), (hf j hj).2⟩
    · rw [lr_setLr_of_ne v _ fun h => hji h.2]
      exact hf j hj
  | filled i hi hfree hnone =>
    rw [(hf i hi).1] at hfree
    cases hfree
  | full hfull => exact hf

theorem FullWithout.not_lrPending {cpu : Cpu} {id : Nat} (hf : FullWithout v cpu id) :
    ¬LrPending v cpu id := by
  rintro ⟨i, hi, -, hid⟩
  exact (hf i hi).2 hid

theorem FullWithout.injectEntries {id : Nat} (queue : List (Target × Word)) :
    ∀ {v : Vgic}, FullWithout v current id →
      FullWithout (Gic.injectEntries current queue v).2 current id := by
  induction queue with
  | nil => exact fun h => h
  | cons head rest ih =>
    intro v hf
    obtain ⟨target, entry⟩ := head
    by_cases ht : target = targetOf current
    · simp only [Gic.injectEntries, if_pos ht]
      exact ih (hf.insert (inserted_addVirtualInterrupt _ _ _))
    · simp only [Gic.injectEntries, if_neg ht]
      exact ih hf

/-- An entry for the CPU stays in the queue only when no List Register is free for it. -/
theorem fullWithout_of_remaining (queue : List (Target × Word)) :
    ∀ (v : Vgic) (x : Target × Word), x ∈ (injectEntries current queue v).1 →
      x.1 = targetOf current →
        FullWithout (injectEntries current queue v).2 current (virtualId x.2).toNat := by
  induction queue with
  | nil =>
    intro v x hx
    cases hx
  | cons head rest ih =>
    intro v x hx hxt
    obtain ⟨target, entry⟩ := head
    by_cases ht : target = targetOf current
    · have hins := inserted_addVirtualInterrupt v current entry
      simp only [injectEntries, if_pos ht] at hx ⊢
      cases hadded : (addVirtualInterrupt v current entry).1 with
      | true =>
        rw [hadded, if_pos rfl] at hx
        exact ih _ x hx hxt
      | false =>
        rw [hadded, if_neg (by decide)] at hx
        rcases List.mem_cons.1 hx with rfl | hx
        · apply FullWithout.injectEntries
          rw [hadded] at hins
          generalize (addVirtualInterrupt v current entry).2 = w at hins ⊢
          cases hins with
          | full hfull =>
            exact fun i hi => ⟨(hfull i hi).1, fun h => (hfull i hi).2 (BitVec.toNat_inj.1 h)⟩
        · exact ih _ x hx hxt
    · simp only [injectEntries, if_neg ht] at hx ⊢
      rcases List.mem_cons.1 hx with rfl | hx
      · exact absurd hxt ht
      · exact ih v x hx hxt

end Inject

/-! ## The maintenance interrupt -/

section Maintenance

variable {v v' : Vgic} {current : Cpu}

theorem FullWithout.injectCandidates {id : Nat} (candidates : List (Nat × Nat)) :
    ∀ {v : Vgic}, FullWithout v current id →
      Gic.injectCandidates current candidates v = .ok v' → FullWithout v' current id := by
  induction candidates with
  | nil =>
    intro v hf h
    cases h
    exact hf
  | cons x rest ih =>
    intro v hf h
    obtain ⟨entry, -, h⟩ := bind_eq_ok.1 h
    have hf' := hf.insert (inserted_addVirtualInterrupt v current entry)
    dsimp only at h
    split at h
    · exact ih hf' h
    · cases h
      exact hf'

/-- A maintenance interrupt puts nothing in flight, apart from an INTID that the scan finds
pending. -/
theorem inFlight_maintenance (h : maintenanceInterruptHandler v current = .ok v') (t : Cpu)
    (id : Nat) :
    inFlight v' t id ≤ inFlight v t id ∨
      (t = current ∧ distributorEnabled v.distributor = true ∧
        id < scanLength v.distributor current ∧ Candidate v.distributor current id ∧
        ¬Completed v current id ∧ inFlight v' current id ≤ 1) := by
  obtain ⟨v₁, hcol, h⟩ := maintenanceInterruptHandler_cases h
  have hcollect : inFlight v₁ t id = inFlight v t id := by
    unfold inFlight
    rw [if_congr (collected_lrPending hcol) rfl rfl, queuedFor_congr hcol.queue]
  have hinject := inFlight_injectInterruptHandler v₁ current t id
  rcases injectPendingForCurrentCpu_cases h with rfl | ⟨hen, candidates, hcand, h⟩
  · exact Or.inl (by omega)
  · have hlow := fun x hx => (hcand x hx).2.1
    have hq : queuedFor v' t id = queuedFor (injectInterruptHandler v₁ current) t id :=
      queuedFor_congr (by rw [distributor_injectCandidates _ hlow h]) t id
    by_cases hp : LrPending v' t id ∧ ¬LrPending (injectInterruptHandler v₁ current) t id
    · obtain ⟨hp, hnp⟩ := hp
      rcases lrPending_injectCandidates_inv _ hlow h hp with hold | ⟨rfl, x, hx, rfl⟩
      · exact absurd hold hnp
      · -- Nothing is left in the queue for the INTID: there was a List Register for it.
        have hnone : queuedFor (injectInterruptHandler v₁ t) t x.2 = 0 := by
          by_contra hne
          obtain ⟨y, hy, hyt, hyid⟩ := queuedFor_pos_iff.1 (Nat.pos_of_ne_zero hne)
          rw [distributor_injectInterruptHandler] at hy
          have hfull : FullWithout (injectInterruptHandler v₁ t) t (virtualId y.2).toNat :=
            fullWithout_of_remaining _ v₁ y hy hyt
          rw [hyid] at hfull
          exact (FullWithout.injectCandidates _ hfull h).not_lrPending hp
        obtain ⟨hc, -, hscan⟩ := hcand x hx
        rw [candidate_injectInterruptHandler] at hc
        have hpend := (collected_bitOf_current hcol).1 hc.2.1
        refine Or.inr ⟨rfl, ?_, ?_, ⟨hc.1, hpend.1, ?_⟩, hpend.2, ?_⟩
        · rw [distributorEnabled_injectInterruptHandler] at hen
          unfold distributorEnabled at hen ⊢
          rwa [hcol.ctlr] at hen
        · unfold scanLength at hscan ⊢
          rwa [distributor_injectInterruptHandler, hcol.ownTarget] at hscan
        · rw [← hcol.enable]
          exact hc.2.2
        · have hle : inFlight v' t x.2 ≤ 1 + queuedFor v' t x.2 := inFlight_le_succ
          omega
    · refine Or.inl ((inFlight_le (fun hp' => ?_) (Nat.le_of_eq hq)).trans (by omega))
      by_contra hnp
      exact hp ⟨hp', hnp⟩

end Maintenance

/-! ## The guest -/

section Guest

variable {v : Vgic} {cpu : Cpu} {i : Nat}

theorem isPending_acknowledge (lr : Word) : isPending (acknowledge lr) = false := by
  have hclear : (lr &&& ~~~gichLrStatePending) &&& gichLrStatePending = 0#32 := by
    rw [BitVec.and_assoc, show ~~~gichLrStatePending &&& gichLrStatePending = 0#32 by decide]
    exact BitVec.and_zero
  have hactive : gichLrStateActive &&& gichLrStatePending = 0#32 := by decide
  rw [isPending, acknowledge, BitVec.and_or_distrib_right, hclear, hactive]
  decide

/-- The interrupt that is acknowledged is not in flight any more, since no other List Register holds
its INTID. -/
theorem inFlight_acknowledge (hd : Distinct v.supportedLrn (v.lr cpu)) (hi : i < v.supportedLrn)
    (hp : isPending (v.lr cpu i) = true) (t : Cpu) (id : Nat) :
    (if t = cpu ∧ (virtualId (v.lr cpu i)).toNat = id then 1 else 0) +
        inFlight ((v.setLr cpu i (acknowledge (v.lr cpu i))).settle cpu
          (virtualId (v.lr cpu i)).toNat) t id ≤ inFlight v t id := by
  have hq : queuedFor ((v.setLr cpu i (acknowledge (v.lr cpu i))).settle cpu
      (virtualId (v.lr cpu i)).toNat) t id = queuedFor v t id := rfl
  have hback : ∀ j, isPending ((v.setLr cpu i (acknowledge (v.lr cpu i))).lr t j) = true →
      ¬(t = cpu ∧ j = i) ∧ (v.setLr cpu i (acknowledge (v.lr cpu i))).lr t j = v.lr t j := by
    intro j hj
    have hne : ¬(t = cpu ∧ j = i) := by
      rintro ⟨rfl, rfl⟩
      rw [lr_setLr_self, isPending_acknowledge] at hj
      cases hj
    exact ⟨hne, lr_setLr_of_ne v _ hne⟩
  by_cases hm : t = cpu ∧ (virtualId (v.lr cpu i)).toNat = id
  · obtain ⟨rfl, rfl⟩ := hm
    have hgone : ¬LrPending ((v.setLr t i (acknowledge (v.lr t i))).settle t
        (virtualId (v.lr t i)).toNat) t (virtualId (v.lr t i)).toNat := by
      rintro ⟨j, hj, hpj, hidj⟩
      obtain ⟨hne, hlr⟩ := hback j hpj
      have hpj' : isPending (v.lr t j) = true := hlr ▸ hpj
      have hidj' : (virtualId (v.lr t j)).toNat = (virtualId (v.lr t i)).toNat := by
        rw [← hlr]
        exact hidj
      exact hne ⟨rfl, hd j hj i hi (isInactive_of_isPending _ hpj') (isInactive_of_isPending _ hp)
        (BitVec.toNat_inj.1 hidj')⟩
    have hthere : LrPending v t (virtualId (v.lr t i)).toNat := ⟨i, hi, hp, rfl⟩
    rw [if_pos ⟨rfl, rfl⟩]
    unfold inFlight
    rw [if_neg hgone, if_pos hthere, hq]
    omega
  · rw [if_neg hm, Nat.zero_add]
    refine inFlight_le (fun ⟨j, hj, hpj, hidj⟩ => ?_) (Nat.le_of_eq hq)
    obtain ⟨-, hlr⟩ := hback j hpj
    exact ⟨j, hj, hlr ▸ hpj, by rw [← hlr]; exact hidj⟩

theorem inFlight_endOfInterrupt (t : Cpu) (id : Nat) :
    inFlight (v.setLr cpu i (endOfInterrupt (v.lr cpu i))) t id ≤ inFlight v t id := by
  refine inFlight_le (fun ⟨j, hj, hpj, hidj⟩ => ?_) (Nat.le_refl _)
  by_cases hc : t = cpu ∧ j = i
  · obtain ⟨rfl, rfl⟩ := hc
    rw [lr_setLr_self] at hpj hidj
    rw [isPending_endOfInterrupt] at hpj
    rw [virtualId_endOfInterrupt] at hidj
    exact ⟨j, hj, hpj, hidj⟩
  · rw [lr_setLr_of_ne v _ hc] at hpj hidj
    exact ⟨j, hj, hpj, hidj⟩

end Guest

/-! ## Runs -/

/-- The virtual interrupt controller, and how often each INTID was triggered for and acknowledged on
each CPU. -/
structure Tally where
  vgic : Vgic
  triggers : Cpu → Nat → Nat
  acks : Cpu → Nat → Nat

/-- The triggers of an event: of a device, of the timer, or of a write to `GICD_SGIR`. -/
def triggersOf : Action → Cpu → Nat → Nat
  | .trigger _ intId targets, t, id => if id = intId ∧ (targets &&& targetOf t) ≠ 0 then 1 else 0
  | .timer cpu, t, id => if id = 27 ∧ (targetOf cpu &&& targetOf t) ≠ 0 then 1 else 0
  | .write cpu offset accessWidth value, t, id =>
    if decode offset = some .sgir ∧ accessWidth = 32 then
      if id = ((value.truncate 32 : Word) &&& 0xF).toNat ∧
        (sgirTargets cpu value &&& targetOf t) ≠ 0 then 1 else 0
    else 0
  | _, _, _ => 0

/-- The acknowledge of an event. -/
def acksOf (v : Vgic) : Action → Cpu → Nat → Nat
  | .acknowledge cpu i, t, id => if t = cpu ∧ (virtualId (v.lr cpu i)).toNat = id then 1 else 0
  | _, _, _ => 0

/-- A write to `GICD_ISPENDR`, with which the guest makes INTIDs pending itself. -/
def setsPending : Action → Bool
  | .write _ offset accessWidth _ =>
    match decode offset with
    | some (.ispendr _) => accessWidth == 32
    | _ => false
  | _ => false

/-- A write of `value` to `GICD_ISENABLER` `n` finds the INTID of bit `k` pending, and enabled after
the write. The walk over the bits goes past the 32 that the write enables. -/
def Redelivers (d : GicDistributorMmio) (current : Cpu) (n : Nat) (value : BitVec 64) (k : Nat) :
    Prop :=
  distributorEnabled d = true ∧ value.getLsbD k = true ∧
    bitOf d .pending current (n * 32 + k) = true ∧
      (k < 32 ∨ bitOf d .enable current (n * 32 + k) = true)

instance (d : GicDistributorMmio) (current : Cpu) (n : Nat) (value : BitVec 64) (k : Nat) :
    Decidable (Redelivers d current n value k) :=
  inferInstanceAs (Decidable (_ ∧ _ ∧ _ ∧ _))

namespace Tally

def next (s : Tally) (action : Action) (v : Vgic) : Tally where
  vgic := v
  triggers t id := s.triggers t id + triggersOf action t id
  acks t id := s.acks t id + acksOf s.vgic action t id

/-- A trigger of the INTID to the CPU is neither acknowledged nor in flight. -/
def Unserved (s : Tally) (t : Cpu) (id : Nat) : Prop :=
  s.acks t id + inFlight s.vgic t id < s.triggers t id

instance (s : Tally) (t : Cpu) (id : Nat) : Decidable (s.Unserved t id) :=
  inferInstanceAs (Decidable (_ < _))

/-- An INTID that is delivered without a trigger has an unserved one. A maintenance interrupt
delivers the INTIDs that its scan finds pending; those in flight are merged. A write to
`GICD_ISENABLER` delivers the pending INTIDs that it enables; one that is pending in a List Register
of the writing CPU is merged. -/
def Covered (s : Tally) : Action → Prop
  | .maintenance current => distributorEnabled s.vgic.distributor = true →
      ∀ id < scanLength s.vgic.distributor current, Candidate s.vgic.distributor current id →
        ¬Completed s.vgic current id → inFlight s.vgic current id = 0 → s.Unserved current id
  | .write current offset accessWidth value =>
    match decode offset with
    | some (.isenabler n) => accessWidth = 32 →
        ∀ k < 64, Redelivers s.vgic.distributor current n value k →
          ∀ t, (retriggerTargets s.vgic.distributor current (n * 32 + k) &&& targetOf t) ≠ 0 →
            (t = current ∧ LrPending s.vgic current (n * 32 + k)) ∨ s.Unserved t (n * 32 + k)
    | _ => True
  | _ => True

/-- The events of a VM whose guest does not make INTIDs pending itself. -/
def Step (permitted : Tally → Action → Prop) (s : Tally) (action : Action) (s' : Tally) : Prop :=
  permitted s action ∧ Gic.Step (fun _ action => setsPending action = false) s.vgic action s'.vgic ∧
    s' = s.next action s'.vgic

def Initial (s : Tally) : Prop :=
  ∃ ownTarget numberOfLrn timerIntId, s = ⟨.new ownTarget numberOfLrn timerIntId, fun _ _ => 0,
    fun _ _ => 0⟩

end Tally

section Write

variable {A T : Cpu → Nat → Nat} {v v' : Vgic} {current : Cpu} {offset accessWidth : Nat}
  {value : BitVec 64}

theorem Within.mono (hw : Within A T v) (x : Cpu → Nat → Nat) :
    Within A (fun t id => T t id + x t id) v :=
  fun t id => (hw t id).trans (Nat.le_add_right _ _)

/-- What `GICD_ISENABLER` enables is owed, as far as it is pending. -/
theorem owed_isenabler {n k : Nat} {w : Vgic}
    (hw : updateRegister v (enableRegister current n) (fun old => old ||| value.truncate 32) =
      .ok w)
    (hk : value.getLsbD k = true)
    (hpending : bitOf w.distributor .pending current (n * 32 + k) = true)
    (hcov : Redelivers v.distributor current n value k →
      ∀ t, (retriggerTargets v.distributor current (n * 32 + k) &&& targetOf t) ≠ 0 →
        (t = current ∧ LrPending v current (n * 32 + k)) ∨
          Tally.Unserved ⟨v, T, A⟩ t (n * 32 + k)) :
    Owed A T w current (n * 32 + k) := by
  have hquiet := quiet_updateRegister hw
  obtain ⟨p, hp, hw⟩ := bind_eq_ok.1 hw
  cases hw
  have hplace : p = placeOf .enable current n := by
    by_cases hn : n < Bank.enable.sharedLength
    · rw [enableRegister, register_eq hn] at hp
      exact (Except.ok.inj hp).symm
    · rw [enableRegister, register_eq_error hn] at hp
      cases hp
  subst hplace
  have hbank : (placeOf .enable current n).bank ≠ .pending := by
    rw [bank_placeOf]
    decide
  rw [distributor_setDistributor, bitOf_update_of_ne _ hbank] at hpending
  intro t hbit hen
  have hbit' : (retriggerTargets v.distributor current (n * 32 + k) &&& targetOf t) ≠ 0 := by
    unfold retriggerTargets at hbit ⊢
    rwa [distributor_setDistributor, v.distributor.ownTarget_update] at hbit
  have hon : distributorEnabled v.distributor = true := by
    have := hen.1
    unfold distributorEnabled at this ⊢
    rwa [distributor_setDistributor, v.distributor.ctlr_update] at this
  -- The target sees the enable bit that the current CPU sees.
  have hcurrent : bitOf (v.setDistributor (v.distributor.update (placeOf .enable current n)
      fun old => old ||| value.truncate 32)).distributor .enable current (n * 32 + k) = true := by
    by_cases hlow : n * 32 + k < 32
    · rw [retriggerTargets, if_pos hlow] at hbit'
      have hsame := hen.2
      rwa [and_targetOf_ne_zero hbit'] at hsame
    · rw [bitOf_shared _ isBitmap_enable (by omega) current t]
      exact hen.2
  rw [distributor_setDistributor, bitOf_or_word _ _ _ hk] at hcurrent
  rw [hquiet.lrPending, hquiet.inFlight]
  exact hcov ⟨hon, hk, hpending, hcurrent⟩ t hbit'

theorem within_ite {p : Prop} [Decidable p] {x : Except Fault Vgic} (hw : Within A T v)
    (hx : p → x = .ok v' → Within A T v') (h : (if p then x else .ok v) = .ok v') :
    Within A T v' := by
  split at h
  · next hp => exact hx hp h
  · cases h
    exact hw

/-- A write that triggers nothing and makes nothing pending. -/
theorem within_write (hw : Within A T v)
    (hns : setsPending (.write current offset accessWidth value) = false)
    (hcov : Tally.Covered ⟨v, T, A⟩ (.write current offset accessWidth value))
    (h : write v current offset accessWidth value = .ok v') :
    Within A (fun t id => T t id + triggersOf (.write current offset accessWidth value) t id)
      v' := by
  unfold write at h
  cases hr : decode offset with
  | none =>
    rw [hr] at h
    cases h
    exact hw.mono _
  | some r =>
    rw [hr] at h
    cases r with
    | sgir =>
      dsimp only at h
      by_cases hwidth : accessWidth = 32
      · rw [if_pos hwidth] at h
        obtain ⟨r, hr', h⟩ := bind_eq_ok.1 h
        cases h
        have hsgir : decode offset = some .sgir ∧ accessWidth = 32 := ⟨hr, hwidth⟩
        simp only [triggersOf, if_pos hsgir]
        exact within_trigger hw hr'
      · rw [if_neg hwidth] at h
        cases h
        exact hw.mono _
    | isenabler n =>
      refine Within.mono (within_ite hw (fun hwidth h => ?_) h) _
      obtain ⟨w, hupdate, h⟩ := bind_eq_ok.1 h
      simp only [Tally.Covered, hr] at hcov
      refine within_retriggerLoop _ ((quiet_updateRegister hupdate).within hw) (fun k hk hp => ?_) h
      exact owed_isenabler hupdate hk hp (hcov hwidth k (BitVec.lt_of_getLsbD hk))
    | ispendr n =>
      refine Within.mono (within_ite hw (fun hwidth _ => ?_) h) _
      simp [setsPending, hr, hwidth] at hns
    | ctlr =>
      refine Within.mono (within_ite hw (fun _ h => ?_) h) _
      cases h
      exact Quiet.within ⟨rfl, rfl, rfl⟩ hw
    | typer =>
      cases h
      exact hw.mono _
    | pidr2 =>
      cases h
      exact hw.mono _
    | ipriorityr n byte =>
      dsimp only at h
      split at h
      · exact ((quiet_updateRegister h).within hw).mono _
      · exact Within.mono (within_ite hw (fun _ h => (quiet_updateRegister h).within hw) h) _
    | itargetsr n byte =>
      dsimp only at h
      split at h
      · cases h
        exact hw.mono _
      · split at h
        · exact ((quiet_updateTarget h).within hw).mono _
        · exact Within.mono (within_ite hw (fun _ h => (quiet_updateTarget h).within hw) h) _
    | _ n => exact Within.mono (within_ite hw (fun _ h => (quiet_updateRegister h).within hw) h) _

end Write

namespace Tally

/-- The invariant: the triggers cover what was acknowledged and what is in flight. -/
structure Ok (s : Tally) : Prop where
  distinct : ∀ cpu, Distinct s.vgic.supportedLrn (s.vgic.lr cpu)
  within : Within s.acks s.triggers s.vgic

theorem distinct_exec {v v' : Vgic} {action : Action}
    (hd : ∀ cpu, Distinct v.supportedLrn (v.lr cpu)) (hp : Possible v action)
    (h : Gic.exec v action = .ok v') (cpu : Cpu) : Distinct v'.supportedLrn (v'.lr cpu) := by
  have hset : ∀ c i value, (Distinct v.supportedLrn fun j => if j = i then value else v.lr c j) →
      Distinct v.supportedLrn ((v.setLr c i value).lr cpu) := by
    intro c i value hdc
    by_cases hc : cpu = c
    · rw [hc, lr_setLr_same]
      exact hdc
    · have hother : (v.setLr c i value).lr cpu = v.lr cpu :=
        funext fun j => lr_setLr_of_ne _ _ fun h => hc h.1
      rw [hother]
      exact hd cpu
  cases hg : action.isGuest with
  | false =>
    have hmoves := moves_exec hg h
    by_cases hc : cpu = action.cpu
    · rw [hc]
      exact hmoves.distinct (hd _)
    · unfold Vgic.supportedLrn
      rw [hmoves.lr_other hc, hmoves.numberOfLrn]
      exact hd cpu
  | true =>
    cases action with
    | acknowledge c i =>
      cases h
      exact hset c i _ (distinct_acknowledge (hd c) hp.2.1)
    | endOfInterrupt c i =>
      cases h
      exact hset c i _ (distinct_endOfInterrupt (hd c) hp.2)
    | _ => cases hg

theorem Ok.step {s s' : Tally} {action : Action} (hs : s.Ok) (h : Step Covered s action s') :
    s'.Ok := by
  obtain ⟨hcov, ⟨hp, hns, hexec⟩, hnext⟩ := h
  have hd := distinct_exec hs.distinct hp hexec
  rw [hnext]
  refine ⟨hd, ?_⟩
  show Within (fun t id => s.acks t id + acksOf s.vgic action t id)
    (fun t id => s.triggers t id + triggersOf action t id) s'.vgic
  have hw := hs.within
  cases action with
  | read cpu offset accessWidth =>
    obtain ⟨value, -, hexec⟩ := bind_eq_ok.1 hexec
    rw [← Except.ok.inj hexec]
    exact hw
  | write cpu offset accessWidth value => exact within_write hw hns hcov hexec
  | trigger cpu intId targets =>
    obtain ⟨r, hr, hexec⟩ := bind_eq_ok.1 hexec
    rw [← Except.ok.inj hexec]
    exact within_trigger hw hr
  | timer cpu =>
    obtain ⟨r, hr, hexec⟩ := bind_eq_ok.1 hexec
    rw [← Except.ok.inj hexec]
    exact within_trigger hw hr
  | acknowledge cpu i =>
    rw [← Except.ok.inj hexec]
    intro t id
    have hack := inFlight_acknowledge (hs.distinct cpu) hp.1 hp.2.1 t id
    have hold := hw t id
    simp only [acksOf, triggersOf]
    omega
  | endOfInterrupt cpu i =>
    rw [← Except.ok.inj hexec]
    exact fun t id => (Nat.add_le_add_left (inFlight_endOfInterrupt t id) _).trans (hw t id)
  | inject cpu =>
    rw [← Except.ok.inj hexec]
    exact fun t id => (Nat.add_le_add_left (inFlight_injectInterruptHandler _ cpu t id) _).trans
      (hw t id)
  | maintenance cpu =>
    intro t id
    have hold := hw t id
    simp only [acksOf, triggersOf, Nat.add_zero]
    rcases inFlight_maintenance hexec t id with hle | ⟨rfl, hon, hscan, hcand, hcomp, hone⟩
    · omega
    · -- The scan delivered the INTID; it was in flight already, or it was owed.
      by_cases hzero : inFlight s.vgic t id = 0
      · have howed : s.acks t id + inFlight s.vgic t id < s.triggers t id :=
          hcov hon id hscan hcand hcomp hzero
        omega
      · omega

theorem Ok.initial {s : Tally} (h : s.Initial) : s.Ok := by
  obtain ⟨ownTarget, numberOfLrn, timerIntId, rfl⟩ := h
  refine ⟨fun cpu => distinct_of_inactive fun i => show isInactive (0 : Word) = true by decide, ?_⟩
  intro t id
  have hnone : ¬LrPending (Vgic.new ownTarget numberOfLrn timerIntId) t id := by
    rintro ⟨i, -, hp, -⟩
    exact absurd (show isPending (0 : Word) = true from hp) (by decide)
  show 0 + inFlight (Vgic.new ownTarget numberOfLrn timerIntId) t id ≤ 0
  rw [inFlight, if_neg hnone]
  rfl

end Tally

/-- **At-most-once delivery.** In every run whose redeliveries are covered, of triggers, guest
accesses other than to `GICD_ISPENDR`, acknowledges, completions, inject and maintenance interrupts
on any CPUs, an INTID is acknowledged on a CPU at most as often as it was triggered for it. -/
theorem at_most_once {actions : List Action} {s : Tally}
    (h : Run Tally.Initial (Tally.Step Tally.Covered) actions s) (t : Cpu) (id : Nat) :
    s.acks t id ≤ s.triggers t id := by
  have hok : s.Ok := h.invariant (fun _ => Tally.Ok.initial) fun _ _ _ hs hst => hs.step hst
  exact (Nat.le_add_right _ _).trans (hok.within t id)

/-! ## Redelivery -/

instance (v : Vgic) (current : Cpu) (intId : Nat) : Decidable (Completed v current intId) :=
  inferInstanceAs (Decidable (∃ i < _, _ ∧ _))

instance (s : Tally) : (action : Action) → Decidable (s.Covered action)
  | .maintenance _ => inferInstanceAs (Decidable (_ → _))
  | .write _ _ _ _ => by
    unfold Tally.Covered
    dsimp only
    split <;> infer_instance
  | .read _ _ _ | .trigger _ _ _ | .timer _ | .acknowledge _ _ | .endOfInterrupt _ _ | .inject _ =>
    .isTrue trivial

/-- The permitted events, as a function. -/
def Tally.perform (permitted : Tally → Action → Bool) (s : Tally) (action : Action) :
    Option Tally :=
  if permitted s action = true then
    (Gic.perform (fun action => !setsPending action) s.vgic action).map (s.next action)
  else none

theorem Tally.step_of_perform {permitted : Tally → Action → Prop} {check : Tally → Action → Bool}
    (hcheck : ∀ s action, check s action = true → permitted s action) (s : Tally) (action : Action)
    (s' : Tally) (h : s.perform check action = some s') : Tally.Step permitted s action s' := by
  unfold Tally.perform at h
  split at h
  · next hp =>
    obtain ⟨v', hv', rfl⟩ := Option.map_eq_some_iff.1 h
    exact ⟨hcheck s action hp, Gic.step_of_perform (fun _ _ h => by simpa using h) _ _ _ hv', rfl⟩
  · cases h

/-- A new Distributor on four List Registers, with nothing counted. -/
def Tally.fresh : Tally := ⟨.new 1 4 30, fun _ _ => 0, fun _ _ => 0⟩

theorem Tally.run_fresh (permitted : Tally → Action → Prop) :
    Run Tally.Initial (Tally.Step permitted) [] Tally.fresh :=
  .start ⟨1, 4, 30, rfl⟩

/-- INTID 33 is triggered while it is disabled, and delivered when the guest enables it. -/
def deliveredWhenEnabled : List Action :=
  [.write 0 0x0000 32 1, .trigger 0 33 1, .write 0 0x0104 32 2, .acknowledge 0 0,
    .endOfInterrupt 0 0, .maintenance 0]

theorem at_most_once_enabled : ∃ s,
    Run Tally.Initial (Tally.Step Tally.Covered) deliveredWhenEnabled s ∧ s.acks 0 33 = 1 ∧
      s.acks 0 33 ≤ s.triggers 0 33 := by
  have hcheck : (follow (Tally.perform fun s action => decide (s.Covered action)) Tally.fresh
      deliveredWhenEnabled).any (fun s => s.acks 0 33 == 1) = true := by decide +kernel
  obtain ⟨s, hs, hacks⟩ := (Option.any_eq_true _ _).1 hcheck
  have hrun : Run Tally.Initial (Tally.Step Tally.Covered) deliveredWhenEnabled s :=
    (Tally.run_fresh _).follow (Tally.step_of_perform fun _ _ h => of_decide_eq_true h)
      deliveredWhenEnabled hs
  exact ⟨s, hrun, beq_iff_eq.1 hacks, at_most_once hrun 0 33⟩

/-- INTID 33 is acknowledged and not yet completed when INTID 34 is completed. The maintenance
interrupt for INTID 34 finds INTID 33 pending and marks its active List Register pending again. -/
def redelivered : List Action :=
  [.write 0 0x0000 32 1, .write 0 0x0104 32 6, .trigger 0 33 1, .acknowledge 0 0, .trigger 0 34 1,
    .acknowledge 0 1, .endOfInterrupt 0 1, .maintenance 0, .endOfInterrupt 0 0, .acknowledge 0 0]

/-- One trigger of INTID 33 is acknowledged twice. -/
theorem acknowledged_twice : ∃ s,
    Run Tally.Initial (Tally.Step fun _ _ => True) redelivered s ∧ s.triggers 0 33 = 1 ∧
      s.acks 0 33 = 2 := by
  have hcheck : (follow (Tally.perform fun _ _ => true) Tally.fresh redelivered).any (fun s =>
      s.triggers 0 33 == 1 && s.acks 0 33 == 2) = true := by decide +kernel
  obtain ⟨s, hs, hc⟩ := (Option.any_eq_true _ _).1 hcheck
  simp only [Bool.and_eq_true, beq_iff_eq] at hc
  have hrun : Run Tally.Initial (Tally.Step fun _ _ => True) redelivered s :=
    (Tally.run_fresh _).follow (Tally.step_of_perform fun _ _ _ => trivial) redelivered hs
  exact ⟨s, hrun, hc.1, hc.2⟩

end MiniVisor.Gic
