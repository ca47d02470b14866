import MiniVisor.Gic.Delivery

/-!
# Deactivation of the physical timer interrupt

When `generic_timer_interrupt_handler` returns true, the hypervisor leaves the physical interrupt
active, and only the completion of a List Register with the HW bit and the physical INTID
deactivates it. The handler may merge the interrupt into a List Register that already holds INTID
27, and a retrigger of INTID 27 by the guest makes such a List Register without the HW bit.

The only entry with the HW bit that is ever made is that of the timer (`HardwareOk`). Along any run
the List Register that holds INTID 27 after a successful timer interrupt can deactivate the physical
one exactly when no timer interrupt finds a List Register of a retrigger in use
(`timer_deactivates_iff`).
-/

set_option autoImplicit false

namespace MiniVisor.Gic

open MiniVisor.Lib

/-! ## Entries with the HW bit -/

/-- A List Register with the HW bit holds the timer interrupt and its physical INTID. -/
def HardwareOk (v : Vgic) : Prop := ∀ c i, isHardware (v.lr c i) = true →
  virtualId (v.lr c i) = 27 ∧ physicalId (v.lr c i) = v.timerIntId &&& 0x3FF

/-- A change of one List Register that keeps the property. -/
theorem hardwareOk_setLr {v : Vgic} (hw : HardwareOk v) (cpu : Cpu) (i : Nat) {value : Word}
    (hvalue : isHardware value = true →
      virtualId value = 27 ∧ physicalId value = v.timerIntId &&& 0x3FF) :
    HardwareOk (v.setLr cpu i value) := by
  intro c j
  by_cases hsame : c = cpu ∧ j = i
  · obtain ⟨rfl, rfl⟩ := hsame
    rw [lr_setLr_self]
    exact hvalue
  · rw [lr_setLr_of_ne v _ hsame]
    exact hw c j

theorem Inserted.hardwareOk {v v' : Vgic} {cpu : Cpu} {entry : Word} {added : Bool}
    (h : Inserted v cpu entry added v') (he : EntryOk v.timerIntId entry) (hw : HardwareOk v) :
    HardwareOk v' := by
  cases h with
  | merged i hi huse hid =>
    apply hardwareOk_setLr hw
    rw [isHardware_or_pending, virtualId_or_pending, physicalId_or_pending]
    exact hw cpu i
  | filled i hi hfree hnone => exact hardwareOk_setLr hw cpu i he.hardware
  | full hfull => exact hw

theorem Effect.hardwareOk {v v' : Vgic} (h : Effect v v') (hw : HardwareOk v) : HardwareOk v' := by
  cases h with
  | inserted _ cpu entry added hentry hins => exact hins.hardwareOk hentry hw
  | _ => exact hw

theorem Effects.hardwareOk {v v' : Vgic} (h : Effects v v') (hw : HardwareOk v) :
    HardwareOk v' := by
  induction h with
  | refl => exact hw
  | tail _ he ih => exact he.hardwareOk ih

theorem hardwareOk_collected {v v' : Vgic} {current : Cpu} {eoiBits : Nat → Bool} {l : List Nat}
    (h : Collected current eoiBits l v v') (hw : HardwareOk v) : HardwareOk v' := by
  intro c j
  rw [h.lr, h.timerIntId]
  split
  · exact fun h => absurd h (by decide)
  · exact hw c j

/-! ## Steps -/

/-- Every event that is possible. -/
def TimerStep : Vgic → Action → Vgic → Prop := Step fun _ _ => True

/-- What holds in every reachable state. The timer's physical INTID fits the field of an entry. -/
structure TimerOk (v : Vgic) : Prop where
  queue : QueueOk v
  hardware : HardwareOk v
  intId : v.timerIntId &&& 0x3FF = v.timerIntId

theorem Effects.timerOk {v v' : Vgic} (h : Effects v v') (ht : TimerOk v) : TimerOk v' where
  queue := h.queueOk ht.queue
  hardware := h.hardwareOk ht.hardware
  intId := by
    rw [h.timerIntId]
    exact ht.intId

/-- The guest's own clearing of pending bits touches no List Register. -/
theorem exec_of_clearsPending {v v' : Vgic} {action : Action} (hc : clearsPending action = true)
    (h : exec v action = .ok v') :
    ∃ d, d.toInjectInterrupt = v.distributor.toInjectInterrupt ∧ v' = v.setDistributor d := by
  cases action with
  | write cpu offset accessWidth value =>
    cases hr : decode offset with
    | none => simp [clearsPending, hr] at hc
    | some r =>
      cases r with
      | icpendr n =>
        simp only [clearsPending, hr, beq_iff_eq] at hc
        simp only [exec, write, hr, hc, if_true] at h
        obtain ⟨p, -, h⟩ := bind_eq_ok.1 h
        cases h
        exact ⟨_, v.distributor.toInjectInterrupt_update _ _, rfl⟩
      | _ => simp [clearsPending, hr] at hc
  | _ => cases hc

theorem TimerOk.step {v v' : Vgic} {action : Action} (ht : TimerOk v)
    (h : TimerStep v action v') : TimerOk v' := by
  obtain ⟨hposs, -, hexec⟩ := h
  cases hclear : clearsPending action with
  | true =>
    obtain ⟨d, hd, rfl⟩ := exec_of_clearsPending hclear hexec
    refine ⟨fun x hx => ht.queue x ?_, ht.hardware, ht.intId⟩
    rwa [distributor_setDistributor, hd] at hx
  | false =>
    rcases deliveryStep_cases ht.queue ⟨hposs, hclear, hexec⟩ with ⟨he, -⟩ | ⟨cpu, i, -, rfl⟩ |
      ⟨cpu, i, -, rfl⟩ | ⟨cpu, -, hm⟩
    · exact he.timerOk ht
    · refine ⟨ht.queue, hardwareOk_setLr ht.hardware cpu i ?_, ht.intId⟩
      rw [isHardware_acknowledge, virtualId_acknowledge, physicalId_acknowledge]
      exact ht.hardware cpu i
    · refine ⟨ht.queue, hardwareOk_setLr ht.hardware cpu i ?_, ht.intId⟩
      rw [isHardware_endOfInterrupt, virtualId_endOfInterrupt, physicalId_endOfInterrupt]
      exact ht.hardware cpu i
    · obtain ⟨v₁, hcol, hrest⟩ := maintenanceInterruptHandler_cases hm
      have ht₁ : TimerOk v₁ :=
        ⟨queueOk_collected hcol ht.queue, hardwareOk_collected hcol ht.hardware, by
          rw [hcol.timerIntId]
          exact ht.intId⟩
      exact (effects_injectPendingForCurrentCpu hrest).timerOk
        ((effects_injectInterruptHandler ht₁.queue cpu).timerOk ht₁)

theorem timerOk_new (ownTarget : Target) (numberOfLrn : Nat) {timerIntId : Word}
    (h : timerIntId &&& 0x3FF = timerIntId) : TimerOk (Vgic.new ownTarget numberOfLrn timerIntId)
      where
  queue := queueOk_new _ _ _
  hardware _ _ hhw := absurd (show isHardware 0 = true from hhw) (by decide)
  intId := h

/-! ## The timer interrupt -/

section SingleTarget

variable {v : Vgic} {current cpu : Cpu} {intId : Nat} {physicalIntId : Option Word}

theorem and_targetOf_of_ne {b c : Cpu} (h : b ≠ c) : (targetOf c &&& targetOf b) = 0 := by
  by_contra hne
  exact h (and_targetOf_ne_zero hne)

theorem targetOf_and_self (b : Cpu) : (targetOf b &&& targetOf b) ≠ 0 := by
  revert b
  decide

theorem triggerLoop_of_notMem (bits : List Cpu) (hmem : cpu ∉ bits) (injected : Bool) :
    triggerLoop current intId physicalIntId (targetOf cpu) bits injected v = .ok (injected, v) := by
  induction bits with
  | nil => rfl
  | cons b rest ih =>
    obtain ⟨hb, hrest⟩ := List.ne_and_not_mem_of_not_mem_cons hmem
    rw [triggerLoop_cons, if_pos (and_targetOf_of_ne (Ne.symm hb))]
    exact ih hrest

/-- A trigger for one target is one iteration of the loop. -/
theorem triggerLoop_targetOf (bits : List Cpu) (hnd : bits.Nodup) (hmem : cpu ∈ bits)
    (injected : Bool) :
    triggerLoop current intId physicalIntId (targetOf cpu) bits injected v =
      (triggerTarget v current intId physicalIntId (targetOf cpu)).map
        fun r => (injected || r.1, r.2) := by
  induction bits with
  | nil => cases hmem
  | cons b rest ih =>
    obtain ⟨hb, hrest⟩ := List.nodup_cons.1 hnd
    rw [triggerLoop_cons]
    by_cases hbc : b = cpu
    · subst hbc
      rw [if_neg (targetOf_and_self b)]
      cases triggerTarget v current intId physicalIntId (targetOf b) with
      | error e => rfl
      | ok r => exact triggerLoop_of_notMem rest hb _
    · rw [if_pos (and_targetOf_of_ne hbc)]
      exact ih hrest ((List.mem_cons.1 hmem).resolve_left (Ne.symm hbc))

end SingleTarget

/-- The virtual timer interrupt is enabled on the CPU. -/
def TimerEnabled (v : Vgic) (current : Cpu) : Prop :=
  distributorEnabled v.distributor = true ∧ bitOf v.distributor .enable current 27 = true

instance (v : Vgic) (current : Cpu) : Decidable (TimerEnabled v current) :=
  inferInstanceAs (Decidable (_ ∧ _))

/-- The timer handler sets the pending bit and, when the interrupt is enabled, inserts its entry. -/
theorem genericTimerInterruptHandler_eq (v : Vgic) (current : Cpu) :
    ∃ d, genericTimerInterruptHandler v current = .ok (
      if TimerEnabled v current then
        addVirtualInterrupt (v.setDistributor d) current (entryOf d current 27 (some v.timerIntId))
      else (false, v.setDistributor d)) := by
  refine ⟨v.distributor.update (placeOf .pending current (27 / 32)) (changeBit 27 true), ?_⟩
  unfold genericTimerInterruptHandler triggerInterruptTo
  rw [triggerLoop_targetOf _ (List.nodup_finRange _) (List.mem_finRange _),
    triggerTarget_eq v current current _ (by decide), listEntry_eq _ _ (by decide)]
  have hself : ∀ w entry, deliver w current (targetOf current) entry =
      addVirtualInterrupt w current entry := fun _ _ => if_pos rfl
  by_cases hen : TimerEnabled v current
  · have hen' : distributorEnabled v.distributor = true ∧
      bitOf v.distributor .enable current 27 = true := hen
    rw [if_pos hen, if_pos hen']
    simp only [Except.map, hself, Bool.false_or]
    rfl
  · have hen' : ¬(distributorEnabled v.distributor = true ∧
      bitOf v.distributor .enable current 27 = true) := hen
    rw [if_neg hen, if_neg hen']
    rfl

/-- A List Register in use that holds INTID 27. -/
def HoldsTimer (v : Vgic) (c : Cpu) (i : Nat) : Prop :=
  i < v.supportedLrn ∧ isInactive (v.lr c i) = false ∧ virtualId (v.lr c i) = 27

/-- The completion of INTID 27 on the CPU deactivates the physical timer interrupt. -/
def CanDeactivate (v : Vgic) (c : Cpu) : Prop :=
  (∃ i, HoldsTimer v c i) ∧ ∀ i, HoldsTimer v c i →
    isHardware (v.lr c i) = true ∧ physicalId (v.lr c i) = v.timerIntId

/-- After a timer interrupt that the handler reports as injected the completion of INTID 27
deactivates it. -/
def Deactivates (v : Vgic) : Action → Vgic → Prop
  | .timer c, v' => (∃ w, genericTimerInterruptHandler v c = .ok (true, w)) → CanDeactivate v' c
  | _, _ => True

/-- A timer interrupt that is enabled finds no List Register of a retrigger in use. -/
def NoRetrigger (v : Vgic) : Action → Prop
  | .timer c => TimerEnabled v c → ∀ i, HoldsTimer v c i → isHardware (v.lr c i) = true
  | _ => True

section Timer

variable {v v' : Vgic} {current : Cpu} {d : GicDistributorMmio}

theorem virtualId_timerEntry (d : GicDistributorMmio) (current : Cpu) (p : Option Word) :
    virtualId (entryOf d current 27 p) = 27 := by
  unfold entryOf
  rw [virtualId_create]
  decide

/-- The insertion of the timer's entry next to hardware entries only. -/
theorem canDeactivate_of_inserted (hw : HardwareOk v)
    (hfits : v.timerIntId &&& 0x3FF = v.timerIntId)
    (hno : ∀ i, HoldsTimer v current i → isHardware (v.lr current i) = true)
    (h : Inserted v current (entryOf d current 27 (some v.timerIntId)) true v') :
    CanDeactivate v' current := by
  have hhw := isHardware_entryOf d current 27 (some v.timerIntId)
  have hentry := (entryOk_timer d current v.timerIntId).hardware hhw
  have hok : ∀ i, HoldsTimer v current i →
      isHardware (v.lr current i) = true ∧ physicalId (v.lr current i) = v.timerIntId := by
    intro i hi
    exact ⟨hno i hi, ((hw current i (hno i hi)).2).trans hfits⟩
  cases h with
  | merged i hi huse hid =>
    rw [hentry.1] at hid
    have hnew : isInactive (v.lr current i ||| gichLrStatePending) = false :=
      isInactive_of_isPending _ (isPending_or_pending _)
    refine ⟨⟨i, hi, ?_, ?_⟩, fun j hj => ?_⟩
    · rwa [lr_setLr_self]
    · rwa [lr_setLr_self, virtualId_or_pending]
    · by_cases hji : j = i
      · subst hji
        rw [lr_setLr_self, isHardware_or_pending, physicalId_or_pending]
        exact hok j ⟨hi, huse, hid⟩
      · obtain ⟨hlt, huse', hid'⟩ := hj
        rw [lr_setLr_of_ne v _ (fun h => hji h.2)] at huse' hid' ⊢
        exact hok j ⟨hlt, huse', hid'⟩
  | filled i hi hfree hnone =>
    refine ⟨⟨i, hi, ?_, ?_⟩, fun j hj => ?_⟩
    · rw [lr_setLr_self]
      exact isInactive_of_isPending _ (isPending_entryOf _ _ _ _)
    · rw [lr_setLr_self, hentry.1]
    · by_cases hji : j = i
      · subst hji
        rw [lr_setLr_self]
        exact ⟨hhw, hentry.2.trans hfits⟩
      · -- Another register with the INTID would have been merged into.
        obtain ⟨hlt, huse', hid'⟩ := hj
        rw [lr_setLr_of_ne v _ (fun h => hji h.2)] at huse' hid'
        exact absurd (hid'.trans hentry.1.symm) (hnone j hlt huse')

/-- A List Register in use that holds INTID 27 takes the entry and keeps its HW bit. -/
theorem inserted_of_holdsTimer {added : Bool} {entry : Word} {i : Nat}
    (h : Inserted v current entry added v') (hid : virtualId entry = 27)
    (hi : HoldsTimer v current i) :
    added = true ∧ HoldsTimer v' current i ∧
      isHardware (v'.lr current i) = isHardware (v.lr current i) := by
  obtain ⟨hlt, huse, hvid⟩ := hi
  cases h with
  | merged j hj huse' hid' =>
    refine ⟨rfl, ?_⟩
    by_cases hij : i = j
    · subst hij
      have hnew : isInactive (v.lr current i ||| gichLrStatePending) = false :=
        isInactive_of_isPending _ (isPending_or_pending _)
      refine ⟨⟨hlt, ?_, ?_⟩, ?_⟩
      · rwa [lr_setLr_self]
      · rwa [lr_setLr_self, virtualId_or_pending]
      · rw [lr_setLr_self, isHardware_or_pending]
    · have hlr := lr_setLr_of_ne v (v.lr current j ||| gichLrStatePending)
        (fun h : current = current ∧ i = j => hij h.2)
      exact ⟨⟨hlt, by rwa [hlr], by rwa [hlr]⟩, by rw [hlr]⟩
  | filled j hj hfree hnone => exact absurd (hvid.trans hid.symm) (hnone i hlt huse)
  | full hfull => exact absurd (hvid.trans hid.symm) (hfull i hlt).2

/-- The timer interrupt can be deactivated exactly when no retrigger is in the way. -/
theorem deactivates_iff {action : Action} (ht : TimerOk v) (h : TimerStep v action v') :
    Deactivates v action v' ↔ NoRetrigger v action := by
  cases action with
  | timer c =>
    obtain ⟨d, hd⟩ := genericTimerInterruptHandler_eq v c
    obtain ⟨-, -, hexec⟩ := h
    obtain ⟨r, hr, hexec⟩ := bind_eq_ok.1 hexec
    cases hexec
    rw [hr, Except.ok.injEq] at hd
    simp only [Deactivates, NoRetrigger, hr]
    by_cases hen : TimerEnabled v c
    · rw [if_pos hen] at hd
      have hins := inserted_addVirtualInterrupt (v.setDistributor d) c
        (entryOf d c 27 (some v.timerIntId))
      rw [← hd] at hins
      constructor
      · intro hdeact _ i hi
        obtain ⟨hadded, hi', hhw⟩ := inserted_of_holdsTimer hins (virtualId_timerEntry d c _) hi
        have hcan := hdeact ⟨r.2, by rw [← hadded]⟩
        exact hhw.symm.trans (hcan.2 i hi').1
      · rintro hno ⟨w, hw⟩
        cases hw
        exact canDeactivate_of_inserted (v := v.setDistributor d) ht.hardware
          ht.intId (hno hen) hins
    · rw [if_neg hen] at hd
      refine iff_of_true ?_ fun h => absurd h hen
      rintro ⟨w, hw⟩
      rw [hd] at hw
      cases hw
  | _ => exact Iff.rfl

end Timer

/-! ## Runs -/

/-- Along any run of a VM, every timer interrupt that the handler reports as injected can be
deactivated by the guest exactly when no enabled timer interrupt finds a List Register in use that
holds INTID 27 without the HW bit. -/
theorem timer_deactivates_iff (ownTarget : Target) (numberOfLrn : Nat) (timerIntId : Word)
    (hid : timerIntId &&& 0x3FF = timerIntId) (actions : List Action) :
    Along TimerStep Deactivates (Vgic.new ownTarget numberOfLrn timerIntId) actions ↔
      Along TimerStep (fun v action _ => NoRetrigger v action)
        (Vgic.new ownTarget numberOfLrn timerIntId) actions := by
  refine along_congr TimerOk ?_ ?_ actions _ (timerOk_new _ _ hid)
  · exact fun v action v' ht h => deactivates_iff ht h
  · exact fun v action v' ht h _ => ht.step h

/-- A guest makes INTID 27 pending, then enables it. -/
def retriggered : List Action :=
  [.write 0 0x0000 32 1, .write 0 0x0200 32 0x8000000, .write 0 0x0100 32 0x8000000]

theorem timer_deactivates_iff_retriggered :
    (30 : Word) &&& 0x3FF = 30 ∧
      (Along TimerStep Deactivates (Vgic.new 1 4 30) (retriggered ++ [.timer 0]) ↔
        Along TimerStep (fun v action _ => NoRetrigger v action) (Vgic.new 1 4 30)
          (retriggered ++ [.timer 0])) :=
  ⟨by decide, timer_deactivates_iff 1 4 30 (by decide) _⟩

/-- The timer interrupt is merged into the List Register of the retrigger, which has no HW bit. -/
theorem merged_timer_stays_active :
    ¬Along TimerStep Deactivates (Vgic.new 1 4 30) (retriggered ++ [.timer 0]) := by
  intro hal
  -- The handler reports success, and the register it merged into has no HW bit.
  have hcheck : (follow (perform fun _ => true) (Vgic.new 1 4 30) retriggered).any (fun v =>
      match genericTimerInterruptHandler v 0 with
      | .ok (added, v') => added && decide (0 < v'.supportedLrn) && !isInactive (v'.lr 0 0) &&
          (virtualId (v'.lr 0 0) == 27) && !isHardware (v'.lr 0 0)
      | .error _ => false) = true := by
    decide +kernel
  obtain ⟨v, hv, hc⟩ := (Option.any_eq_true _ _).1 hcheck
  cases hg : genericTimerInterruptHandler v 0 with
  | error e =>
    rw [hg] at hc
    cases hc
  | ok r =>
    obtain ⟨added, v'⟩ := r
    simp only [hg, Bool.and_eq_true, Bool.not_eq_true', decide_eq_true_eq, beq_iff_eq] at hc
    obtain ⟨⟨⟨⟨hadded, hlt⟩, huse⟩, hvid⟩, hhw⟩ := hc
    subst hadded
    have hstep : perform (fun _ => true) v (.timer 0) = some v' := by
      simp [perform, Possible, exec, hg, pure, Except.pure]
    have hdeact : Deactivates v (.timer 0) v' :=
      hal.last (step_of_perform fun _ _ _ => trivial) retriggered hv hstep
    have hcan := (hdeact ⟨v', hg⟩).2 0 ⟨hlt, huse, hvid⟩
    rw [hhw] at hcan
    cases hcan.1

end MiniVisor.Gic
