import MiniVisor.Gic.Effects
import MiniVisor.Lib.Transition

/-!
# Interrupts that are not lost

A software trigger is outstanding until the guest on its target acknowledges the INTID. It is held
when a List Register of the target holds the INTID with the pending bit, when the queue has an entry
for it, or when the pending bit of the Distributor is set in the target's view.

The only event that can drop what is held is the maintenance interrupt: it clears the pending bit of
each INTID whose List Register was completed, also when the bit was set by a trigger after the one
that was completed. `Unraced` says that no outstanding trigger depends on such a bit, and
`never_lost_iff` that the outstanding triggers are held along a run exactly when every maintenance
interrupt of the run is unraced.
-/

set_option autoImplicit false

namespace MiniVisor.Gic

open MiniVisor.Lib

/-! ## Held triggers -/

/-- The queue has an entry for the target. -/
def Queued (v : Vgic) (t : Cpu) (intId : Nat) : Prop :=
  ∃ x ∈ v.distributor.toInjectInterrupt, x.1 = targetOf t ∧ (virtualId x.2).toNat = intId

def Holds (v : Vgic) (t : Cpu) (intId : Nat) : Prop :=
  LrPending v t intId ∨ Queued v t intId ∨ bitOf v.distributor .pending t intId = true

/-- Every outstanding trigger is held. -/
def Kept (v : Vgic) : Prop := ∀ t intId, v.outstanding t intId = true → Holds v t intId

instance (v : Vgic) (t : Cpu) (intId : Nat) : Decidable (LrPending v t intId) :=
  inferInstanceAs (Decidable (∃ i, i < v.supportedLrn ∧ _))

instance (v : Vgic) (t : Cpu) (intId : Nat) : Decidable (Queued v t intId) :=
  inferInstanceAs (Decidable (∃ x ∈ v.distributor.toInjectInterrupt, _))

instance (v : Vgic) (t : Cpu) (intId : Nat) : Decidable (Holds v t intId) :=
  inferInstanceAs (Decidable (_ ∨ _ ∨ _))

/-! ## Effects -/

section Effect

variable {v v' : Vgic}

theorem Effect.holds (h : Effect v v') {t : Cpu} {intId : Nat} (hh : Holds v t intId) :
    Holds v' t intId := by
  cases h with
  | registers d hqueue hpending =>
    rcases hh with hlr | ⟨x, hx, hxt⟩ | hbit
    · exact Or.inl hlr
    · exact Or.inr (Or.inl ⟨x, hqueue ▸ hx, hxt⟩)
    · exact Or.inr (Or.inr (hpending _ _ hbit))
  | recorded cpu i hpending => exact hh
  | inserted _ cpu entry added hentry hins =>
    rcases hh with hlr | ⟨x, hx, hxt⟩ | hbit
    · exact Or.inl (hins.lrPending_mono hlr)
    · exact Or.inr (Or.inl ⟨x, hins.distributor ▸ hx, hxt⟩)
    · exact Or.inr (Or.inr (hins.distributor ▸ hbit))
  | queued target entry hpending hsoftware =>
    rcases hh with hlr | ⟨x, hx, hxt⟩ | hbit
    · exact Or.inl hlr
    · exact Or.inr (Or.inl ⟨x, List.mem_append_left _ hx, hxt⟩)
    · exact Or.inr (Or.inr ((bitOf_queue _ _ _ _ _).trans hbit))
  | taken queue hsub hheld =>
    rcases hh with hlr | ⟨x, hx, hxt, hid⟩ | hbit
    · exact Or.inl hlr
    · rcases hheld x hx with hin | ⟨c, hc, hlr⟩
      · exact Or.inr (Or.inl ⟨x, hin, hxt, hid⟩)
      · -- The entry was taken into a List Register of its own target.
        have hct : c = t := targetOf_inj.1 (hc.symm.trans hxt)
        rw [hct, hid] at hlr
        exact Or.inl hlr
    · exact Or.inr (Or.inr ((bitOf_queue _ _ _ _ _).trans hbit))

theorem outstanding_record (v : Vgic) (cpu t : Cpu) (intId i : Nat) :
    (v.record cpu intId none).outstanding t i = true ↔
      (t = cpu ∧ i = intId) ∨ v.outstanding t i = true := by
  simp [Vgic.record]

/-- A trigger that becomes outstanding is held by its pending bit. -/
theorem Effect.outstanding (h : Effect v v') {t : Cpu} {intId : Nat} :
    v'.outstanding t intId = true →
      v.outstanding t intId = true ∨ bitOf v.distributor .pending t intId = true := by
  cases h with
  | recorded cpu i hpending =>
    rw [outstanding_record]
    rintro (⟨rfl, rfl⟩ | ho)
    · exact Or.inr hpending
    · exact Or.inl ho
  | inserted _ cpu entry added hentry hins =>
    rw [hins.outstanding]
    exact Or.inl
  | _ => exact Or.inl

theorem Effect.outstanding_mono (h : Effect v v') {t : Cpu} {intId : Nat}
    (ho : v.outstanding t intId = true) : v'.outstanding t intId = true := by
  cases h with
  | recorded cpu i hpending => exact (outstanding_record _ _ _ _ _).2 (Or.inr ho)
  | inserted _ cpu entry added hentry hins => rwa [hins.outstanding]
  | _ => exact ho

theorem Effect.kept (h : Effect v v') (hk : Kept v) : Kept v' := by
  intro t intId ho
  rcases h.outstanding ho with ho | hbit
  · exact h.holds (hk t intId ho)
  · exact h.holds (Or.inr (Or.inr hbit))

theorem Effects.kept (h : Effects v v') (hk : Kept v) : Kept v' := by
  induction h with
  | refl => exact hk
  | tail _ he ih => exact he.kept ih

theorem Effects.outstanding_mono (h : Effects v v') {t : Cpu} {intId : Nat}
    (ho : v.outstanding t intId = true) : v'.outstanding t intId = true := by
  induction h with
  | refl => exact ho
  | tail _ he ih => exact he.outstanding_mono ih

end Effect

/-! ## The guest -/

section Guest

variable {v : Vgic} {cpu : Cpu} {i : Nat}

/-- The acknowledged interrupt is not outstanding, and every other List Register is as before. -/
theorem kept_acknowledge (hk : Kept v) :
    Kept ((v.setLr cpu i (acknowledge (v.lr cpu i))).settle cpu
      (virtualId (v.lr cpu i)).toNat) := by
  intro t intId ho
  simp only [Vgic.settle, Bool.and_eq_true, Bool.not_eq_true', Bool.and_eq_false_iff,
    beq_eq_false_iff_ne, ne_eq] at ho
  rcases hk t intId ho.1 with ⟨j, hj, hp, hid⟩ | hrest
  · have hne : ¬(t = cpu ∧ j = i) := by
      rintro ⟨rfl, rfl⟩
      rcases ho.2 with h | h
      · exact h rfl
      · exact h hid.symm
    have hlr : ((v.setLr cpu i (acknowledge (v.lr cpu i))).settle cpu
        (virtualId (v.lr cpu i)).toNat).lr t j = v.lr t j := lr_setLr_of_ne v _ hne
    exact Or.inl ⟨j, hj, by rwa [hlr], by rwa [hlr]⟩
  · exact Or.inr hrest

theorem kept_endOfInterrupt (hk : Kept v) :
    Kept (v.setLr cpu i (endOfInterrupt (v.lr cpu i))) := by
  intro t intId ho
  rcases hk t intId ho with ⟨j, hj, hp, hid⟩ | hrest
  · refine Or.inl ⟨j, hj, ?_⟩
    by_cases hsame : t = cpu ∧ j = i
    · obtain ⟨rfl, rfl⟩ := hsame
      rw [lr_setLr_self, isPending_endOfInterrupt, virtualId_endOfInterrupt]
      exact ⟨hp, hid⟩
    · rw [lr_setLr_of_ne v _ hsame]
      exact ⟨hp, hid⟩
  · exact Or.inr hrest

end Guest

/-! ## The maintenance interrupt -/

/-- A maintenance interrupt that clears no pending bit on which an outstanding trigger depends. -/
def Unraced (v : Vgic) : Action → Prop
  | .maintenance current => ∀ t intId, v.outstanding t intId = true → Completed v current intId →
      SameBit intId t current → LrPending v t intId ∨ Queued v t intId
  | _ => True

section Maintenance

variable {v v₁ v' : Vgic} {current : Cpu}

theorem not_awaitsMaintenance_of_isPending {lr : Word} (h : isPending lr = true) :
    awaitsMaintenance lr = false := by
  unfold awaitsMaintenance
  rw [isInactive_of_isPending lr h, Bool.false_and, Bool.false_and]

theorem collected_lrPending {l : List Nat}
    (h : Collected current (fun i => awaitsMaintenance (v.lr current i)) l v v₁) {t : Cpu}
    {intId : Nat} : LrPending v₁ t intId ↔ LrPending v t intId := by
  have hn : v₁.supportedLrn = v.supportedLrn := by
    unfold Vgic.supportedLrn
    rw [h.numberOfLrn]
  unfold LrPending
  rw [hn]
  refine exists_congr fun j => and_congr_right fun _ => ?_
  rw [h.lr]
  split
  · next hc =>
    -- A collected register is empty afterwards and was not pending before.
    obtain ⟨rfl, -, ha⟩ := hc
    constructor
    · rintro ⟨hp, -⟩
      exact absurd hp (by decide)
    · rintro ⟨hp, -⟩
      rw [not_awaitsMaintenance_of_isPending hp] at ha
      cases ha
  · exact Iff.rfl

theorem collected_queued {l : List Nat} {eoiBits : Nat → Bool}
    (h : Collected current eoiBits l v v₁) {t : Cpu} {intId : Nat} :
    Queued v₁ t intId ↔ Queued v t intId := by
  unfold Queued
  rw [h.queue]

/-- Only the entries of the queue for the CPU become pending in its List Registers. -/
theorem lrPending_injectEntries_inv (queue : List (Target × Word)) {t : Cpu} {intId : Nat} :
    ∀ v : Vgic, LrPending (injectEntries current queue v).2 t intId →
      LrPending v t intId ∨
        (t = current ∧ ∃ x ∈ queue, x.1 = targetOf current ∧ (virtualId x.2).toNat = intId) := by
  induction queue with
  | nil => exact fun v h => Or.inl h
  | cons head rest ih =>
    intro v h
    obtain ⟨target, entry⟩ := head
    by_cases ht : target = targetOf current
    · simp only [injectEntries, if_pos ht] at h
      rcases ih _ h with h | ⟨htc, x, hx, hxt⟩
      · rcases (inserted_addVirtualInterrupt v current entry).lrPending_inv h with h | ⟨htc, hid⟩
        · exact Or.inl h
        · exact Or.inr ⟨htc, _, List.mem_cons_self, ht, hid⟩
      · exact Or.inr ⟨htc, x, List.mem_cons_of_mem _ hx, hxt⟩
    · simp only [injectEntries, if_neg ht] at h
      rcases ih _ h with h | ⟨htc, x, hx, hxt⟩
      · exact Or.inl h
      · exact Or.inr ⟨htc, x, List.mem_cons_of_mem _ hx, hxt⟩

theorem lrPending_injectInterruptHandler_inv {t : Cpu} {intId : Nat}
    (h : LrPending (injectInterruptHandler v current) t intId) :
    LrPending v t intId ∨ Queued v t intId := by
  rcases lrPending_injectEntries_inv _ v h with h | ⟨rfl, h⟩
  · exact Or.inl h
  · exact Or.inr h

theorem distributor_injectCandidates (candidates : List (Nat × Nat)) :
    ∀ {v : Vgic}, (∀ x ∈ candidates, x.2 < 1020) →
      injectCandidates current candidates v = .ok v' → v'.distributor = v.distributor := by
  induction candidates with
  | nil =>
    intro v _ h
    cases h
    rfl
  | cons x rest ih =>
    intro v hl h
    obtain ⟨hx, hrest⟩ := List.forall_mem_cons.1 hl
    simp only [injectCandidates, listEntry_eq _ current hx, ok_bind] at h
    split at h
    · exact (ih hrest h).trans (distributor_addVirtualInterrupt _ _ _)
    · cases h
      exact distributor_addVirtualInterrupt _ _ _

theorem lrPending_injectCandidates_inv {t : Cpu} {intId : Nat} (candidates : List (Nat × Nat)) :
    ∀ {v : Vgic}, (∀ x ∈ candidates, x.2 < 1020) →
      injectCandidates current candidates v = .ok v' → LrPending v' t intId →
        LrPending v t intId ∨ (t = current ∧ ∃ x ∈ candidates, x.2 = intId) := by
  induction candidates with
  | nil =>
    intro v _ h hp
    cases h
    exact Or.inl hp
  | cons x rest ih =>
    intro v hl h hp
    obtain ⟨hx, hrest⟩ := List.forall_mem_cons.1 hl
    have hins := inserted_addVirtualInterrupt v current (entryOf v.distributor current x.2 none)
    have hid := virtualId_entryOf v.distributor current (hx.trans (by decide)) none
    simp only [injectCandidates, listEntry_eq _ current hx, ok_bind] at h
    have hstep : LrPending (addVirtualInterrupt v current
      (entryOf v.distributor current x.2 none)).2
        t intId → LrPending v t intId ∨ (t = current ∧ ∃ y ∈ x :: rest, y.2 = intId) := by
      intro hp
      rcases hins.lrPending_inv hp with hp | ⟨htc, heq⟩
      · exact Or.inl hp
      · exact Or.inr ⟨htc, x, List.mem_cons_self, hid.symm.trans heq⟩
    split at h
    · rcases ih hrest h hp with hp | ⟨htc, y, hy, hyid⟩
      · exact hstep hp
      · exact Or.inr ⟨htc, y, List.mem_cons_of_mem _ hy, hyid⟩
    · cases h
      exact hstep hp

theorem queueOk_collected {l : List Nat} {eoiBits : Nat → Bool}
    (h : Collected current eoiBits l v v₁) (hq : QueueOk v) : QueueOk v₁ := by
  unfold QueueOk
  rw [h.queue]
  exact hq

/-- What is held after a maintenance interrupt, apart from what its collection cleared, was held in
a List Register or the queue before. -/
theorem held_before_of_maintenance (hq : QueueOk v)
    (h : maintenanceInterruptHandler v current = .ok v') {t : Cpu} {intId : Nat}
    (hc : Completed v current intId) (hs : SameBit intId t current) (hh : Holds v' t intId) :
    LrPending v t intId ∨ Queued v t intId := by
  obtain ⟨v₁, hcol, h⟩ := maintenanceInterruptHandler_cases h
  -- The pending bit is cleared, for the target and for the CPU.
  have hclear : ∀ c, SameBit intId c current → bitOf v₁.distributor .pending c intId = false := by
    intro c hsc
    obtain ⟨i, hi, ha, hid⟩ := hc
    by_contra hbit
    exact ((hcol.pending c intId).1 (by simpa using hbit)).2 i (List.mem_range.2 hi) ha hid hsc
  have hinject : LrPending (injectInterruptHandler v₁ current) t intId →
      LrPending v t intId ∨ Queued v t intId := by
    intro hp
    exact (lrPending_injectInterruptHandler_inv hp).imp (collected_lrPending hcol).1
      (collected_queued hcol).1
  -- The scan changes no register and takes no INTID whose bit is clear.
  have hscan : v'.distributor = (injectInterruptHandler v₁ current).distributor ∧
      (LrPending v' t intId → LrPending (injectInterruptHandler v₁ current) t intId) := by
    rcases injectPendingForCurrentCpu_cases h with rfl | ⟨-, candidates, hcand, h⟩
    · exact ⟨rfl, id⟩
    · have hlow := fun x hx => (hcand x hx).2.1
      refine ⟨distributor_injectCandidates _ hlow h, fun hp => ?_⟩
      rcases lrPending_injectCandidates_inv _ hlow h hp with hp | ⟨-, x, hx, hxid⟩
      · exact hp
      · have hbit := (candidate_injectInterruptHandler.1 (hcand x hx).1).2.1
        rw [hxid, hclear current (Or.inr rfl)] at hbit
        cases hbit
  rcases hh with hlr | ⟨x, hx, hxt⟩ | hbit
  · exact hinject (hscan.2 hlr)
  · rw [hscan.1, distributor_injectInterruptHandler] at hx
    have hmem := (injectEntries_spec current _ v₁ (queueOk_collected hcol hq)).2.2.1 x hx
    exact Or.inr ((collected_queued hcol).1 ⟨x, hmem, hxt⟩)
  · rw [hscan.1, distributor_injectInterruptHandler, bitOf_queue, hclear t hs] at hbit
    cases hbit

/-- A maintenance interrupt loses an outstanding trigger exactly when it is raced. -/
theorem kept_maintenance_iff (hq : QueueOk v) (hk : Kept v)
    (h : maintenanceInterruptHandler v current = .ok v') :
    Kept v' ↔ Unraced v (.maintenance current) := by
  obtain ⟨v₁, hcol, hrest⟩ := maintenanceInterruptHandler_cases h
  have heffects : Effects v₁ v' :=
    (effects_injectInterruptHandler (queueOk_collected hcol hq) current).trans
      (effects_injectPendingForCurrentCpu hrest)
  constructor
  · intro hk' t intId ho hc hs
    have ho₁ : v₁.outstanding t intId = true := by rwa [hcol.outstanding]
    exact held_before_of_maintenance hq h hc hs (hk' t intId (heffects.outstanding_mono ho₁))
  · intro hu
    refine heffects.kept fun t intId ho => ?_
    rw [hcol.outstanding] at ho
    have hsafe : LrPending v t intId ∨ Queued v t intId → Holds v₁ t intId := by
      rintro (hlr | hqueue)
      · exact Or.inl ((collected_lrPending hcol).2 hlr)
      · exact Or.inr (Or.inl ((collected_queued hcol).2 hqueue))
    by_cases hlost : Completed v current intId ∧ SameBit intId t current
    · exact hsafe (hu t intId ho hlost.1 hlost.2)
    · rcases hk t intId ho with hlr | hqueue | hbit
      · exact hsafe (Or.inl hlr)
      · exact hsafe (Or.inr hqueue)
      · refine Or.inr (Or.inr ((hcol.pending t intId).2 ⟨hbit, fun j hj ha hid hs => ?_⟩))
        exact hlost ⟨⟨j, List.mem_range.1 hj, ha, hid⟩, hs⟩

end Maintenance

/-! ## Runs -/

/-- The events of a VM whose guest does not clear pending bits itself. -/
def DeliveryStep : Vgic → Action → Vgic → Prop := Step fun _ action => clearsPending action = false

theorem queueOk_new (ownTarget : Target) (numberOfLrn : Nat) (timerIntId : Word) :
    QueueOk (Vgic.new ownTarget numberOfLrn timerIntId) := by
  intro x hx
  cases hx

theorem kept_new (ownTarget : Target) (numberOfLrn : Nat) (timerIntId : Word) :
    Kept (Vgic.new ownTarget numberOfLrn timerIntId) := by
  intro t intId ho
  cases ho

/-- An event is a sequence of effects, a transition of the guest or a maintenance interrupt. -/
theorem deliveryStep_cases {v v' : Vgic} {action : Action} (hq : QueueOk v)
    (h : DeliveryStep v action v') :
    (Effects v v' ∧ ∀ cpu, action ≠ .maintenance cpu) ∨
      (∃ cpu i, action = .acknowledge cpu i ∧
        v' = (v.setLr cpu i (acknowledge (v.lr cpu i))).settle cpu (virtualId (v.lr cpu i)).toNat) ∨
      (∃ cpu i, action = .endOfInterrupt cpu i ∧
        v' = v.setLr cpu i (endOfInterrupt (v.lr cpu i))) ∨
      ∃ cpu, action = .maintenance cpu ∧ maintenanceInterruptHandler v cpu = .ok v' := by
  obtain ⟨-, hclear, h⟩ := h
  cases action with
  | read cpu offset accessWidth =>
    obtain ⟨value, -, h⟩ := bind_eq_ok.1 h
    cases h
    exact Or.inl ⟨.refl, nofun⟩
  | write cpu offset accessWidth value => exact Or.inl ⟨effects_write hclear h, nofun⟩
  | trigger cpu intId targets =>
    obtain ⟨r, hr, h⟩ := bind_eq_ok.1 h
    cases h
    exact Or.inl ⟨effects_software hr, nofun⟩
  | timer cpu =>
    obtain ⟨r, hr, h⟩ := bind_eq_ok.1 h
    cases h
    exact Or.inl ⟨effects_timer hr, nofun⟩
  | acknowledge cpu i =>
    cases h
    exact Or.inr (Or.inl ⟨cpu, i, rfl, rfl⟩)
  | endOfInterrupt cpu i =>
    cases h
    exact Or.inr (Or.inr (Or.inl ⟨cpu, i, rfl, rfl⟩))
  | inject cpu =>
    cases h
    exact Or.inl ⟨effects_injectInterruptHandler hq cpu, nofun⟩
  | maintenance cpu => exact Or.inr (Or.inr (Or.inr ⟨cpu, rfl, h⟩))

theorem DeliveryStep.queueOk {v v' : Vgic} {action : Action} (hq : QueueOk v)
    (h : DeliveryStep v action v') : QueueOk v' := by
  rcases deliveryStep_cases hq h with ⟨he, -⟩ | ⟨cpu, i, -, rfl⟩ | ⟨cpu, i, -, rfl⟩ | ⟨cpu, -, h⟩
  · exact he.queueOk hq
  · exact hq
  · exact hq
  · obtain ⟨v₁, hcol, hrest⟩ := maintenanceInterruptHandler_cases h
    have hq₁ := queueOk_collected hcol hq
    exact (effects_injectPendingForCurrentCpu hrest).queueOk
      ((effects_injectInterruptHandler hq₁ cpu).queueOk hq₁)

/-- One event keeps the outstanding triggers exactly when it is unraced. -/
theorem kept_step_iff {v v' : Vgic} {action : Action} (hq : QueueOk v) (hk : Kept v)
    (h : DeliveryStep v action v') : Kept v' ↔ Unraced v action := by
  rcases deliveryStep_cases hq h with ⟨he, hne⟩ | ⟨cpu, i, rfl, rfl⟩ | ⟨cpu, i, rfl, rfl⟩ |
    ⟨cpu, rfl, hm⟩
  · have hu : Unraced v action := by
      cases action with
      | maintenance cpu => exact absurd rfl (hne cpu)
      | _ => trivial
    exact iff_of_true (he.kept hk) hu
  · exact iff_of_true (kept_acknowledge hk) trivial
  · exact iff_of_true (kept_endOfInterrupt hk) trivial
  · exact kept_maintenance_iff hq hk hm

/-- Along any run of a VM, whatever the order of triggers, guest accesses, acknowledgements,
completions and interrupts, every outstanding trigger is held exactly when every maintenance
interrupt is unraced. -/
theorem never_lost_iff (ownTarget : Target) (numberOfLrn : Nat) (timerIntId : Word)
    (actions : List Action) :
    Along DeliveryStep (fun _ _ v' => Kept v') (Vgic.new ownTarget numberOfLrn timerIntId) actions ↔
      Along DeliveryStep (fun v action _ => Unraced v action)
        (Vgic.new ownTarget numberOfLrn timerIntId) actions := by
  refine along_congr (fun v => QueueOk v ∧ Kept v) ?_ ?_ actions _
    ⟨queueOk_new _ _ _, kept_new _ _ _⟩
  · exact fun v action v' hinv h => kept_step_iff hinv.1 hinv.2 h
  · exact fun v action v' hinv h hk => ⟨h.queueOk hinv.1, hk⟩

/-- A guest that masks INTID 33 while it handles it, up to the maintenance interrupt for the
completion. The second trigger arrives while the INTID is masked. -/
def maskedHandler : List Action :=
  [.write 0 0x0000 32 1, .write 0 0x0104 32 2, .trigger 0 33 1, .acknowledge 0 0,
    .write 0 0x0184 32 2, .trigger 0 33 1, .endOfInterrupt 0 0]

/-- The second trigger is lost. -/
theorem masked_trigger_lost :
    ¬Along DeliveryStep (fun _ _ v' => Kept v') (Vgic.new 1 4 30)
      (maskedHandler ++ [.maintenance 0]) := by
  intro hal
  have hcheck : ((follow (perform fun action => !clearsPending action) (Vgic.new 1 4 30)
      maskedHandler).bind fun v => perform (fun action => !clearsPending action) v
        (.maintenance 0)).any (fun v => v.outstanding 0 33 && !decide (Holds v 0 33)) = true := by
    decide +kernel
  obtain ⟨v', hv', hc⟩ := (Option.any_eq_true _ _).1 hcheck
  obtain ⟨v, hv, hv'⟩ := Option.bind_eq_some_iff.1 hv'
  simp only [Bool.and_eq_true, Bool.not_eq_true', decide_eq_false_iff_not] at hc
  have hkept : Kept v' :=
    hal.last (step_of_perform fun _ _ h => by simpa using h) maskedHandler hv hv'
  exact hc.2 (hkept 0 33 hc.1)

end MiniVisor.Gic
