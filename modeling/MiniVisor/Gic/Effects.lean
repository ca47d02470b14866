import MiniVisor.Gic.Access

/-!
# What the handlers do to the interrupts in flight

An interrupt on its way to the guest is in a List Register, in the queue for another CPU or in a
pending bit. `Effect` lists the elementary changes that the code makes to these three places: it
writes registers without clearing a pending bit, records a trigger, inserts an entry into a List
Register, appends to the queue, and takes from the queue what a List Register holds. Every event
other than the clearing of pending bits, the guest's own transitions and the collection of completed
List Registers is a sequence of effects (`effects_triggerInterruptTo`, `effects_write`,
`effects_injectInterruptHandler`, `effects_injectPendingForCurrentCpu`), so an invariant of the
interrupts in flight is checked once for each effect.
-/

set_option autoImplicit false

namespace MiniVisor.Gic

open MiniVisor.Lib

/-! ## List Registers -/

/-- A List Register of the CPU holds the INTID with its pending bit set. -/
def LrPending (v : Vgic) (t : Cpu) (intId : Nat) : Prop :=
  ∃ i < v.supportedLrn, isPending (v.lr t i) = true ∧ (virtualId (v.lr t i)).toNat = intId

/-- The outcomes of `add_virtual_interrupt`. -/
inductive Inserted (v : Vgic) (cpu : Cpu) (entry : Word) : Bool → Vgic → Prop where
  | merged (i : Nat) (hi : i < v.supportedLrn) (huse : isInactive (v.lr cpu i) = false)
      (hid : virtualId (v.lr cpu i) = virtualId entry) :
      Inserted v cpu entry true (v.setLr cpu i (v.lr cpu i ||| gichLrStatePending))
  | filled (i : Nat) (hi : i < v.supportedLrn) (hfree : isInactive (v.lr cpu i) = true)
      (hnone : ∀ j < v.supportedLrn, isInactive (v.lr cpu j) = false →
        virtualId (v.lr cpu j) ≠ virtualId entry) :
      Inserted v cpu entry true (v.setLr cpu i entry)
  | full (hfull : ∀ j < v.supportedLrn, isInactive (v.lr cpu j) = false ∧
        virtualId (v.lr cpu j) ≠ virtualId entry) :
      Inserted v cpu entry false v

theorem inserted_addVirtualInterrupt (v : Vgic) (cpu : Cpu) (entry : Word) :
    Inserted v cpu entry (addVirtualInterrupt v cpu entry).1
      (addVirtualInterrupt v cpu entry).2 := by
  simp only [addVirtualInterrupt]
  split
  · next i hheld =>
    have hmem := List.mem_range.1 (List.mem_of_find?_eq_some hheld)
    have hp := List.find?_some hheld
    simp only [Bool.and_eq_true, Bool.not_eq_true', beq_iff_eq] at hp
    exact .merged i hmem hp.1 hp.2
  · next hheld =>
    have hnone : ∀ j < v.supportedLrn, isInactive (v.lr cpu j) = false →
        virtualId (v.lr cpu j) ≠ virtualId entry := by
      intro j hj huse hid
      have := List.find?_eq_none.1 hheld j (List.mem_range.2 hj)
      simp [huse, hid] at this
    split
    · next i hfree =>
      have hp := List.find?_some hfree
      exact .filled i (List.mem_range.1 (List.mem_of_find?_eq_some hfree)) hp hnone
    · next hfree =>
      refine .full fun j hj => ?_
      have huse : isInactive (v.lr cpu j) = false := by
        have := List.find?_eq_none.1 hfree j (List.mem_range.2 hj)
        simpa using this
      exact ⟨huse, hnone j hj huse⟩

section Inserted

variable {v v' : Vgic} {cpu : Cpu} {entry : Word} {added : Bool}

theorem lr_setLr_self (v : Vgic) (cpu : Cpu) (i : Nat) (value : Word) :
    (v.setLr cpu i value).lr cpu i = value := if_pos ⟨rfl, rfl⟩

theorem lr_setLr_of_ne (v : Vgic) {cpu t : Cpu} {i j : Nat} (value : Word)
    (h : ¬(t = cpu ∧ j = i)) : (v.setLr cpu i value).lr t j = v.lr t j := if_neg h

theorem Inserted.distributor (h : Inserted v cpu entry added v') :
    v'.distributor = v.distributor := by
  cases h <;> rfl

theorem Inserted.outstanding (h : Inserted v cpu entry added v') :
    v'.outstanding = v.outstanding := by
  cases h <;> rfl

theorem Inserted.timerIntId (h : Inserted v cpu entry added v') : v'.timerIntId = v.timerIntId := by
  cases h <;> rfl

theorem Inserted.supportedLrn (h : Inserted v cpu entry added v') :
    v'.supportedLrn = v.supportedLrn := by
  cases h <;> rfl

/-- What is pending in a List Register stays so. -/
theorem Inserted.lrPending_mono (h : Inserted v cpu entry added v') {t : Cpu} {intId : Nat}
    (hp : LrPending v t intId) : LrPending v' t intId := by
  obtain ⟨j, hj, hpend, hid⟩ := hp
  cases h with
  | merged i hi huse heq =>
    refine ⟨j, hj, ?_⟩
    by_cases hsame : t = cpu ∧ j = i
    · obtain ⟨rfl, rfl⟩ := hsame
      rw [lr_setLr_self, virtualId_or_pending]
      exact ⟨isPending_or_pending _, hid⟩
    · rw [lr_setLr_of_ne v _ hsame]
      exact ⟨hpend, hid⟩
  | filled i hi hfree hnone =>
    refine ⟨j, hj, ?_⟩
    rw [lr_setLr_of_ne]
    · exact ⟨hpend, hid⟩
    · rintro ⟨rfl, rfl⟩
      rw [isInactive_of_isPending _ hpend] at hfree
      cases hfree
  | full hfull => exact ⟨j, hj, hpend, hid⟩

/-- An entry that is added is pending. -/
theorem Inserted.lrPending (h : Inserted v cpu entry true v') (hp : isPending entry = true) :
    LrPending v' cpu (virtualId entry).toNat := by
  cases h with
  | merged i hi huse heq =>
    refine ⟨i, hi, ?_⟩
    rw [lr_setLr_self, virtualId_or_pending, heq]
    exact ⟨isPending_or_pending _, rfl⟩
  | filled i hi hfree hnone =>
    refine ⟨i, hi, ?_⟩
    rw [lr_setLr_self]
    exact ⟨hp, rfl⟩

/-- Only the entry can become pending. -/
theorem Inserted.lrPending_inv (h : Inserted v cpu entry added v') {t : Cpu} {intId : Nat}
    (hp : LrPending v' t intId) :
    LrPending v t intId ∨ (t = cpu ∧ (virtualId entry).toNat = intId) := by
  obtain ⟨j, hj, hpend, hid⟩ := hp
  cases h with
  | merged i hi huse heq =>
    by_cases hsame : t = cpu ∧ j = i
    · obtain ⟨rfl, rfl⟩ := hsame
      rw [lr_setLr_self, virtualId_or_pending, heq] at hid
      exact Or.inr ⟨rfl, hid⟩
    · rw [lr_setLr_of_ne v _ hsame] at hpend hid
      exact Or.inl ⟨j, hj, hpend, hid⟩
  | filled i hi hfree hnone =>
    by_cases hsame : t = cpu ∧ j = i
    · obtain ⟨rfl, rfl⟩ := hsame
      rw [lr_setLr_self] at hid
      exact Or.inr ⟨rfl, hid⟩
    · rw [lr_setLr_of_ne v _ hsame] at hpend hid
      exact Or.inl ⟨j, hj, hpend, hid⟩
  | full hfull => exact Or.inl ⟨j, hj, hpend, hid⟩

end Inserted

/-! ## Entries -/

/-- An entry that the code makes: it is pending, and when it has the HW bit it is that of the
timer. -/
structure EntryOk (timerIntId entry : Word) : Prop where
  pending : isPending entry = true
  hardware : isHardware entry = true → virtualId entry = 27 ∧
    physicalId entry = timerIntId &&& 0x3FF

/-- The entries of the queue are pending and have no HW bit. -/
def QueueOk (v : Vgic) : Prop := ∀ x ∈ v.distributor.toInjectInterrupt,
  isPending x.2 = true ∧ isHardware x.2 = false

theorem entryOk_of_software {timerIntId entry : Word} (hp : isPending entry = true)
    (hhw : isHardware entry = false) : EntryOk timerIntId entry :=
  ⟨hp, fun h => by rw [hhw] at h; cases h⟩

section EntryOf

variable (d : GicDistributorMmio) (cpu : Cpu) (intId : Nat)

theorem isPending_entryOf (p : Option Word) : isPending (entryOf d cpu intId p) = true :=
  isPending_create _ _ _ _

theorem isHardware_entryOf (p : Option Word) : isHardware (entryOf d cpu intId p) = p.isSome := by
  unfold entryOf
  apply isHardware_create
  unfold groupOf
  rw [BitVec.and_assoc, BitVec.and_self]

theorem virtualId_entryOf {intId : Nat} (h : intId < 1024) (p : Option Word) :
    (virtualId (entryOf d cpu intId p)).toNat = intId := by
  unfold entryOf
  rw [virtualId_create, gichLrVirtualId, BitVec.toNat_and, BitVec.toNat_ofNat]
  have hmask : (0x3FF : Word).toNat = 2 ^ 10 - 1 := by decide
  rw [hmask, Nat.and_two_pow_sub_one_eq_mod, Nat.mod_mod_of_dvd _ (by decide)]
  exact Nat.mod_eq_of_lt h

theorem entryOk_software (timerIntId : Word) : EntryOk timerIntId (entryOf d cpu intId none) :=
  entryOk_of_software (isPending_entryOf d cpu intId none) (isHardware_entryOf d cpu intId none)

theorem entryOk_timer (timerIntId : Word) : EntryOk timerIntId (entryOf d cpu 27 (some timerIntId))
    where
  pending := isPending_entryOf d cpu 27 _
  hardware _ := by
    refine ⟨?_, physicalId_create _ _ _ _⟩
    unfold entryOf
    rw [virtualId_create]
    decide

end EntryOf

/-! ## Effects -/

inductive Effect : Vgic → Vgic → Prop where
  | registers (v : Vgic) (d : GicDistributorMmio)
      (hqueue : d.toInjectInterrupt = v.distributor.toInjectInterrupt)
      (hpending : ∀ c i, bitOf v.distributor .pending c i = true → bitOf d .pending c i = true) :
      Effect v (v.setDistributor d)
  | recorded (v : Vgic) (cpu : Cpu) (intId : Nat)
      (hpending : bitOf v.distributor .pending cpu intId = true) :
      Effect v (v.record cpu intId none)
  | inserted (v v' : Vgic) (cpu : Cpu) (entry : Word) (added : Bool)
      (hentry : EntryOk v.timerIntId entry) (h : Inserted v cpu entry added v') : Effect v v'
  | queued (v : Vgic) (target : Target) (entry : Word) (hpending : isPending entry = true)
      (hsoftware : isHardware entry = false) :
      Effect v (v.setDistributor { v.distributor with
        toInjectInterrupt := v.distributor.toInjectInterrupt ++ [(target, entry)] })
  | taken (v : Vgic) (queue : List (Target × Word))
      (hsub : ∀ x ∈ queue, x ∈ v.distributor.toInjectInterrupt)
      (hheld : ∀ x ∈ v.distributor.toInjectInterrupt, x ∈ queue ∨
        ∃ t, x.1 = targetOf t ∧ LrPending v t (virtualId x.2).toNat) :
      Effect v (v.setDistributor { v.distributor with toInjectInterrupt := queue })

abbrev Effects : Vgic → Vgic → Prop := Relation.ReflTransGen Effect

theorem Effect.timerIntId {v v' : Vgic} (h : Effect v v') : v'.timerIntId = v.timerIntId := by
  cases h with
  | inserted _ _ _ _ _ h => exact h.timerIntId
  | _ => rfl

theorem Effects.timerIntId {v v' : Vgic} (h : Effects v v') : v'.timerIntId = v.timerIntId := by
  induction h with
  | refl => rfl
  | tail _ he ih => exact he.timerIntId.trans ih

/-- The queue keeps its entries well formed. -/
theorem Effect.queueOk {v v' : Vgic} (h : Effect v v') (hq : QueueOk v) : QueueOk v' := by
  cases h with
  | registers d hqueue hpending =>
    intro x hx
    rw [distributor_setDistributor, hqueue] at hx
    exact hq x hx
  | recorded cpu intId hpending => exact hq
  | inserted _ cpu entry added hentry h =>
    intro x hx
    rw [h.distributor] at hx
    exact hq x hx
  | queued target entry hpending hsoftware =>
    intro x hx
    rcases List.mem_append.1 hx with hx | hx
    · exact hq x hx
    · rw [List.mem_singleton.1 hx]
      exact ⟨hpending, hsoftware⟩
  | taken queue hsub hheld => exact fun x hx => hq x (hsub x hx)

theorem Effects.queueOk {v v' : Vgic} (h : Effects v v') (hq : QueueOk v) : QueueOk v' := by
  induction h with
  | refl => exact hq
  | tail _ he ih => exact he.queueOk ih

/-! ## Triggers -/

/-- A trigger with a physical INTID is that of the timer, for the CPU itself. -/
def Origin (timerIntId : Word) (current : Cpu) (intId : Nat) (physicalIntId : Option Word)
    (target : Cpu) : Prop :=
  physicalIntId = none ∨ (physicalIntId = some timerIntId ∧ intId = 27 ∧ target = current)

section Trigger

variable {v v' : Vgic} {current : Cpu} {intId : Nat} {physicalIntId : Option Word}

theorem timerIntId_raise (v : Vgic) (cpu : Cpu) (intId : Nat) (physicalIntId : Option Word) :
    (raise v cpu intId physicalIntId).timerIntId = v.timerIntId := by
  unfold raise Vgic.record
  split <;> rfl

theorem effects_raise (v : Vgic) (cpu : Cpu) (intId : Nat) (physicalIntId : Option Word) :
    Effects v (raise v cpu intId physicalIntId) := by
  have hr := raised_update v.distributor cpu intId
  have hreg : Effect v (v.setDistributor
      (v.distributor.update (placeOf .pending cpu (intId / 32)) (changeBit intId true))) :=
    .registers v _ (v.distributor.toInjectInterrupt_update _ _) hr.raises
  cases physicalIntId with
  | some p => exact .single hreg
  | none =>
    refine .tail (.single hreg) (.recorded _ cpu intId ?_)
    rw [distributor_setDistributor, bitOf_changeBit _ isBitmap_pending]
    simp [SameBit]

/-- An entry for the CPU itself is inserted, one for another CPU is queued. -/
theorem effect_deliver {target : Cpu} {d : GicDistributorMmio}
    (ho : Origin v.timerIntId current intId physicalIntId target) :
    Effect v (deliver v current (targetOf target) (entryOf d target intId physicalIntId)).2 := by
  unfold deliver
  by_cases ht : targetOf target = targetOf current
  · rw [if_pos ht]
    refine .inserted _ _ current _ _ ?_ (inserted_addVirtualInterrupt _ _ _)
    rcases ho with rfl | ⟨rfl, rfl, -⟩
    · exact entryOk_software _ _ _ _
    · exact entryOk_timer _ _ _
  · rw [if_neg ht]
    rcases ho with rfl | ⟨-, -, rfl⟩
    · exact .queued _ _ _ (isPending_entryOf _ _ _ _) (isHardware_entryOf _ _ _ _)
    · exact absurd rfl ht

theorem effects_triggerTarget {cpu : Cpu} {added : Bool}
    (ho : Origin v.timerIntId current intId physicalIntId cpu)
    (h : triggerTarget v current intId physicalIntId (targetOf cpu) = .ok (added, v')) :
    Effects v v' := by
  have hok := succeeds_triggerTarget.1 ⟨_, h⟩
  have hlt : intId < 1024 := by
    unfold TriggerOk at hok
    omega
  rw [triggerTarget_eq v current cpu physicalIntId hlt] at h
  have hraise := effects_raise v cpu intId physicalIntId
  split at h
  · next hen =>
    -- The entry was made, so the INTID has a priority.
    have hlow : intId < 1020 := hok.resolve_right fun h => h.2 hen
    rw [listEntry_eq _ cpu hlow] at h
    simp only [Except.map, Except.ok.injEq] at h
    have hv : v' = (deliver (raise v cpu intId physicalIntId) current (targetOf cpu)
        (entryOf (raise v cpu intId physicalIntId).distributor cpu intId physicalIntId)).2 := by
      rw [h]
    rw [hv]
    refine hraise.tail (effect_deliver ?_)
    rw [timerIntId_raise]
    exact ho
  · simp only [Except.ok.injEq, Prod.mk.injEq] at h
    rw [← h.2]
    exact hraise

theorem effects_triggerLoop {targets : Target} {timerIntId : Word} (bits : List Cpu)
    (ho : ∀ b, (targets &&& targetOf b) ≠ 0 → Origin timerIntId current intId physicalIntId b) :
    ∀ {injected added : Bool} {v : Vgic}, v.timerIntId = timerIntId →
      triggerLoop current intId physicalIntId targets bits injected v = .ok (added, v') →
        Effects v v' := by
  induction bits with
  | nil =>
    intro injected added v _ h
    simp only [triggerLoop, Except.ok.injEq, Prod.mk.injEq] at h
    rw [h.2]
  | cons b rest ih =>
    intro injected added v ht h
    rw [triggerLoop_cons] at h
    split at h
    · exact ih ht h
    · next hb =>
      obtain ⟨r, hr, h⟩ := bind_eq_ok.1 h
      have he : Effects v r.2 := effects_triggerTarget (ht ▸ ho b hb) hr
      exact he.trans (ih (he.timerIntId.trans ht) h)

theorem effects_triggerInterruptTo {targets : Target} {added : Bool}
    (ho : ∀ b, (targets &&& targetOf b) ≠ 0 → Origin v.timerIntId current intId physicalIntId b)
    (h : triggerInterruptTo v current intId physicalIntId targets = .ok (added, v')) :
    Effects v v' :=
  effects_triggerLoop _ ho rfl h

/-- A software trigger. -/
theorem effects_software {targets : Target} {added : Bool}
    (h : triggerInterruptTo v current intId none targets = .ok (added, v')) : Effects v v' :=
  effects_triggerInterruptTo (fun _ _ => Or.inl rfl) h

theorem and_targetOf_ne_zero {b c : Cpu} (h : (targetOf c &&& targetOf b) ≠ 0) : b = c := by
  revert b c
  decide

/-- The timer's trigger. -/
theorem effects_timer {added : Bool} (h : genericTimerInterruptHandler v
    current = .ok (added, v')) : Effects v v' :=
  effects_triggerInterruptTo (fun _ hb => Or.inr ⟨rfl, rfl, and_targetOf_ne_zero hb⟩) h

theorem effects_retriggerBit {check : GicDistributorMmio → Cpu → Nat → Except Fault Bool}
    {isSet : Bool} (h : retriggerBit check current intId isSet v = .ok v') : Effects v v' := by
  unfold retriggerBit at h
  cases isSet with
  | false =>
    cases h
    exact .refl
  | true =>
    rw [if_pos rfl] at h
    obtain ⟨b, -, h⟩ := bind_eq_ok.1 h
    cases b with
    | false =>
      cases h
      exact .refl
    | true =>
      rw [if_pos rfl] at h
      obtain ⟨r, hr, h⟩ := bind_eq_ok.1 h
      cases h
      exact effects_software hr

theorem effects_retriggerLoop {check : GicDistributorMmio → Cpu → Nat → Except Fault Bool}
    (fuel : Nat) :
    ∀ {intId : Nat} {value : BitVec 64} {v : Vgic},
      retriggerLoop check current fuel intId value v = .ok v' → Effects v v' := by
  induction fuel with
  | zero =>
    intro intId value v h
    rw [retriggerLoop] at h
    split at h
    · cases h
      exact .refl
    · cases h
  | succ fuel ih =>
    intro intId value v h
    rw [retriggerLoop] at h
    split at h
    · cases h
      exact .refl
    · obtain ⟨w, hw, h⟩ := bind_eq_ok.1 h
      exact (effects_retriggerBit hw).trans (ih h)

end Trigger

/-! ## Writes -/

/-- A write to a bank other than that of the pending bits, or one that only sets bits. -/
theorem effect_updateRegister {v v' : Vgic} {bank : Bank} {cpu : Cpu} {n : Nat} {f : Word → Word}
    (hf : bank ≠ .pending ∨ ∀ w k, w.getLsbD k = true → (f w).getLsbD k = true)
    (h : updateRegister v (register bank cpu n) f = .ok v') : Effect v v' := by
  obtain ⟨p, hp, h⟩ := bind_eq_ok.1 h
  cases h
  have hbank : p.bank = bank := by
    unfold register at hp
    split_ifs at hp <;> cases hp <;> rfl
  refine .registers v _ (v.distributor.toInjectInterrupt_update _ _) fun c i hbit => ?_
  rcases hf with hne | hmono
  · rwa [bitOf_update_of_ne _ (hbank ▸ hne)]
  · unfold bitOf at hbit ⊢
    rw [v.distributor.get_update]
    split
    · exact hmono _ _ hbit
    · exact hbit

theorem effect_updateTarget {v v' : Vgic} {n : Nat} {f : Word → Word}
    (h : updateTarget v n f = .ok v') : Effect v v' := by
  obtain ⟨m, -, h⟩ := bind_eq_ok.1 h
  cases h
  refine .registers v _ rfl fun c i hbit => ?_
  unfold bitOf at hbit ⊢
  cases hp : placeOf .pending c (i / 32) <;> rw [hp] at hbit <;> exact hbit

theorem getLsbD_or_word (word w : Word) (k : Nat) (h : w.getLsbD k = true) :
    (w ||| word).getLsbD k = true := by
  rw [BitVec.getLsbD_or, h, Bool.true_or]

/-- A write to `GICD_ICPENDR`, with which the guest clears pending bits itself. -/
def clearsPending : Action → Bool
  | .write _ offset accessWidth _ =>
    match decode offset with
    | some (.icpendr _) => accessWidth == 32
    | _ => false
  | _ => false

section Write

variable {v v' : Vgic} {current : Cpu} {offset accessWidth : Nat} {value : BitVec 64}

theorem effects_ite {p : Prop} [Decidable p] {x : Except Fault Vgic}
    (hx : p → x = .ok v' → Effects v v') (h : (if p then x else .ok v) = .ok v') :
    Effects v v' := by
  split at h
  · next hp => exact hx hp h
  · cases h
    exact .refl

/-- A write that clears no pending bits. -/
theorem effects_write (hk : clearsPending (.write current offset accessWidth value) = false)
    (h : write v current offset accessWidth value = .ok v') : Effects v v' := by
  unfold write at h
  cases hr : decode offset with
  | none =>
    rw [hr] at h
    cases h
    exact .refl
  | some r =>
    rw [hr] at h
    cases r with
    | ctlr =>
      refine effects_ite (fun _ h => ?_) h
      cases h
      refine .single (.registers v _ rfl fun c i hbit => ?_)
      unfold bitOf at hbit ⊢
      cases hp : placeOf .pending c (i / 32) <;> rw [hp] at hbit <;> exact hbit
    | typer =>
      cases h
      exact .refl
    | pidr2 =>
      cases h
      exact .refl
    | sgir =>
      refine effects_ite (fun _ h => ?_) h
      obtain ⟨r, hr, h⟩ := bind_eq_ok.1 h
      cases h
      exact effects_software hr
    | isenabler n =>
      refine effects_ite (fun _ h => ?_) h
      obtain ⟨w, hw, h⟩ := bind_eq_ok.1 h
      exact .trans (.single (effect_updateRegister (.inl (by decide)) hw))
        (effects_retriggerLoop _ h)
    | ispendr n =>
      refine effects_ite (fun _ h => ?_) h
      obtain ⟨w, hw, h⟩ := bind_eq_ok.1 h
      exact .trans (.single (effect_updateRegister (.inr (getLsbD_or_word _)) hw))
        (effects_retriggerLoop _ h)
    | icpendr n =>
      refine effects_ite (fun hw _ => ?_) h
      simp [clearsPending, hr, hw] at hk
    | ipriorityr n byte =>
      dsimp only at h
      split at h
      · exact .single (effect_updateRegister (.inl (by decide)) h)
      · exact effects_ite (fun _ h => .single (effect_updateRegister (.inl (by decide)) h)) h
    | itargetsr n byte =>
      dsimp only at h
      split at h
      · cases h
        exact .refl
      · split at h
        · exact .single (effect_updateTarget h)
        · exact effects_ite (fun _ h => .single (effect_updateTarget h)) h
    | _ n => exact effects_ite (fun _ h => .single (effect_updateRegister (.inl (by decide)) h)) h

end Write

/-! ## Injection -/

/-- The entries that `inject_interrupt_handler` takes are in List Registers of the CPU. -/
theorem injectEntries_spec (current : Cpu) (queue : List (Target × Word)) :
    ∀ v : Vgic, (∀ x ∈ queue, isPending x.2 = true ∧ isHardware x.2 = false) →
      Effects v (injectEntries current queue v).2 ∧
        (∀ t intId, LrPending v t intId → LrPending (injectEntries current queue v).2 t intId) ∧
        (∀ x ∈ (injectEntries current queue v).1, x ∈ queue) ∧
        (∀ x ∈ queue, x ∈ (injectEntries current queue v).1 ∨
          (x.1 = targetOf current ∧
            LrPending (injectEntries current queue v).2 current (virtualId x.2).toNat)) := by
  induction queue with
  | nil =>
    intro v _
    exact ⟨.refl, fun _ _ h => h, by simp [injectEntries], by simp⟩
  | cons head rest ih =>
    intro v hq
    obtain ⟨⟨hp, hhw⟩, hrest⟩ := List.forall_mem_cons.1 hq
    obtain ⟨target, entry⟩ := head
    by_cases ht : target = targetOf current
    · have hins := inserted_addVirtualInterrupt v current entry
      obtain ⟨he, hmono, hsub, hheld⟩ := ih (addVirtualInterrupt v current entry).2 hrest
      have heff : Effect v (addVirtualInterrupt v current entry).2 :=
        .inserted _ _ current entry _ (entryOk_of_software hp hhw) hins
      simp only [injectEntries, if_pos ht]
      refine ⟨.head heff he, fun t i h => hmono t i (hins.lrPending_mono h), ?_, ?_⟩
      · intro x hx
        split at hx
        · exact List.mem_cons_of_mem _ (hsub x hx)
        · rcases List.mem_cons.1 hx with rfl | hx
          · exact List.mem_cons_self
          · exact List.mem_cons_of_mem _ (hsub x hx)
      · intro x hx
        rcases List.mem_cons.1 hx with rfl | hx
        · split
          · next hadded =>
            rw [hadded] at hins
            exact Or.inr ⟨ht, hmono _ _ (hins.lrPending hp)⟩
          · exact Or.inl List.mem_cons_self
        · refine (hheld x hx).imp_left fun hin => ?_
          split
          · exact hin
          · exact List.mem_cons_of_mem _ hin
    · obtain ⟨he, hmono, hsub, hheld⟩ := ih v hrest
      simp only [injectEntries, if_neg ht]
      refine ⟨he, hmono, fun x hx => ?_, fun x hx => ?_⟩
      · rcases List.mem_cons.1 hx with rfl | hx
        · exact List.mem_cons_self
        · exact List.mem_cons_of_mem _ (hsub x hx)
      · rcases List.mem_cons.1 hx with rfl | hx
        · exact Or.inl List.mem_cons_self
        · exact (hheld x hx).imp_left (List.mem_cons_of_mem _)

theorem effects_injectInterruptHandler {v : Vgic} (hq : QueueOk v) (current : Cpu) :
    Effects v (injectInterruptHandler v current) := by
  obtain ⟨he, -, hsub, hheld⟩ := injectEntries_spec current v.distributor.toInjectInterrupt v hq
  refine he.tail (.taken _ _ ?_ ?_)
  · intro x hx
    rw [distributor_injectEntries]
    exact hsub x hx
  · intro x hx
    rw [distributor_injectEntries] at hx
    exact (hheld x hx).imp_right fun h => ⟨current, h⟩

theorem effects_injectCandidates {current : Cpu} {v' : Vgic} (candidates : List (Nat × Nat)) :
    ∀ {v : Vgic}, (∀ x ∈ candidates, x.2 < 1020) →
      injectCandidates current candidates v = .ok v' → Effects v v' := by
  induction candidates with
  | nil =>
    intro v _ h
    cases h
    exact .refl
  | cons x rest ih =>
    intro v hl h
    obtain ⟨hx, hrest⟩ := List.forall_mem_cons.1 hl
    have heff : Effect v
        (addVirtualInterrupt v current (entryOf v.distributor current x.2 none)).2 :=
      .inserted _ _ current _ _ (entryOk_software _ _ _ _) (inserted_addVirtualInterrupt _ _ _)
    simp only [injectCandidates, listEntry_eq _ current hx, ok_bind] at h
    split at h
    · exact .head heff (ih hrest h)
    · cases h
      exact .single heff

/-- The scan either does nothing or injects candidates of the scan. -/
theorem injectPendingForCurrentCpu_cases {v v' : Vgic} {current : Cpu}
    (h : injectPendingForCurrentCpu v current = .ok v') :
    v' = v ∨ distributorEnabled v.distributor = true ∧ ∃ candidates,
      (∀ x ∈ candidates, Candidate v.distributor current x.2 ∧ x.2 < 1020 ∧
        x.2 < scanLength v.distributor current) ∧
      injectCandidates current candidates v = .ok v' := by
  have hl : ∀ intId ∈ List.range (scanLength v.distributor current), intId < 1024 := by
    intro intId h
    exact (List.mem_range.1 h).trans_le (scanLength_le _ _)
  unfold injectPendingForCurrentCpu at h
  split at h
  · cases h
    exact Or.inl rfl
  · next hen =>
    obtain ⟨candidates, hc, h⟩ := bind_eq_ok.1 h
    refine Or.inr ⟨by simpa using hen, _, fun x hx => ?_, h⟩
    obtain ⟨hmem, hcand, hlow⟩ :=
      mem_pendingCandidates _ hl hc x ((List.mem_insertionSort _).1 hx)
    exact ⟨hcand, hlow, List.mem_range.1 hmem⟩

theorem effects_injectPendingForCurrentCpu {v v' : Vgic} {current : Cpu}
    (h : injectPendingForCurrentCpu v current = .ok v') : Effects v v' := by
  rcases injectPendingForCurrentCpu_cases h with rfl | ⟨-, candidates, hc, h⟩
  · exact .refl
  · exact effects_injectCandidates _ (fun x hx => (hc x hx).2.1) h

/-- A maintenance interrupt collects the completed List Registers and then injects. -/
theorem maintenanceInterruptHandler_cases {v v' : Vgic} {current : Cpu}
    (h : maintenanceInterruptHandler v current = .ok v') :
    ∃ v₁, Collected current (fun i => awaitsMaintenance (v.lr current i))
        (List.range v.supportedLrn) v v₁ ∧
      injectPendingForCurrentCpu (injectInterruptHandler v₁ current) current = .ok v' := by
  obtain ⟨v₁, hv, hc⟩ := collectCompleted_spec current
    (fun i => awaitsMaintenance (v.lr current i)) _ v (List.nodup_range (n := v.supportedLrn))
  unfold maintenanceInterruptHandler at h
  rw [hv, ok_bind] at h
  exact ⟨v₁, hc, h⟩

end MiniVisor.Gic
