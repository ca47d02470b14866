import MiniVisor.Gic.Registers

/-!
# Triggers

What `trigger_interrupt_to` does to the registers, and when it does not fault. The bitmaps of the
Distributor have a bit for each of the INTIDs 0 to 1023, while the priority array ends at INTID
1019, so a trigger of one of the last four INTIDs faults exactly when it would be delivered.

A trigger raises pending bits of its INTID and changes no other register (`Raised`). From that and
the outcome for one target follow the loop over the targets (`succeeds_triggerInterruptTo`), the
retrigger of one INTID and the loops over the bits of a written value (`succeeds_retriggerLoop`).
-/

set_option autoImplicit false

namespace MiniVisor.Gic

open MiniVisor.Lib

/-! ## Triggers -/

/-- A trigger of an INTID changes the registers only by raising pending bits of that INTID. -/
structure Raised (intId : Nat) (d d' : GicDistributorMmio) : Prop where
  ctlr : d'.ctlr = d.ctlr
  ownTarget : d'.ownTarget = d.ownTarget
  get : ∀ p : Place, p.bank ≠ .pending → d'.get p = d.get p
  pending : ∀ c i, i ≠ intId → bitOf d' .pending c i = bitOf d .pending c i
  raises : ∀ c i, bitOf d .pending c i = true → bitOf d' .pending c i = true

theorem Raised.refl (intId : Nat) (d : GicDistributorMmio) : Raised intId d d :=
  ⟨rfl, rfl, fun _ _ => rfl, fun _ _ _ => rfl, fun _ _ h => h⟩

theorem Raised.trans {intId : Nat} {d₁ d₂ d₃ : GicDistributorMmio} (h : Raised intId d₁ d₂)
    (h' : Raised intId d₂ d₃) : Raised intId d₁ d₃ where
  ctlr := h'.ctlr.trans h.ctlr
  ownTarget := h'.ownTarget.trans h.ownTarget
  get p hp := (h'.get p hp).trans (h.get p hp)
  pending c i hi := (h'.pending c i hi).trans (h.pending c i hi)
  raises c i hb := h'.raises c i (h.raises c i hb)

theorem Raised.bitOf_enable {intId : Nat} {d d' : GicDistributorMmio} (h : Raised intId d d')
    (c : Cpu) (i : Nat) : bitOf d' .enable c i = bitOf d .enable c i := by
  unfold bitOf
  rw [h.get _ (by simp)]

theorem Raised.distributorEnabled {intId : Nat} {d d' : GicDistributorMmio}
    (h : Raised intId d d') : distributorEnabled d' = distributorEnabled d := by
  unfold Gic.distributorEnabled
  rw [h.ctlr]

/-- The pending bit that a trigger sets. -/
theorem raised_update (d : GicDistributorMmio) (cpu : Cpu) (intId : Nat) :
    Raised intId d (d.update (placeOf .pending cpu (intId / 32)) (changeBit intId true)) where
  ctlr := d.ctlr_update _ _
  ownTarget := d.ownTarget_update _ _
  get p hp := by
    rw [d.get_update, if_neg]
    rintro rfl
    exact hp (bank_placeOf _ _ _)
  pending c i hi := by
    have h := bitOf_changeBit d isBitmap_pending cpu c intId i true
    rw [if_neg (fun h => hi h.1)] at h
    exact Bool.eq_iff_iff.2 h
  raises c i hb := by
    rw [bitOf_changeBit d isBitmap_pending]
    split
    · rfl
    · exact hb

@[simp] theorem distributor_setLr (v : Vgic) (cpu : Cpu) (i : Nat) (value : Word) :
    (v.setLr cpu i value).distributor = v.distributor := rfl

@[simp] theorem distributor_setDistributor (v : Vgic) (d : GicDistributorMmio) :
    (v.setDistributor d).distributor = d := rfl

@[simp] theorem distributor_record (v : Vgic) (cpu : Cpu) (intId : Nat) (p : Option Word) :
    (v.record cpu intId p).distributor = v.distributor := by
  unfold Vgic.record
  split <;> rfl

@[simp] theorem distributor_addVirtualInterrupt (v : Vgic) (cpu : Cpu) (entry : Word) :
    (addVirtualInterrupt v cpu entry).2.distributor = v.distributor := by
  simp only [addVirtualInterrupt]
  split
  · rfl
  · split <;> rfl

/-- A change of the queue alone. -/
theorem raised_queue (intId : Nat) (d : GicDistributorMmio) (queue : List (Target × Word)) :
    Raised intId d { d with toInjectInterrupt := queue } :=
  ⟨rfl, rfl, fun p _ => by cases p <;> rfl, fun _ _ _ => rfl, fun _ _ h => h⟩

theorem deliver_raised (v : Vgic) (current : Cpu) (target : Target) (entry : Word) (intId : Nat) :
    Raised intId v.distributor (deliver v current target entry).2.distributor := by
  unfold deliver
  split
  · rw [distributor_addVirtualInterrupt]
    exact .refl _ _
  · exact raised_queue _ _ _

/-- The register that the source reads before a delivery exists for this INTID, or the INTID is not
delivered. -/
def TriggerOk (d : GicDistributorMmio) (cpu : Cpu) (intId : Nat) : Prop :=
  intId < 1020 ∨
    (intId < 1024 ∧ ¬(distributorEnabled d = true ∧ bitOf d .enable cpu intId = true))

theorem Raised.triggerOk {intId i : Nat} {d d' : GicDistributorMmio} (h : Raised intId d d')
    (cpu : Cpu) : TriggerOk d' cpu i ↔ TriggerOk d cpu i := by
  unfold TriggerOk
  rw [h.distributorEnabled, h.bitOf_enable]

section Trigger

variable {v v' : Vgic} {current : Cpu} {intId : Nat} {physicalIntId : Option Word}

/-- The state of `triggerTarget` after the pending bit is set. -/
def raise (v : Vgic) (cpu : Cpu) (intId : Nat) (physicalIntId : Option Word) : Vgic :=
  (v.setDistributor
    (v.distributor.update (placeOf .pending cpu (intId / 32)) (changeBit intId true))).record cpu
      intId physicalIntId

theorem raise_raised (v : Vgic) (cpu : Cpu) (intId : Nat) (physicalIntId : Option Word) :
    Raised intId v.distributor (raise v cpu intId physicalIntId).distributor := by
  unfold raise
  rw [distributor_record]
  exact raised_update _ _ _

/-- The three outcomes of a trigger for one target. -/
theorem triggerTarget_eq (v : Vgic) (current cpu : Cpu) (physicalIntId : Option Word)
    (h : intId < 1024) :
    triggerTarget v current intId physicalIntId (targetOf cpu) =
      if distributorEnabled v.distributor = true ∧ bitOf v.distributor .enable cpu intId = true then
        (listEntry (raise v cpu intId physicalIntId).distributor cpu intId physicalIntId).map
          (deliver (raise v cpu intId physicalIntId) current (targetOf cpu))
      else .ok (false, raise v cpu intId physicalIntId) := by
  have hr := raise_raised v cpu intId physicalIntId
  simp only [triggerTarget, targetToCpuIndex_targetOf, changePendingStatusOf_eq _ cpu h, ok_bind]
  change (if (!distributorEnabled (v.distributor.update _ _)) = true then _ else _) = _
  have hd : (raise v cpu intId physicalIntId).distributor =
      v.distributor.update (placeOf .pending cpu (intId / 32)) (changeBit intId true) := by
    unfold raise
    rw [distributor_record, distributor_setDistributor]
  have hv : (v.setDistributor (raise v cpu intId physicalIntId).distributor).record cpu intId
      physicalIntId = raise v cpu intId physicalIntId := by
    rw [hd]
    rfl
  rw [← hd, hv, hr.distributorEnabled, getEnable_eq _ cpu h, hr.bitOf_enable]
  cases distributorEnabled v.distributor with
  | false => simp [pure, Except.pure]
  | true =>
    cases bitOf v.distributor .enable cpu intId with
    | false => simp [pure, Except.pure]
    | true =>
      simp only [Bool.not_true, Bool.false_eq_true, if_false, ok_bind, and_self, if_true]
      cases listEntry (raise v cpu intId physicalIntId).distributor cpu intId physicalIntId <;> rfl

theorem succeeds_map {α β : Type} {f : α → β} {x : Except Fault α} :
    Succeeds (x.map f) ↔ Succeeds x := by
  cases x <;> simp [Except.map]

theorem succeeds_triggerTarget {cpu : Cpu} :
    Succeeds (triggerTarget v current intId physicalIntId (targetOf cpu)) ↔
      TriggerOk v.distributor cpu intId := by
  by_cases h : intId < 1024
  · rw [triggerTarget_eq v current cpu physicalIntId h, TriggerOk]
    by_cases hlow : intId < 1020
    · simp only [listEntry_eq _ cpu hlow, hlow, true_or, iff_true]
      split
      · exact ⟨_, rfl⟩
      · exact ⟨_, rfl⟩
    · by_cases hd : distributorEnabled v.distributor = true ∧
          bitOf v.distributor .enable cpu intId = true
      · rw [if_pos hd, succeeds_map]
        simp [not_succeeds_listEntry _ cpu (not_lt.1 hlow), hlow, hd]
      · rw [if_neg hd]
        simp [h, hd]
  · have hs : ¬TriggerOk v.distributor cpu intId := by
      unfold TriggerOk
      omega
    simp only [triggerTarget, targetToCpuIndex_targetOf,
      changePendingStatusOf_eq_error _ cpu (not_lt.1 h), error_bind, not_succeeds_error, hs]

theorem triggerTarget_raised {cpu : Cpu} {added : Bool}
    (h : triggerTarget v current intId physicalIntId (targetOf cpu) = .ok (added, v')) :
    Raised intId v.distributor v'.distributor := by
  have hok := succeeds_triggerTarget.1 ⟨_, h⟩
  have hlt : intId < 1024 := by
    unfold TriggerOk at hok
    omega
  rw [triggerTarget_eq v current cpu physicalIntId hlt] at h
  have hr := raise_raised v cpu intId physicalIntId
  split at h
  · cases hl : listEntry (raise v cpu intId physicalIntId).distributor cpu intId physicalIntId with
    | error e => simp [hl, Except.map] at h
    | ok entry =>
      simp only [hl, Except.map, Except.ok.injEq] at h
      have hv : v' = (deliver (raise v cpu intId physicalIntId) current
        (targetOf cpu) entry).2 := by
        rw [h]
      rw [hv]
      exact hr.trans (deliver_raised _ _ _ _ _)
  · simp only [Except.ok.injEq, Prod.mk.injEq] at h
    rw [← h.2]
    exact hr

/-- The two outcomes of a trigger for one target that does not fault. -/
theorem triggerTarget_cases {cpu : Cpu} {added : Bool}
    (h : triggerTarget v current intId physicalIntId (targetOf cpu) = .ok (added, v')) :
    intId < 1024 ∧
      ((intId < 1020 ∧ (distributorEnabled v.distributor = true ∧
          bitOf v.distributor .enable cpu intId = true) ∧
        (added, v') = deliver (raise v cpu intId physicalIntId) current (targetOf cpu)
          (entryOf (raise v cpu intId physicalIntId).distributor cpu intId physicalIntId)) ∨
      (¬(distributorEnabled v.distributor = true ∧
          bitOf v.distributor .enable cpu intId = true) ∧
        added = false ∧ v' = raise v cpu intId physicalIntId)) := by
  have hok := succeeds_triggerTarget.1 ⟨_, h⟩
  have hlt : intId < 1024 := by
    unfold TriggerOk at hok
    omega
  refine ⟨hlt, ?_⟩
  rw [triggerTarget_eq v current cpu physicalIntId hlt] at h
  split at h
  · next hen =>
    -- the entry was made, so the INTID has a priority
    have hlow : intId < 1020 := hok.resolve_right fun h => h.2 hen
    rw [listEntry_eq _ cpu hlow] at h
    exact .inl ⟨hlow, hen, (Except.ok.inj h).symm⟩
  · next hen =>
    have heq := Prod.mk.inj (Except.ok.inj h)
    exact .inr ⟨hen, heq.1.symm, heq.2.symm⟩

/-- A step of the loop, as the trigger for one target or nothing. -/
theorem triggerLoop_cons {targets : Target} {b : Cpu} {rest : List Cpu} {injected : Bool} :
    triggerLoop current intId physicalIntId targets (b :: rest) injected v =
      if (targets &&& targetOf b) = 0 then
        triggerLoop current intId physicalIntId targets rest injected v
      else triggerTarget v current intId physicalIntId (targetOf b) >>= fun r =>
        triggerLoop current intId physicalIntId targets rest (injected || r.1) r.2 := rfl

/-- A whole trigger does what its targets do. -/
theorem triggerLoop_raised {targets : Target} (bits : List Cpu) :
    ∀ {injected added : Bool} {v : Vgic},
      triggerLoop current intId physicalIntId targets bits injected v = .ok (added, v') →
        Raised intId v.distributor v'.distributor := by
  induction bits with
  | nil =>
    intro injected added v h
    simp only [triggerLoop, Except.ok.injEq, Prod.mk.injEq] at h
    rw [h.2]
    exact .refl _ _
  | cons b rest ih =>
    intro injected added v h
    rw [triggerLoop_cons] at h
    split at h
    · exact ih h
    · obtain ⟨r, hr, h⟩ := bind_eq_ok.1 h
      exact (triggerTarget_raised hr).trans (ih h)

theorem succeeds_triggerLoop {targets : Target} (bits : List Cpu) :
    ∀ {injected : Bool} {v : Vgic},
      Succeeds (triggerLoop current intId physicalIntId targets bits injected v) ↔
        ∀ b ∈ bits, (targets &&& targetOf b) ≠ 0 → TriggerOk v.distributor b intId := by
  induction bits with
  | nil =>
    intro injected v
    simp [triggerLoop]
  | cons b rest ih =>
    intro injected v
    rw [triggerLoop_cons, List.forall_mem_cons]
    by_cases hb : (targets &&& targetOf b) = 0
    · rw [if_pos hb, ih]
      simp [hb]
    · rw [if_neg hb, succeeds_bind]
      constructor
      · rintro ⟨r, hr, hs⟩
        refine ⟨fun _ => succeeds_triggerTarget.1 ⟨_, hr⟩, fun c hc hbit => ?_⟩
        exact ((triggerTarget_raised hr).triggerOk c).1 (ih.1 hs c hc hbit)
      · rintro ⟨hok, hrest⟩
        obtain ⟨r, hr⟩ := succeeds_triggerTarget.2 (hok hb)
        refine ⟨r, hr, ih.2 fun c hc hbit => ?_⟩
        exact ((triggerTarget_raised hr).triggerOk c).2 (hrest c hc hbit)

theorem triggerInterruptTo_raised {targets : Target} {added : Bool}
    (h : triggerInterruptTo v current intId physicalIntId targets = .ok (added, v')) :
    Raised intId v.distributor v'.distributor :=
  triggerLoop_raised _ h

theorem succeeds_triggerInterruptTo {targets : Target} :
    Succeeds (triggerInterruptTo v current intId physicalIntId targets) ↔
      ∀ b, (targets &&& targetOf b) ≠ 0 → TriggerOk v.distributor b intId := by
  unfold triggerInterruptTo
  rw [succeeds_triggerLoop]
  simp

end Trigger

/-- A target mask that is not empty has a target. -/
theorem exists_target {targets : Target} (h : targets ≠ 0) : ∃ b, (targets &&& targetOf b) ≠ 0 := by
  by_contra hall
  push Not at hall
  apply h
  apply BitVec.eq_of_getLsbD_eq
  intro i hi
  have hb := congrArg (fun t => t.getLsbD i) (hall ⟨i, hi⟩)
  have hone : (targetOf ⟨i, hi⟩).getLsbD i = true := by
    simp [targetOf, hi]
  simpa [BitVec.getLsbD_and, hone] using hb

/-- The bit of a shared INTID is the same in every view. -/
theorem bitOf_shared (d : GicDistributorMmio) {bank : Bank} (hb : bank.IsBitmap) {intId : Nat}
    (h : 32 ≤ intId) (c c' : Cpu) : bitOf d bank c intId = bitOf d bank c' intId := by
  have hp : placeOf bank c (intId / 32) = placeOf bank c' (intId / 32) :=
    ((placeOf_bitmap hb).2 ⟨rfl, Or.inl h⟩).1
  unfold bitOf
  rw [hp]

theorem TriggerOk.of_low {d : GicDistributorMmio} {cpu : Cpu} {intId : Nat} (h : intId < 1020) :
    TriggerOk d cpu intId := Or.inl h

/-! ## Writes that retrigger -/

/-- An enabled INTID that the guest makes pending, or a pending one that it enables, can be sent to
the VM's own CPU. -/
def Routable (d : GicDistributorMmio) (intId : Nat) : Prop :=
  intId < 1020 ∨ distributorEnabled d = false ∨ d.ownTarget = 0

theorem succeeds_retrigger {v : Vgic} {current : Cpu} {intId : Nat} (h : intId < 1024) :
    Succeeds (retrigger v current intId) ↔
      (bitOf v.distributor .enable current intId = true → Routable v.distributor intId) := by
  unfold retrigger Routable
  rw [succeeds_triggerInterruptTo]
  by_cases hlow : intId < 1020
  · simp only [hlow, true_or, implies_true, iff_true]
    exact fun b _ => .of_low hlow
  · rw [if_neg (by omega : ¬intId < 32)]
    have hshared := fun b => bitOf_shared v.distributor isBitmap_enable (show 32 ≤ intId by omega) b
      current
    constructor
    · intro hok hen
      by_contra hno
      simp only [hlow, false_or, not_or] at hno
      obtain ⟨b, hb⟩ := exists_target hno.2
      have := hok b hb
      simp only [TriggerOk, hlow, h, true_and, false_or, hshared b, hen, and_true] at this
      exact hno.1 (by simpa using this)
    · intro hok b hb
      refine Or.inr ⟨h, ?_⟩
      rintro ⟨hd, he⟩
      rw [hshared b] at he
      rcases hok he with hl | hd' | ho
      · exact hlow hl
      · rw [hd] at hd'
        cases hd'
      · rw [ho] at hb
        exact hb (by simp)

theorem retrigger_raised {v v' : Vgic} {current : Cpu} {intId : Nat} {added : Bool}
    (h : retrigger v current intId = .ok (added, v')) :
    Raised intId v.distributor v'.distributor :=
  triggerInterruptTo_raised h

section RetriggerLoop

variable {check : GicDistributorMmio → Cpu → Nat → Except Fault Bool} {current : Cpu}

/-- The loops over a written value look at a bit of the INTID. -/
def LooksAtBit (check : GicDistributorMmio → Cpu → Nat → Except Fault Bool) (bank : Bank) : Prop :=
  ∀ d cpu id result, check d cpu id = .ok result → result = bitOf d bank cpu id

theorem looksAtBit_getPending : LooksAtBit getPending .pending := by
  intro d cpu id result h
  by_cases hlt : id < 1024
  · rw [getPending_eq d cpu hlt] at h
    exact (Except.ok.inj h).symm
  · rw [getPending_eq_error d cpu (Nat.not_lt.1 hlt)] at h
    cases h

theorem looksAtBit_getEnable : LooksAtBit getEnable .enable := by
  intro d cpu id result h
  by_cases hlt : id < 1024
  · rw [getEnable_eq d cpu hlt] at h
    exact (Except.ok.inj h).symm
  · rw [getEnable_eq_error d cpu (Nat.not_lt.1 hlt)] at h
    cases h

/-- One iteration, for an INTID that is triggered again or for any other. -/
theorem retriggerBit_cases {bank : Bank} (hcheck : LooksAtBit check bank) {intId : Nat}
    {isSet : Bool} {v v' : Vgic}
    (h : retriggerBit check current intId isSet v = .ok v') :
    (isSet = true ∧ bitOf v.distributor bank current intId = true ∧
        ∃ added, retrigger v current intId = .ok (added, v')) ∨
      (¬(isSet = true ∧ bitOf v.distributor bank current intId = true) ∧ v' = v) := by
  unfold retriggerBit at h
  cases isSet with
  | false =>
    cases h
    exact .inr ⟨fun hset => Bool.false_ne_true hset.1, rfl⟩
  | true =>
    rw [if_pos rfl] at h
    obtain ⟨result, hresult, h⟩ := bind_eq_ok.1 h
    have hbit := hcheck _ _ _ _ hresult
    cases result with
    | false =>
      cases h
      refine .inr ⟨fun hset => ?_, rfl⟩
      rw [hset.2] at hbit
      cases hbit
    | true =>
      rw [if_pos rfl] at h
      obtain ⟨r, hr, h⟩ := bind_eq_ok.1 h
      cases h
      exact .inl ⟨rfl, hbit.symm, r.1, hr⟩

theorem retriggerBit_raised {intId : Nat} {isSet : Bool} {v v' : Vgic}
    (h : retriggerBit check current intId isSet v = .ok v') :
    Raised intId v.distributor v'.distributor := by
  unfold retriggerBit at h
  cases isSet with
  | false =>
    simp only [Bool.false_eq_true, if_false, Except.ok.injEq] at h
    rw [h]
    exact .refl _ _
  | true =>
    rw [if_pos rfl] at h
    obtain ⟨b, -, h⟩ := bind_eq_ok.1 h
    cases b with
    | false =>
      simp only [Bool.false_eq_true, if_false] at h
      cases h
      exact .refl _ _
    | true =>
      rw [if_pos rfl] at h
      obtain ⟨r, hr, h⟩ := bind_eq_ok.1 h
      cases h
      exact retrigger_raised hr

theorem succeeds_retriggerBit {intId : Nat} {v : Vgic} :
    Succeeds (retriggerBit check current intId true v) ↔
      Succeeds (check v.distributor current intId) ∧
        (check v.distributor current intId = .ok true → Succeeds (retrigger v current intId)) := by
  unfold retriggerBit
  rw [if_pos rfl, succeeds_bind]
  constructor
  · rintro ⟨b, hb, hs⟩
    refine ⟨⟨b, hb⟩, fun ht => ?_⟩
    rw [hb] at ht
    cases ht
    rw [if_pos rfl, succeeds_bind] at hs
    obtain ⟨r, hr, -⟩ := hs
    exact ⟨r, hr⟩
  · rintro ⟨⟨b, hb⟩, hs⟩
    refine ⟨b, hb, ?_⟩
    cases b with
    | false => exact ⟨v, rfl⟩
    | true =>
      obtain ⟨r, hr⟩ := hs hb
      exact ⟨r.2, by rw [if_pos rfl, hr]; rfl⟩

theorem toNat_ushiftRight_one_lt {value : BitVec 64} {n : Nat} (h : value.toNat < 2 ^ (n + 1)) :
    (value >>> 1).toNat < 2 ^ n := by
  rw [BitVec.toNat_ushiftRight, Nat.shiftRight_eq_div_pow]
  omega

/-- The loop over the bits of a value succeeds when each set bit does in the state before the loop.
The check of a bit may depend only on registers that the retriggers of the other bits leave. -/
theorem succeeds_retriggerLoop {P : GicDistributorMmio → Nat → Prop}
    (hbit : ∀ v intId, Succeeds (retriggerBit check current intId true v) ↔ P v.distributor intId)
    (hstable : ∀ {d d' : GicDistributorMmio} {intId i : Nat}, Raised intId d d' → i ≠ intId →
      (P d' i ↔ P d i)) (fuel : Nat) :
    ∀ {intId : Nat} {value : BitVec 64} {v : Vgic}, value.toNat < 2 ^ fuel →
      (Succeeds (retriggerLoop check current fuel intId value v) ↔
        ∀ k, value.getLsbD k = true → P v.distributor (intId + k)) := by
  induction fuel with
  | zero =>
    intro intId value v h
    have hz : value = 0 := by
      apply BitVec.eq_of_toNat_eq
      simp only [BitVec.ofNat_eq_ofNat, BitVec.toNat_ofNat]
      omega
    simp [retriggerLoop, hz]
  | succ fuel ih =>
    intro intId value v h
    by_cases hz : value = 0
    · simp [retriggerLoop, hz]
    · -- The set bits are the lowest one, handled first, and those of the shifted value.
      have hsplit : ∀ Q : Nat → Prop, (∀ k, value.getLsbD k = true → Q (intId + k)) ↔
          ((value.getLsbD 0 = true → Q intId) ∧
            ∀ k, (value >>> 1).getLsbD k = true → Q (intId + 1 + k)) := by
        intro Q
        constructor
        · intro hall
          refine ⟨hall 0, fun k hk => ?_⟩
          rw [BitVec.getLsbD_ushiftRight] at hk
          have := hall (1 + k) hk
          rwa [← Nat.add_assoc] at this
        · rintro ⟨h0, hrest⟩ k hk
          cases k with
          | zero => exact h0 hk
          | succ k =>
            have := hrest k (by rwa [BitVec.getLsbD_ushiftRight, Nat.add_comm])
            rwa [Nat.add_assoc, Nat.add_comm 1 k] at this
      have hrest : ∀ {v' : Vgic}, Raised intId v.distributor v'.distributor →
          ((∀ k, (value >>> 1).getLsbD k = true → P v'.distributor (intId + 1 + k)) ↔
            ∀ k, (value >>> 1).getLsbD k = true → P v.distributor (intId + 1 + k)) := by
        intro v' hr
        exact forall_congr' fun k => imp_congr_right fun _ => hstable hr (by omega)
      rw [retriggerLoop, if_neg hz, succeeds_bind, hsplit]
      constructor
      · rintro ⟨v', hv, hs⟩
        refine ⟨fun h0 => ?_, (hrest (retriggerBit_raised hv)).1
          ((ih (toNat_ushiftRight_one_lt h)).1 hs)⟩
        rw [h0] at hv
        exact (hbit v intId).1 ⟨_, hv⟩
      · rintro ⟨h0, hs⟩
        have hok : Succeeds (retriggerBit check current intId (value.getLsbD 0) v) := by
          cases hb : value.getLsbD 0 with
          | false => exact ⟨v, rfl⟩
          | true => exact (hbit v intId).2 (h0 hb)
        obtain ⟨v', hv⟩ := hok
        exact ⟨v', hv, (ih (toNat_ushiftRight_one_lt h)).2
          ((hrest (retriggerBit_raised hv)).2 hs)⟩

end RetriggerLoop

end MiniVisor.Gic
