import MiniVisor.Gic.Effects
import MiniVisor.Lib.Noninterference

/-!
# Banked registers are private

INTIDs 0 to 31 have their own registers for each CPU interface. This module follows the banks
through the accesses of a guest: what a write does to the bank of each CPU (`banked_write`), and
that what a write does to a bank depends on this bank only (`banked_write_congr`).

`banks_private` is the result. Its second half is about two runs: a CPU that reads its registers for
INTIDs 0 to 31 does not learn what other CPUs write, except to `GICD_SGIR`.
-/

set_option autoImplicit false

namespace MiniVisor.Gic

open MiniVisor.Lib

/-! ## Banks -/

section Change

variable {d : GicDistributorMmio} {bank : Bank} {cpu c : Cpu} {n : Nat} {f : Word → Word}

/-- A register of a bank changes. -/
def changed (bank : Bank) (n : Nat) (f : Word → Word) (registers : Bank → Nat → Word) :
    Bank → Nat → Word :=
  fun b i => if b = bank ∧ i = n then f (registers b i) else registers b i

theorem banked_update (d : GicDistributorMmio) (bank : Bank) (cpu c : Cpu) (n : Nat)
    (f : Word → Word) : (d.update (placeOf bank cpu n) f).banked c =
      if c = cpu ∧ n < bank.bankedLength then changed bank n f (d.banked c) else d.banked c := by
  unfold placeOf
  by_cases hn : n < bank.bankedLength
  · by_cases hc : c = cpu
    · rw [if_pos hn, if_pos ⟨hc, hn⟩]
      funext b i
      simp only [GicDistributorMmio.update, changed, hc, true_and]
    · rw [if_pos hn, if_neg fun h => hc h.1]
      funext b i
      simp only [GicDistributorMmio.update, hc, false_and, if_false]
  · rw [if_neg hn, if_neg fun h => hn h.2]
    rfl

theorem banked_updateRegister {v v' : Vgic}
    (h : updateRegister v (register bank cpu n) f = .ok v') (c : Cpu) :
    v'.distributor.banked c = if c = cpu ∧ n < bank.bankedLength
      then changed bank n f (v.distributor.banked c) else v.distributor.banked c := by
  obtain ⟨place, hplace, h⟩ := bind_eq_ok.1 h
  cases h
  by_cases hn : n < bank.sharedLength
  · rw [register_eq hn] at hplace
    cases hplace
    exact banked_update v.distributor bank cpu c n f
  · rw [register_eq_error hn] at hplace
    cases hplace

/-- The pending bit of an INTID below 32 is set. -/
def raisedBank (intId : Nat) (registers : Bank → Nat → Word) : Bank → Nat → Word :=
  changed .pending 0 (changeBit intId true) registers

theorem raisedBank_idem (intId : Nat) (registers : Bank → Nat → Word) :
    raisedBank intId (raisedBank intId registers) = raisedBank intId registers := by
  funext b i
  unfold raisedBank changed
  by_cases h : b = .pending ∧ i = 0
  · simp only [if_pos h, changeBit, if_true, BitVec.or_assoc, BitVec.or_self]
  · simp only [if_neg h]

end Change

/-! ## Triggers -/

section Trigger

variable {v v' w w' : Vgic} {current c : Cpu} {intId : Nat} {physicalIntId : Option Word}

theorem banked_deliver (v : Vgic) (current : Cpu) (target : Target) (entry : Word) :
    (deliver v current target entry).2.distributor.banked = v.distributor.banked := by
  unfold deliver
  split
  · rw [(inserted_addVirtualInterrupt v current entry).distributor]
  · rfl

theorem banked_raise (v : Vgic) (cpu c : Cpu) (intId : Nat) (physicalIntId : Option Word) :
    (raise v cpu intId physicalIntId).distributor.banked c =
      if c = cpu ∧ intId < 32 then raisedBank intId (v.distributor.banked c)
      else v.distributor.banked c := by
  have hlow : intId / 32 < Bank.pending.bankedLength ↔ intId < 32 := by
    show intId / 32 < 1 ↔ intId < 32
    omega
  unfold raise
  rw [distributor_record, distributor_setDistributor, banked_update]
  by_cases h : c = cpu ∧ intId < 32
  · have hzero : intId / 32 = 0 := Nat.div_eq_of_lt h.2
    rw [if_pos ⟨h.1, hlow.2 h.2⟩, if_pos h, hzero]
    rfl
  · rw [if_neg fun h' => h ⟨h'.1, hlow.1 h'.2⟩, if_neg h]

theorem banked_triggerTarget {cpu : Cpu} {added : Bool}
    (h : triggerTarget v current intId physicalIntId (targetOf cpu) = .ok (added, v')) (c : Cpu) :
    v'.distributor.banked c =
      if c = cpu ∧ intId < 32 then raisedBank intId (v.distributor.banked c)
      else v.distributor.banked c := by
  have hok := succeeds_triggerTarget.1 ⟨_, h⟩
  have hlt : intId < 1024 := by
    unfold TriggerOk at hok
    omega
  rw [triggerTarget_eq v current cpu physicalIntId hlt] at h
  rw [← banked_raise v cpu c intId physicalIntId]
  split at h
  · cases hl : listEntry (raise v cpu intId physicalIntId).distributor cpu intId physicalIntId with
    | error e => simp [hl, Except.map] at h
    | ok entry =>
      simp only [hl, Except.map, Except.ok.injEq] at h
      have hv : v' = (deliver (raise v cpu intId physicalIntId) current
        (targetOf cpu) entry).2 := by
        rw [h]
      rw [hv, banked_deliver]
  · simp only [Except.ok.injEq, Prod.mk.injEq] at h
    rw [h.2]

/-- A trigger for an INTID below 32 sets the pending bit in the banks of its targets. -/
theorem banked_triggerLoop {targets : Target} (bits : List Cpu) :
    ∀ {injected added : Bool} {v : Vgic},
      triggerLoop current intId physicalIntId targets bits injected v = .ok (added, v') →
        v'.distributor.banked c =
          if intId < 32 ∧ c ∈ bits ∧ (targets &&& targetOf c) ≠ 0
            then raisedBank intId (v.distributor.banked c) else v.distributor.banked c := by
  induction bits with
  | nil =>
    intro injected added v h
    simp only [triggerLoop, Except.ok.injEq, Prod.mk.injEq] at h
    rw [h.2, if_neg fun hc => absurd hc.2.1 List.not_mem_nil]
  | cons b rest ih =>
    intro injected added v h
    rw [triggerLoop_cons] at h
    split at h
    · next hzero =>
      have hb : (intId < 32 ∧ c ∈ b :: rest ∧ (targets &&& targetOf c) ≠ 0) ↔
          intId < 32 ∧ c ∈ rest ∧ (targets &&& targetOf c) ≠ 0 := by
        rw [List.mem_cons]
        refine ⟨fun hc => ⟨hc.1, hc.2.1.resolve_left ?_, hc.2.2⟩,
          fun hc => ⟨hc.1, .inr hc.2.1, hc.2.2⟩⟩
        intro hcb
        exact hc.2.2 (hcb ▸ hzero)
      simp only [hb]
      exact ih h
    · next hone =>
      obtain ⟨r, hr, h⟩ := bind_eq_ok.1 h
      have htarget := banked_triggerTarget hr c
      rw [ih h]
      by_cases hlow : intId < 32
      · by_cases hcb : c = b
        · -- the bit may be set again further on
          rw [if_pos ⟨hcb, hlow⟩] at htarget
          have hmem : c ∈ b :: rest := List.mem_cons.2 (.inl hcb)
          have htrue : intId < 32 ∧ c ∈ b :: rest ∧ (targets &&& targetOf c) ≠ 0 :=
            ⟨hlow, hmem, hcb ▸ hone⟩
          refine Eq.trans ?_ (if_pos htrue).symm
          rw [htarget]
          split
          · exact raisedBank_idem _ _
          · rfl
        · rw [if_neg fun h' => hcb h'.1] at htarget
          simp only [htarget, List.mem_cons, hcb, false_or]
      · rw [if_neg fun h' => hlow h'.2] at htarget
        rw [htarget, if_neg fun h' => hlow h'.1, if_neg fun h' => hlow h'.1]

theorem banked_triggerInterruptTo {targets : Target} {added : Bool}
    (h : triggerInterruptTo v current intId physicalIntId targets = .ok (added, v')) (c : Cpu) :
    v'.distributor.banked c =
      if intId < 32 ∧ (targets &&& targetOf c) ≠ 0 then raisedBank intId (v.distributor.banked c)
      else v.distributor.banked c := by
  rw [banked_triggerLoop _ h]
  simp only [List.mem_finRange, true_and]

theorem banked_retrigger {added : Bool} (h : retrigger v current intId = .ok (added, v'))
    (c : Cpu) :
    v'.distributor.banked c =
      if intId < 32 ∧ c = current then raisedBank intId (v.distributor.banked c)
      else v.distributor.banked c := by
  unfold retrigger at h
  rw [banked_triggerInterruptTo h c]
  by_cases hlow : intId < 32
  · rw [if_pos hlow]
    have hself : (targetOf current &&& targetOf c) ≠ 0 ↔ c = current := by
      refine ⟨and_targetOf_ne_zero, fun hc => ?_⟩
      rw [hc, BitVec.and_self]
      exact (show ∀ c : Cpu, targetOf c ≠ 0 by decide) current
    simp only [hself]
  · rw [if_neg fun h' => hlow h'.1, if_neg fun h' => hlow h'.1]

/-- What the loops over a written value look at, for an INTID below 32, is in the bank. -/
def LooksAtBank (check : GicDistributorMmio → Cpu → Nat → Except Fault Bool) : Prop :=
  ∀ d d' cpu intId, intId < 32 → d.banked cpu = d'.banked cpu →
    check d cpu intId = check d' cpu intId

theorem get_placeOf_congr {d d' : GicDistributorMmio} {bank : Bank} {cpu : Cpu} {n : Nat}
    (hn : n < bank.bankedLength) (h : d.banked cpu = d'.banked cpu) :
    d.get (placeOf bank cpu n) = d'.get (placeOf bank cpu n) := by
  unfold placeOf
  rw [if_pos hn]
  exact congrFun (congrFun h bank) n

theorem bitOf_congr_banked {d d' : GicDistributorMmio} {bank : Bank} (hb : bank.IsBitmap)
    {cpu : Cpu} {intId : Nat} (hlow : intId < 32) (h : d.banked cpu = d'.banked cpu) :
    bitOf d bank cpu intId = bitOf d' bank cpu intId := by
  have hn : intId / 32 < bank.bankedLength := by
    rw [hb.1]
    omega
  unfold bitOf
  rw [get_placeOf_congr hn h]

theorem looksAtBank_getPending : LooksAtBank getPending := by
  intro d d' cpu intId hlow h
  have hlt : intId < 1024 := hlow.trans (by decide)
  rw [getPending_eq d cpu hlt, getPending_eq d' cpu hlt,
    bitOf_congr_banked isBitmap_pending hlow h]

theorem looksAtBank_getEnable : LooksAtBank getEnable := by
  intro d d' cpu intId hlow h
  have hlt : intId < 1024 := hlow.trans (by decide)
  rw [getEnable_eq d cpu hlt, getEnable_eq d' cpu hlt, bitOf_congr_banked isBitmap_enable hlow h]

variable {check : GicDistributorMmio → Cpu → Nat → Except Fault Bool}

theorem banked_retriggerBit {isSet : Bool}
    (h : retriggerBit check current intId isSet v = .ok v') (hc : c ≠ current ∨ 32 ≤ intId) :
    v'.distributor.banked c = v.distributor.banked c := by
  unfold retriggerBit at h
  split at h
  · obtain ⟨result, -, h⟩ := bind_eq_ok.1 h
    split at h
    · obtain ⟨r, hr, h⟩ := bind_eq_ok.1 h
      cases h
      rw [banked_retrigger hr c, if_neg]
      rintro ⟨hlow, rfl⟩
      exact hc.elim (fun hne => hne rfl) fun hle => absurd hlow (Nat.not_lt.2 hle)
    · cases h
      rfl
  · cases h
    rfl

theorem banked_retriggerBit_congr (hcheck : LooksAtBank check) {isSet : Bool}
    (hvw : v.distributor.banked current = w.distributor.banked current)
    (hv : retriggerBit check current intId isSet v = .ok v')
    (hw : retriggerBit check current intId isSet w = .ok w') :
    v'.distributor.banked current = w'.distributor.banked current := by
  by_cases hlow : intId < 32
  · unfold retriggerBit at hv hw
    cases isSet with
    | false =>
      cases hv
      cases hw
      exact hvw
    | true =>
      rw [if_pos rfl, hcheck _ _ current intId hlow hvw] at hv
      rw [if_pos rfl] at hw
      obtain ⟨result, hresult, hv⟩ := bind_eq_ok.1 hv
      rw [hresult, ok_bind] at hw
      cases result with
      | false =>
        cases hv
        cases hw
        exact hvw
      | true =>
        obtain ⟨r, hr, hv⟩ := bind_eq_ok.1 hv
        obtain ⟨r', hr', hw⟩ := bind_eq_ok.1 hw
        cases hv
        cases hw
        rw [banked_retrigger hr current, banked_retrigger hr' current, hvw]
  · rw [banked_retriggerBit hv (.inr (Nat.not_lt.1 hlow)),
      banked_retriggerBit hw (.inr (Nat.not_lt.1 hlow)), hvw]

theorem retriggerLoop_succ {fuel : Nat} {value : BitVec 64} (hvalue : value ≠ 0) :
    retriggerLoop check current (fuel + 1) intId value v =
      retriggerBit check current intId (value.getLsbD 0) v >>= fun w =>
        retriggerLoop check current fuel (intId + 1) (value >>> 1) w := if_neg hvalue

theorem retriggerLoop_zero_value (fuel : Nat) :
    retriggerLoop check current fuel intId 0 v = .ok v := by
  cases fuel <;> rfl

theorem banked_retriggerLoop (fuel : Nat) :
    ∀ {intId : Nat} {value : BitVec 64} {v : Vgic},
      retriggerLoop check current fuel intId value v = .ok v' → (c ≠ current ∨ 32 ≤ intId) →
        v'.distributor.banked c = v.distributor.banked c := by
  induction fuel with
  | zero =>
    intro intId value v h _
    unfold retriggerLoop at h
    split at h
    · cases h
      rfl
    · cases h
  | succ fuel ih =>
    intro intId value v h hc
    by_cases hvalue : value = 0
    · rw [hvalue, retriggerLoop_zero_value] at h
      cases h
      rfl
    · rw [retriggerLoop_succ hvalue] at h
      obtain ⟨w, hw, h⟩ := bind_eq_ok.1 h
      rw [ih h (hc.imp_right Nat.le_succ_of_le), banked_retriggerBit hw hc]

theorem banked_retriggerLoop_congr (hcheck : LooksAtBank check) (fuel : Nat) :
    ∀ {intId : Nat} {value : BitVec 64} {v w : Vgic},
      v.distributor.banked current = w.distributor.banked current →
        retriggerLoop check current fuel intId value v = .ok v' →
          retriggerLoop check current fuel intId value w = .ok w' →
            v'.distributor.banked current = w'.distributor.banked current := by
  induction fuel with
  | zero =>
    intro intId value v w hvw hv hw
    unfold retriggerLoop at hv hw
    split at hv
    · next hzero =>
      rw [if_pos hzero] at hw
      cases hv
      cases hw
      exact hvw
    · cases hv
  | succ fuel ih =>
    intro intId value v w hvw hv hw
    by_cases hvalue : value = 0
    · rw [hvalue, retriggerLoop_zero_value] at hv hw
      cases hv
      cases hw
      exact hvw
    · rw [retriggerLoop_succ hvalue] at hv hw
      obtain ⟨v₁, hv₁, hv⟩ := bind_eq_ok.1 hv
      obtain ⟨w₁, hw₁, hw⟩ := bind_eq_ok.1 hw
      exact ih (banked_retriggerBit_congr hcheck hvw hv₁ hw₁) hv hw

end Trigger

/-! ## Writes -/

/-- The register is about INTIDs 0 to 31. -/
def DistributorRegister.isPrivate : DistributorRegister → Bool
  | .igroupr n | .isenabler n | .icenabler n | .ispendr n | .icpendr n | .isactiver n
  | .icactiver n => n < 1
  | .ipriorityr n _ | .itargetsr n _ => n < 8
  | .icfgr n => n < 2
  | .ctlr | .typer | .sgir | .pidr2 => false

/-- The offset is of a register about INTIDs 0 to 31. -/
def isPrivateOffset (offset : Nat) : Bool := (decode offset).any DistributorRegister.isPrivate

section Write

variable {v v' w w' : Vgic} {current c : Cpu} {offset accessWidth : Nat} {value : BitVec 64}

/-- The effect of a write to a register on the bank of a CPU, in the two ways it can stay as it
was. -/
theorem banked_updateRegister_of {bank : Bank} {n : Nat} {f : Word → Word}
    (h : updateRegister v (register bank current n) f = .ok v')
    (hc : c ≠ current ∨ ¬n < bank.bankedLength) :
    v'.distributor.banked c = v.distributor.banked c := by
  rw [banked_updateRegister h c, if_neg]
  rintro ⟨hcur, hn⟩
  exact hc.elim (fun hne => hne hcur) fun hle => hle hn

theorem banked_updateTarget {n : Nat} {f : Word → Word} (h : updateTarget v n f = .ok v') :
    v'.distributor.banked = v.distributor.banked := by
  obtain ⟨p, -, h⟩ := bind_eq_ok.1 h
  cases h
  rfl

theorem banked_ite {p : Prop} [Decidable p] {x : Except Fault Vgic}
    (hx : x = .ok v' → v'.distributor.banked c = v.distributor.banked c)
    (h : (if p then x else .ok v) = .ok v') :
    v'.distributor.banked c = v.distributor.banked c := by
  split at h
  · exact hx h
  · cases h
    rfl

/-- A write to another register than `GICD_SGIR` leaves the bank of a CPU alone, if the CPU is
another one or the register is not about INTIDs 0 to 31. -/
theorem banked_write (h : write v current offset accessWidth value = .ok v')
    (hsgir : decode offset ≠ some .sgir)
    (hc : c ≠ current ∨ isPrivateOffset offset = false) :
    v'.distributor.banked c = v.distributor.banked c := by
  unfold write at h
  unfold isPrivateOffset at hc
  cases hr : decode offset with
  | none =>
    rw [hr] at h
    cases h
    rfl
  | some r =>
    rw [hr] at h hsgir hc
    have hbank : ∀ {bank : Bank} {n : Nat}, (n < bank.bankedLength → r.isPrivate = true) →
        c ≠ current ∨ ¬n < bank.bankedLength := fun himp =>
      hc.imp_right fun hno hn => by
        rw [Option.any_some, himp hn] at hno
        cases hno
    -- the loops behind a write to a register that is not private start at INTID 32 or above
    have hloop : ∀ {n : Nat}, (n < 1 → r.isPrivate = true) → c ≠ current ∨ 32 ≤ n * 32 :=
      fun himp => hc.imp_right fun hno => by
        by_contra hlt
        rw [Option.any_some, himp (by omega)] at hno
        cases hno
    cases r with
    | ctlr =>
      refine banked_ite (fun h => ?_) h
      cases h
      rfl
    | typer =>
      cases h
      rfl
    | pidr2 =>
      cases h
      rfl
    | sgir => exact absurd rfl hsgir
    | igroupr n =>
      exact banked_ite (fun h => banked_updateRegister_of h (hbank decide_eq_true)) h
    | isenabler n =>
      refine banked_ite (fun h => ?_) h
      obtain ⟨w, hw, h⟩ := bind_eq_ok.1 h
      rw [banked_retriggerLoop _ h (hloop decide_eq_true),
        banked_updateRegister_of hw (hbank decide_eq_true)]
    | icenabler n =>
      exact banked_ite (fun h => banked_updateRegister_of h (hbank decide_eq_true)) h
    | ispendr n =>
      refine banked_ite (fun h => ?_) h
      obtain ⟨w, hw, h⟩ := bind_eq_ok.1 h
      rw [banked_retriggerLoop _ h (hloop decide_eq_true),
        banked_updateRegister_of hw (hbank decide_eq_true)]
    | icpendr n =>
      exact banked_ite (fun h => banked_updateRegister_of h (hbank decide_eq_true)) h
    | isactiver n =>
      exact banked_ite (fun h => banked_updateRegister_of h (hbank decide_eq_true)) h
    | icactiver n =>
      exact banked_ite (fun h => banked_updateRegister_of h (hbank decide_eq_true)) h
    | ipriorityr n byte =>
      dsimp only at h
      split at h
      · exact banked_updateRegister_of h (hbank decide_eq_true)
      · exact banked_ite (fun h => banked_updateRegister_of h (hbank decide_eq_true)) h
    | itargetsr n byte =>
      dsimp only at h
      split at h
      · cases h
        rfl
      · split at h
        · rw [banked_updateTarget h]
        · exact banked_ite (fun h => by rw [banked_updateTarget h]) h
    | icfgr n =>
      exact banked_ite (fun h => banked_updateRegister_of h (hbank decide_eq_true)) h

theorem banked_updateRegister_congr {bank : Bank} {n : Nat} {f : Word → Word}
    (hvw : v.distributor.banked c = w.distributor.banked c)
    (hv : updateRegister v (register bank current n) f = .ok v')
    (hw : updateRegister w (register bank current n) f = .ok w') :
    v'.distributor.banked c = w'.distributor.banked c := by
  rw [banked_updateRegister hv c, banked_updateRegister hw c, hvw]

/-- Both writes take the same branch. -/
theorem banked_ite_congr {p : Prop} [Decidable p] {x y : Except Fault Vgic}
    (hvw : v.distributor.banked c = w.distributor.banked c)
    (hxy : x = .ok v' → y = .ok w' → v'.distributor.banked c = w'.distributor.banked c)
    (hv : (if p then x else .ok v) = .ok v') (hw : (if p then y else .ok w) = .ok w') :
    v'.distributor.banked c = w'.distributor.banked c := by
  split at hv
  · next hp =>
    rw [if_pos hp] at hw
    exact hxy hv hw
  · next hp =>
    rw [if_neg hp] at hw
    cases hv
    cases hw
    exact hvw

/-- What a write of a CPU does to its own bank depends on this bank only. -/
theorem banked_write_congr (hvw : v.distributor.banked current = w.distributor.banked current)
    (hv : write v current offset accessWidth value = .ok v')
    (hw : write w current offset accessWidth value = .ok w')
    (hsgir : decode offset ≠ some .sgir) :
    v'.distributor.banked current = w'.distributor.banked current := by
  by_cases hprivate : isPrivateOffset offset = true
  · unfold write at hv hw
    unfold isPrivateOffset at hprivate
    cases hr : decode offset with
    | none =>
      rw [hr] at hprivate
      cases hprivate
    | some r =>
      rw [hr] at hv hw hprivate hsgir
      cases r with
      | ctlr => cases hprivate
      | typer => cases hprivate
      | sgir => exact absurd rfl hsgir
      | pidr2 => cases hprivate
      | isenabler n =>
        refine banked_ite_congr hvw (fun hv hw => ?_) hv hw
        obtain ⟨v₁, hv₁, hv⟩ := bind_eq_ok.1 hv
        obtain ⟨w₁, hw₁, hw⟩ := bind_eq_ok.1 hw
        exact banked_retriggerLoop_congr looksAtBank_getPending _
          (banked_updateRegister_congr hvw hv₁ hw₁) hv hw
      | ispendr n =>
        refine banked_ite_congr hvw (fun hv hw => ?_) hv hw
        obtain ⟨v₁, hv₁, hv⟩ := bind_eq_ok.1 hv
        obtain ⟨w₁, hw₁, hw⟩ := bind_eq_ok.1 hw
        exact banked_retriggerLoop_congr looksAtBank_getEnable _
          (banked_updateRegister_congr hvw hv₁ hw₁) hv hw
      | ipriorityr n byte =>
        dsimp only at hv hw
        split at hv
        · next hbyte =>
          rw [if_pos hbyte] at hw
          exact banked_updateRegister_congr hvw hv hw
        · next hbyte =>
          rw [if_neg hbyte] at hw
          exact banked_ite_congr hvw (banked_updateRegister_congr hvw) hv hw
      | itargetsr n byte =>
        -- these registers are read-only
        have hn : n * 4 < 32 := by
          have : n < 8 := of_decide_eq_true hprivate
          omega
        dsimp only at hv hw
        rw [if_pos hn] at hv hw
        cases hv
        cases hw
        exact hvw
      | _ n => exact banked_ite_congr hvw (banked_updateRegister_congr hvw) hv hw
  · rw [Bool.not_eq_true] at hprivate
    rw [banked_write hv hsgir (.inr hprivate), banked_write hw hsgir (.inr hprivate), hvw]

/-- What a write to `GICD_SGIR` does to a bank depends on this bank only. -/
theorem banked_sgir_congr (hvw : v.distributor.banked c = w.distributor.banked c)
    (hv : write v current offset accessWidth value = .ok v')
    (hw : write w current offset accessWidth value = .ok w')
    (hsgir : decode offset = some .sgir) :
    v'.distributor.banked c = w'.distributor.banked c := by
  unfold write at hv hw
  rw [hsgir] at hv hw
  refine banked_ite_congr hvw (fun hv hw => ?_) hv hw
  obtain ⟨r, hr, hv⟩ := bind_eq_ok.1 hv
  obtain ⟨r', hr', hw⟩ := bind_eq_ok.1 hw
  cases hv
  cases hw
  rw [banked_triggerInterruptTo hr c, banked_triggerInterruptTo hr' c, hvw]

end Write

/-! ## Reads, and runs of accesses -/

theorem readRegister_congr {d d' : GicDistributorMmio} {bank : Bank} {cpu : Cpu} {n : Nat}
    (hn : n < bank.bankedLength) (h : d.banked cpu = d'.banked cpu) :
    readRegister d (register bank cpu n) = readRegister d' (register bank cpu n) := by
  unfold readRegister
  rw [register_eq (hn.trans_le (bankedLength_le bank)), ok_bind, ok_bind, get_placeOf_congr hn h]

theorem decode_itargetsr_byte {offset n byte : Nat}
    (h : decode offset = some (.itargetsr n byte)) : byte < 4 := by
  have hbyte : ∀ {r}, decode offset = some r → ∀ n byte, r = .itargetsr n byte → byte < 4 := by
    intro r
    unfold decode
    repeat' apply decode_ite
    case hx => exact nofun
    all_goals
      intro hrange n byte hr
      cases hr
    exact Nat.mod_lt _ (by decide)
  exact hbyte h n byte rfl

/-- What a CPU reads from a register about INTIDs 0 to 31 is in its bank. -/
theorem read_congr {d d' : GicDistributorMmio} {current : Cpu} {offset accessWidth : Nat}
    (hprivate : isPrivateOffset offset = true) (h : d.banked current = d'.banked current) :
    read d current offset accessWidth = read d' current offset accessWidth := by
  unfold isPrivateOffset at hprivate
  unfold read
  cases hr : decode offset with
  | none => rfl
  | some r =>
    rw [hr] at hprivate
    have hregister : ∀ (bank : Bank) (n : Nat), decide (n < bank.bankedLength) = true →
        readRegister d (register bank current n) = readRegister d' (register bank current n) :=
      fun bank n hn => readRegister_congr (of_decide_eq_true hn) h
    cases r with
    | ctlr => cases hprivate
    | typer => rfl
    | sgir => rfl
    | pidr2 => rfl
    | igroupr n => simp only [groupRegister, hregister .group n hprivate]
    | isenabler n => simp only [enableRegister, hregister .enable n hprivate]
    | icenabler n => simp only [enableRegister, hregister .enable n hprivate]
    | ispendr n => simp only [pendingRegister, hregister .pending n hprivate]
    | icpendr n => simp only [pendingRegister, hregister .pending n hprivate]
    | isactiver n => simp only [activeRegister, hregister .active n hprivate]
    | icactiver n => simp only [activeRegister, hregister .active n hprivate]
    | ipriorityr n byte => simp only [priorityRegister, hregister .priority n hprivate]
    | itargetsr n byte =>
      -- the targets of INTIDs 0 to 31 are the CPU that reads them
      have hn : n < 8 := of_decide_eq_true hprivate
      have hword : n * 4 < 32 := by omega
      by_cases hwidth : accessWidth = 8
      · by_cases hbyte : n * 4 + byte < 32
        · simp only [if_pos hwidth, if_pos hbyte]
        · have hmod := decode_itargetsr_byte hr
          omega
      · simp only [if_neg hwidth, if_pos hword]
    | icfgr n => simp only [configurationRegister, hregister .configuration n hprivate]

/-- An access of a guest to the Distributor. -/
inductive Access where
  | read (cpu : Cpu) (offset accessWidth : Nat)
  | write (cpu : Cpu) (offset accessWidth : Nat) (value : BitVec 64)
  deriving DecidableEq, Repr

namespace Access

def next (v : Vgic) : Access → Option Vgic
  | .read cpu offset accessWidth =>
    (Gic.read v.distributor cpu offset accessWidth).toOption.map fun _ => v
  | .write cpu offset accessWidth value => (Gic.write v cpu offset accessWidth value).toOption

/-- The values that a CPU reads from its registers about INTIDs 0 to 31. -/
def seenBy (b : Cpu) (v : Vgic) : Access → List (Except Fault (BitVec 64))
  | .read cpu offset accessWidth =>
    if cpu = b ∧ isPrivateOffset offset = true then [Gic.read v.distributor b offset accessWidth]
    else []
  | .write _ _ _ _ => []

/-- The accesses of the other CPUs, except writes to `GICD_SGIR`. -/
def isOthers (b : Cpu) : Access → Bool
  | .read cpu _ _ => cpu != b
  | .write cpu offset _ _ => cpu != b && decode offset != some .sgir

/-- The bank of a CPU is all that its reads and writes of INTIDs 0 to 31 depend on. -/
theorem unwinding (b : Cpu) : Unwinding next (seenBy b) (isOthers b)
    fun v w => v.distributor.banked b = w.distributor.banked b := by
  -- an access of another CPU keeps the bank
  have hkeep : ∀ v access v', isOthers b access = true → next v access = some v' →
      v'.distributor.banked b = v.distributor.banked b := by
    intro v access v' hothers hnext
    cases access with
    | read cpu offset accessWidth =>
      obtain ⟨_, -, rfl⟩ := Option.map_eq_some_iff.1 hnext
      rfl
    | write cpu offset accessWidth value =>
      obtain ⟨hcpu, hsgir⟩ := Bool.and_eq_true_iff.1 hothers
      exact banked_write (toOption_eq_some hnext) (bne_iff_ne.1 hsgir)
        (.inl (bne_iff_ne.1 hcpu).symm)
  refine ⟨fun v access hothers => ?_, fun v w access hvw _ => ?_, ?_, ?_, ?_⟩
  · cases access with
    | read cpu offset accessWidth => exact if_neg fun h => bne_iff_ne.1 hothers h.1
    | write => rfl
  · cases access with
    | read cpu offset accessWidth =>
      simp only [seenBy]
      split
      · next hread => rw [read_congr hread.2 hvw]
      · rfl
    | write => rfl
  · exact fun v w access v' hvw hothers hv => (hkeep v access v' hothers hv).trans hvw
  · exact fun v w access w' hvw hothers hw => hvw.trans (hkeep w access w' hothers hw).symm
  · intro v w access v' w' hvw hothers hv hw
    cases access with
    | read cpu offset accessWidth =>
      obtain ⟨_, -, rfl⟩ := Option.map_eq_some_iff.1 hv
      obtain ⟨_, -, rfl⟩ := Option.map_eq_some_iff.1 hw
      exact hvw
    | write cpu offset accessWidth value =>
      have hv := toOption_eq_some hv
      have hw := toOption_eq_some hw
      by_cases hsgir : decode offset = some .sgir
      · exact banked_sgir_congr hvw hv hw hsgir
      · have hcpu : cpu = b := by
          by_contra hne
          have hyes : isOthers b (.write cpu offset accessWidth value) = true :=
            Bool.and_eq_true_iff.2 ⟨bne_iff_ne.2 hne, bne_iff_ne.2 hsgir⟩
          rw [hothers] at hyes
          cases hyes
        subst hcpu
        exact banked_write_congr hvw hv hw hsgir

end Access

/-- **Banked registers are private.** A write to another register than `GICD_SGIR` leaves the banks
of the other CPUs alone, and all banks if it is not to a register about INTIDs 0 to 31; and two runs
of accesses that differ only in accesses of other CPUs, writes to `GICD_SGIR` excepted, show a CPU
the same in its registers about INTIDs 0 to 31. -/
theorem banks_private (b : Cpu) :
    (∀ v v' a offset accessWidth value, write v a offset accessWidth value = .ok v' →
      decode offset ≠ some .sgir → b ≠ a → v'.distributor.banked b = v.distributor.banked b) ∧
    (∀ v v' a offset accessWidth value, write v a offset accessWidth value = .ok v' →
      decode offset ≠ some .sgir → isPrivateOffset offset = false →
        v'.distributor.banked = v.distributor.banked) ∧
    (∀ v accesses accesses' seen seen',
      accesses.filter (!Access.isOthers b ·) = accesses'.filter (!Access.isOthers b ·) →
        observe Access.next (Access.seenBy b) v accesses = some seen →
          observe Access.next (Access.seenBy b) v accesses' = some seen' → seen = seen') := by
  refine ⟨fun v v' a offset accessWidth value h hsgir hb => banked_write h hsgir (.inl hb),
    fun v v' a offset accessWidth value h hsgir hshared => ?_,
    fun v accesses accesses' seen seen' hfilter hseen hseen' => ?_⟩
  · funext c
    exact banked_write h hsgir (.inr hshared)
  · exact (Access.unwinding b).observe_eq rfl hfilter hseen hseen'

/-- CPU 1 enables and triggers its interrupts, while CPU 0 reads its own registers. -/
def otherEnables : List Access :=
  [.read 0 0x100 32, .write 1 0x100 32 0xFFFFFFFF, .write 1 0x200 32 0xFF, .read 0 0x200 32,
    .write 1 0xF00 32 0x10003, .read 0 0x200 32]

theorem banks_private_enables :
    ∃ seen, observe Access.next (Access.seenBy 0) (.new 1 4 30) otherEnables = some seen ∧
      observe Access.next (Access.seenBy 0) (.new 1 4 30)
        (otherEnables.filter (!Access.isOthers 0 ·)) = some seen := by
  obtain ⟨seen, hseen⟩ := Option.isSome_iff_exists.1
    (show (observe Access.next (Access.seenBy 0) (.new 1 4 30) otherEnables).isSome = true by
      decide +kernel)
  obtain ⟨seen', hseen'⟩ := Option.isSome_iff_exists.1
    (show (observe Access.next (Access.seenBy 0) (.new 1 4 30)
      (otherEnables.filter (!Access.isOthers 0 ·))).isSome = true by decide +kernel)
  have hfilter : otherEnables.filter (!Access.isOthers 0 ·) =
      (otherEnables.filter (!Access.isOthers 0 ·)).filter (!Access.isOthers 0 ·) := by decide
  have heq := (banks_private 0).2.2 _ _ _ _ _ hfilter hseen hseen'
  exact ⟨seen, hseen, heq ▸ hseen'⟩

end MiniVisor.Gic
