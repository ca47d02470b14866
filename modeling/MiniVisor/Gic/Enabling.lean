import MiniVisor.Gic.Backlog

/-!
# Interrupts that become deliverable

An INTID is `Deliverable` on a CPU that is its target when it is pending and enabled there and
`GICD_CTLR` is on. It is `Presented` to the guest on that CPU when a List Register holds it pending,
when the queue has an entry for it, or when the List Registers are all in use by other INTIDs, which
leaves it to the next maintenance interrupt.

Three registers decide whether an INTID is deliverable, and the guest can write them in any order.
The writes to `GICD_ISENABLER` and `GICD_ISPENDR` trigger again what they make deliverable: a
trigger of an enabled INTID presents it (`presented_triggerLoop`), and no later effect takes that
back (`Effect.presented`). A write to `GICD_CTLR` only stores the value. The main result,
`enabling_delivers`, is exact: of the writes that do not fault, only the one that turns the
Distributor on can leave a deliverable INTID behind, and it does so for each that was not presented
before.
-/

set_option autoImplicit false

namespace MiniVisor.Gic

open MiniVisor.Lib

/-! ## Presented interrupts -/

/-- Every List Register in use holds another INTID, and all are in use. -/
def Occupied (v : Vgic) (t : Cpu) (intId : Nat) : Prop :=
  ∀ i < v.supportedLrn, isInactive (v.lr t i) = false ∧ (virtualId (v.lr t i)).toNat ≠ intId

def Presented (v : Vgic) (t : Cpu) (intId : Nat) : Prop :=
  LrPending v t intId ∨ Queued v t intId ∨ Occupied v t intId

instance (v : Vgic) (t : Cpu) (intId : Nat) : Decidable (Occupied v t intId) :=
  inferInstanceAs (Decidable (∀ i, i < v.supportedLrn → _))

instance (v : Vgic) (t : Cpu) (intId : Nat) : Decidable (Presented v t intId) :=
  inferInstanceAs (Decidable (_ ∨ _ ∨ _))

/-- The CPU is a target of the INTID: a banked INTID belongs to each CPU, a shared one to the CPUs
in `own_target`. -/
def Targeted (d : GicDistributorMmio) (t : Cpu) (intId : Nat) : Prop :=
  32 ≤ intId → (d.ownTarget &&& targetOf t) ≠ 0

def Deliverable (d : GicDistributorMmio) (t : Cpu) (intId : Nat) : Prop :=
  Enabled d t intId ∧ bitOf d .pending t intId = true ∧ Targeted d t intId

instance (d : GicDistributorMmio) (t : Cpu) (intId : Nat) : Decidable (Targeted d t intId) :=
  inferInstanceAs (Decidable (_ → _))

instance (d : GicDistributorMmio) (t : Cpu) (intId : Nat) : Decidable (Deliverable d t intId) :=
  inferInstanceAs (Decidable (_ ∧ _ ∧ _))

section Presented

variable {v v' : Vgic} {current t : Cpu} {intId i : Nat}

/-- An insertion leaves the List Registers of a CPU in use where they all are. -/
theorem Inserted.occupied_mono {cpu : Cpu} {entry : Word} {added : Bool}
    (h : Inserted v cpu entry added v') (ho : Occupied v t intId) : Occupied v' t intId := by
  intro j hj
  rw [h.supportedLrn] at hj
  cases h with
  | merged k hk huse hid =>
    by_cases hsame : t = cpu ∧ j = k
    · obtain ⟨rfl, rfl⟩ := hsame
      rw [lr_setLr_self, virtualId_or_pending]
      exact ⟨isInactive_of_isPending _ (isPending_or_pending _), (ho j hj).2⟩
    · rw [lr_setLr_of_ne v _ hsame]
      exact ho j hj
  | filled k hk hfree hnone =>
    rw [lr_setLr_of_ne]
    · exact ho j hj
    · -- the register that is filled was not in use
      rintro ⟨rfl, rfl⟩
      rw [(ho j hj).1] at hfree
      cases hfree
  | full hfull => exact ho j hj

/-- No effect takes back what is presented. -/
theorem Effect.presented (h : Effect v v') (hp : Presented v t intId) : Presented v' t intId := by
  cases h with
  | registers d hqueue hpending =>
    refine hp.imp_right (Or.imp_left ?_)
    rintro ⟨x, hx, hxt⟩
    exact ⟨x, hqueue ▸ hx, hxt⟩
  | recorded cpu i hpending => exact hp
  | inserted _ cpu entry added hentry hins =>
    refine hp.imp hins.lrPending_mono (Or.imp ?_ hins.occupied_mono)
    rintro ⟨x, hx, hxt⟩
    exact ⟨x, hins.distributor ▸ hx, hxt⟩
  | queued target entry hpending hsoftware =>
    refine hp.imp_right (Or.imp_left ?_)
    rintro ⟨x, hx, hxt⟩
    exact ⟨x, List.mem_append_left _ hx, hxt⟩
  | taken queue hsub hheld =>
    rcases hp with hlr | ⟨x, hx, hxt⟩ | ho
    · exact .inl hlr
    · -- an entry leaves the queue for a List Register of its target
      rcases hheld x hx with hq | ⟨c, hc, hlr⟩
      · exact .inr (.inl ⟨x, hq, hxt⟩)
      · have heq : t = c := targetOf_inj.1 (hxt.1.symm.trans hc)
        rw [hxt.2, ← heq] at hlr
        exact .inl hlr
    · exact .inr (.inr ho)

theorem Effects.presented (h : Effects v v') (hp : Presented v t intId) : Presented v' t intId := by
  induction h with
  | refl => exact hp
  | tail _ hstep ih => exact hstep.presented ih

/-! ## Triggers present -/

/-- An entry goes to a List Register or to the queue, or no List Register is left. -/
theorem presented_deliver (v : Vgic) (current cpu : Cpu) {entry : Word}
    (hp : isPending entry = true) :
    Presented (deliver v current (targetOf cpu) entry).2 cpu (virtualId entry).toNat := by
  unfold deliver
  by_cases hc : targetOf cpu = targetOf current
  · obtain rfl := targetOf_inj.1 hc
    rw [if_pos rfl]
    have hins := inserted_addVirtualInterrupt v cpu entry
    generalize (addVirtualInterrupt v cpu entry).1 = added at hins
    generalize (addVirtualInterrupt v cpu entry).2 = w at hins
    cases added with
    | true => exact .inl (hins.lrPending hp)
    | false =>
      cases hins with
      | full hfull =>
        refine .inr (.inr fun j hj => ⟨(hfull j hj).1, fun heq => ?_⟩)
        exact (hfull j hj).2 (BitVec.eq_of_toNat_eq heq)
  · rw [if_neg hc]
    exact .inr (.inl ⟨_, List.mem_append_right _ (List.mem_singleton.2 rfl), rfl, rfl⟩)

theorem presented_triggerTarget {cpu : Cpu} {p : Option Word} {added : Bool}
    (hen : Enabled v.distributor cpu intId)
    (h : triggerTarget v current intId p (targetOf cpu) = .ok (added, v')) :
    Presented v' cpu intId := by
  obtain ⟨hlt, ⟨-, -, heq⟩ | ⟨hno, -⟩⟩ := triggerTarget_cases h
  · have hpres := presented_deliver (raise v cpu intId p) current cpu
      (isPending_entryOf (raise v cpu intId p).distributor cpu intId p)
    rw [virtualId_entryOf _ _ hlt, ← heq] at hpres
    exact hpres
  · exact absurd hen hno

/-- A trigger presents its INTID to every target on which it is enabled. -/
theorem presented_triggerLoop {targets : Target} (bits : List Cpu) :
    ∀ {injected added : Bool} {v : Vgic},
      triggerLoop current intId none targets bits injected v = .ok (added, v') →
        ∀ b ∈ bits, (targets &&& targetOf b) ≠ 0 → Enabled v.distributor b intId →
          Presented v' b intId := by
  induction bits with
  | nil =>
    intro injected added v _ b hb
    cases hb
  | cons c rest ih =>
    intro injected added v h b hb hbit hen
    rw [triggerLoop_cons] at h
    split at h
    · next hzero =>
      rcases List.mem_cons.1 hb with rfl | hb
      · exact absurd hzero hbit
      · exact ih h b hb hbit hen
    · obtain ⟨r, hr, hloop⟩ := bind_eq_ok.1 h
      rcases List.mem_cons.1 hb with rfl | hb
      · -- the rest of the loop keeps what this target got
        exact (effects_triggerLoop rest (fun _ _ => Or.inl rfl) rfl hloop).presented
          (presented_triggerTarget hen hr)
      · exact ih hloop b hb hbit (((triggerTarget_raised hr).enabled_iff b intId).2 hen)

theorem presented_triggerInterruptTo {targets : Target} {added : Bool}
    (h : triggerInterruptTo v current intId none targets = .ok (added, v')) {b : Cpu}
    (hb : (targets &&& targetOf b) ≠ 0) (hen : Enabled v.distributor b intId) :
    Presented v' b intId :=
  presented_triggerLoop _ h b (List.mem_finRange b) hb hen

/-! ## The pending bits that a trigger sets -/

theorem bitOf_deliver (v : Vgic) (current : Cpu) (target : Target) (entry : Word) (bank : Bank)
    (c : Cpu) (i : Nat) :
    bitOf (deliver v current target entry).2.distributor bank c i = bitOf v.distributor bank c i :=
  -- a delivery raises no pending bit, so it can be read as that of any other INTID
  (deliver_raised v current target entry (i + 1)).bitOf_of_ne (Nat.ne_of_lt (Nat.lt_succ_self i)) _
    _

theorem bitOf_raise_inv {cpu : Cpu} {p : Option Word}
    (h : bitOf (raise v cpu intId p).distributor .pending t i = true) :
    bitOf v.distributor .pending t i = true ∨ (i = intId ∧ SameBit i t cpu) := by
  unfold raise at h
  rw [distributor_record, distributor_setDistributor, bitOf_changeBit _ isBitmap_pending] at h
  split at h
  · next hs =>
    obtain ⟨rfl, hs⟩ := hs
    exact .inr ⟨rfl, hs⟩
  · exact .inl h

theorem pending_triggerTarget_inv {cpu : Cpu} {p : Option Word} {added : Bool}
    (h : triggerTarget v current intId p (targetOf cpu) = .ok (added, v'))
    (hbit : bitOf v'.distributor .pending t i = true) :
    bitOf v.distributor .pending t i = true ∨ (i = intId ∧ SameBit i t cpu) := by
  obtain ⟨-, ⟨-, -, heq⟩ | ⟨-, -, rfl⟩⟩ := triggerTarget_cases h
  · have hv := congrArg Prod.snd heq
    dsimp only at hv
    rw [hv, bitOf_deliver] at hbit
    exact bitOf_raise_inv hbit
  · exact bitOf_raise_inv hbit

theorem pending_triggerLoop_inv {p : Option Word} {targets : Target} (bits : List Cpu) :
    ∀ {injected added : Bool} {v : Vgic},
      triggerLoop current intId p targets bits injected v = .ok (added, v') →
        bitOf v'.distributor .pending t i = true →
          bitOf v.distributor .pending t i = true ∨
            (i = intId ∧ ∃ b, (targets &&& targetOf b) ≠ 0 ∧ SameBit i t b) := by
  induction bits with
  | nil =>
    intro injected added v h hbit
    cases h
    exact .inl hbit
  | cons c rest ih =>
    intro injected added v h hbit
    rw [triggerLoop_cons] at h
    split at h
    · exact ih h hbit
    · next hc =>
      obtain ⟨r, hr, hloop⟩ := bind_eq_ok.1 h
      rcases ih hloop hbit with hbefore | hset
      · exact (pending_triggerTarget_inv hr hbefore).imp_right fun ⟨hi, hs⟩ => ⟨hi, c, hc, hs⟩
      · exact .inr hset

end Presented

/-! ## Writes that trigger again -/

/-- What decides where an INTID is enabled and targeted. -/
structure SameRouting (d d' : GicDistributorMmio) : Prop where
  ctlr : d'.ctlr = d.ctlr
  ownTarget : d'.ownTarget = d.ownTarget
  enable : ∀ c i, bitOf d' .enable c i = bitOf d .enable c i

section Routing

variable {d d' d'' : GicDistributorMmio} {t : Cpu} {intId : Nat}

theorem SameRouting.refl (d : GicDistributorMmio) : SameRouting d d := ⟨rfl, rfl, fun _ _ => rfl⟩

theorem SameRouting.trans (h : SameRouting d d') (h' : SameRouting d' d'') : SameRouting d d'' :=
  ⟨h'.ctlr.trans h.ctlr, h'.ownTarget.trans h.ownTarget,
    fun c i => (h'.enable c i).trans (h.enable c i)⟩

theorem Raised.sameRouting {i : Nat} (h : Raised i d d') : SameRouting d d' :=
  ⟨h.ctlr, h.ownTarget, h.bitOf_enable⟩

theorem SameRouting.enabled_iff (h : SameRouting d d') : Enabled d' t intId ↔
    Enabled d t intId := by
  unfold Enabled distributorEnabled
  rw [h.ctlr, h.enable]

theorem SameRouting.targeted_iff (h : SameRouting d d') :
    Targeted d' t intId ↔ Targeted d t intId := by
  unfold Targeted
  rw [h.ownTarget]

theorem targetOf_ne_zero (t : Cpu) : targetOf t ≠ 0 := by
  revert t
  decide

/-- A retrigger on a CPU reaches the targets that see the same bits as the CPU. -/
theorem Targeted.retriggerTargets {current : Cpu} (h : Targeted d t intId)
    (hs : SameBit intId t current) : (retriggerTargets d current intId &&& targetOf t) ≠ 0 := by
  unfold Gic.retriggerTargets
  split
  · next hlow =>
    obtain rfl : t = current := hs.resolve_left (Nat.not_le.2 hlow)
    rw [BitVec.and_self]
    exact targetOf_ne_zero t
  · next hhigh => exact h (Nat.not_lt.1 hhigh)

/-- A bitmap bit in two views that share it. -/
theorem bitOf_sameBit (d : GicDistributorMmio) {bank : Bank} (hb : bank.IsBitmap) {c c' : Cpu}
    (h : SameBit intId c c') : bitOf d bank c intId = bitOf d bank c' intId := by
  rcases h with hshared | rfl
  · exact bitOf_shared d hb hshared c c'
  · rfl

end Routing

/-- The loop over a written value triggers the INTID again, seen from a CPU that shares its bits. -/
def Hit (bank : Bank) (d : GicDistributorMmio) (current : Cpu) (base : Nat) (value : BitVec 64)
    (t : Cpu) (i : Nat) : Prop :=
  ∃ k, value.getLsbD k = true ∧ i = base + k ∧ bitOf d bank current i = true ∧ SameBit i t current

section Loop

variable {check : GicDistributorMmio → Cpu → Nat → Except Fault Bool} {bank : Bank} {v v' : Vgic}
variable {current t : Cpu} {intId i base : Nat} {value : BitVec 64}

theorem pending_retriggerBit_inv (hcheck : LooksAtBit check bank) {isSet : Bool}
    (h : retriggerBit check current intId isSet v = .ok v')
    (hbit : bitOf v'.distributor .pending t i = true) :
    bitOf v.distributor .pending t i = true ∨
      (isSet = true ∧ i = intId ∧ bitOf v.distributor bank current i = true ∧
        SameBit i t current) := by
  rcases retriggerBit_cases hcheck h with ⟨hset, hcur, added, htr⟩ | ⟨-, rfl⟩
  · refine (pending_triggerLoop_inv _ htr hbit).imp_right ?_
    rintro ⟨rfl, b, hb, hs⟩
    refine ⟨hset, rfl, hcur, ?_⟩
    -- a banked INTID is triggered on the current CPU only
    by_cases hlow : i < 32
    · rw [if_pos hlow] at hb
      rw [← and_targetOf_ne_zero hb]
      exact hs
    · exact .inl (Nat.not_lt.1 hlow)
  · exact .inl hbit

theorem presented_retriggerBit (hcheck : LooksAtBit check bank) {isSet : Bool}
    (h : retriggerBit check current i isSet v = .ok v') (hset : isSet = true)
    (hbit : bitOf v.distributor bank current i = true) (hs : SameBit i t current)
    (hen : Enabled v.distributor t i) (ht : Targeted v.distributor t i) : Presented v' t i := by
  rcases retriggerBit_cases hcheck h with ⟨-, -, added, htr⟩ | ⟨hno, -⟩
  · exact presented_triggerInterruptTo htr (ht.retriggerTargets hs) hen
  · exact absurd ⟨hset, hbit⟩ hno

/-- The INTIDs that the rest of the loop triggers, in terms of the state before the first bit. -/
theorem hit_succ {w : Vgic} (hr : Raised base v.distributor w.distributor) :
    Hit bank v.distributor current base value t i ↔
      (value.getLsbD 0 = true ∧ i = base ∧ bitOf v.distributor bank current i = true ∧
          SameBit i t current) ∨
        Hit bank w.distributor current (base + 1) (value >>> 1) t i := by
  constructor
  · rintro ⟨k, hk, rfl, hbit, hs⟩
    cases k with
    | zero => exact .inl ⟨hk, rfl, hbit, hs⟩
    | succ k =>
      refine .inr ⟨k, getLsbD_ushiftRight_one value k ▸ hk, by omega, ?_, hs⟩
      rw [hr.bitOf_of_ne (by omega)]
      exact hbit
  · rintro (⟨hk, rfl, hbit, hs⟩ | ⟨k, hk, rfl, hbit, hs⟩)
    · exact ⟨0, hk, rfl, hbit, hs⟩
    · refine ⟨k + 1, (getLsbD_ushiftRight_one value k).symm ▸ hk, by omega, ?_, hs⟩
      rw [← hr.bitOf_of_ne (by omega)]
      exact hbit

theorem not_hit_zero {d : GicDistributorMmio} : ¬Hit bank d current base 0 t i := by
  rintro ⟨k, hk, -⟩
  exact Bool.false_ne_true (BitVec.getLsbD_zero.symm.trans hk)

/-- What the loop over a written value does: the routing stays, every INTID that it triggers again
is presented where it is enabled, and no other pending bit is set. -/
structure Retriggered (bank : Bank) (current : Cpu) (base : Nat) (value : BitVec 64) (v v' : Vgic) :
    Prop where
  routing : SameRouting v.distributor v'.distributor
  pending : ∀ t i, bitOf v'.distributor .pending t i = true →
    bitOf v.distributor .pending t i = true ∨ Hit bank v.distributor current base value t i
  presented : ∀ t i, Hit bank v.distributor current base value t i → Enabled v.distributor t i →
    Targeted v.distributor t i → Presented v' t i

theorem retriggered_zero (bank : Bank) (current : Cpu) (base : Nat) (v : Vgic) :
    Retriggered bank current base 0 v v :=
  ⟨.refl _, fun _ _ h => .inl h, fun _ _ h => absurd h not_hit_zero⟩

theorem retriggered_retriggerLoop (hcheck : LooksAtBit check bank) (fuel : Nat) :
    ∀ {base : Nat} {value : BitVec 64} {v : Vgic},
      retriggerLoop check current fuel base value v = .ok v' →
        Retriggered bank current base value v v' := by
  induction fuel with
  | zero =>
    intro base value v h
    rw [retriggerLoop] at h
    split at h
    · next hzero =>
      cases h
      rw [hzero]
      exact retriggered_zero _ _ _ _
    · cases h
  | succ fuel ih =>
    intro base value v h
    rw [retriggerLoop] at h
    split at h
    · next hzero =>
      cases h
      rw [hzero]
      exact retriggered_zero _ _ _ _
    · obtain ⟨w, hbit, hloop⟩ := bind_eq_ok.1 h
      have hr := retriggerBit_raised hbit
      have hrest := ih hloop
      refine ⟨hr.sameRouting.trans hrest.routing, fun t i hp => ?_, fun t i hit hen ht => ?_⟩
      · rcases hrest.pending t i hp with hw | hit
        · exact (pending_retriggerBit_inv hcheck hbit hw).imp_right
            fun hset => (hit_succ hr).2 (.inl hset)
        · exact .inr ((hit_succ hr).2 (.inr hit))
      · rcases (hit_succ hr).1 hit with ⟨hset, rfl, hcur, hs⟩ | hit
        · exact (effects_retriggerLoop fuel hloop).presented
            (presented_retriggerBit hcheck hbit hset hcur hs hen ht)
        · exact hrest.presented t i hit (hr.sameRouting.enabled_iff.2 hen)
            (hr.sameRouting.targeted_iff.2 ht)

end Loop

/-! ## Writes -/

/-- What becomes deliverable is presented. -/
def Delivers (v v' : Vgic) : Prop :=
  ∀ t intId, ¬Deliverable v.distributor t intId → Deliverable v'.distributor t intId →
    Presented v' t intId

section Write

variable {v v' w : Vgic} {current t : Cpu} {n i : Nat} {value : BitVec 64}

theorem delivers_refl (v : Vgic) : Delivers v v := fun _ _ hno h => absurd h hno

/-- A bit of a bitmap after a bitwise or with the written value. -/
theorem bitOf_or_inv {d : GicDistributorMmio} {bank : Bank} (hb : bank.IsBitmap)
    (h : bitOf (d.update (placeOf bank current n) fun old => old ||| value.truncate 32) bank t i =
      true) :
    bitOf d bank t i = true ∨
      ∃ k, value.getLsbD k = true ∧ i = n * 32 + k ∧ SameBit i t current := by
  unfold bitOf at h ⊢
  rw [d.get_update] at h
  split at h
  · next hp =>
    rw [BitVec.getLsbD_or, Bool.or_eq_true] at h
    refine h.imp_right fun hk => ⟨i % 32, ?_, ?_, ?_⟩
    · rw [BitVec.truncate_eq_setWidth, BitVec.getLsbD_setWidth, Bool.and_eq_true] at hk
      exact hk.2
    · have := (placeOf_inj.1 hp).1
      omega
    · have hn := (placeOf_inj.1 hp).1
      rw [← hn] at hp
      exact ((placeOf_bitmap hb).1 ⟨hp, rfl⟩).2
  · exact .inl h

/-- A write to a register of another bank leaves the routing. -/
theorem sameRouting_update {d : GicDistributorMmio} {p : Place} {f : Word → Word}
    (hp : p.bank ≠ .enable) : SameRouting d (d.update p f) :=
  ⟨d.ctlr_update _ _, d.ownTarget_update _ _, fun _ _ => bitOf_update_of_ne _ hp _ _ _⟩

theorem delivers_isenabler
    (hw : updateRegister v (enableRegister current n) (fun old => old ||| value.truncate 32) =
      .ok w)
    (h : retriggerLoop getPending current 64 (n * 32) value w = .ok v') : Delivers v v' := by
  have hloop := retriggered_retriggerLoop looksAtBit_getPending _ h
  have hw := updateRegister_eq hw
  have hbank : (placeOf .enable current n).bank ≠ .pending := by
    rw [bank_placeOf]
    decide
  intro t i hno ⟨hen, hp, ht⟩
  have hen := hloop.routing.enabled_iff.1 hen
  have ht := hloop.routing.targeted_iff.1 ht
  have hwp : ∀ c, bitOf w.distributor .pending c i = bitOf v.distributor .pending c i := by
    intro c
    rw [hw, distributor_setDistributor, bitOf_update_of_ne _ hbank]
  refine (hloop.pending t i hp).elim (fun hp => ?_) fun hit => hloop.presented t i hit hen ht
  -- it was pending already, so the write is what enabled it
  have hnew : ¬bitOf v.distributor .enable t i = true := by
    intro he
    refine hno ⟨⟨?_, he⟩, hwp t ▸ hp, ?_⟩
    · have := hen.1
      rw [hw, distributor_setDistributor] at this
      unfold distributorEnabled at this ⊢
      rwa [v.distributor.ctlr_update] at this
    · unfold Targeted at ht ⊢
      rwa [hw, distributor_setDistributor, v.distributor.ownTarget_update] at ht
  have he := hen.2
  rw [hw, distributor_setDistributor] at he
  obtain ⟨k, hk, hi, hs⟩ := (bitOf_or_inv isBitmap_enable he).resolve_left hnew
  refine hloop.presented t i ⟨k, hk, hi, ?_, hs⟩ hen ht
  rw [← bitOf_sameBit _ isBitmap_pending hs]
  exact hp

theorem delivers_ispendr
    (hw : updateRegister v (pendingRegister current n) (fun old => old ||| value.truncate 32) =
      .ok w)
    (h : retriggerLoop getEnable current 64 (n * 32) value w = .ok v') : Delivers v v' := by
  have hloop := retriggered_retriggerLoop looksAtBit_getEnable _ h
  have hw := updateRegister_eq hw
  have hrouting : SameRouting v.distributor w.distributor := by
    rw [hw, distributor_setDistributor]
    exact sameRouting_update (by rw [bank_placeOf]; decide)
  intro t i hno ⟨hen, hp, ht⟩
  have hen := hloop.routing.enabled_iff.1 hen
  have ht := hloop.routing.targeted_iff.1 ht
  refine (hloop.pending t i hp).elim (fun hp => ?_) fun hit => hloop.presented t i hit hen ht
  -- it was enabled already, so the write is what made it pending
  have hnew : ¬bitOf v.distributor .pending t i = true := fun hp =>
    hno ⟨hrouting.enabled_iff.1 hen, hp, hrouting.targeted_iff.1 ht⟩
  rw [hw, distributor_setDistributor] at hp
  obtain ⟨k, hk, hi, hs⟩ := (bitOf_or_inv isBitmap_pending hp).resolve_left hnew
  refine hloop.presented t i ⟨k, hk, hi, ?_, hs⟩ hen ht
  rw [← bitOf_sameBit _ isBitmap_enable hs]
  exact hen.2

/-- A trigger from software presents what it makes deliverable. -/
theorem delivers_sgi {intId : Nat} (hlow : intId < 32) {targets : Target} {added : Bool}
    (h : triggerInterruptTo v current intId none targets = .ok (added, v')) : Delivers v v' := by
  have hrouting := (triggerInterruptTo_raised h).sameRouting
  intro t i hno ⟨hen, hp, ht⟩
  have hen := hrouting.enabled_iff.1 hen
  have hnew : ¬bitOf v.distributor .pending t i = true := fun hp =>
    hno ⟨hen, hp, hrouting.targeted_iff.1 ht⟩
  obtain ⟨rfl, b, hb, hs⟩ := (pending_triggerLoop_inv _ h hp).resolve_left hnew
  obtain rfl : t = b := hs.resolve_left (Nat.not_le.2 hlow)
  exact presented_triggerInterruptTo h hb hen

/-- A write that clears bits, or goes to another register, makes nothing deliverable. -/
theorem delivers_updateRegister {bank : Bank} {f : Word → Word}
    (hf : (bank = .enable ∨ bank = .pending) → ∀ word k, (f word).getLsbD k = true →
      word.getLsbD k = true) (h : updateRegister v (register bank current n) f = .ok v') :
    Delivers v v' := by
  have hv := updateRegister_eq h
  have hbit : ∀ {b : Bank}, (b = .enable ∨ b = .pending) → ∀ {t i},
      bitOf v'.distributor b t i = true → bitOf v.distributor b t i = true := by
    intro b hb t i hbit
    rw [hv, distributor_setDistributor] at hbit
    unfold bitOf at hbit ⊢
    rw [v.distributor.get_update] at hbit
    split at hbit
    · next hp =>
      have hbank := congrArg Place.bank hp
      rw [bank_placeOf, bank_placeOf] at hbank
      exact hf (hbank ▸ hb) _ _ hbit
    · exact hbit
  intro t i hno ⟨⟨hon, hen⟩, hp, ht⟩
  refine absurd ⟨⟨?_, hbit (.inl rfl) hen⟩, hbit (.inr rfl) hp, ?_⟩ hno
  · rw [hv, distributor_setDistributor] at hon
    unfold distributorEnabled at hon ⊢
    rwa [v.distributor.ctlr_update] at hon
  · unfold Targeted at ht ⊢
    rwa [hv, distributor_setDistributor, v.distributor.ownTarget_update] at ht

theorem delivers_updateTarget {f : Word → Word} (h : updateTarget v n f = .ok v') :
    Delivers v v' := by
  obtain ⟨m, -, h⟩ := bind_eq_ok.1 h
  cases h
  intro t i hno ⟨⟨hon, hen⟩, hp, ht⟩
  refine absurd ⟨⟨hon, ?_⟩, ?_, ht⟩ hno
  · unfold bitOf at hen ⊢
    cases hplace : placeOf .enable t (i / 32) <;> rw [hplace] at hen <;> exact hen
  · unfold bitOf at hp ⊢
    cases hplace : placeOf .pending t (i / 32) <;> rw [hplace] at hp <;> exact hp

theorem delivers_ite {p : Prop} [Decidable p] {x : Except Fault Vgic}
    (hx : x = .ok v' → Delivers v v') (h : (if p then x else .ok v) = .ok v') : Delivers v v' := by
  split at h
  · exact hx h
  · cases h
    exact delivers_refl v

theorem getLsbD_and_not (word mask : Word) (k : Nat) (h : (word &&& ~~~mask).getLsbD k = true) :
    word.getLsbD k = true := by
  rw [BitVec.getLsbD_and, Bool.and_eq_true] at h
  exact h.1

/-- Every write other than one to `GICD_CTLR` presents what it makes deliverable. -/
theorem delivers_write {offset accessWidth : Nat} (hctlr : decode offset ≠ some .ctlr)
    (h : write v current offset accessWidth value = .ok v') : Delivers v v' := by
  unfold write at h
  cases hr : decode offset with
  | none =>
    rw [hr] at h
    cases h
    exact delivers_refl v
  | some r =>
    rw [hr] at h
    cases r with
    | ctlr => exact absurd hr hctlr
    | typer =>
      cases h
      exact delivers_refl v
    | pidr2 =>
      cases h
      exact delivers_refl v
    | sgir =>
      refine delivers_ite (fun h => ?_) h
      obtain ⟨r, hr, h⟩ := bind_eq_ok.1 h
      cases h
      have hid : ((value.truncate 32 &&& 0xF : Word)).toNat < 32 := by
        rw [BitVec.toNat_and]
        exact Nat.lt_of_le_of_lt Nat.and_le_right (by decide)
      exact delivers_sgi hid hr
    | isenabler n =>
      refine delivers_ite (fun h => ?_) h
      obtain ⟨w, hw, h⟩ := bind_eq_ok.1 h
      exact delivers_isenabler hw h
    | ispendr n =>
      refine delivers_ite (fun h => ?_) h
      obtain ⟨w, hw, h⟩ := bind_eq_ok.1 h
      exact delivers_ispendr hw h
    | icenabler n =>
      exact delivers_ite (delivers_updateRegister fun _ w k => getLsbD_and_not w _ k) h
    | icpendr n =>
      exact delivers_ite (delivers_updateRegister fun _ w k => getLsbD_and_not w _ k) h
    | ipriorityr n byte =>
      dsimp only at h
      split at h
      · exact delivers_updateRegister (fun hb => absurd hb (by decide)) h
      · exact delivers_ite (delivers_updateRegister (fun hb => absurd hb (by decide))) h
    | itargetsr n byte =>
      dsimp only at h
      split at h
      · cases h
        exact delivers_refl v
      · split at h
        · exact delivers_updateTarget h
        · exact delivers_ite delivers_updateTarget h
    | _ n => exact delivers_ite (delivers_updateRegister (fun hb => absurd hb (by decide))) h

end Write

/-! ## The Distributor is turned on -/

/-- The Distributor is off and the write turns it on. -/
def TurnsOn (d : GicDistributorMmio) (offset accessWidth : Nat) (value : BitVec 64) : Prop :=
  decode offset = some .ctlr ∧ accessWidth = 32 ∧ distributorEnabled d = false ∧
    distributorEnabled { d with ctlr := value.truncate 32 } = true

/-- The INTID waits for the Distributor to be turned on. -/
def Waiting (d : GicDistributorMmio) (t : Cpu) (intId : Nat) : Prop :=
  bitOf d .enable t intId = true ∧ bitOf d .pending t intId = true ∧ Targeted d t intId

theorem deliverable_iff {d : GicDistributorMmio} {t : Cpu} {intId : Nat} :
    Deliverable d t intId ↔ distributorEnabled d = true ∧ Waiting d t intId := by
  unfold Deliverable Waiting Enabled
  tauto

theorem waiting_ctlr {d : GicDistributorMmio} {t : Cpu} {intId : Nat} {word : Word} :
    Waiting { d with ctlr := word } t intId ↔ Waiting d t intId := by
  have hbit : ∀ bank, bitOf { d with ctlr := word } bank t intId = bitOf d bank t intId := by
    intro bank
    unfold bitOf
    cases placeOf bank t (intId / 32) <;> rfl
  unfold Waiting
  rw [hbit, hbit]
  rfl

/-- A write to `GICD_CTLR` delivers nothing: it is right for an INTID exactly when the INTID does
not wait for it. -/
theorem delivers_ctlr {v : Vgic} {word : Word} {t : Cpu} {intId : Nat} :
    (¬Deliverable v.distributor t intId →
        Deliverable { v.distributor with ctlr := word } t intId → Presented v t intId) ↔
      (distributorEnabled v.distributor = false →
        distributorEnabled { v.distributor with ctlr := word } = true →
          Waiting v.distributor t intId → Presented v t intId) := by
  simp only [deliverable_iff, waiting_ctlr]
  constructor
  · intro h hoff hon hw
    refine h (fun hd => ?_) ⟨hon, hw⟩
    rw [hoff] at hd
    cases hd.1
  · rintro h hno ⟨hon, hw⟩
    have hoff : distributorEnabled v.distributor = false := by
      rw [← Bool.not_eq_true]
      exact fun hd => hno ⟨hd, hw⟩
    exact h hoff hon hw

/-- A write succeeds and presents to the guest every INTID that it makes deliverable exactly when it
is safe and, should it turn the Distributor on, every INTID that waits for that is presented
already. -/
theorem enabling_delivers (v : Vgic) (current : Cpu) (offset accessWidth : Nat)
    (value : BitVec 64) :
    (∃ v', write v current offset accessWidth value = .ok v' ∧
        ∀ t, ∀ intId < 1024, ¬Deliverable v.distributor t intId →
          Deliverable v'.distributor t intId → Presented v' t intId) ↔
      SafeWrite v current offset accessWidth value ∧
        (TurnsOn v.distributor offset accessWidth value →
          ∀ t, ∀ intId < 1024, Waiting v.distributor t intId → Presented v t intId) := by
  by_cases hctlr : decode offset = some .ctlr ∧ accessWidth = 32
  · obtain ⟨hoffset, rfl⟩ := hctlr
    have hwrite : write v current offset 32 value =
        .ok (v.setDistributor { v.distributor with ctlr := value.truncate 32 }) := by
      unfold write
      rw [hoffset]
      rfl
    have hsafe : SafeWrite v current offset 32 value := succeeds_write.1 ⟨_, hwrite⟩
    constructor
    · rintro ⟨v', hv, hdel⟩
      rw [hwrite] at hv
      cases hv
      refine ⟨hsafe, fun ⟨_, _, hoff, hon⟩ t intId hlt hwait => ?_⟩
      exact delivers_ctlr.1 (hdel t intId hlt) hoff hon hwait
    · rintro ⟨-, hwait⟩
      refine ⟨_, hwrite, fun t intId hlt => delivers_ctlr.2 fun hoff hon => ?_⟩
      exact hwait ⟨hoffset, rfl, hoff, hon⟩ t intId hlt
  · have hdelivers : ∀ v', write v current offset accessWidth value = .ok v' → Delivers v v' := by
      intro v' hv
      by_cases hoffset : decode offset = some .ctlr
      · -- an access of another width is ignored
        unfold write at hv
        rw [hoffset] at hv
        dsimp only at hv
        rw [if_neg fun hwidth => hctlr ⟨hoffset, hwidth⟩] at hv
        cases hv
        exact delivers_refl v
      · exact delivers_write hoffset hv
    constructor
    · rintro ⟨v', hv, -⟩
      exact ⟨succeeds_write.1 ⟨v', hv⟩, fun hon => absurd ⟨hon.1, hon.2.1⟩ hctlr⟩
    · rintro ⟨hsafe, -⟩
      obtain ⟨v', hv⟩ := succeeds_write.2 hsafe
      exact ⟨v', hv, fun t intId _ => hdelivers v' hv t intId⟩

/-- A guest that enables INTID 33 and makes it pending before it turns the Distributor on, with all
List Registers free: the last write makes the INTID deliverable and leaves it in no List Register
and not in the queue. -/
theorem turned_on_without_delivery : ∃ v v',
    execAll (Vgic.new (targetOf 0) 4 30) [.write 0 0x104 32 2, .write 0 0x204 32 2] = .ok v ∧
      write v 0 0x000 32 1 = .ok v' ∧ ¬Deliverable v.distributor 0 33 ∧
        Deliverable v'.distributor 0 33 ∧ ¬Presented v' 0 33 := by
  refine ⟨_, _, rfl, rfl, ?_, ?_, ?_⟩ <;> decide +kernel

end MiniVisor.Gic
