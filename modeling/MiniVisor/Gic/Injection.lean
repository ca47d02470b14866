import MiniVisor.Gic.Occupancy

/-!
# What a trigger does

A trigger injects its entry into the List Registers of the CPU that executes it, if this CPU is one
of the targets and the INTID is enabled there (`triggerInterruptTo_lr`), queues an entry for every
other such target (`queuedFor_triggerInterruptTo`), and leaves the pending bits of all targets set
(`pending_triggerInterruptTo`). `Injected.changes` says when the injection changes a List Register.
-/

set_option autoImplicit false

namespace MiniVisor.Gic

open MiniVisor.Lib

/-! ## A trigger and the List Registers -/

section Trigger

variable {v v' : Vgic} {current : Cpu} {intId : Nat} {p : Option Word}

/-- What `add_virtual_interrupt` does depends on the List Registers only. -/
theorem lr_addVirtualInterrupt_congr {v w : Vgic} (hlr : w.lr = v.lr)
    (hn : w.numberOfLrn = v.numberOfLrn) (cpu : Cpu) (entry : Word) :
    (addVirtualInterrupt w cpu entry).2.lr = (addVirtualInterrupt v cpu entry).2.lr := by
  have hsup : w.supportedLrn = v.supportedLrn := by
    unfold Vgic.supportedLrn
    rw [hn]
  simp only [addVirtualInterrupt, hlr, hsup]
  split
  · simp only [Vgic.setLr, hlr]
  · split
    · simp only [Vgic.setLr, hlr]
    · exact hlr

theorem lr_raise (v : Vgic) (cpu : Cpu) (intId : Nat) (p : Option Word) :
    (raise v cpu intId p).lr = v.lr := lr_record _ _ _ _

theorem numberOfLrn_raise (v : Vgic) (cpu : Cpu) (intId : Nat) (p : Option Word) :
    (raise v cpu intId p).numberOfLrn = v.numberOfLrn := numberOfLrn_record _ _ _ _

/-- The INTID is enabled in a CPU's view. -/
def Enabled (d : GicDistributorMmio) (cpu : Cpu) (intId : Nat) : Prop :=
  distributorEnabled d = true ∧ bitOf d .enable cpu intId = true

instance (d : GicDistributorMmio) (cpu : Cpu) (intId : Nat) : Decidable (Enabled d cpu intId) :=
  inferInstanceAs (Decidable (_ ∧ _))

/-- The entry of the INTID is injected on the CPU, as far as the List Registers are concerned. -/
def Injected (v v' : Vgic) (current : Cpu) (intId : Nat) : Prop :=
  ∃ entry, isPending entry = true ∧ (virtualId entry).toNat = intId ∧
    v'.lr = (addVirtualInterrupt v current entry).2.lr

/-- The entry is injected exactly under a condition; otherwise the List Registers are as before. -/
structure InjectedIf (condition : Prop) (v v' : Vgic) (current : Cpu) (intId : Nat) : Prop where
  yes : condition → Injected v v' current intId
  no : ¬condition → v'.lr = v.lr

theorem InjectedIf.congr {c c' : Prop} (h : InjectedIf c v v' current intId) (hc : c ↔ c') :
    InjectedIf c' v v' current intId :=
  ⟨fun h' => h.yes (hc.2 h'), fun h' => h.no fun hc' => h' (hc.1 hc')⟩

/-- Nothing else happens to the List Registers afterwards. -/
theorem InjectedIf.before {c : Prop} {w : Vgic} (h : InjectedIf c v w current intId)
    (hlr : v'.lr = w.lr) : InjectedIf c v v' current intId := by
  refine ⟨fun hp => ?_, fun hp => hlr.trans (h.no hp)⟩
  obtain ⟨entry, hpend, hid, he⟩ := h.yes hp
  exact ⟨entry, hpend, hid, hlr.trans he⟩

/-- Nothing else happened to the List Registers before. -/
theorem InjectedIf.after {c : Prop} {w : Vgic} (h : InjectedIf c w v' current intId)
    (hlr : w.lr = v.lr) (hn : w.numberOfLrn = v.numberOfLrn) : InjectedIf c v v' current intId := by
  refine ⟨fun hp => ?_, fun hp => (h.no hp).trans hlr⟩
  obtain ⟨entry, hpend, hid, he⟩ := h.yes hp
  exact ⟨entry, hpend, hid, he.trans (lr_addVirtualInterrupt_congr hlr hn _ _)⟩

theorem triggerTarget_lr {cpu : Cpu} {added : Bool}
    (h : triggerTarget v current intId p (targetOf cpu) = .ok (added, v')) :
    InjectedIf (cpu = current ∧ Enabled v.distributor cpu intId) v v' current intId := by
  have hok := succeeds_triggerTarget.1 ⟨_, h⟩
  have hlt : intId < 1024 := by
    unfold TriggerOk at hok
    omega
  rw [triggerTarget_eq v current cpu p hlt] at h
  by_cases hen : distributorEnabled v.distributor = true ∧ bitOf v.distributor .enable
    cpu intId = true
  · have hlow : intId < 1020 := hok.resolve_right fun h => h.2 hen
    rw [if_pos hen, listEntry_eq _ cpu hlow] at h
    simp only [Except.map, Except.ok.injEq] at h
    have hv : v' = (deliver (raise v cpu intId p) current (targetOf cpu)
        (entryOf (raise v cpu intId p).distributor cpu intId p)).2 := by rw [h]
    refine ⟨fun hc => ?_, fun hc => ?_⟩
    · refine ⟨entryOf (raise v cpu intId p).distributor cpu intId p,
        isPending_entryOf _ _ _ _, virtualId_entryOf _ _ hlt _, ?_⟩
      rw [hv, deliver, if_pos (by rw [hc.1])]
      exact lr_addVirtualInterrupt_congr (lr_raise _ _ _ _) (numberOfLrn_raise _ _ _ _) _ _
    · -- The entry goes to the queue.
      have hne : targetOf cpu ≠ targetOf current := fun h => hc ⟨targetOf_inj.1 h, hen⟩
      rw [hv, deliver, if_neg hne]
      exact lr_raise _ _ _ _
  · have hv : v' = raise v cpu intId p := by
      rw [if_neg hen] at h
      exact congrArg Prod.snd (Except.ok.inj h).symm
    rw [hv]
    exact ⟨fun hc => absurd hc.2 hen, fun _ => lr_raise _ _ _ _⟩

/-- The loop over the targets injects when it comes to the CPU's own bit. -/
theorem triggerLoop_lr {targets : Target} (bits : List Cpu) :
    ∀ {injected added : Bool} {v : Vgic}, bits.Nodup →
      triggerLoop current intId p targets bits injected v = .ok (added, v') →
        InjectedIf (current ∈ bits ∧ (targets &&& targetOf current) ≠ 0 ∧
          Enabled v.distributor current intId) v v' current intId := by
  induction bits with
  | nil =>
    intro injected added v _ h
    cases h
    exact ⟨fun hc => absurd hc.1 List.not_mem_nil, fun _ => rfl⟩
  | cons b rest ih =>
    intro injected added v hnd h
    obtain ⟨hb, hrest⟩ := List.nodup_cons.1 hnd
    rw [triggerLoop_cons] at h
    split at h
    · next hzero =>
      refine (ih hrest h).congr ⟨fun hc => ⟨List.mem_cons_of_mem _ hc.1, hc.2⟩,
        fun hc => ⟨?_, hc.2⟩⟩
      rcases List.mem_cons.1 hc.1 with rfl | hmem
      · exact absurd hzero hc.2.1
      · exact hmem
    · next hbit =>
      obtain ⟨r, hr, h⟩ := bind_eq_ok.1 h
      have hfirst : InjectedIf (b = current ∧ Enabled v.distributor b intId) v r.2 current intId :=
        triggerTarget_lr hr
      have hraised : Raised intId v.distributor r.2.distributor := triggerTarget_raised hr
      have hn : r.2.numberOfLrn = v.numberOfLrn := (moves_triggerTarget hr).numberOfLrn
      have hloop := ih hrest h
      by_cases hbc : b = current
      · subst hbc
        refine (hfirst.before (hloop.no fun hc => hb hc.1)).congr ?_
        exact ⟨fun hc => ⟨List.mem_cons_self, hbit, hc.2⟩, fun hc => ⟨rfl, hc.2.2⟩⟩
      · refine (hloop.after (hfirst.no fun hc => hbc hc.1) hn).congr ?_
        unfold Enabled
        rw [hraised.distributorEnabled, hraised.bitOf_enable, List.mem_cons,
          or_iff_right (Ne.symm hbc)]

theorem triggerInterruptTo_lr {targets : Target} {added : Bool}
    (h : triggerInterruptTo v current intId p targets = .ok (added, v')) :
    InjectedIf ((targets &&& targetOf current) ≠ 0 ∧ Enabled v.distributor current intId) v v'
      current intId :=
  (triggerLoop_lr _ (List.nodup_finRange _) h).congr (and_iff_right (List.mem_finRange _))

end Trigger

/-! ## What an injection changes -/

section Injection

variable {v v' : Vgic} {cpu : Cpu} {intId : Nat}

/-- An injection changes the List Registers unless the INTID is pending already or no List Register
is free for it. -/
def AbsorbedBy (v : Vgic) (cpu : Cpu) (intId : Nat) : Prop :=
  LrPending v cpu intId ∨
    ∀ i < v.supportedLrn, isInactive (v.lr cpu i) = false ∧ (virtualId (v.lr cpu i)).toNat ≠ intId

theorem getLsbD_statePending (i : Nat) : gichLrStatePending.getLsbD i = decide (i = 28) := by
  unfold gichLrStatePending
  rw [show (0b01 : Word) <<< 28 = BitVec.twoPow 32 28 from (BitVec.twoPow_eq _ _).symm,
    BitVec.getLsbD_twoPow]
  simp [eq_comm]

theorem or_pending_of_isPending {lr : Word} (h : isPending lr = true) :
    lr ||| gichLrStatePending = lr := by
  -- The pending bit is bit 28, and it is set.
  have hbit : lr.getLsbD 28 = true := by
    rw [isPending, bne_iff_ne] at h
    by_contra hb
    apply h
    apply BitVec.eq_of_getLsbD_eq
    intro i _
    rw [BitVec.getLsbD_and, getLsbD_statePending, BitVec.getLsbD_zero]
    by_cases hi : i = 28
    · rw [hi]
      simpa using hb
    · simp [hi]
  apply BitVec.eq_of_getLsbD_eq
  intro i _
  rw [BitVec.getLsbD_or, getLsbD_statePending]
  by_cases hi : i = 28
  · rw [hi, hbit, Bool.true_or]
  · simp [hi]

/-- An injection is absorbed, or it writes a List Register that is in use afterwards and differs
from before. -/
theorem Injected.changes (h : Injected v v' cpu intId) (hd : Distinct v.supportedLrn (v.lr cpu)) :
    (AbsorbedBy v cpu intId → v'.lr = v.lr) ∧
    (¬AbsorbedBy v cpu intId → ∃ i < v.supportedLrn, isInactive (v'.lr cpu i) = false ∧
      v'.lr cpu i ≠ v.lr cpu i) := by
  obtain ⟨entry, hp, hid, hlr⟩ := h
  rw [hlr]
  have hins := inserted_addVirtualInterrupt v cpu entry
  generalize (addVirtualInterrupt v cpu entry).2 = w at hins
  generalize (addVirtualInterrupt v cpu entry).1 = added at hins
  have heq : ∀ i, virtualId (v.lr cpu i) = virtualId entry ↔
    (virtualId (v.lr cpu i)).toNat = intId :=
    fun i => by rw [← BitVec.toNat_inj, hid]
  cases hins with
  | merged i hi huse hsame =>
    by_cases hpend : isPending (v.lr cpu i) = true
    · have hnop : (v.setLr cpu i (v.lr cpu i ||| gichLrStatePending)).lr = v.lr := by
        rw [or_pending_of_isPending hpend]
        funext c j
        by_cases hc : c = cpu ∧ j = i
        · rw [hc.1, hc.2, lr_setLr_self]
        · exact lr_setLr_of_ne v _ hc
      refine ⟨fun _ => hnop, fun habs => absurd (Or.inl ⟨i, hi, hpend, (heq i).1 hsame⟩) habs⟩
    · refine ⟨fun habs => ?_, fun _ => ⟨i, hi, ?_⟩⟩
      · -- Another List Register would hold the INTID.
        rcases habs with ⟨j, hj, hpj, hidj⟩ | hfull
        · have hji := hd j hj i hi (isInactive_of_isPending _ hpj) huse
            (((heq j).2 hidj).trans hsame.symm)
          rw [hji] at hpj
          exact absurd hpj hpend
        · exact absurd ((heq i).1 hsame) (hfull i hi).2
      · rw [lr_setLr_self]
        refine ⟨isInactive_of_isPending _ (isPending_or_pending _), fun h => hpend ?_⟩
        rw [← h]
        exact isPending_or_pending _
  | filled i hi hfree hnone =>
    refine ⟨fun habs => ?_, fun _ => ⟨i, hi, ?_⟩⟩
    · rcases habs with ⟨j, hj, hpj, hidj⟩ | hfull
      · exact absurd ((heq j).2 hidj) (hnone j hj (isInactive_of_isPending _ hpj))
      · rw [(hfull i hi).1] at hfree
        cases hfree
    · rw [lr_setLr_self]
      refine ⟨isInactive_of_isPending _ hp, fun h => ?_⟩
      rw [← h, isInactive_of_isPending _ hp] at hfree
      cases hfree
  | full hfull =>
    refine ⟨fun _ => rfl, fun habs => absurd (Or.inr fun i hi => ?_) habs⟩
    exact ⟨(hfull i hi).1, fun h => (hfull i hi).2 ((heq i).2 h)⟩

end Injection

/-! ## The queue of a trigger -/

/-- The number of entries for an INTID that wait for a CPU. -/
def queuedFor (v : Vgic) (t : Cpu) (intId : Nat) : Nat :=
  v.distributor.toInjectInterrupt.countP fun x => x.1 == targetOf t && (virtualId x.2).toNat ==
    intId

section Queue

variable {v v' : Vgic} {current : Cpu} {intId : Nat} {p : Option Word}

theorem queuedFor_congr {w : Vgic}
    (h : w.distributor.toInjectInterrupt = v.distributor.toInjectInterrupt) (t : Cpu) (id : Nat) :
    queuedFor w t id = queuedFor v t id := by
  unfold queuedFor
  rw [h]

theorem queue_raise (v : Vgic) (cpu : Cpu) (intId : Nat) (p : Option Word) :
    (raise v cpu intId p).distributor.toInjectInterrupt = v.distributor.toInjectInterrupt := by
  unfold raise
  rw [distributor_record, distributor_setDistributor]
  exact v.distributor.toInjectInterrupt_update _ _

/-- One entry at the end of the queue. -/
theorem countP_queue_append (queue : List (Target × Word)) (cpu t : Cpu) {entry : Word} (id : Nat)
    (he : (virtualId entry).toNat = intId) :
    (queue ++ [(targetOf cpu, entry)]).countP
        (fun x => x.1 == targetOf t && (virtualId x.2).toNat == id) =
      queue.countP (fun x => x.1 == targetOf t && (virtualId x.2).toNat == id) +
        if t = cpu ∧ id = intId then 1 else 0 := by
  have hiff : (targetOf cpu == targetOf t && (virtualId entry).toNat == id) = true ↔
      t = cpu ∧ id = intId := by
    rw [Bool.and_eq_true, beq_iff_eq, beq_iff_eq, targetOf_inj, he]
    exact and_congr eq_comm eq_comm
  rw [List.countP_append, List.countP_singleton]
  simp only [hiff]

/-- A trigger for another CPU queues one entry, if the INTID is enabled there. -/
theorem queuedFor_triggerTarget {cpu : Cpu} {added : Bool}
    (h : triggerTarget v current intId p (targetOf cpu) = .ok (added, v')) (t : Cpu) (id : Nat) :
    queuedFor v' t id ≤ queuedFor v t id +
      if t ≠ current ∧ t = cpu ∧ id = intId ∧ Enabled v.distributor t intId then 1 else 0 := by
  have hok := succeeds_triggerTarget.1 ⟨_, h⟩
  have hlt : intId < 1024 := by
    unfold TriggerOk at hok
    omega
  have hsame := queuedFor_congr (queue_raise v cpu intId p) t id
  rw [triggerTarget_eq v current cpu p hlt] at h
  by_cases hen : distributorEnabled v.distributor = true ∧ bitOf v.distributor .enable
    cpu intId = true
  · have hlow : intId < 1020 := hok.resolve_right fun h => h.2 hen
    rw [if_pos hen, listEntry_eq _ cpu hlow] at h
    simp only [Except.map, Except.ok.injEq] at h
    have hv : v' = (deliver (raise v cpu intId p) current (targetOf cpu)
        (entryOf (raise v cpu intId p).distributor cpu intId p)).2 := by rw [h]
    have hid := virtualId_entryOf (raise v cpu intId p).distributor cpu hlt p
    rw [hv]
    by_cases hc : cpu = current
    · have hq : queuedFor (deliver (raise v cpu intId p) current (targetOf cpu)
          (entryOf (raise v cpu intId p).distributor cpu intId p)).2 t id = queuedFor v t id := by
        rw [deliver, if_pos (by rw [hc])]
        rw [← hsame]
        apply queuedFor_congr
        rw [distributor_addVirtualInterrupt]
      rw [hq]
      exact Nat.le_add_right _ _
    · have hne : targetOf cpu ≠ targetOf current := fun h => hc (targetOf_inj.1 h)
      have hq : queuedFor (deliver (raise v cpu intId p) current (targetOf cpu)
          (entryOf (raise v cpu intId p).distributor cpu intId p)).2 t id =
            queuedFor v t id + if t = cpu ∧ id = intId then 1 else 0 := by
        rw [← hsame, deliver, if_neg hne]
        exact countP_queue_append _ cpu t id hid
      rw [hq]
      apply Nat.add_le_add_left
      by_cases hm : t = cpu ∧ id = intId
      · rw [if_pos hm, if_pos ⟨hm.1 ▸ hc, hm.1, hm.2, hm.1 ▸ hen⟩]
      · rw [if_neg hm]
        exact Nat.zero_le _
  · have hv : v' = raise v cpu intId p := by
      rw [if_neg hen] at h
      exact congrArg Prod.snd (Except.ok.inj h).symm
    rw [hv, hsame]
    exact Nat.le_add_right _ _

theorem queuedFor_triggerLoop {targets : Target} (bits : List Cpu) :
    ∀ {injected added : Bool} {v : Vgic}, bits.Nodup →
      triggerLoop current intId p targets bits injected v = .ok (added, v') → ∀ t id,
        queuedFor v' t id ≤ queuedFor v t id +
          if t ≠ current ∧ t ∈ bits ∧ id = intId ∧ (targets &&& targetOf t) ≠ 0 ∧
            Enabled v.distributor t intId then 1 else 0 := by
  induction bits with
  | nil =>
    intro injected added v _ h t id
    cases h
    exact Nat.le_add_right _ _
  | cons b rest ih =>
    intro injected added v hnd h t id
    obtain ⟨hb, hrest⟩ := List.nodup_cons.1 hnd
    rw [triggerLoop_cons] at h
    split at h
    · refine (ih hrest h t id).trans (Nat.add_le_add_left ?_ _)
      split
      · next hc =>
        rw [if_pos ⟨hc.1, List.mem_cons_of_mem _ hc.2.1, hc.2.2⟩]
      · exact Nat.zero_le _
    · next hbit =>
      obtain ⟨r, hr, hloop⟩ := bind_eq_ok.1 h
      have hfirst := queuedFor_triggerTarget hr t id
      have hraised : Raised intId v.distributor r.2.distributor := triggerTarget_raised hr
      have htail := ih hrest hloop t id
      have hen : Enabled r.2.distributor t intId ↔ Enabled v.distributor t intId := by
        unfold Enabled
        rw [hraised.distributorEnabled, hraised.bitOf_enable]
      by_cases htb : t = b
      · -- The bit of this CPU comes only once.
        subst htb
        rw [if_neg fun hc => hb hc.2.1] at htail
        refine htail.trans (hfirst.trans (Nat.add_le_add_left ?_ _))
        split
        · next hc => rw [if_pos ⟨hc.1, List.mem_cons_self, hc.2.2.1, hbit, hc.2.2.2⟩]
        · exact Nat.zero_le _
      · rw [if_neg fun hc => htb hc.2.1] at hfirst
        refine (htail.trans (Nat.add_le_add_right hfirst _)).trans (Nat.add_le_add_left ?_ _)
        split
        · next hc =>
          rw [if_pos ⟨hc.1, List.mem_cons_of_mem _ hc.2.1, hc.2.2.1, hc.2.2.2.1, hen.1 hc.2.2.2.2⟩]
        · exact Nat.zero_le _

/-- A trigger queues at most one entry for each target other than the CPU itself. -/
theorem queuedFor_triggerInterruptTo {targets : Target} {added : Bool}
    (h : triggerInterruptTo v current intId p targets = .ok (added, v')) (t : Cpu) (id : Nat) :
    queuedFor v' t id ≤ queuedFor v t id +
      if t ≠ current ∧ id = intId ∧ (targets &&& targetOf t) ≠ 0 ∧ Enabled v.distributor t intId
        then 1 else 0 := by
  refine (queuedFor_triggerLoop _ (List.nodup_finRange _) h t id).trans (Nat.add_le_add_left ?_ _)
  split
  · next hc => rw [if_pos ⟨hc.1, hc.2.2⟩]
  · exact Nat.zero_le _

/-- Only the INTID of a trigger becomes pending in a List Register, and only on the CPU itself. -/
theorem lrPending_triggerInterruptTo {targets : Target} {added : Bool}
    (h : triggerInterruptTo v current intId p targets = .ok (added, v')) {t : Cpu} {id : Nat}
    (hp : LrPending v' t id) :
    LrPending v t id ∨ (t = current ∧ id = intId ∧ (targets &&& targetOf current) ≠ 0 ∧
      Enabled v.distributor current intId) := by
  have hinj := triggerInterruptTo_lr h
  have hn : v'.supportedLrn = v.supportedLrn := by
    unfold Vgic.supportedLrn
    rw [(moves_triggerInterruptTo h).numberOfLrn]
  by_cases hc : (targets &&& targetOf current) ≠ 0 ∧ Enabled v.distributor current intId
  · obtain ⟨entry, -, hid, hlr⟩ := hinj.yes hc
    have hins := inserted_addVirtualInterrupt v current entry
    have hp' : LrPending (addVirtualInterrupt v current entry).2 t id := by
      unfold LrPending at hp ⊢
      rwa [hins.supportedLrn, ← hlr, ← hn]
    rcases hins.lrPending_inv hp' with hp | ⟨htc, heq⟩
    · exact Or.inl hp
    · exact Or.inr ⟨htc, heq.symm.trans hid, hc⟩
  · unfold LrPending at hp ⊢
    rw [hinj.no hc, hn] at hp
    exact Or.inl hp

/-- What is pending in a List Register stays so. -/
theorem lrPending_triggerInterruptTo_mono {targets : Target} {added : Bool}
    (h : triggerInterruptTo v current intId p targets = .ok (added, v')) {t : Cpu} {id : Nat}
    (hp : LrPending v t id) : LrPending v' t id := by
  have hinj := triggerInterruptTo_lr h
  have hn : v'.supportedLrn = v.supportedLrn := by
    unfold Vgic.supportedLrn
    rw [(moves_triggerInterruptTo h).numberOfLrn]
  by_cases hc : (targets &&& targetOf current) ≠ 0 ∧ Enabled v.distributor current intId
  · obtain ⟨entry, -, -, hlr⟩ := hinj.yes hc
    have hins := inserted_addVirtualInterrupt v current entry
    have hp' := hins.lrPending_mono hp
    unfold LrPending at hp' ⊢
    rwa [hlr, hn, ← hins.supportedLrn]
  · unfold LrPending at hp ⊢
    rwa [hinj.no hc, hn]

end Queue

/-! ## The pending bits of a trigger -/

section Pending

variable {v v' : Vgic} {current : Cpu} {intId : Nat} {p : Option Word}

theorem pending_triggerTarget {cpu : Cpu} {added : Bool}
    (h : triggerTarget v current intId p (targetOf cpu) = .ok (added, v')) :
    bitOf v'.distributor .pending cpu intId = true := by
  have hok := succeeds_triggerTarget.1 ⟨_, h⟩
  have hlt : intId < 1024 := by
    unfold TriggerOk at hok
    omega
  have hraise : bitOf (raise v cpu intId p).distributor .pending cpu intId = true := by
    unfold raise
    rw [distributor_record, distributor_setDistributor, bitOf_changeBit _ isBitmap_pending]
    simp [SameBit]
  rw [triggerTarget_eq v current cpu p hlt] at h
  split at h
  · cases he : listEntry (raise v cpu intId p).distributor cpu intId p with
    | error fault =>
      rw [he] at h
      cases h
    | ok entry =>
      rw [he] at h
      have hv : v' = (deliver (raise v cpu intId p) current (targetOf cpu) entry).2 :=
        congrArg Prod.snd (Except.ok.inj h).symm
      rw [hv]
      exact (deliver_raised _ _ _ _ intId).raises _ _ hraise
  · have hv : v' = raise v cpu intId p := congrArg Prod.snd (Except.ok.inj h).symm
    rw [hv]
    exact hraise

theorem pending_triggerLoop {targets : Target} (bits : List Cpu) :
    ∀ {injected added : Bool} {v : Vgic},
      triggerLoop current intId p targets bits injected v = .ok (added, v') →
        ∀ b ∈ bits, (targets &&& targetOf b) ≠ 0 → bitOf v'.distributor .pending b
          intId = true := by
  induction bits with
  | nil =>
    intro injected added v _ b hb
    cases hb
  | cons c rest ih =>
    intro injected added v h b hb hbit
    rw [triggerLoop_cons] at h
    split at h
    · next hzero =>
      rcases List.mem_cons.1 hb with rfl | hb
      · exact absurd hzero hbit
      · exact ih h b hb hbit
    · obtain ⟨r, hr, hloop⟩ := bind_eq_ok.1 h
      rcases List.mem_cons.1 hb with rfl | hb
      · exact (triggerLoop_raised rest hloop).raises _ _ (pending_triggerTarget hr)
      · exact ih hloop b hb hbit

/-- A trigger leaves the pending bit of each target set. -/
theorem pending_triggerInterruptTo {targets : Target} {added : Bool}
    (h : triggerInterruptTo v current intId p targets = .ok (added, v')) (b : Cpu)
    (hb : (targets &&& targetOf b) ≠ 0) : bitOf v'.distributor .pending b intId = true :=
  pending_triggerLoop _ h b (List.mem_finRange b) hb

end Pending

end MiniVisor.Gic
