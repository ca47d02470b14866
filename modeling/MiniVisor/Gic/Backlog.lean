import MiniVisor.Gic.AtMostOnce

/-!
# The queue of interrupts for other CPUs

An interrupt for another CPU waits in `to_inject_interrupt` until that CPU takes it. The List
Registers merge an interrupt with one that they hold already; the queue does not, so a guest that
sends the same SGI again and again makes the queue grow.

`Extends` says which entries an operation puts into the queue, by target and INTID, and `Pushes`
says the same for an event in terms of the state before it. `never_repeated_iff` is the result: the
queue never has two entries for the same target and INTID, and so at most 8 * 1024 entries, exactly
along the runs in which no event pushes an entry for which the queue has one.
-/

set_option autoImplicit false

namespace MiniVisor.Gic

open MiniVisor.Lib

/-- The targets and the INTIDs of the entries in the queue. -/
def keys (v : Vgic) : List (Target × Nat) :=
  v.distributor.toInjectInterrupt.map fun x => (x.1, (virtualId x.2).toNat)

/-- An operation puts entries at the end of the queue, one for each key in a set. -/
def Extends (v v' : Vgic) (S : Target × Nat → Prop) : Prop :=
  ∃ pushed : List (Target × Nat),
    keys v' = keys v ++ pushed ∧ pushed.Nodup ∧ ∀ x, x ∈ pushed ↔ S x

section Extends

variable {v w v' : Vgic} {S T : Target × Nat → Prop}

theorem extends_of_queue_eq
    (h : v'.distributor.toInjectInterrupt = v.distributor.toInjectInterrupt) (hS : ∀ x, ¬S x) :
    Extends v v' S := by
  refine ⟨[], ?_, List.nodup_nil, fun x => ⟨fun hx => absurd hx List.not_mem_nil, fun hx => ?_⟩⟩
  · unfold keys
    rw [h, List.append_nil]
  · exact absurd hx (hS x)

theorem extends_refl (v : Vgic) : Extends v v fun _ => False :=
  extends_of_queue_eq rfl fun _ => id

theorem Extends.congr (h : Extends v v' S) (hST : ∀ x, S x ↔ T x) : Extends v v' T := by
  obtain ⟨pushed, hkeys, hnodup, hmem⟩ := h
  exact ⟨pushed, hkeys, hnodup, fun x => (hmem x).trans (hST x)⟩

theorem Extends.trans (h : Extends v w S) (h' : Extends w v' T) (hdisjoint : ∀ x, S x → ¬T x) :
    Extends v v' fun x => S x ∨ T x := by
  obtain ⟨first, hfirst, hnodup, hmem⟩ := h
  obtain ⟨second, hsecond, hnodup', hmem'⟩ := h'
  refine ⟨first ++ second, ?_, ?_, fun x => ?_⟩
  · rw [hsecond, hfirst, List.append_assoc]
  · refine hnodup.append hnodup' fun x hx hx' => ?_
    exact hdisjoint x ((hmem x).1 hx) ((hmem' x).1 hx')
  · rw [List.mem_append, hmem, hmem']

/-- The keys stay different exactly if none of the new ones is there already. -/
theorem Extends.nodup_iff (h : Extends v v' S) (hv : (keys v).Nodup) :
    (keys v').Nodup ↔ ∀ x, S x → x ∉ keys v := by
  obtain ⟨pushed, hkeys, hnodup, hmem⟩ := h
  rw [hkeys, List.nodup_append]
  constructor
  · rintro ⟨-, -, hne⟩ x hx hin
    exact hne x hin x ((hmem x).2 hx) rfl
  · intro hno
    refine ⟨hv, hnodup, fun x hx y hy hxy => ?_⟩
    subst hxy
    exact hno x ((hmem x).1 hy) hx

end Extends

/-! ## Triggers -/

section Trigger

variable {v v' : Vgic} {current : Cpu} {intId : Nat} {p : Option Word}

theorem extends_triggerTarget {cpu : Cpu} {added : Bool}
    (h : triggerTarget v current intId p (targetOf cpu) = .ok (added, v')) :
    Extends v v' fun x => cpu ≠ current ∧ Enabled v.distributor cpu intId ∧
      x = (targetOf cpu, intId) := by
  have hok := succeeds_triggerTarget.1 ⟨_, h⟩
  have hlt : intId < 1024 := by
    unfold TriggerOk at hok
    omega
  have hqueue := queue_raise v cpu intId p
  rw [triggerTarget_eq v current cpu p hlt] at h
  by_cases hen : distributorEnabled v.distributor = true ∧
      bitOf v.distributor .enable cpu intId = true
  · have hlow : intId < 1020 := hok.resolve_right fun h => h.2 hen
    rw [if_pos hen, listEntry_eq _ cpu hlow] at h
    simp only [Except.map, Except.ok.injEq] at h
    have hv : v' = (deliver (raise v cpu intId p) current (targetOf cpu)
        (entryOf (raise v cpu intId p).distributor cpu intId p)).2 := by rw [h]
    have hid := virtualId_entryOf (raise v cpu intId p).distributor cpu hlt p
    rw [hv]
    by_cases hc : cpu = current
    · refine extends_of_queue_eq ?_ fun x hx => hx.1 hc
      rw [deliver, if_pos (by rw [hc]), distributor_addVirtualInterrupt, hqueue]
    · have hne : targetOf cpu ≠ targetOf current := fun h => hc (targetOf_inj.1 h)
      refine ⟨[(targetOf cpu, intId)], ?_, List.nodup_singleton _, fun x => ?_⟩
      · rw [deliver, if_neg hne]
        simp only [keys, distributor_setDistributor, hqueue, List.map_append, List.map_cons, hid,
          List.map_nil]
      · rw [List.mem_singleton]
        exact ⟨fun hx => ⟨hc, hen, hx⟩, fun hx => hx.2.2⟩
  · have hv : v' = raise v cpu intId p := by
      rw [if_neg hen] at h
      exact congrArg Prod.snd (Except.ok.inj h).symm
    rw [hv]
    exact extends_of_queue_eq hqueue fun x hx => hen hx.2.1

/-- A trigger pushes an entry for each target other than the CPU itself on which the INTID is
enabled. -/
def TriggerPushes (d : GicDistributorMmio) (current : Cpu) (intId : Nat) (targets : Target)
    (x : Target × Nat) : Prop :=
  ∃ t, t ≠ current ∧ (targets &&& targetOf t) ≠ 0 ∧ Enabled d t intId ∧ x = (targetOf t, intId)

theorem Raised.enabled_iff {d d' : GicDistributorMmio} {i : Nat} (h : Raised i d d') (t : Cpu)
    (id : Nat) : Enabled d' t id ↔ Enabled d t id := by
  unfold Enabled
  rw [h.distributorEnabled, h.bitOf_enable]

theorem extends_triggerLoop {targets : Target} (bits : List Cpu) :
    ∀ {injected added : Bool} {v : Vgic}, bits.Nodup →
      triggerLoop current intId p targets bits injected v = .ok (added, v') →
        Extends v v' fun x => ∃ t ∈ bits, t ≠ current ∧ (targets &&& targetOf t) ≠ 0 ∧
          Enabled v.distributor t intId ∧ x = (targetOf t, intId) := by
  induction bits with
  | nil =>
    intro injected added v _ h
    cases h
    exact extends_of_queue_eq rfl fun x ⟨t, ht, _⟩ => absurd ht List.not_mem_nil
  | cons b rest ih =>
    intro injected added v hnodup h
    obtain ⟨hb, hrest⟩ := List.nodup_cons.1 hnodup
    rw [triggerLoop_cons] at h
    split at h
    · next hzero =>
      refine (ih hrest h).congr fun x => ⟨?_, ?_⟩
      · rintro ⟨t, ht, hx⟩
        exact ⟨t, List.mem_cons_of_mem _ ht, hx⟩
      · rintro ⟨t, ht, hne, hbit, hx⟩
        rcases List.mem_cons.1 ht with rfl | ht
        · exact absurd hzero hbit
        · exact ⟨t, ht, hne, hbit, hx⟩
    · next hbit =>
      obtain ⟨r, hr, h⟩ := bind_eq_ok.1 h
      have hraised : Raised intId v.distributor r.2.distributor := triggerTarget_raised hr
      refine ((extends_triggerTarget hr).trans (ih hrest h) ?_).congr fun x => ⟨?_, ?_⟩
      · -- the bit of this CPU comes only once
        rintro x ⟨-, -, rfl⟩ ⟨t, ht, -, -, -, hx⟩
        exact hb (targetOf_inj.1 (Prod.mk.inj hx).1 ▸ ht)
      · rintro (⟨hne, hen, rfl⟩ | ⟨t, ht, hne, hbit', hen, rfl⟩)
        · exact ⟨b, List.mem_cons_self, hne, hbit, hen, rfl⟩
        · exact ⟨t, List.mem_cons_of_mem _ ht, hne, hbit', (hraised.enabled_iff _ _).1 hen, rfl⟩
      · rintro ⟨t, ht, hne, hbit', hen, rfl⟩
        rcases List.mem_cons.1 ht with rfl | ht
        · exact .inl ⟨hne, hen, rfl⟩
        · exact .inr ⟨t, ht, hne, hbit', (hraised.enabled_iff _ _).2 hen, rfl⟩

theorem extends_triggerInterruptTo {targets : Target} {added : Bool}
    (h : triggerInterruptTo v current intId p targets = .ok (added, v')) :
    Extends v v' (TriggerPushes v.distributor current intId targets) := by
  refine (extends_triggerLoop _ (List.nodup_finRange _) h).congr fun x => ?_
  simp only [List.mem_finRange, true_and, TriggerPushes]

/-- What an iteration of the loops over a written value pushes for an INTID. -/
def BitPushes (bank : Bank) (d : GicDistributorMmio) (current : Cpu) (intId : Nat)
    (x : Target × Nat) : Prop :=
  bitOf d bank current intId = true ∧
    TriggerPushes d current intId (retriggerTargets d current intId) x

theorem BitPushes.snd {bank : Bank} {d : GicDistributorMmio} {x : Target × Nat}
    (h : BitPushes bank d current intId x) : x.2 = intId := by
  obtain ⟨-, t, -, -, -, rfl⟩ := h
  rfl

/-- A trigger of one INTID leaves the bits of the others. -/
theorem Raised.bitOf_of_ne {d d' : GicDistributorMmio} {i : Nat} (h : Raised i d d')
    (hne : intId ≠ i) (bank : Bank) (c : Cpu) :
    bitOf d' bank c intId = bitOf d bank c intId := by
  by_cases hb : bank = .pending
  · rw [hb]
    exact h.pending c intId hne
  · unfold bitOf
    rw [h.get _ (by rw [bank_placeOf]; exact hb)]

/-- A trigger of one INTID does not change what is pushed for another one. -/
theorem Raised.bitPushes_iff {bank : Bank} {d d' : GicDistributorMmio} {i : Nat}
    (h : Raised i d d') (hne : intId ≠ i) (x : Target × Nat) :
    BitPushes bank d' current intId x ↔ BitPushes bank d current intId x := by
  have hbit := h.bitOf_of_ne hne bank current
  have htargets : retriggerTargets d' current intId = retriggerTargets d current intId := by
    unfold retriggerTargets
    rw [h.ownTarget]
  unfold BitPushes TriggerPushes
  rw [hbit, htargets]
  simp only [h.enabled_iff]

variable {check : GicDistributorMmio → Cpu → Nat → Except Fault Bool} {bank : Bank}

/-- One iteration, and that it raises at most its own INTID. -/
theorem extends_retriggerBit (hcheck : LooksAtBit check bank) {isSet : Bool}
    (h : retriggerBit check current intId isSet v = .ok v') :
    Raised intId v.distributor v'.distributor ∧
      Extends v v' fun x => isSet = true ∧ BitPushes bank v.distributor current intId x := by
  rcases retriggerBit_cases hcheck h with ⟨hset, hbit, added, hr⟩ | ⟨hno, rfl⟩
  · have hr' : triggerInterruptTo v current intId none
        (retriggerTargets v.distributor current intId) = .ok (added, v') := hr
    refine ⟨triggerInterruptTo_raised hr', (extends_triggerInterruptTo hr').congr fun x => ?_⟩
    exact ⟨fun hx => ⟨hset, hbit, hx⟩, fun hx => hx.2.2⟩
  · exact ⟨.refl _ _, extends_of_queue_eq rfl fun x hx => hno ⟨hx.1, hx.2.1⟩⟩

theorem getLsbD_ushiftRight_one (value : BitVec 64) (k : Nat) :
    (value >>> 1).getLsbD k = value.getLsbD (k + 1) := by
  rw [BitVec.getLsbD_ushiftRight, Nat.add_comm]

/-- The loop pushes what its iterations push; each of them is for another INTID. -/
theorem extends_retriggerLoop (hcheck : LooksAtBit check bank) (fuel : Nat) :
    ∀ {base : Nat} {value : BitVec 64} {v : Vgic},
      retriggerLoop check current fuel base value v = .ok v' →
        Extends v v' fun x => ∃ k, value.getLsbD k = true ∧
          BitPushes bank v.distributor current (base + k) x := by
  induction fuel with
  | zero =>
    intro base value v h
    rw [retriggerLoop] at h
    split at h
    · next hzero =>
      cases h
      refine extends_of_queue_eq rfl fun x hx => ?_
      obtain ⟨k, hk, -⟩ := hx
      rw [hzero] at hk
      exact Bool.false_ne_true (BitVec.getLsbD_zero.symm.trans hk)
    · cases h
  | succ fuel ih =>
    intro base value v h
    rw [retriggerLoop] at h
    split at h
    · next hzero =>
      cases h
      refine extends_of_queue_eq rfl fun x hx => ?_
      obtain ⟨k, hk, -⟩ := hx
      rw [hzero] at hk
      exact Bool.false_ne_true (BitVec.getLsbD_zero.symm.trans hk)
    · obtain ⟨w, hbit, hloop⟩ := bind_eq_ok.1 h
      obtain ⟨hraised, hfirst⟩ := extends_retriggerBit hcheck hbit
      have hother : ∀ k x, BitPushes bank w.distributor current (base + 1 + k) x ↔
          BitPushes bank v.distributor current (base + (k + 1)) x := by
        intro k x
        rw [show base + 1 + k = base + (k + 1) by omega]
        exact hraised.bitPushes_iff (by omega) x
      refine (hfirst.trans (ih hloop) ?_).congr fun x => ⟨?_, ?_⟩
      · rintro x ⟨-, hx⟩ ⟨k, -, hx'⟩
        have h₁ := hx.snd
        have h₂ := hx'.snd
        omega
      · rintro (⟨hset, hx⟩ | ⟨k, hk, hx⟩)
        · exact ⟨0, hset, hx⟩
        · exact ⟨k + 1, getLsbD_ushiftRight_one value k ▸ hk, (hother k x).1 hx⟩
      · rintro ⟨k, hk, hx⟩
        cases k with
        | zero => exact .inl ⟨hk, hx⟩
        | succ k =>
          exact .inr ⟨k, (getLsbD_ushiftRight_one value k).symm ▸ hk, (hother k x).2 hx⟩

end Trigger

/-! ## Events -/

/-- The entries that a write pushes, in terms of the registers before it. -/
def WritePushes (d : GicDistributorMmio) (current : Cpu) (offset accessWidth : Nat)
    (value : BitVec 64) (x : Target × Nat) : Prop :=
  match decode offset with
  | some .sgir => accessWidth = 32 ∧
      TriggerPushes d current (value.truncate 32 &&& (0xF : Word)).toNat (sgirTargets current value)
        x
  | some (.isenabler n) => accessWidth = 32 ∧ ∃ k t, Redelivers d current n value k ∧ t ≠ current ∧
      (retriggerTargets d current (n * 32 + k) &&& targetOf t) ≠ 0 ∧ x = (targetOf t, n * 32 + k)
  | some (.ispendr n) => accessWidth = 32 ∧ ∃ k, value.getLsbD k = true ∧
      TriggerPushes d current (n * 32 + k) (retriggerTargets d current (n * 32 + k)) x
  | _ => False

section Write

variable {v v' : Vgic} {current : Cpu} {offset accessWidth : Nat} {value : BitVec 64}

theorem extends_ite {p : Prop} [Decidable p] {x : Except Fault Vgic} {S : Target × Nat → Prop}
    (hx : p → x = .ok v' → Extends v v' S) (h : (if p then x else .ok v) = .ok v') :
    Extends v v' fun x => p ∧ S x := by
  split at h
  · next hp => exact (hx hp h).congr fun x => ⟨fun hx => ⟨hp, hx⟩, fun hx => hx.2⟩
  · next hp =>
    cases h
    exact extends_of_queue_eq rfl fun x hx => hp hx.1

theorem queue_updateRegister {place : Except Fault Place} {f : Word → Word}
    (h : updateRegister v place f = .ok v') :
    v'.distributor.toInjectInterrupt = v.distributor.toInjectInterrupt := by
  obtain ⟨p, -, h⟩ := bind_eq_ok.1 h
  cases h
  exact v.distributor.toInjectInterrupt_update _ _

theorem queue_updateTarget {n : Nat} {f : Word → Word} (h : updateTarget v n f = .ok v') :
    v'.distributor.toInjectInterrupt = v.distributor.toInjectInterrupt := by
  obtain ⟨p, -, h⟩ := bind_eq_ok.1 h
  cases h
  rfl

/-- For a target other than the CPU itself, only the shared registers matter to a retrigger. -/
theorem le_of_retriggerTargets {d : GicDistributorMmio} {t : Cpu} {id : Nat} (hne : t ≠ current)
    (hbit : (retriggerTargets d current id &&& targetOf t) ≠ 0) : 32 ≤ id := by
  by_contra hlow
  rw [retriggerTargets, if_pos (Nat.not_le.1 hlow)] at hbit
  exact hne (and_targetOf_ne_zero hbit)

theorem updateRegister_eq {bank : Bank} {n : Nat} {f : Word → Word} {w : Vgic}
    (h : updateRegister v (register bank current n) f = .ok w) :
    w = v.setDistributor (v.distributor.update (placeOf bank current n) f) := by
  obtain ⟨p, hp, h⟩ := bind_eq_ok.1 h
  cases h
  by_cases hn : n < bank.sharedLength
  · rw [register_eq hn] at hp
    cases hp
    rfl
  · rw [register_eq_error hn] at hp
    cases hp

/-- After the bits of the value were enabled, the pending ones that are enabled are pushed. -/
theorem bitPushes_isenabler {n k : Nat} {w : Vgic} {x : Target × Nat}
    (hw : updateRegister v (enableRegister current n) (fun old => old ||| value.truncate 32) =
      .ok w) (hk : value.getLsbD k = true) :
    BitPushes .pending w.distributor current (n * 32 + k) x ↔
      ∃ t, Redelivers v.distributor current n value k ∧ t ≠ current ∧
        (retriggerTargets v.distributor current (n * 32 + k) &&& targetOf t) ≠ 0 ∧
          x = (targetOf t, n * 32 + k) := by
  have hw := updateRegister_eq hw
  have hbank : (placeOf .enable current n).bank ≠ .pending := by
    rw [bank_placeOf]
    decide
  have hpending : bitOf w.distributor .pending current (n * 32 + k) =
      bitOf v.distributor .pending current (n * 32 + k) := by
    rw [hw, distributor_setDistributor, bitOf_update_of_ne _ hbank]
  have hctlr : distributorEnabled w.distributor = distributorEnabled v.distributor := by
    unfold distributorEnabled
    rw [hw, distributor_setDistributor, v.distributor.ctlr_update]
  have htargets : retriggerTargets w.distributor current (n * 32 + k) =
      retriggerTargets v.distributor current (n * 32 + k) := by
    unfold retriggerTargets
    rw [hw, distributor_setDistributor, v.distributor.ownTarget_update]
  have henable : bitOf w.distributor .enable current (n * 32 + k) = true ↔
      k < 32 ∨ bitOf v.distributor .enable current (n * 32 + k) = true := by
    rw [hw, distributor_setDistributor, bitOf_or_word _ _ _ hk]
  -- the target sees the enable bit that the current CPU sees, since the INTID is shared
  have hshared : ∀ t, t ≠ current →
      (retriggerTargets v.distributor current (n * 32 + k) &&& targetOf t) ≠ 0 →
        bitOf w.distributor .enable t (n * 32 + k) =
          bitOf w.distributor .enable current (n * 32 + k) := fun t hne hbit =>
    bitOf_shared _ isBitmap_enable (le_of_retriggerTargets hne hbit) t current
  unfold BitPushes TriggerPushes
  rw [hpending, htargets]
  constructor
  · rintro ⟨hp, t, hne, hbit, hen, rfl⟩
    refine ⟨t, ⟨hctlr ▸ hen.1, hk, hp, ?_⟩, hne, hbit, rfl⟩
    exact henable.1 (hshared t hne hbit ▸ hen.2)
  · rintro ⟨t, ⟨hon, -, hp, hen⟩, hne, hbit, rfl⟩
    refine ⟨hp, t, hne, hbit, ⟨hctlr.symm ▸ hon, ?_⟩, rfl⟩
    rw [hshared t hne hbit]
    exact henable.2 hen

/-- After the bits of the value were made pending, the ones that are enabled are pushed. -/
theorem bitPushes_ispendr {n k : Nat} {w : Vgic} {x : Target × Nat}
    (hw : updateRegister v (pendingRegister current n) (fun old => old ||| value.truncate 32) =
      .ok w) :
    BitPushes .enable w.distributor current (n * 32 + k) x ↔
      TriggerPushes v.distributor current (n * 32 + k)
        (retriggerTargets v.distributor current (n * 32 + k)) x := by
  have hw := updateRegister_eq hw
  have hbank : (placeOf .pending current n).bank ≠ .enable := by
    rw [bank_placeOf]
    decide
  have henable : ∀ t, bitOf w.distributor .enable t (n * 32 + k) =
      bitOf v.distributor .enable t (n * 32 + k) := by
    intro t
    rw [hw, distributor_setDistributor, bitOf_update_of_ne _ hbank]
  have hctlr : distributorEnabled w.distributor = distributorEnabled v.distributor := by
    unfold distributorEnabled
    rw [hw, distributor_setDistributor, v.distributor.ctlr_update]
  have htargets : retriggerTargets w.distributor current (n * 32 + k) =
      retriggerTargets v.distributor current (n * 32 + k) := by
    unfold retriggerTargets
    rw [hw, distributor_setDistributor, v.distributor.ownTarget_update]
  unfold BitPushes TriggerPushes Enabled
  simp only [henable, hctlr, htargets]
  constructor
  · rintro ⟨-, hx⟩
    exact hx
  · rintro ⟨t, hne, hbit, hen, rfl⟩
    refine ⟨?_, t, hne, hbit, hen, rfl⟩
    rw [bitOf_shared _ isBitmap_enable (le_of_retriggerTargets hne hbit) current t]
    exact hen.2

/-- A write pushes what it is said to push. -/
theorem extends_write (h : write v current offset accessWidth value = .ok v') :
    Extends v v' (WritePushes v.distributor current offset accessWidth value) := by
  unfold write at h
  unfold WritePushes
  cases hr : decode offset with
  | none =>
    rw [hr] at h
    cases h
    exact extends_refl v
  | some r =>
    rw [hr] at h
    have hnone : ∀ {p : Prop}, (Extends v v' fun _ => p ∧ False) → Extends v v' fun _ => False :=
      fun hext => hext.congr fun _ => iff_of_eq (and_false _)
    cases r with
    | sgir =>
      refine extends_ite (fun _ h => ?_) h
      obtain ⟨r, hr', h⟩ := bind_eq_ok.1 h
      cases h
      exact extends_triggerInterruptTo hr'
    | isenabler n =>
      refine extends_ite (fun _ h => ?_) h
      obtain ⟨w, hw, h⟩ := bind_eq_ok.1 h
      have hloop := extends_retriggerLoop looksAtBit_getPending _ h
      obtain ⟨pushed, hkeys, hnodup, hmem⟩ := hloop
      refine ⟨pushed, ?_, hnodup, fun x => (hmem x).trans (exists_congr fun k => ?_)⟩
      · rw [hkeys]
        unfold keys
        rw [queue_updateRegister hw]
      · constructor
        · rintro ⟨hk, hx⟩
          exact (bitPushes_isenabler hw hk).1 hx
        · rintro ⟨t, hre, hx⟩
          exact ⟨hre.2.1, (bitPushes_isenabler hw hre.2.1).2 ⟨t, hre, hx⟩⟩
    | ispendr n =>
      refine extends_ite (fun _ h => ?_) h
      obtain ⟨w, hw, h⟩ := bind_eq_ok.1 h
      have hloop := extends_retriggerLoop looksAtBit_getEnable _ h
      obtain ⟨pushed, hkeys, hnodup, hmem⟩ := hloop
      refine ⟨pushed, ?_, hnodup, fun x => (hmem x).trans (exists_congr fun k => ?_)⟩
      · rw [hkeys]
        unfold keys
        rw [queue_updateRegister hw]
      · exact and_congr_right fun _ => bitPushes_ispendr hw
    | ctlr =>
      refine hnone (extends_ite (fun _ h => ?_) h)
      cases h
      exact extends_of_queue_eq rfl fun _ => id
    | typer =>
      cases h
      exact extends_refl v
    | pidr2 =>
      cases h
      exact extends_refl v
    | ipriorityr n byte =>
      dsimp only at h
      split at h
      · exact extends_of_queue_eq (queue_updateRegister h) fun _ => id
      · exact hnone (extends_ite
          (fun _ h => extends_of_queue_eq (queue_updateRegister h) fun _ => id) h)
    | itargetsr n byte =>
      dsimp only at h
      split at h
      · cases h
        exact extends_refl v
      · split at h
        · exact extends_of_queue_eq (queue_updateTarget h) fun _ => id
        · exact hnone (extends_ite
            (fun _ h => extends_of_queue_eq (queue_updateTarget h) fun _ => id) h)
    | _ n =>
      exact hnone (extends_ite
        (fun _ h => extends_of_queue_eq (queue_updateRegister h) fun _ => id) h)

end Write

/-! ## Handlers -/

section Handlers

variable {v v' : Vgic} {current : Cpu}

/-- The handler only takes entries out. -/
theorem sublist_injectEntries (queue : List (Target × Word)) :
    ∀ v : Vgic, (injectEntries current queue v).1.Sublist queue := by
  induction queue with
  | nil => exact fun v => List.Sublist.refl _
  | cons head rest ih =>
    intro v
    obtain ⟨target, entry⟩ := head
    unfold injectEntries
    split
    · have hrest := ih (addVirtualInterrupt v current entry).2
      dsimp only
      split
      · exact hrest.cons _
      · exact hrest.cons_cons _
    · exact (ih v).cons_cons _

theorem sublist_injectInterruptHandler (v : Vgic) (current : Cpu) :
    (keys (injectInterruptHandler v current)).Sublist (keys v) := by
  unfold keys
  rw [distributor_injectInterruptHandler]
  exact (sublist_injectEntries _ v).map _

theorem sublist_maintenance (h : maintenanceInterruptHandler v current = .ok v') :
    (keys v').Sublist (keys v) := by
  obtain ⟨v₁, hcol, h⟩ := maintenanceInterruptHandler_cases h
  have hcollect : keys v₁ = keys v := by
    unfold keys
    rw [hcol.queue]
  have hinject := sublist_injectInterruptHandler v₁ current
  rw [hcollect] at hinject
  rcases injectPendingForCurrentCpu_cases h with rfl | ⟨-, candidates, hcand, h⟩
  · exact hinject
  · have heq : keys v' = keys (injectInterruptHandler v₁ current) := by
      unfold keys
      rw [distributor_injectCandidates _ (fun x hx => (hcand x hx).2.1) h]
    rwa [heq]

end Handlers

/-! ## Runs -/

/-- What happens to the interrupts of a VM. -/
inductive QueueEvent where
  | vm (action : Action)
  /-- The CPU takes up the VM or leaves it, so that the List Registers are other ones: `CPU_ON`,
  `CPU_OFF` and the switches between VMs. -/
  | registers (cpu : Cpu) (lr : Nat → Word)

/-- The effect of an event. -/
def QueueEvent.apply (v : Vgic) : QueueEvent → Except Fault Vgic
  | .vm action => exec v action
  | .registers cpu lr => .ok { v with lr := Function.update v.lr cpu lr }

/-- The entries that an event pushes, in terms of the state before it. -/
def QueueEvent.Pushes (v : Vgic) : QueueEvent → Target × Nat → Prop
  | .vm (.trigger cpu intId targets) => TriggerPushes v.distributor cpu intId targets
  | .vm (.write cpu offset accessWidth value) =>
    WritePushes v.distributor cpu offset accessWidth value
  | _ => fun _ => False

/-- The guest acknowledges and completes only what it can. -/
def QueueEvent.Possible (v : Vgic) : QueueEvent → Prop
  | .vm action => Gic.Possible v action
  | .registers _ _ => True

instance (v : Vgic) (event : QueueEvent) : Decidable (event.Possible v) := by
  cases event with
  | vm action => exact inferInstanceAs (Decidable (Gic.Possible v action))
  | registers cpu lr => exact inferInstanceAs (Decidable True)

def QueueStep (v : Vgic) (event : QueueEvent) (v' : Vgic) : Prop :=
  event.Possible v ∧ event.apply v = .ok v'

/-- An event takes entries out of the queue, or it pushes what it is said to push. -/
theorem queueStep_cases {v v' : Vgic} {event : QueueEvent} (h : QueueStep v event v') :
    Extends v v' (event.Pushes v) ∨
      (keys v').Sublist (keys v) ∧ ∀ x, ¬event.Pushes v x := by
  obtain ⟨-, h⟩ := h
  cases event with
  | registers cpu lr =>
    cases h
    exact Or.inl (extends_of_queue_eq rfl fun _ => id)
  | vm action =>
    cases action with
    | read cpu offset accessWidth =>
      obtain ⟨_, -, h⟩ := bind_eq_ok.1 h
      cases h
      exact Or.inl (extends_refl v)
    | write cpu offset accessWidth value => exact Or.inl (extends_write h)
    | trigger cpu intId targets =>
      obtain ⟨r, hr, h⟩ := bind_eq_ok.1 h
      cases h
      exact Or.inl (extends_triggerInterruptTo hr)
    | timer cpu =>
      obtain ⟨r, hr, h⟩ := bind_eq_ok.1 h
      cases h
      -- The timer interrupt is for the CPU on which it arrives.
      refine Or.inl ((extends_triggerInterruptTo hr).congr fun x => ⟨?_, False.elim⟩)
      rintro ⟨t, hne, hbit, -, -⟩
      exact hne (and_targetOf_ne_zero hbit)
    | acknowledge cpu i =>
      cases h
      exact Or.inl (extends_of_queue_eq rfl fun _ => id)
    | endOfInterrupt cpu i =>
      cases h
      exact Or.inl (extends_of_queue_eq rfl fun _ => id)
    | inject cpu =>
      cases h
      exact Or.inr ⟨sublist_injectInterruptHandler v cpu, fun _ => id⟩
    | maintenance cpu => exact Or.inr ⟨sublist_maintenance h, fun _ => id⟩

/-- Every push is for one of the CPUs and for an INTID that the List Registers can hold. -/
def possibleKeys : Finset (Target × Nat) :=
  Finset.univ.image targetOf ×ˢ Finset.range 1024

theorem card_possibleKeys : possibleKeys.card = 8 * 1024 := by
  unfold possibleKeys
  rw [Finset.card_product, Finset.card_range,
    Finset.card_image_of_injective _ fun a b h => targetOf_inj.1 h, Finset.card_univ,
    Fintype.card_fin]

/-- Every target in the queue is a single CPU. -/
def SingleTargets (v : Vgic) : Prop := ∀ x ∈ keys v, ∃ t, x.1 = targetOf t

theorem exists_target_of_pushes {v : Vgic} {event : QueueEvent} {x : Target × Nat}
    (h : event.Pushes v x) : ∃ t, x.1 = targetOf t := by
  have htrigger : ∀ {cpu : Cpu} {intId : Nat} {targets : Target},
      TriggerPushes v.distributor cpu intId targets x → ∃ t, x.1 = targetOf t := by
    rintro cpu intId targets ⟨t, -, -, -, rfl⟩
    exact ⟨t, rfl⟩
  cases event with
  | registers cpu lr => exact h.elim
  | vm action =>
    cases action with
    | trigger cpu intId targets => exact htrigger h
    | write cpu offset accessWidth value =>
      simp only [QueueEvent.Pushes, WritePushes] at h
      split at h
      · exact htrigger h.2
      · obtain ⟨-, k, t, -, -, -, rfl⟩ := h
        exact ⟨t, rfl⟩
      · obtain ⟨-, k, -, h⟩ := h
        exact htrigger h
      · exact h.elim
    | _ => exact h.elim

theorem SingleTargets.step {v v' : Vgic} {event : QueueEvent} (hv : SingleTargets v)
    (h : QueueStep v event v') : SingleTargets v' := by
  intro x hx
  rcases queueStep_cases h with ⟨pushed, hkeys, -, hmem⟩ | ⟨hsub, -⟩
  · rw [hkeys, List.mem_append] at hx
    rcases hx with hx | hx
    · exact hv x hx
    · exact exists_target_of_pushes ((hmem x).1 hx)
  · exact hv x (hsub.subset hx)

theorem toNat_virtualId_lt (entry : Word) : (virtualId entry).toNat < 1024 := by
  unfold virtualId gichLrVirtualId
  rw [BitVec.toNat_and]
  exact Nat.lt_of_le_of_lt Nat.and_le_right (by decide)

/-- Different keys are no more than the possible ones. -/
theorem length_queue_le {v : Vgic} (hsingle : SingleTargets v) (hnodup : (keys v).Nodup) :
    v.distributor.toInjectInterrupt.length ≤ 8 * 1024 := by
  have hsub : (keys v).toFinset ⊆ possibleKeys := by
    intro x hx
    rw [List.mem_toFinset] at hx
    obtain ⟨t, ht⟩ := hsingle x hx
    obtain ⟨entry, -, rfl⟩ := List.mem_map.1 hx
    refine Finset.mem_product.2 ⟨?_, Finset.mem_range.2 (toNat_virtualId_lt _)⟩
    exact Finset.mem_image.2 ⟨t, Finset.mem_univ t, ht.symm⟩
  calc v.distributor.toInjectInterrupt.length = (keys v).length := (List.length_map _).symm
    _ = (keys v).toFinset.card := (List.toFinset_card_of_nodup hnodup).symm
    _ ≤ possibleKeys.card := Finset.card_le_card hsub
    _ = 8 * 1024 := card_possibleKeys

/-- The queue has no two entries for the same target and INTID, and so it is bounded. -/
def Bounded (v : Vgic) : Prop :=
  (keys v).Nodup ∧ v.distributor.toInjectInterrupt.length ≤ 8 * 1024

/-- No entry is pushed for a target and an INTID for which the queue has one. -/
def Fresh (v : Vgic) (event : QueueEvent) : Prop := ∀ x, event.Pushes v x → x ∉ keys v

theorem bounded_step_iff {v v' : Vgic} {event : QueueEvent} (hsingle : SingleTargets v)
    (hv : Bounded v) (h : QueueStep v event v') : Bounded v' ↔ Fresh v event := by
  have hnodup : (keys v').Nodup ↔ Fresh v event := by
    rcases queueStep_cases h with hext | ⟨hsub, hnone⟩
    · exact hext.nodup_iff hv.1
    · exact iff_of_true (hv.1.sublist hsub) fun x hx => absurd hx (hnone x)
  exact ⟨fun hb => hnodup.1 hb.1,
    fun hf => ⟨hnodup.2 hf, length_queue_le (hsingle.step h) (hnodup.2 hf)⟩⟩

/-- **The queue stays bounded** along a run, whatever the guest writes, the devices trigger and the
CPUs do with their List Registers, exactly when no event pushes an entry for a target and an INTID
for which the queue has one. -/
theorem never_repeated_iff (ownTarget : Target) (numberOfLrn : Nat) (timerIntId : Word)
    (events : List QueueEvent) :
    Along QueueStep (fun _ _ v' => Bounded v') (Vgic.new ownTarget numberOfLrn timerIntId) events ↔
      Along QueueStep (fun v event _ => Fresh v event)
        (Vgic.new ownTarget numberOfLrn timerIntId) events := by
  refine along_congr (fun v => SingleTargets v ∧ Bounded v) ?_ ?_ events _ ⟨?_, ?_, ?_⟩
  · exact fun v event v' hinv h => bounded_step_iff hinv.1 hinv.2 h
  · exact fun v event v' hinv h hb => ⟨hinv.1.step h, hb⟩
  · exact fun x hx => absurd hx List.not_mem_nil
  · exact List.nodup_nil
  · exact Nat.zero_le _

/-- The events that are possible, as a function. -/
def QueueEvent.perform (v : Vgic) (event : QueueEvent) : Option Vgic :=
  if event.Possible v then (event.apply v).toOption else none

theorem queueStep_of_perform (v : Vgic) (event : QueueEvent) (v' : Vgic)
    (h : event.perform v = some v') : QueueStep v event v' := by
  unfold QueueEvent.perform at h
  split at h
  · next hp => exact ⟨hp, toOption_eq_some h⟩
  · cases h

/-- SGI 3 is enabled on CPU 1, and CPU 0 sends it to CPU 1, which is switched off. -/
def sgiForStoppedCpu : List QueueEvent :=
  [.vm (.write 0 0x0000 32 1), .vm (.write 1 0x0100 32 0xFFFF), .vm (.write 0 0x0F00 32 0x20003)]

/-- When CPU 0 sends the SGI again, the queue has two entries for it. -/
theorem sgi_queued_twice :
    ¬Along QueueStep (fun _ _ v' => Bounded v') (Vgic.new 1 4 30)
      (sgiForStoppedCpu ++ [.vm (.write 0 0x0F00 32 0x20003)]) := by
  intro hal
  have hcheck : ((follow QueueEvent.perform (Vgic.new 1 4 30) sgiForStoppedCpu).bind fun v =>
      QueueEvent.perform v (.vm (.write 0 0x0F00 32 0x20003))).any
        (fun v => !decide (keys v).Nodup) = true := by
    decide +kernel
  obtain ⟨v', hv', hc⟩ := (Option.any_eq_true _ _).1 hcheck
  obtain ⟨v, hv, hv'⟩ := Option.bind_eq_some_iff.1 hv'
  have hbounded : Bounded v' := hal.last queueStep_of_perform sgiForStoppedCpu hv hv'
  rw [Bool.not_eq_true', decide_eq_false_iff_not] at hc
  exact hc hbounded.1

end MiniVisor.Gic
