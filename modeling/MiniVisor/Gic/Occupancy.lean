import MiniVisor.Gic.Effects
import MiniVisor.Lib.Transition

/-!
# Which List Registers are in use

The hypervisor changes the List Registers of the CPU that it runs on only with
`add_virtual_interrupt` and by emptying a completed one. `Move` lists these changes next to the
changes of the Distributor, and `moves_exec` says that every event is a sequence of them or a
transition of the guest.

An INTID is in at most one List Register of a CPU (`Distinct`): every move keeps this, and so do the
guest's transitions and the saving and restoring of the List Registers at a switch of the VM. The
main result, `one_lr_per_intId`, is this invariant for all sequences of these operations, with the
exact failure of `add_virtual_interrupt`.
-/

set_option autoImplicit false

namespace MiniVisor.Gic

open MiniVisor.Lib

/-- The CPU on which an event happens. -/
def Action.cpu : Action → Cpu
  | .read cpu _ _ | .write cpu _ _ _ | .trigger cpu _ _ | .timer cpu | .acknowledge cpu _
  | .endOfInterrupt cpu _ | .inject cpu | .maintenance cpu => cpu

/-- The transitions that the virtual CPU interface makes for the guest. -/
def Action.isGuest : Action → Bool
  | .acknowledge _ _ | .endOfInterrupt _ _ => true
  | _ => false

/-! ## Moves -/

/-- What the code can do on a CPU. -/
inductive Move (cpu : Cpu) : Vgic → Vgic → Prop where
  | registers (v : Vgic) (d : GicDistributorMmio) : Move cpu v (v.setDistributor d)
  | recorded (v : Vgic) (c : Cpu) (intId : Nat) (p : Option Word) : Move cpu v (v.record c intId p)
  | added (v : Vgic) (entry : Word) : Move cpu v (addVirtualInterrupt v cpu entry).2
  | emptied (v : Vgic) (i : Nat) : Move cpu v (v.setLr cpu i 0)

abbrev Moves (cpu : Cpu) : Vgic → Vgic → Prop := Relation.ReflTransGen (Move cpu)

section Moves

variable {v v' : Vgic} {cpu : Cpu}

theorem moves_deliver (v : Vgic) (cpu : Cpu) (target : Target) (entry : Word) :
    Moves cpu v (deliver v cpu target entry).2 := by
  unfold deliver
  split
  · exact .single (.added v entry)
  · exact .single (.registers v _)

theorem moves_triggerTarget {intId : Nat} {p : Option Word} {target : Target} {added : Bool}
    (h : triggerTarget v cpu intId p target = .ok (added, v')) : Moves cpu v v' := by
  obtain ⟨d, -, h⟩ := bind_eq_ok.1 h
  have hraise : Moves cpu v ((v.setDistributor d).record (targetToCpuIndex target) intId p) :=
    .tail (.single (.registers v d)) (.recorded _ _ _ _)
  split at h
  · cases h
    exact hraise
  · obtain ⟨enabled, -, h⟩ := bind_eq_ok.1 h
    split at h
    · cases h
      exact hraise
    · obtain ⟨entry, -, h⟩ := bind_eq_ok.1 h
      have hv : v' = (deliver ((v.setDistributor d).record (targetToCpuIndex target) intId p) cpu
          target entry).2 := congrArg Prod.snd (Except.ok.inj h).symm
      rw [hv]
      exact hraise.trans (moves_deliver _ _ _ _)

theorem moves_triggerLoop {intId : Nat} {p : Option Word} {targets : Target} (bits : List Cpu) :
    ∀ {injected added : Bool} {v : Vgic},
      triggerLoop cpu intId p targets bits injected v = .ok (added, v') → Moves cpu v v' := by
  induction bits with
  | nil =>
    intro injected added v h
    cases h
    exact .refl
  | cons b rest ih =>
    intro injected added v h
    rw [triggerLoop_cons] at h
    split at h
    · exact ih h
    · obtain ⟨r, hr, h⟩ := bind_eq_ok.1 h
      exact (moves_triggerTarget hr).trans (ih h)

theorem moves_triggerInterruptTo {intId : Nat} {p : Option Word} {targets : Target} {added : Bool}
    (h : triggerInterruptTo v cpu intId p targets = .ok (added, v')) : Moves cpu v v' :=
  moves_triggerLoop _ h

theorem moves_retriggerBit {check : GicDistributorMmio → Cpu → Nat → Except Fault Bool}
    {intId : Nat}
    {isSet : Bool} (h : retriggerBit check cpu intId isSet v = .ok v') : Moves cpu v v' := by
  unfold retriggerBit at h
  split at h
  · obtain ⟨b, -, h⟩ := bind_eq_ok.1 h
    split at h
    · obtain ⟨r, hr, h⟩ := bind_eq_ok.1 h
      cases h
      exact moves_triggerInterruptTo hr
    · cases h
      exact .refl
  · cases h
    exact .refl

theorem moves_retriggerLoop {check : GicDistributorMmio → Cpu → Nat → Except Fault Bool}
    (fuel : Nat) : ∀ {intId : Nat} {value : BitVec 64} {v : Vgic},
      retriggerLoop check cpu fuel intId value v = .ok v' → Moves cpu v v' := by
  induction fuel with
  | zero =>
    intro intId value v h
    rw [retriggerLoop] at h
    split at h
    · cases h
      exact .refl
    · cases h
  | succ fuel ih =>
    intro intId value v h
    rw [retriggerLoop] at h
    split at h
    · cases h
      exact .refl
    · obtain ⟨w, hw, h⟩ := bind_eq_ok.1 h
      exact (moves_retriggerBit hw).trans (ih h)

theorem moves_updateRegister {place : Except Fault Place} {f : Word → Word}
    (h : updateRegister v place f = .ok v') : Moves cpu v v' := by
  obtain ⟨p, -, h⟩ := bind_eq_ok.1 h
  cases h
  exact .single (.registers v _)

theorem moves_updateTarget {n : Nat} {f : Word → Word} (h : updateTarget v n f = .ok v') :
    Moves cpu v v' := by
  obtain ⟨p, -, h⟩ := bind_eq_ok.1 h
  cases h
  exact .single (.registers v _)

theorem moves_ite {p : Prop} [Decidable p] {x : Except Fault Vgic}
    (hx : x = .ok v' → Moves cpu v v') (h : (if p then x else .ok v) = .ok v') :
    Moves cpu v v' := by
  split at h
  · exact hx h
  · cases h
    exact .refl

theorem moves_write {offset accessWidth : Nat} {value : BitVec 64}
    (h : write v cpu offset accessWidth value = .ok v') : Moves cpu v v' := by
  unfold write at h
  cases hr : decode offset with
  | none =>
    rw [hr] at h
    cases h
    exact .refl
  | some r =>
    rw [hr] at h
    cases r with
    | ctlr =>
      refine moves_ite (fun h => ?_) h
      cases h
      exact .single (.registers v _)
    | typer =>
      cases h
      exact .refl
    | pidr2 =>
      cases h
      exact .refl
    | sgir =>
      refine moves_ite (fun h => ?_) h
      obtain ⟨r, hr, h⟩ := bind_eq_ok.1 h
      cases h
      exact moves_triggerInterruptTo hr
    | isenabler n =>
      refine moves_ite (fun h => ?_) h
      obtain ⟨w, hw, h⟩ := bind_eq_ok.1 h
      exact (moves_updateRegister hw).trans (moves_retriggerLoop _ h)
    | ispendr n =>
      refine moves_ite (fun h => ?_) h
      obtain ⟨w, hw, h⟩ := bind_eq_ok.1 h
      exact (moves_updateRegister hw).trans (moves_retriggerLoop _ h)
    | ipriorityr n byte =>
      dsimp only at h
      split at h
      · exact moves_updateRegister h
      · exact moves_ite moves_updateRegister h
    | itargetsr n byte =>
      dsimp only at h
      split at h
      · cases h
        exact .refl
      · split at h
        · exact moves_updateTarget h
        · exact moves_ite moves_updateTarget h
    | _ n => exact moves_ite moves_updateRegister h

theorem moves_injectEntries (cpu : Cpu) (queue : List (Target × Word)) :
    ∀ v : Vgic, Moves cpu v (injectEntries cpu queue v).2 := by
  induction queue with
  | nil => exact fun v => .refl
  | cons head rest ih =>
    intro v
    obtain ⟨target, entry⟩ := head
    by_cases ht : target = targetOf cpu
    · simp only [injectEntries, if_pos ht]
      exact .head (.added v entry) (ih _)
    · simp only [injectEntries, if_neg ht]
      exact ih v

theorem moves_injectInterruptHandler (v : Vgic) (cpu : Cpu) :
    Moves cpu v (injectInterruptHandler v cpu) :=
  (moves_injectEntries cpu _ v).tail (.registers _ _)

theorem moves_injectCandidates (candidates : List (Nat × Nat)) :
    ∀ {v : Vgic}, injectCandidates cpu candidates v = .ok v' → Moves cpu v v' := by
  induction candidates with
  | nil =>
    intro v h
    cases h
    exact .refl
  | cons x rest ih =>
    intro v h
    obtain ⟨entry, -, h⟩ := bind_eq_ok.1 h
    have hadd : Move cpu v (addVirtualInterrupt v cpu entry).2 := .added v entry
    dsimp only at h
    split at h
    · exact .head hadd (ih h)
    · cases h
      exact .single hadd

theorem moves_injectPendingForCurrentCpu (h : injectPendingForCurrentCpu v cpu = .ok v') :
    Moves cpu v v' := by
  unfold injectPendingForCurrentCpu at h
  split at h
  · cases h
    exact .refl
  · obtain ⟨candidates, -, h⟩ := bind_eq_ok.1 h
    exact moves_injectCandidates _ h

theorem moves_collectCompleted {eoiBits : Nat → Bool} (l : List Nat) :
    ∀ {v : Vgic}, collectCompleted cpu eoiBits l v = .ok v' → Moves cpu v v' := by
  induction l with
  | nil =>
    intro v h
    cases h
    exact .refl
  | cons i rest ih =>
    intro v h
    rw [collectCompleted_cons] at h
    split at h
    · exact .head (.registers v _) (.head (.emptied _ i) (ih h))
    · exact ih h

theorem moves_maintenanceInterruptHandler (h : maintenanceInterruptHandler v cpu = .ok v') :
    Moves cpu v v' := by
  obtain ⟨w, hw, h⟩ := bind_eq_ok.1 h
  exact (moves_collectCompleted _ hw).trans
    ((moves_injectInterruptHandler w cpu).trans (moves_injectPendingForCurrentCpu h))

/-- Every event other than the transitions of the guest is a sequence of moves on its CPU. -/
theorem moves_exec {action : Action} (hg : action.isGuest = false) (h : exec v action = .ok v') :
    Moves action.cpu v v' := by
  cases action with
  | read cpu offset accessWidth =>
    obtain ⟨value, -, h⟩ := bind_eq_ok.1 h
    cases h
    exact .refl
  | write cpu offset accessWidth value => exact moves_write h
  | trigger cpu intId targets =>
    obtain ⟨r, hr, h⟩ := bind_eq_ok.1 h
    cases h
    exact moves_triggerInterruptTo hr
  | timer cpu =>
    obtain ⟨r, hr, h⟩ := bind_eq_ok.1 h
    cases h
    exact moves_triggerInterruptTo hr
  | acknowledge cpu i => cases hg
  | endOfInterrupt cpu i => cases hg
  | inject cpu =>
    cases h
    exact moves_injectInterruptHandler v cpu
  | maintenance cpu => exact moves_maintenanceInterruptHandler h

end Moves

/-! ## The List Registers of other CPUs -/

theorem lr_record (v : Vgic) (cpu : Cpu) (intId : Nat) (p : Option Word) :
    (v.record cpu intId p).lr = v.lr := by
  unfold Vgic.record
  split <;> rfl

theorem numberOfLrn_record (v : Vgic) (cpu : Cpu) (intId : Nat) (p : Option Word) :
    (v.record cpu intId p).numberOfLrn = v.numberOfLrn := by
  unfold Vgic.record
  split <;> rfl

theorem Inserted.numberOfLrn {v v' : Vgic} {cpu : Cpu} {entry : Word} {added : Bool}
    (h : Inserted v cpu entry added v') : v'.numberOfLrn = v.numberOfLrn := by
  cases h <;> rfl

theorem Inserted.lr_other {v v' : Vgic} {cpu q : Cpu} {entry : Word} {added : Bool}
    (h : Inserted v cpu entry added v') (hq : q ≠ cpu) : v'.lr q = v.lr q := by
  cases h with
  | full => rfl
  | _ => exact funext fun j => lr_setLr_of_ne _ _ fun h => hq h.1

theorem Move.lr_other {v v' : Vgic} {cpu q : Cpu} (h : Move cpu v v') (hq : q ≠ cpu) :
    v'.lr q = v.lr q := by
  cases h with
  | registers d => rfl
  | recorded c intId p => rw [lr_record]
  | added entry => exact (inserted_addVirtualInterrupt _ _ _).lr_other hq
  | emptied i => exact funext fun j => lr_setLr_of_ne _ _ fun h => hq h.1

theorem Move.numberOfLrn {v v' : Vgic} {cpu : Cpu} (h : Move cpu v v') :
    v'.numberOfLrn = v.numberOfLrn := by
  cases h with
  | registers d => rfl
  | recorded c intId p => exact numberOfLrn_record _ _ _ _
  | added entry => exact (inserted_addVirtualInterrupt _ _ _).numberOfLrn
  | emptied i => rfl

theorem Moves.lr_other {v v' : Vgic} {cpu q : Cpu} (h : Moves cpu v v') (hq : q ≠ cpu) :
    v'.lr q = v.lr q := by
  induction h with
  | refl => rfl
  | tail _ hm ih => exact (hm.lr_other hq).trans ih

theorem Moves.numberOfLrn {v v' : Vgic} {cpu : Cpu} (h : Moves cpu v v') :
    v'.numberOfLrn = v.numberOfLrn := by
  induction h with
  | refl => rfl
  | tail _ hm ih => exact hm.numberOfLrn.trans ih

/-! ## One List Register for an INTID -/

/-- No two of the first `n` List Registers that are in use hold the same virtual INTID. -/
def Distinct (n : Nat) (lr : Nat → Word) : Prop :=
  ∀ i < n, ∀ j < n, isInactive (lr i) = false → isInactive (lr j) = false →
    virtualId (lr i) = virtualId (lr j) → i = j

section Distinct

variable {n : Nat} {lr : Nat → Word}

theorem distinct_of_inactive (h : ∀ i, isInactive (lr i) = true) : Distinct n lr := by
  intro i _ j _ hi
  rw [h i] at hi
  cases hi

/-- A List Register gets a value that is not in use, or holds the same INTID as before. -/
theorem Distinct.update (h : Distinct n lr) {i : Nat} {value : Word}
    (hvalue : isInactive value = false → isInactive (lr i) = false ∧
    virtualId value = virtualId (lr i)) : Distinct n fun j => if j = i then value else lr j := by
  -- A register in use after the update was in use before, with the same INTID.
  have hback : ∀ j, isInactive (if j = i then value else lr j) = false →
      isInactive (lr j) = false ∧ virtualId (if j = i then value else lr j) = virtualId (lr j) := by
    intro j hj
    by_cases hji : j = i
    · subst hji
      rw [if_pos rfl] at hj ⊢
      exact hvalue hj
    · rw [if_neg hji] at hj ⊢
      exact ⟨hj, rfl⟩
  intro j hj k hk huj huk hid
  obtain ⟨hj', hidj⟩ := hback j huj
  obtain ⟨hk', hidk⟩ := hback k huk
  dsimp only at hid
  rw [hidj, hidk] at hid
  exact h j hj k hk hj' hk' hid

/-- A List Register gets an INTID that no other one holds. -/
theorem Distinct.fill (h : Distinct n lr) {i : Nat} {value : Word}
    (hnone : ∀ j < n, isInactive (lr j) = false → virtualId (lr j) ≠ virtualId value) :
    Distinct n fun j => if j = i then value else lr j := by
  intro j hj k hk huj huk hid
  dsimp only at huj huk hid
  by_cases hji : j = i <;> by_cases hki : k = i
  · exact hji.trans hki.symm
  · rw [if_pos hji, if_neg hki] at hid
    rw [if_neg hki] at huk
    exact absurd hid.symm (hnone k hk huk)
  · rw [if_neg hji, if_pos hki] at hid
    rw [if_neg hji] at huj
    exact absurd hid (hnone j hj huj)
  · rw [if_neg hji] at huj hid
    rw [if_neg hki] at huk hid
    exact h j hj k hk huj huk hid

theorem lr_setLr_same (v : Vgic) (cpu : Cpu) (i : Nat) (value : Word) :
    (v.setLr cpu i value).lr cpu = fun j => if j = i then value else v.lr cpu j := by
  funext j
  simp [Vgic.setLr]

theorem Inserted.distinct {v v' : Vgic} {cpu : Cpu} {entry : Word} {added : Bool}
    (h : Inserted v cpu entry added v') (hd : Distinct v.supportedLrn (v.lr cpu)) :
    Distinct v.supportedLrn (v'.lr cpu) := by
  cases h with
  | merged i hi huse hid =>
    rw [lr_setLr_same]
    exact hd.update fun _ => ⟨huse, virtualId_or_pending _⟩
  | filled i hi hfree hnone =>
    rw [lr_setLr_same]
    exact hd.fill hnone
  | full hfull => exact hd

theorem Move.distinct {v v' : Vgic} {cpu : Cpu} (h : Move cpu v v')
    (hd : Distinct v.supportedLrn (v.lr cpu)) : Distinct v.supportedLrn (v'.lr cpu) := by
  cases h with
  | registers d => exact hd
  | recorded c intId p => rwa [lr_record]
  | added entry => exact (inserted_addVirtualInterrupt _ _ _).distinct hd
  | emptied i =>
    rw [lr_setLr_same]
    exact hd.update fun h => absurd h (by decide)

theorem Moves.distinct {v v' : Vgic} {cpu : Cpu} (h : Moves cpu v v')
    (hd : Distinct v.supportedLrn (v.lr cpu)) : Distinct v'.supportedLrn (v'.lr cpu) := by
  induction h with
  | refl => exact hd
  | tail _ hm ih =>
    have hn := hm.numberOfLrn
    unfold Vgic.supportedLrn at ih ⊢
    rw [hn]
    exact hm.distinct ih

/-- An interrupt that is acknowledged was pending, so its List Register was in use. -/
theorem distinct_acknowledge {i : Nat} (hd : Distinct n lr) (hp : isPending (lr i) = true) :
    Distinct n fun j => if j = i then acknowledge (lr i) else lr j :=
  hd.update fun _ => ⟨isInactive_of_isPending _ hp, virtualId_acknowledge _⟩

theorem isInactive_of_isActive {lr : Word} (h : isActive lr = true) : isInactive lr = false := by
  rw [isActive, bne_iff_ne] at h
  rw [isInactive, beq_eq_false_iff_ne]
  intro hzero
  apply h
  have hsub : gichLrState &&& gichLrStateActive = gichLrStateActive := by decide
  rw [← hsub, ← BitVec.and_assoc, hzero, BitVec.zero_and]

theorem distinct_endOfInterrupt {i : Nat} (hd : Distinct n lr) (ha : isActive (lr i) = true) :
    Distinct n fun j => if j = i then endOfInterrupt (lr i) else lr j :=
  hd.update fun _ => ⟨isInactive_of_isActive ha, virtualId_endOfInterrupt _⟩

end Distinct

/-! ## Switches between VMs -/

/-- The loops of `save_context` and `restore_context` over `NUMBER_OF_SUPPORTED_LRS` registers. -/
def copyLrs {α : Type} (source destination : Nat → α) : Nat → α :=
  fun i => if i < 4 then source i else destination i

theorem copyLrs_of_lt {α : Type} (source destination : Nat → α) {i : Nat} (h : i < 4) :
    copyLrs source destination i = source i := if_pos h

theorem Distinct.copyLrs {n : Nat} {source destination : Nat → Word} (h : Distinct n source)
    (hn : n ≤ 4) : Distinct n (copyLrs source destination) := by
  intro i hi j hj
  rw [copyLrs_of_lt _ _ (hi.trans_le hn), copyLrs_of_lt _ _ (hj.trans_le hn)]
  exact h i hi j hj

theorem supportedLrn_le (v : Vgic) : v.supportedLrn ≤ 4 := Nat.min_le_right _ _

/-- The CPUs and the `gich_lr` of the saved contexts. -/
structure LrFile (V : Type) where
  vgic : Vgic
  saved : V → Nat → Word

/-- What happens to the List Registers. A maintenance interrupt meets the Distributor of the VM that
runs, whatever its content. -/
inductive LrEvent (V : Type) where
  | add (cpu : Cpu) (entry : Word)
  | maintenance (cpu : Cpu) (d : GicDistributorMmio)
  | save (cpu : Cpu) (vm : V)
  | restore (cpu : Cpu) (vm : V)
  | acknowledge (cpu : Cpu) (i : Nat)
  | endOfInterrupt (cpu : Cpu) (i : Nat)

section LrFile

variable {V : Type} [DecidableEq V]

def LrFile.setLrs (s : LrFile V) (cpu : Cpu) (lr : Nat → Word) : LrFile V :=
  { s with vgic := { s.vgic with lr := fun c => if c = cpu then lr else s.vgic.lr c } }

def LrFile.exec (s : LrFile V) : LrEvent V → Except Fault (LrFile V)
  | .add cpu entry => .ok { s with vgic := (addVirtualInterrupt s.vgic cpu entry).2 }
  | .maintenance cpu d => do
    let v ← maintenanceInterruptHandler (s.vgic.setDistributor d) cpu
    return { s with vgic := v }
  | .save cpu vm => .ok { s with
      saved := fun a => if a = vm then copyLrs (s.vgic.lr cpu) (s.saved a) else s.saved a }
  | .restore cpu vm => .ok (s.setLrs cpu (copyLrs (s.saved vm) (s.vgic.lr cpu)))
  | .acknowledge cpu i =>
    .ok { s with vgic := s.vgic.setLr cpu i (Gic.acknowledge (s.vgic.lr cpu i)) }
  | .endOfInterrupt cpu i =>
    .ok { s with vgic := s.vgic.setLr cpu i (Gic.endOfInterrupt (s.vgic.lr cpu i)) }

/-- What the guest can do, as in `Possible`. -/
def LrFile.Possible (s : LrFile V) : LrEvent V → Prop
  | .acknowledge cpu i => Gic.Possible s.vgic (.acknowledge cpu i)
  | .endOfInterrupt cpu i => Gic.Possible s.vgic (.endOfInterrupt cpu i)
  | _ => True

def LrFile.Step (s : LrFile V) (event : LrEvent V) (s' : LrFile V) : Prop :=
  s.Possible event ∧ s.exec event = .ok s'

/-- Empty List Registers, in the CPUs and in the contexts. -/
def LrFile.Initial (s : LrFile V) : Prop :=
  (∀ cpu i, s.vgic.lr cpu i = 0) ∧ ∀ vm i, s.saved vm i = 0

/-- The invariant, of the CPUs and of the contexts. -/
structure LrFile.Ok (s : LrFile V) : Prop where
  lr : ∀ cpu, Distinct s.vgic.supportedLrn (s.vgic.lr cpu)
  saved : ∀ vm, Distinct s.vgic.supportedLrn (s.saved vm)

omit [DecidableEq V] in
/-- A change of the List Registers of one CPU. -/
theorem LrFile.Ok.ofCpu {s : LrFile V} (h : s.Ok) {v : Vgic} {cpu : Cpu}
    (hn : v.numberOfLrn = s.vgic.numberOfLrn) (hother : ∀ q, q ≠ cpu → v.lr q = s.vgic.lr q)
    (hcpu : Distinct s.vgic.supportedLrn (v.lr cpu)) : LrFile.Ok { s with vgic := v } := by
  have hsup : v.supportedLrn = s.vgic.supportedLrn := by
    unfold Vgic.supportedLrn
    rw [hn]
  refine ⟨fun q => ?_, fun vm => ?_⟩
  · show Distinct v.supportedLrn (v.lr q)
    rw [hsup]
    by_cases hq : q = cpu
    · rw [hq]
      exact hcpu
    · rw [hother q hq]
      exact h.lr q
  · show Distinct v.supportedLrn (s.saved vm)
    rw [hsup]
    exact h.saved vm

omit [DecidableEq V] in
theorem LrFile.Ok.setLr {s : LrFile V} (h : s.Ok) {cpu : Cpu} {i : Nat} {value : Word}
    (hcpu : Distinct s.vgic.supportedLrn fun j => if j = i then value else s.vgic.lr cpu j) :
    LrFile.Ok { s with vgic := s.vgic.setLr cpu i value } :=
  h.ofCpu rfl (fun q hq => funext fun j => lr_setLr_of_ne _ _ fun h => hq h.1)
    (by rw [lr_setLr_same]; exact hcpu)

theorem LrFile.Ok.step {s s' : LrFile V} {event : LrEvent V} (h : s.Ok) (hs : s.Step event s') :
    s'.Ok := by
  obtain ⟨hp, hs⟩ := hs
  cases event with
  | add cpu entry =>
    cases hs
    have hins := inserted_addVirtualInterrupt s.vgic cpu entry
    exact h.ofCpu hins.numberOfLrn (fun q hq => hins.lr_other hq) (hins.distinct (h.lr cpu))
  | maintenance cpu d =>
    obtain ⟨v, hv, hs⟩ := bind_eq_ok.1 hs
    cases hs
    have hmoves := moves_maintenanceInterruptHandler hv
    have hn : v.numberOfLrn = s.vgic.numberOfLrn := hmoves.numberOfLrn
    refine h.ofCpu hn (fun q hq => hmoves.lr_other hq) ?_
    have hd := hmoves.distinct (h.lr cpu)
    unfold Vgic.supportedLrn at hd ⊢
    rwa [hn] at hd
  | save cpu vm =>
    cases hs
    refine ⟨h.lr, fun a => ?_⟩
    dsimp only
    split
    · exact (h.lr cpu).copyLrs (supportedLrn_le _)
    · exact h.saved a
  | restore cpu vm =>
    cases hs
    refine h.ofCpu rfl (fun q hq => if_neg hq) ?_
    show Distinct _ (if cpu = cpu then _ else _)
    rw [if_pos rfl]
    exact (h.saved vm).copyLrs (supportedLrn_le _)
  | acknowledge cpu i =>
    cases hs
    exact h.setLr (distinct_acknowledge (h.lr cpu) hp.2.1)
  | endOfInterrupt cpu i =>
    cases hs
    exact h.setLr (distinct_endOfInterrupt (h.lr cpu) hp.2)

/-- **One List Register for an INTID.** In every state that is reached from empty List Registers by
any sequence of injections, maintenance interrupts, saves, restores, acknowledgements and
completions on any CPUs, no two List Registers in use hold the same INTID, and a failed injection
finds every List Register in use with another INTID and changes nothing. -/
theorem one_lr_per_intId {events : List (LrEvent V)} {s : LrFile V}
    (h : Run LrFile.Initial LrFile.Step events s) (cpu : Cpu) :
    (∀ i < s.vgic.supportedLrn, ∀ j < s.vgic.supportedLrn, i ≠ j →
      isInactive (s.vgic.lr cpu i) = false → isInactive (s.vgic.lr cpu j) = false →
        virtualId (s.vgic.lr cpu i) ≠ virtualId (s.vgic.lr cpu j)) ∧
    ∀ entry, (addVirtualInterrupt s.vgic cpu entry).1 = false →
      (∀ i < s.vgic.supportedLrn, isInactive (s.vgic.lr cpu i) = false ∧
        virtualId (s.vgic.lr cpu i) ≠ virtualId entry) ∧
      (addVirtualInterrupt s.vgic cpu entry).2 = s.vgic := by
  have hok : s.Ok := by
    refine h.invariant (fun s hs => ⟨fun c => ?_, fun vm => ?_⟩) fun s event t hok => hok.step
    · exact distinct_of_inactive fun i => by rw [hs.1]; decide
    · exact distinct_of_inactive fun i => by rw [hs.2]; decide
  refine ⟨fun i hi j hj hne hui huj hid => ?_, fun entry hfalse => ?_⟩
  · exact hne (hok.lr cpu i hi j hj hui huj hid)
  · have hins := inserted_addVirtualInterrupt s.vgic cpu entry
    rw [hfalse] at hins
    generalize (addVirtualInterrupt s.vgic cpu entry).2 = w at hins ⊢
    cases hins with
    | full hfull => exact ⟨hfull, rfl⟩

end LrFile

instance {V : Type} (s : LrFile V) (event : LrEvent V) : Decidable (s.Possible event) := by
  cases event with
  | acknowledge cpu i => exact inferInstanceAs
      (Decidable (Gic.Possible s.vgic (.acknowledge cpu i)))
  | endOfInterrupt cpu i =>
    exact inferInstanceAs (Decidable (Gic.Possible s.vgic (.endOfInterrupt cpu i)))
  | _ => exact inferInstanceAs (Decidable True)

/-- The events that are possible, as a function. -/
def LrFile.perform {V : Type} [DecidableEq V] (s : LrFile V) (event : LrEvent V) :
    Option (LrFile V) :=
  if s.Possible event then (s.exec event).toOption else none

theorem LrFile.step_of_perform {V : Type} [DecidableEq V] (s : LrFile V) (event : LrEvent V)
    (s' : LrFile V) (h : s.perform event = some s') : s.Step event s' := by
  unfold LrFile.perform at h
  split at h
  · next hp => exact ⟨hp, toOption_eq_some h⟩
  · cases h

/-- Empty List Registers on CPUs with four of them, and one context. -/
def LrFile.empty : LrFile Unit := ⟨.new 1 4 30, fun _ _ => 0⟩

/-- Two INTIDs, the first of which is acknowledged and then injected again behind a switch. -/
def injectedAgain : List (LrEvent Unit) :=
  [.add 0 (createListRegisterEntry 33 0 0 none), .add 0 (createListRegisterEntry 34 0 0 none),
    .acknowledge 0 0, .save 0 (), .restore 0 (), .add 0 (createListRegisterEntry 33 0 0 none)]

theorem one_lr_per_intId_again : ∃ s : LrFile Unit,
    Run LrFile.Initial LrFile.Step injectedAgain s ∧
      isInactive (s.vgic.lr 0 0) = false ∧ isInactive (s.vgic.lr 0 1) = false ∧
        virtualId (s.vgic.lr 0 0) ≠ virtualId (s.vgic.lr 0 1) := by
  have hcheck : (follow LrFile.perform LrFile.empty injectedAgain).any (fun s =>
      !isInactive (s.vgic.lr 0 0) && !isInactive (s.vgic.lr 0 1) && s.vgic.supportedLrn == 4) =
        true := by decide +kernel
  obtain ⟨s, hs, hc⟩ := (Option.any_eq_true _ _).1 hcheck
  simp only [Bool.and_eq_true, Bool.not_eq_true', beq_iff_eq] at hc
  have hempty : Run LrFile.Initial LrFile.Step [] LrFile.empty :=
    .start ⟨fun _ _ => rfl, fun _ _ => rfl⟩
  have hrun : Run LrFile.Initial LrFile.Step injectedAgain s :=
    hempty.follow LrFile.step_of_perform injectedAgain hs
  refine ⟨s, hrun, hc.1.1, hc.1.2, ?_⟩
  exact (one_lr_per_intId hrun 0).1 0 (by omega) 1 (by omega) (by decide) hc.1.1 hc.1.2

end MiniVisor.Gic
