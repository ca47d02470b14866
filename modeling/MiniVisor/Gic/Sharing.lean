import MiniVisor.Gic.Injection

/-!
# VMs that share the List Registers of a CPU

Each VM has its own Distributor; the List Registers of a CPU belong to the VM that runs on it, and a
switch saves and restores them. `Machine` is the state of all VMs: `current` is the VM in
`TPIDR_EL2` of each CPU and `activeVm` the one that gets the console input. The functions of a VM's
Distributor are those of `Vgic`, on the `view` of the machine that the VM has.

`origin` records, for each List Register, the VM whose Distributor wrote it last; no function reads
it. An interrupt stays with its VM when the List Registers in use on a CPU are those of the VM that
runs there (`Machine.Owned`). The main result, `stays_with_vm_iff`, is that this holds along a run
exactly when no console input writes a List Register on a CPU that runs another VM than the active
one.
-/

set_option autoImplicit false

namespace MiniVisor.Gic

open MiniVisor.Lib

/-! ## The machine -/

structure Machine (V : Type) where
  distributor : V → GicDistributorMmio
  numberOfLrn : Nat
  timerIntId : Word
  lr : Cpu → Nat → Word
  /-- `gich_lr` of the saved contexts. -/
  saved : V → Nat → Word
  /-- `TPIDR_EL2`. -/
  current : Cpu → Option V
  /-- `ACTIVE_VM`. -/
  activeVm : Option V
  origin : Cpu → Nat → Option V
  savedOrigin : V → Nat → Option V

/-- What happens on a CPU. -/
inductive Event (V : Type) where
  /-- An access, a device completion or an interrupt of the VM that runs on the CPU, or a transition
  of its guest. -/
  | vm (action : Action)
  /-- A trigger of `input_uart`, for the active VM. -/
  | input (cpu : Cpu) (intId : Nat)
  /-- `try_yield_to_next_vcpu`; any VM may be the next one. -/
  | yield (cpu : Cpu) (next : V)
  /-- `switch_active_vm`. -/
  | switchActive (vm : V)

section Machine

variable {V : Type} [DecidableEq V]

namespace Machine

/-- The Distributor of a VM and the interrupt hardware. -/
def view (m : Machine V) (a : V) : Vgic where
  distributor := m.distributor a
  numberOfLrn := m.numberOfLrn
  lr := m.lr
  timerIntId := m.timerIntId
  outstanding _ _ := false

/-- The machine after the code of a VM's Distributor ran. -/
def put (m : Machine V) (a : V) (v : Vgic) : Machine V :=
  { m with
    distributor := fun b => if b = a then v.distributor else m.distributor b
    lr := v.lr
    origin := fun cpu i => if v.lr cpu i = m.lr cpu i then m.origin cpu i else some a }

/-- The machine after a transition of the guest, which writes no entry. -/
def transition (m : Machine V) (v : Vgic) : Machine V := { m with lr := v.lr }

/-- `save_context`, for the List Registers. -/
def saveContext (m : Machine V) (cpu : Cpu) (a : V) : Machine V :=
  { m with
    saved := fun b => if b = a then copyLrs (m.lr cpu) (m.saved b) else m.saved b
    savedOrigin := fun b =>
      if b = a then copyLrs (m.origin cpu) (m.savedOrigin b) else m.savedOrigin b }

/-- `restore_context`, for the List Registers, and the rest of a switch. -/
def switchTo (m : Machine V) (cpu : Cpu) (next : V) : Machine V :=
  { m with
    lr := fun c => if c = cpu then copyLrs (m.saved next) (m.lr c) else m.lr c
    origin := fun c => if c = cpu then copyLrs (m.savedOrigin next) (m.origin c) else m.origin c
    current := fun c => if c = cpu then some next else m.current c
    activeVm := some next }

def exec (m : Machine V) : Event V → Except Fault (Machine V)
  | .vm action =>
    match m.current action.cpu with
    | none => .error .unwrapNone
    | some a => do
      let v ← Gic.exec (m.view a) action
      return if action.isGuest then m.transition v else m.put a v
  | .input cpu intId =>
    match m.activeVm with
    | none => .error .unwrapNone
    | some a => do
      let (_, v) ← triggerInterruptTo (m.view a) cpu intId none (m.distributor a).ownTarget
      return m.put a v
  | .yield cpu next =>
    match m.current cpu with
    | none => .error .unwrapNone
    | some a => .ok ((m.saveContext cpu a).switchTo cpu next)
  | .switchActive a => .ok { m with activeVm := some a }

/-- The guest's transitions are those of its List Registers. -/
def Possible (m : Machine V) : Event V → Prop
  | .vm action => ∀ a, m.current action.cpu = some a → Gic.Possible (m.view a) action
  | _ => True

def Step (m : Machine V) (event : Event V) (m' : Machine V) : Prop :=
  m.Possible event ∧ m.exec event = .ok m'

/-- The number of List Registers that are used. -/
def supportedLrn (m : Machine V) : Nat := min m.numberOfLrn 4

/-- The machine after start-up: nothing is in a List Register or in a context. -/
def new (distributor : V → GicDistributorMmio) (numberOfLrn : Nat) (timerIntId : Word)
    (current : Cpu → Option V) (activeVm : Option V) : Machine V where
  distributor := distributor
  numberOfLrn := numberOfLrn
  timerIntId := timerIntId
  lr _ _ := 0
  saved _ _ := 0
  current := current
  activeVm := activeVm
  origin _ _ := none
  savedOrigin _ _ := none

end Machine

end Machine

/-! ## Interrupts that stay with their VM -/

section Owned

variable {V : Type} [DecidableEq V]

namespace Machine

/-- The List Registers in use hold interrupts of the VM that runs on the CPU, and those in a context
hold interrupts of the context's VM. -/
structure Owned (m : Machine V) : Prop where
  lr : ∀ cpu, ∀ i < 4, isInactive (m.lr cpu i) = false → m.origin cpu i = m.current cpu
  saved : ∀ a, ∀ i < 4, isInactive (m.saved a i) = false → m.savedOrigin a i = some a

structure DistinctLrs (m : Machine V) : Prop where
  lr : ∀ cpu, Distinct m.supportedLrn (m.lr cpu)
  saved : ∀ a, Distinct m.supportedLrn (m.saved a)

/-- The VM, the INTID and the targets of the trigger that an event makes. -/
def trigger (m : Machine V) : Event V → Option (V × Nat × Target)
  | .input _ intId => m.activeVm.map fun a => (a, intId, (m.distributor a).ownTarget)
  | .vm (.trigger cpu intId targets) => (m.current cpu).map fun a => (a, intId, targets)
  | .vm (.write cpu offset accessWidth value) =>
    if decode offset = some .sgir ∧ accessWidth = 32 then
      (m.current cpu).map fun a =>
        (a, ((value.truncate 32 : Word) &&& 0xF).toNat, sgirTargets cpu value)
    else none
  | _ => none

/-- The trigger of an event is pending in the Distributor of its VM. -/
def Retained (m : Machine V) (event : Event V) (m' : Machine V) : Prop :=
  ∀ a intId targets, m.trigger event = some (a, intId, targets) →
    ∀ t, (targets &&& targetOf t) ≠ 0 → bitOf (m'.distributor a) .pending t intId = true

/-- Console input for a VM that does not run on the CPU leaves its List Registers alone: the CPU is
no target of the VM, or the INTID is disabled, or the INTID is pending there already, or all List
Registers are in use with other INTIDs. -/
def Harmless (m : Machine V) : Event V → Prop
  | .input cpu intId => ∀ a, m.activeVm = some a → m.current cpu ≠ some a →
      ((m.distributor a).ownTarget &&& targetOf cpu) ≠ 0 ∧ Enabled (m.distributor a) cpu intId →
        AbsorbedBy (m.view a) cpu intId
  | _ => True

variable {m m' : Machine V}

/-- The List Registers are as before, or they changed only on a CPU that runs the VM. -/
theorem Owned.put (h : m.Owned) {a : V} {v : Vgic}
    (hlr : ∀ cpu i, v.lr cpu i ≠ m.lr cpu i → m.current cpu = some a) : (m.put a v).Owned := by
  refine ⟨fun cpu i hi huse => ?_, h.saved⟩
  show (if v.lr cpu i = m.lr cpu i then m.origin cpu i else some a) = m.current cpu
  split
  · next heq =>
    have huse' : isInactive (v.lr cpu i) = false := huse
    rw [heq] at huse'
    exact h.lr cpu i hi huse'
  · next hne => exact (hlr cpu i hne).symm

theorem Owned.put_of_moves (h : m.Owned) {a : V} {v : Vgic} {cpu : Cpu}
    (hmoves : Moves cpu (m.view a) v) (hcur : m.current cpu = some a) : (m.put a v).Owned := by
  refine h.put fun c i hne => ?_
  by_cases hc : c = cpu
  · rw [hc]
    exact hcur
  · exact absurd (congrFun (hmoves.lr_other hc) i) hne

theorem Owned.put_of_lr_eq (h : m.Owned) {a : V} {v : Vgic} (hlr : v.lr = m.lr) :
    (m.put a v).Owned :=
  h.put fun cpu i hne => absurd (congrFun (congrFun hlr cpu) i) hne

omit [DecidableEq V] in
/-- A transition of the guest changes a List Register that was in use. -/
theorem Owned.transition (h : m.Owned) {a : V} {v : Vgic} {cpu : Cpu} {k : Nat} {value : Word}
    (hv : v.lr = ((m.view a).setLr cpu k value).lr) (huse : isInactive (m.lr cpu k) = false) :
    (m.transition v).Owned := by
  refine ⟨fun c i hi hu => ?_, h.saved⟩
  have hu' : isInactive (v.lr c i) = false := hu
  show m.origin c i = m.current c
  apply h.lr c i hi
  by_cases hc : c = cpu ∧ i = k
  · rw [hc.1, hc.2]
    exact huse
  · rw [hv, lr_setLr_of_ne _ _ hc] at hu'
    exact hu'

/-- The List Registers of a CPU are saved in the context of the VM that runs on it. -/
theorem Owned.saveContext (h : m.Owned) {cpu : Cpu} {a : V} (hcur : m.current cpu = some a) :
    (m.saveContext cpu a).Owned := by
  refine ⟨h.lr, fun b i hi huse => ?_⟩
  simp only [Machine.saveContext] at huse ⊢
  by_cases hb : b = a
  · rw [if_pos hb, copyLrs_of_lt _ _ hi] at huse ⊢
    rw [h.lr cpu i hi huse, hcur, hb]
  · rw [if_neg hb] at huse ⊢
    exact h.saved b i hi huse

omit [DecidableEq V] in
theorem Owned.switchTo (h : m.Owned) (cpu : Cpu) (next : V) : (m.switchTo cpu next).Owned := by
  refine ⟨fun c i hi huse => ?_, h.saved⟩
  simp only [Machine.switchTo] at huse ⊢
  by_cases hc : c = cpu
  · rw [if_pos hc, copyLrs_of_lt _ _ hi] at huse ⊢
    rw [if_pos hc]
    exact h.saved next i hi huse
  · rw [if_neg hc] at huse ⊢
    rw [if_neg hc]
    exact h.lr c i hi huse

/-! ### Distinct List Registers -/

theorem DistinctLrs.put (h : m.DistinctLrs) {a : V} {v : Vgic} {cpu : Cpu}
    (hmoves : Moves cpu (m.view a) v) : (m.put a v).DistinctLrs := by
  refine ⟨fun c => ?_, h.saved⟩
  show Distinct m.supportedLrn (v.lr c)
  by_cases hc : c = cpu
  · have hd := hmoves.distinct (h.lr cpu)
    unfold Vgic.supportedLrn at hd
    rw [hmoves.numberOfLrn] at hd
    rw [hc]
    exact hd
  · rw [hmoves.lr_other hc]
    exact h.lr c

omit [DecidableEq V] in
theorem DistinctLrs.transition (h : m.DistinctLrs) {a : V} {v : Vgic} {cpu : Cpu} {k : Nat}
    {value : Word} (hv : v.lr = ((m.view a).setLr cpu k value).lr)
    (hd : Distinct m.supportedLrn fun j => if j = k then value else m.lr cpu j) :
    (m.transition v).DistinctLrs := by
  refine ⟨fun c => ?_, h.saved⟩
  show Distinct m.supportedLrn (v.lr c)
  rw [hv]
  by_cases hc : c = cpu
  · rw [hc, lr_setLr_same]
    exact hd
  · have hother : ((m.view a).setLr cpu k value).lr c = m.lr c :=
      funext fun j => lr_setLr_of_ne _ _ fun h => hc h.1
    rw [hother]
    exact h.lr c

theorem DistinctLrs.saveContext (h : m.DistinctLrs) (cpu : Cpu) (a : V) :
    (m.saveContext cpu a).DistinctLrs := by
  refine ⟨h.lr, fun b => ?_⟩
  show Distinct m.supportedLrn (if b = a then _ else _)
  split
  · exact (h.lr cpu).copyLrs (Nat.min_le_right _ _)
  · exact h.saved b

omit [DecidableEq V] in
theorem DistinctLrs.switchTo (h : m.DistinctLrs) (cpu : Cpu) (next : V) :
    (m.switchTo cpu next).DistinctLrs := by
  refine ⟨fun c => ?_, h.saved⟩
  show Distinct m.supportedLrn (if c = cpu then _ else _)
  split
  · exact (h.saved next).copyLrs (Nat.min_le_right _ _)
  · exact h.lr c

/-! ### Steps -/

/-- An event of the VM that runs on a CPU is an event of its `view`. -/
theorem step_view {action : Action} (h : m.Step (.vm action) m') :
    ∃ a v, m.current action.cpu = some a ∧ Gic.Possible (m.view a) action ∧
      Gic.exec (m.view a) action = .ok v ∧
        m' = if action.isGuest then m.transition v else m.put a v := by
  obtain ⟨hp, h⟩ := h
  simp only [Machine.exec] at h
  cases hcur : m.current action.cpu with
  | none =>
    rw [hcur] at h
    cases h
  | some a =>
    rw [hcur] at h
    obtain ⟨v, hv, h⟩ := bind_eq_ok.1 h
    cases h
    exact ⟨a, v, rfl, hp a hcur, hv, rfl⟩

/-- It is a sequence of moves, or a transition of the guest, which changes a List Register in use
and keeps its INTID. -/
theorem step_vm {action : Action} (h : m.Step (.vm action) m') :
    ∃ a, m.current action.cpu = some a ∧
      ((∃ v, Moves action.cpu (m.view a) v ∧ m' = m.put a v) ∨
        ∃ v k value, v.lr = ((m.view a).setLr action.cpu k value).lr ∧
          isInactive (m.lr action.cpu k) = false ∧ virtualId value = virtualId (m.lr action.cpu k) ∧
            m' = m.transition v) := by
  obtain ⟨a, v, hcur, hpos, hv, rfl⟩ := step_view h
  refine ⟨a, hcur, ?_⟩
  cases hg : action.isGuest with
  | false => exact Or.inl ⟨v, moves_exec hg hv, rfl⟩
  | true =>
    refine Or.inr ⟨v, ?_⟩
    cases action with
    | acknowledge cpu i =>
      cases hv
      exact ⟨i, _, rfl, isInactive_of_isPending _ hpos.2.1, virtualId_acknowledge _, rfl⟩
    | endOfInterrupt cpu i =>
      cases hv
      exact ⟨i, _, rfl, isInactive_of_isActive hpos.2, virtualId_endOfInterrupt _, rfl⟩
    | _ => cases hg

theorem step_input {cpu : Cpu} {intId : Nat} (h : m.Step (.input cpu intId) m') :
    ∃ a added v, m.activeVm = some a ∧ m' = m.put a v ∧
      triggerInterruptTo (m.view a) cpu intId none (m.distributor a).ownTarget = .ok
        (added, v) := by
  have h := h.2
  simp only [Machine.exec] at h
  cases hact : m.activeVm with
  | none =>
    rw [hact] at h
    cases h
  | some a =>
    rw [hact] at h
    obtain ⟨r, hr, h⟩ := bind_eq_ok.1 h
    cases h
    exact ⟨a, r.1, r.2, rfl, rfl, hr⟩

theorem step_yield {cpu : Cpu} {next : V} (h : m.Step (.yield cpu next) m') :
    ∃ a, m.current cpu = some a ∧ m' = (m.saveContext cpu a).switchTo cpu next := by
  have h := h.2
  simp only [Machine.exec] at h
  cases hcur : m.current cpu with
  | none =>
    rw [hcur] at h
    cases h
  | some a =>
    rw [hcur] at h
    cases h
    exact ⟨a, rfl, rfl⟩

theorem DistinctLrs.step (hd : m.DistinctLrs) {event : Event V} (h : m.Step event m') :
    m'.DistinctLrs := by
  cases event with
  | vm action =>
    obtain ⟨a, -, ⟨v, hmoves, rfl⟩ | ⟨v, k, value, hv, huse, hid, rfl⟩⟩ := step_vm h
    · exact hd.put hmoves
    · exact hd.transition hv ((hd.lr _).update fun _ => ⟨huse, hid⟩)
  | input cpu intId =>
    obtain ⟨a, added, v, -, rfl, hv⟩ := step_input h
    exact hd.put (moves_triggerInterruptTo hv)
  | yield cpu next =>
    obtain ⟨a, -, rfl⟩ := step_yield h
    exact (hd.saveContext cpu a).switchTo cpu next
  | switchActive a =>
    cases h.2
    exact ⟨hd.lr, hd.saved⟩

/-- Console input keeps the List Registers with their VMs exactly when it is harmless. -/
theorem owned_input_iff (hd : m.DistinctLrs) (ho : m.Owned) {cpu : Cpu} {intId : Nat}
    (h : m.Step (.input cpu intId) m') : m'.Owned ↔ m.Harmless (.input cpu intId) := by
  obtain ⟨a, added, v, hact, rfl, hv⟩ := step_input h
  have hinj := triggerInterruptTo_lr hv
  constructor
  · intro ho' b hb hcur hreach
    obtain rfl : a = b := Option.some.inj (hact.symm.trans hb)
    by_contra habs
    obtain ⟨i, hi, huse, hne⟩ := ((hinj.yes hreach).changes (hd.lr cpu)).2 habs
    -- The List Register that changed belongs to the active VM, which does not run here.
    have horigin : (if v.lr cpu i = m.lr cpu i then m.origin cpu i else some a) = m.current cpu :=
      ho'.lr cpu i (hi.trans_le (supportedLrn_le _)) huse
    have hchanged : v.lr cpu i ≠ m.lr cpu i := hne
    rw [if_neg hchanged] at horigin
    exact hcur horigin.symm
  · intro hharm
    by_cases hcur : m.current cpu = some a
    · exact ho.put_of_moves (moves_triggerInterruptTo hv) hcur
    · apply ho.put_of_lr_eq
      by_cases hreach : ((m.distributor a).ownTarget &&& targetOf cpu) ≠ 0 ∧
          Enabled (m.distributor a) cpu intId
      · exact ((hinj.yes hreach).changes (hd.lr cpu)).1 (hharm a hact hcur hreach)
      · exact hinj.no hreach

theorem owned_step_iff (hd : m.DistinctLrs) (ho : m.Owned) {event : Event V}
    (h : m.Step event m') : m'.Owned ↔ m.Harmless event := by
  cases event with
  | vm action =>
    refine iff_of_true ?_ trivial
    obtain ⟨a, hcur, ⟨v, hmoves, rfl⟩ | ⟨v, k, value, hv, huse, -, rfl⟩⟩ := step_vm h
    · exact ho.put_of_moves hmoves hcur
    · exact ho.transition hv huse
  | input cpu intId => exact owned_input_iff hd ho h
  | yield cpu next =>
    refine iff_of_true ?_ trivial
    obtain ⟨a, hcur, rfl⟩ := step_yield h
    exact (ho.saveContext hcur).switchTo cpu next
  | switchActive a =>
    refine iff_of_true ?_ trivial
    cases h.2
    exact ⟨ho.lr, ho.saved⟩

theorem distributor_put (m : Machine V) (a : V) (v : Vgic) :
    (m.put a v).distributor a = v.distributor := if_pos rfl

/-- Every trigger is pending in the Distributor of its VM. -/
theorem retained_step {event : Event V} (h : m.Step event m') : m.Retained event m' := by
  intro a intId targets htrig t ht
  cases event with
  | input cpu i =>
    obtain ⟨b, added, v, hact, rfl, hv⟩ := step_input h
    simp only [Machine.trigger, hact, Option.map_some, Option.some.injEq, Prod.mk.injEq] at htrig
    obtain ⟨rfl, rfl, rfl⟩ := htrig
    rw [distributor_put]
    exact pending_triggerInterruptTo hv t ht
  | vm action =>
    cases action with
    | trigger cpu i l =>
      obtain ⟨b, v, hcur, -, hv, rfl⟩ := step_view h
      have hcur' : m.current cpu = some b := hcur
      simp only [Machine.trigger, hcur', Option.map_some, Option.some.injEq, Prod.mk.injEq] at htrig
      obtain ⟨rfl, rfl, rfl⟩ := htrig
      obtain ⟨r, hr, hv⟩ := bind_eq_ok.1 hv
      cases hv
      show bitOf ((m.put b r.2).distributor b) .pending t i = true
      rw [distributor_put]
      exact pending_triggerInterruptTo hr t ht
    | write cpu offset accessWidth value =>
      obtain ⟨b, v, hcur, -, hv, rfl⟩ := step_view h
      have hcur' : m.current cpu = some b := hcur
      simp only [Machine.trigger, hcur', Option.map_some] at htrig
      split at htrig
      · next hsgir =>
        simp only [Option.some.injEq, Prod.mk.injEq] at htrig
        obtain ⟨rfl, rfl, rfl⟩ := htrig
        simp only [Gic.exec, write, hsgir.1, hsgir.2, if_true] at hv
        obtain ⟨r, hr, hv⟩ := bind_eq_ok.1 hv
        cases hv
        show bitOf ((m.put b r.2).distributor b) .pending t _ = true
        rw [distributor_put]
        exact pending_triggerInterruptTo hr t ht
      · cases htrig
    | _ => cases htrig
  | _ => cases htrig

end Machine

/-- **Interrupts stay with their VM** along a run, whatever the VMs, the CPUs that they share and
the order of the events, exactly when all console input is harmless. Every trigger is kept in the
Distributor of its VM in any case. -/
theorem stays_with_vm_iff (distributor : V → GicDistributorMmio) (numberOfLrn : Nat)
    (timerIntId : Word) (current : Cpu → Option V) (activeVm : Option V) (events : List (Event V)) :
    Along Machine.Step (fun m event m' => m'.Owned ∧ m.Retained event m')
        (Machine.new distributor numberOfLrn timerIntId current activeVm) events ↔
      Along Machine.Step (fun m event _ => m.Harmless event)
        (Machine.new distributor numberOfLrn timerIntId current activeVm) events := by
  have hzero : isInactive (0 : Word) = true := by decide
  have hunused : isInactive (0 : Word) ≠ false := by decide
  refine along_congr (fun m => m.DistinctLrs ∧ m.Owned) ?_ ?_ events _ ⟨⟨?_, ?_⟩, ⟨?_, ?_⟩⟩
  · intro m event m' hinv h
    rw [and_iff_left (Machine.retained_step h)]
    exact Machine.owned_step_iff hinv.1 hinv.2 h
  · exact fun m event m' hinv h hP => ⟨hinv.1.step h, hP.1⟩
  · exact fun cpu => distinct_of_inactive fun _ => hzero
  · exact fun a => distinct_of_inactive fun _ => hzero
  · exact fun cpu i _ huse => absurd huse hunused
  · exact fun a i _ huse => absurd huse hunused

/-- The events that are possible, as a function. -/
def Machine.perform (m : Machine V) (event : Event V) : Option (Machine V) :=
  match event with
  | .vm action =>
    match m.current action.cpu with
    | none => none
    | some a => if Gic.Possible (m.view a) action then (m.exec (.vm action)).toOption else none
  | event => (m.exec event).toOption

theorem Machine.step_of_perform (m : Machine V) (event : Event V) (m' : Machine V)
    (h : m.perform event = some m') : m.Step event m' := by
  cases event with
  | vm action =>
    simp only [Machine.perform] at h
    cases hcur : m.current action.cpu with
    | none =>
      rw [hcur] at h
      cases h
    | some a =>
      rw [hcur] at h
      dsimp only at h
      split at h
      · next hp =>
        refine ⟨fun b hb => ?_, toOption_eq_some h⟩
        rw [hcur] at hb
        cases hb
        exact hp
      · cases h
  | _ => exact ⟨trivial, toOption_eq_some h⟩

end Owned

/-- VM `false` enables its console interrupt and yields CPU 0 to VM `true`; then the console is
switched back to VM `false`. -/
def consoleSwitchedBack : List (Event Bool) :=
  [.vm (.write 0 0x0000 32 1), .vm (.write 0 0x0104 32 2), .yield 0 true, .switchActive false]

/-- The console input is then injected into the VM that runs on the CPU. -/
theorem input_reaches_other_vm :
    ¬Along Machine.Step (fun m event m' => m'.Owned ∧ m.Retained event m')
      (Machine.new (fun _ => .new (targetOf 0)) 4 30 (fun _ => some false) (some false))
      (consoleSwitchedBack ++ [.input 0 33]) := by
  intro hal
  have hcheck : ((follow Machine.perform
      (Machine.new (fun _ => .new (targetOf 0)) 4 30 (fun _ => some false) (some false))
      consoleSwitchedBack).bind fun m => m.perform (.input 0 33)).any (fun m =>
        !isInactive (m.lr 0 0) && m.origin 0 0 == some false && m.current 0 == some true) =
          true := by
    decide +kernel
  obtain ⟨m', hm', hc⟩ := (Option.any_eq_true _ _).1 hcheck
  obtain ⟨m, hm, hm'⟩ := Option.bind_eq_some_iff.1 hm'
  simp only [Bool.and_eq_true, Bool.not_eq_true', beq_iff_eq] at hc
  have howned := (hal.last Machine.step_of_perform consoleSwitchedBack hm hm').1.lr 0 0 (by decide)
    hc.1.1
  rw [hc.1.2, hc.2] at howned
  cases howned

end MiniVisor.Gic
