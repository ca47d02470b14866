import MiniVisor.Lib.Transition
import MiniVisor.Vm.Model

/-!
# Cooperative scheduling on one physical CPU

A physical CPU with several VMs of its own changes between them when a guest executes `WFI`
(`wfx_handler`) and when a guest retires with `CPU_OFF` (`handle_guest_cpu_off`). `Step` is one such
event on a fixed CPU, with the VM that ran before it and the VM whose context it restored.

A VM that retired stays in `VM_LIST`, and neither choice of the next VM looks at that.
`NeverResumed` says that a run does not restore the context of a retired VM or put its `vm_id` into
`TPIDR_EL2`; `never_resumed_iff` proves that these are exactly the runs in which every step goes to
a VM that has not retired (`LiveTarget`), a condition on the order of the list before the step.
-/

set_option autoImplicit false

namespace MiniVisor.Vm

open MiniVisor.Lib

/-- The VMs created on the CPU, in the order of `VM_LIST`. -/
def owned (vmList : List VM) (p : Nat) : List VM :=
  vmList.filter fun vm => vm.ownerAffinity == p

/-! ## The two choices -/

theorem findNextSameAffinityVcpu_eq (vmList : List VM) (current p : Nat) :
    findNextSameAffinityVcpu vmList current p =
      if (owned vmList p).length ≤ 1 then none
      else ((owned vmList p).findIdx? fun vm => vm.vmId == current).bind
        fun i => (owned vmList p)[(i + 1) % (owned vmList p).length]? := rfl

theorem findOtherSameAffinityVcpu_eq (vmList : List VM) (retiring p : Nat) :
    findOtherSameAffinityVcpu vmList retiring p =
      (owned vmList p).find? fun vm => vm.vmId != retiring := by
  rw [findOtherSameAffinityVcpu, owned, List.find?_filter]
  congr 1
  funext vm
  rw [Bool.eq_iff_iff]
  simp

/-! ## Steps -/

inductive Action where
  | yield
  | cpuOff
  deriving DecidableEq, Repr

/-- One event: the VM that ran, the VM whose context was restored, and `TPIDR_EL2` afterwards. -/
structure Event where
  action : Action
  ran : Nat
  restored : Option Nat
  tpidrEl2 : Nat
  deriving DecidableEq, Repr

/-- The event is a `CPU_OFF` that switched away from the VM. -/
def Event.Retires (event : Event) : Prop := event.action = .cpuOff ∧ event.restored ≠ none

instance (event : Event) : Decidable event.Retires := inferInstanceAs (Decidable (_ ∧ _))

def handle (s : System) (p : Nat) : Action → Except Fault (Option Nat × System)
  | .yield => wfxHandler s p
  | .cpuOff => handleGuestCpuOff s p

/-- The system, with the VMs that have retired on the CPU. -/
structure Scheduled where
  system : System
  retired : List Nat

/-- The guest on the CPU executes `WFI` or `CPU_OFF`. -/
structure Step (p : Nat) (σ : Scheduled) (event : Event) (σ' : Scheduled) : Prop where
  guest : (σ.system.pcpus p).mode = .guest
  ran : event.ran = (σ.system.pcpus p).tpidrEl2
  handle : handle σ.system p event.action = .ok (event.restored, σ'.system)
  tpidrEl2 : event.tpidrEl2 = (σ'.system.pcpus p).tpidrEl2
  retired : σ'.retired = if event.Retires then event.ran :: σ.retired else σ.retired

/-- Any VMs, one of which runs on the CPU. No VM has retired. -/
structure Starts (p : Nat) (σ : Scheduled) : Prop where
  distinct : (σ.system.vmList.map VM.vmId).Nodup
  current : ∃ vm ∈ σ.system.vmList, vm.vmId = (σ.system.pcpus p).tpidrEl2
  guest : (σ.system.pcpus p).mode = .guest
  retired : σ.retired = []

/-- For every two events in order: when the first is the retirement of a VM, the second neither
restores its context nor leaves its `vm_id` in `TPIDR_EL2`. -/
def NeverResumed (events : List Event) : Prop :=
  events.Pairwise fun x y => x.Retires → y.restored ≠ some x.ran ∧ y.tpidrEl2 ≠ x.ran

/-- The VM that the step would go to has not retired: for a yield, the one that follows the running
VM in the cyclic order of the VMs of the CPU, for `CPU_OFF` the first one that is not running. -/
def LiveTarget (p : Nat) (σ : Scheduled) : Action → Prop
  | .yield =>
    ∀ i next, ((owned σ.system.vmList p)[i]?).map VM.vmId = some (σ.system.pcpus p).tpidrEl2 →
      1 < (owned σ.system.vmList p).length →
      (owned σ.system.vmList p)[(i + 1) % (owned σ.system.vmList p).length]? = some next →
      next.vmId ∉ σ.retired
  | .cpuOff =>
    ∀ l next r, owned σ.system.vmList p = l ++ next :: r →
      (∀ vm ∈ l, vm.vmId = (σ.system.pcpus p).tpidrEl2) →
      next.vmId ≠ (σ.system.pcpus p).tpidrEl2 → next.vmId ∉ σ.retired

/-! ## What a step does -/

/-- The VM that the handler of an action goes to. -/
def target (s : System) (p : Nat) : Action → Option VM
  | .yield => findNextSameAffinityVcpu s.vmList (s.pcpus p).tpidrEl2 p
  | .cpuOff => findOtherSameAffinityVcpu s.vmList (s.pcpus p).tpidrEl2 p

@[simp] theorem modifyCpu_pcpus_self (s : System) (p : Nat) (f : Pcpu → Pcpu) :
    (s.modifyCpu p f).pcpus p = f (s.pcpus p) := if_pos rfl

theorem modifyCpu_pcpus_of_ne (s : System) {p q : Nat} (f : Pcpu → Pcpu) (h : q ≠ p) :
    (s.modifyCpu p f).pcpus q = s.pcpus q := if_neg h

theorem getCurrentVm_eq_ok {s : System} {p : Nat} {vm : VM} (h : getCurrentVm s p = .ok vm) :
    vm ∈ s.vmList ∧ vm.vmId = (s.pcpus p).tpidrEl2 := by
  unfold getCurrentVm at h
  split at h
  · rename_i found hfind
    cases h
    exact ⟨List.mem_of_find?_eq_some hfind, by simpa using List.find?_some hfind⟩
  · cases h

/-- The registers of a guest behind the instruction it is at. -/
def GuestRegisters.behind (r : GuestRegisters) : GuestRegisters := { r with elrEl2 := r.elrEl2 + 4 }

def Pcpu.behind (cpu : Pcpu) : Pcpu := { cpu with loaded := cpu.loaded.behind }

theorem advance_eq_ok {s s' : System} {p : Nat} : s.advance p = .ok s' ↔
    (s.pcpus p).loaded.elrEl2.toNat + 4 < 2 ^ 64 ∧ s' = s.modifyCpu p Pcpu.behind := by
  have hbehind : s.modifyCpu p Pcpu.behind = s.modifyCpu p fun cpu =>
      { cpu with loaded := { cpu.loaded with elrEl2 := (s.pcpus p).loaded.elrEl2 + 4 } } := by
    unfold System.modifyCpu
    congr 1
    funext q
    split
    · next hq =>
      rw [hq]
      rfl
    · rfl
  rw [System.advance, advanceElrEl2_eq, hbehind]
  split
  · next hfits =>
    rw [ok_bind, and_iff_right hfits]
    exact ⟨fun h => (Except.ok.inj h).symm, fun h => congrArg Except.ok h.symm⟩
  · next hfits => exact iff_of_false nofun fun h => hfits h.1

/-- A `WFI` that returns has gone on to the next VM, or behind itself if there is none. -/
theorem wfxHandler_eq_ok {s s' : System} {p : Nat} {restored : Option Nat}
    (h : wfxHandler s p = .ok (restored, s')) :
    (s.pcpus p).loaded.elrEl2.toNat + 4 < 2 ^ 64 ∧ ∃ current, getCurrentVm s p = .ok current ∧
      (findNextSameAffinityVcpu s.vmList current.vmId p = none ∧ restored = none ∧
          s' = s.modifyCpu p Pcpu.behind ∨
        ∃ next, findNextSameAffinityVcpu s.vmList current.vmId p = some next ∧
          restored = some next.vmId ∧
          s' = switchTo (saveContext (s.modifyCpu p Pcpu.behind) p current) p next) := by
  obtain ⟨⟨switched, s₁⟩, hyield, h⟩ := bind_eq_ok.1 h
  obtain ⟨current, hcurrent, hyield⟩ := bind_eq_ok.1 hyield
  split at hyield
  · next hnext =>
    cases hyield
    obtain ⟨s₂, hadvance, h⟩ := bind_eq_ok.1 h
    obtain ⟨hfits, rfl⟩ := advance_eq_ok.1 hadvance
    cases h
    exact ⟨hfits, current, hcurrent, .inl ⟨hnext, rfl, rfl⟩⟩
  · next next hnext =>
    obtain ⟨s₂, hadvance, hyield⟩ := bind_eq_ok.1 hyield
    obtain ⟨hfits, rfl⟩ := advance_eq_ok.1 hadvance
    cases hyield
    cases h
    exact ⟨hfits, current, hcurrent, .inr ⟨next, hnext, rfl, rfl⟩⟩

/-- Both handlers restore the context of their target, if there is one, and set `TPIDR_EL2` to it.
The list of VMs stays as it is. -/
theorem handle_spec {s s' : System} {p : Nat} {action : Action} {restored : Option Nat}
    (h : handle s p action = .ok (restored, s')) :
    restored = (target s p action).map VM.vmId ∧ s'.vmList = s.vmList ∧
      (s'.pcpus p).tpidrEl2 = restored.getD (s.pcpus p).tpidrEl2 := by
  cases action with
  | yield =>
    obtain ⟨-, current, hcurrent, hcases⟩ := wfxHandler_eq_ok h
    rw [(getCurrentVm_eq_ok hcurrent).2] at hcases
    simp only [target]
    rcases hcases with ⟨hnext, rfl, rfl⟩ | ⟨next, hnext, rfl, rfl⟩
    · rw [hnext]
      exact ⟨rfl, rfl, by simp [Pcpu.behind]⟩
    · rw [hnext]
      exact ⟨rfl, rfl, by simp [switchTo, activateStage2TranslationTable]⟩
  | cpuOff =>
    simp only [handle, handleGuestCpuOff, switchToOtherVcpuOnRetire] at h
    simp only [target]
    cases hnext : findOtherSameAffinityVcpu s.vmList (s.pcpus p).tpidrEl2 p with
    | none =>
      simp only [hnext] at h
      split at h
      · cases h
        exact ⟨rfl, rfl, by simp [smpPark]⟩
      · cases h
    | some next =>
      simp only [hnext] at h
      cases h
      exact ⟨rfl, rfl, by simp [switchTo, activateStage2TranslationTable]⟩

/-- A retiring VM is not its own successor. -/
theorem target_cpuOff_ne {s : System} {p : Nat} {next : VM} (h : target s p .cpuOff = some next) :
    next.vmId ≠ (s.pcpus p).tpidrEl2 := by
  have hfound := List.find?_some h
  simp only [Bool.and_eq_true, bne_iff_ne] at hfound
  exact hfound.2

theorem Starts.distinct_of_run {p : Nat} {events : List Event} {σ : Scheduled}
    (h : Run (Starts p) (Step p) events σ) : (σ.system.vmList.map VM.vmId).Nodup := by
  refine h.invariant (fun σ hσ => hσ.distinct) ?_
  intro σ event σ' hσ hstep
  rw [(handle_spec hstep.handle).2.1]
  exact hσ

/-- The condition on the order of the list says that the target of the handler has not retired. -/
theorem liveTarget_iff {p : Nat} {σ : Scheduled} {action : Action}
    (hdistinct : (σ.system.vmList.map VM.vmId).Nodup) :
    LiveTarget p σ action ↔ ∀ next, target σ.system p action = some next →
    next.vmId ∉ σ.retired := by
  cases action with
  | yield =>
    have hnodup : ((owned σ.system.vmList p).map VM.vmId).Nodup :=
      hdistinct.sublist (List.filter_sublist.map VM.vmId)
    simp only [target, findNextSameAffinityVcpu_eq]
    constructor
    · intro h next hnext
      split at hnext
      · cases hnext
      · rename_i hlen
        obtain ⟨i, hpos, hsucc⟩ := Option.bind_eq_some_iff.1 hnext
        obtain ⟨hi, hid, -⟩ := List.findIdx?_eq_some_iff_getElem.1 hpos
        refine h i next ?_ (by omega) hsucc
        rw [List.getElem?_eq_getElem hi]
        exact congrArg some (by simpa using hid)
    · intro h i next hcurrent hlen hsucc
      refine h next ?_
      -- The identifiers are distinct, so the position that the code finds is `i`.
      obtain ⟨vm, hvm, hid⟩ := Option.map_eq_some_iff.1 hcurrent
      obtain ⟨hi, hget⟩ := List.getElem?_eq_some_iff.1 hvm
      have hpos : (owned σ.system.vmList p).findIdx?
          (fun vm => vm.vmId == (σ.system.pcpus p).tpidrEl2) = some i := by
        rw [List.findIdx?_eq_some_iff_getElem]
        refine ⟨hi, by simp [hget, hid], fun j hji => ?_⟩
        simp only [Bool.not_eq_true, beq_eq_false_iff_ne]
        intro heq
        have hij : j = i := by
          have hinj := List.nodup_iff_injective_get.1 hnodup
          have hfin := @hinj ⟨j, by rw [List.length_map]; omega⟩ ⟨i, by rwa [List.length_map]⟩
            (by simp only [List.get_eq_getElem, List.getElem_map, hget, hid, heq])
          exact congrArg Fin.val hfin
        omega
      rw [if_neg (by omega), hpos]
      exact hsucc
  | cpuOff =>
    simp only [LiveTarget, target, findOtherSameAffinityVcpu_eq]
    constructor
    · intro h next hnext
      obtain ⟨hne, l, r, hsplit, hl⟩ := List.find?_eq_some_iff_append.1 hnext
      exact h l next r hsplit (fun vm hvm => by simpa using hl vm hvm) (by simpa using hne)
    · intro h l next r hsplit hl hne
      refine h next (List.find?_eq_some_iff_append.2 ⟨by simpa using hne, l, r, hsplit, ?_⟩)
      intro vm hvm
      simpa using hl vm hvm

/-! ## Runs -/

section Runs

variable {p : Nat} {events : List Event} {σ : Scheduled}

/-- The retired VMs are those that some event of the run retired. -/
theorem mem_retired_iff (h : Run (Starts p) (Step p) events σ) (v : Nat) :
    v ∈ σ.retired ↔ ∃ x ∈ events, x.Retires ∧ x.ran = v := by
  induction h with
  | start h => simp [h.retired]
  | next _ hstep ih =>
    rename_i label _
    rw [hstep.retired]
    by_cases hret : label.Retires
    · rw [if_pos hret, List.mem_cons, ih]
      simp only [List.mem_append, List.mem_singleton]
      constructor
      · rintro (rfl | ⟨x, hx, hx'⟩)
        · exact ⟨label, Or.inr rfl, hret, rfl⟩
        · exact ⟨x, Or.inl hx, hx'⟩
      · rintro ⟨x, hx | rfl, hx'⟩
        · exact Or.inr ⟨x, hx, hx'⟩
        · exact Or.inl hx'.2.symm
    · rw [if_neg hret, ih]
      simp only [List.mem_append, List.mem_singleton]
      constructor
      · rintro ⟨x, hx, hx'⟩
        exact ⟨x, Or.inl hx, hx'⟩
      · rintro ⟨x, hx | rfl, hx'⟩
        · exact ⟨x, hx, hx'⟩
        · exact absurd hx'.1 hret

/-- A step to a live VM. -/
def LiveStep (p : Nat) (σ : Scheduled) (event : Event) (σ' : Scheduled) : Prop :=
  LiveTarget p σ event.action ∧ Step p σ event σ'

theorem LiveStep.run_step (h : Run (Starts p) (LiveStep p) events σ) :
    Run (Starts p) (Step p) events σ :=
  h.mono fun _ _ _ hstep => hstep.2

/-- What a step to a live VM restores, and leaves in `TPIDR_EL2`, has not retired. -/
theorem LiveStep.live {event : Event} {σ' : Scheduled}
    (hdistinct : (σ.system.vmList.map VM.vmId).Nodup)
    (hcurrent : (σ.system.pcpus p).tpidrEl2 ∉ σ.retired) (h : LiveStep p σ event σ') :
    (∀ v ∈ σ.retired, event.restored ≠ some v ∧ event.tpidrEl2 ≠ v) ∧
      (σ'.system.pcpus p).tpidrEl2 ∉ σ'.retired := by
  obtain ⟨hlive, hstep⟩ := h
  obtain ⟨hrestored, -, htpidr⟩ := handle_spec hstep.handle
  rw [liveTarget_iff hdistinct] at hlive
  have hret := hstep.retired
  have hafter := hstep.tpidrEl2
  cases htarget : target σ.system p event.action with
  | none =>
    rw [htarget, Option.map_none] at hrestored
    rw [hrestored, Option.getD_none] at htpidr
    rw [if_neg (fun hc => hc.2 hrestored)] at hret
    rw [hret, htpidr]
    refine ⟨fun v hv => ⟨by simp [hrestored], ?_⟩, hcurrent⟩
    rw [hafter, htpidr]
    rintro rfl
    exact hcurrent hv
  | some next =>
    rw [htarget, Option.map_some] at hrestored
    rw [hrestored, Option.getD_some] at htpidr
    have hnext := hlive next htarget
    refine ⟨fun v hv => ?_, ?_⟩
    · rw [hrestored, hafter, htpidr]
      have hne : next.vmId ≠ v := fun heq => hnext (heq ▸ hv)
      exact ⟨by simpa using hne, hne⟩
    · rw [htpidr, hret]
      split
      · rename_i hretires
        rw [hretires.1] at htarget
        rw [List.mem_cons, not_or, hstep.ran]
        exact ⟨target_cpuOff_ne htarget, hnext⟩
      · exact hnext

theorem LiveStep.current_live (h : Run (Starts p) (LiveStep p) events σ) :
    (σ.system.pcpus p).tpidrEl2 ∉ σ.retired := by
  induction h with
  | start h => simp [h.retired]
  | next hrun hstep ih =>
    exact (LiveStep.live (Starts.distinct_of_run (LiveStep.run_step hrun)) ih hstep).2

theorem LiveStep.neverResumed (h : Run (Starts p) (LiveStep p) events σ) :
    NeverResumed events := by
  induction h with
  | start h => exact List.Pairwise.nil
  | next hrun hstep ih =>
    have hrun' := LiveStep.run_step hrun
    have hlive := (LiveStep.live (Starts.distinct_of_run hrun') (LiveStep.current_live hrun)
      hstep).1
    rw [NeverResumed, List.pairwise_append]
    refine ⟨ih, List.pairwise_singleton _ _, fun x hx y hy hretires => ?_⟩
    rw [List.mem_singleton.1 hy]
    exact hlive x.ran ((mem_retired_iff hrun' _).2 ⟨x, hx, hretires, rfl⟩)

/-- A run resumes no retired VM exactly when each of its steps goes to a VM that has not retired. -/
theorem never_resumed_iff (h : Run (Starts p) (Step p) events σ) :
    NeverResumed events ↔ Run (Starts p) (LiveStep p) events σ := by
  refine ⟨fun hnever => ?_, LiveStep.neverResumed⟩
  induction h with
  | start h => exact .start h
  | next hrun hstep ih =>
    rename_i labels s t label
    rw [NeverResumed, List.pairwise_append] at hnever
    obtain ⟨hbefore, -, hlast⟩ := hnever
    refine .next (ih hbefore)
      ⟨(liveTarget_iff (Starts.distinct_of_run hrun)).2 fun next hnext hmem => ?_, hstep⟩
    -- The target is what the step restored, so it is not the VM of an earlier retirement.
    obtain ⟨x, hx, hretires, hran⟩ := (mem_retired_iff hrun _).1 hmem
    refine (hlast x hx label (by simp) hretires).1 ?_
    rw [(handle_spec hstep.handle).1, hnext, hran]
    rfl

end Runs

/-! ## Two runs -/

/-- The event and the state after an action, as the handlers compute them. -/
def perform (p : Nat) (σ : Scheduled) (action : Action) : Except Fault (Event × Scheduled) := do
  let (restored, system) ← handle σ.system p action
  let event : Event :=
    { action, ran := (σ.system.pcpus p).tpidrEl2, restored, tpidrEl2 := (system.pcpus p).tpidrEl2 }
  return (event, { system, retired := if event.Retires then event.ran :: σ.retired else σ.retired })

theorem step_of_perform {p : Nat} {σ σ' : Scheduled} {action : Action} {event : Event}
    (hguest : (σ.system.pcpus p).mode = .guest) (h : perform p σ action = .ok (event, σ')) :
    Step p σ event σ' := by
  obtain ⟨⟨restored, system⟩, hhandle, h⟩ := bind_eq_ok.1 h
  cases h
  exact ⟨hguest, rfl, hhandle, rfl, rfl⟩

/-- The events of a list of actions, as far as the CPU runs a guest and no handler faults. -/
def performAll (p : Nat) (σ : Scheduled) : List Action → Option (List Event × Scheduled)
  | [] => some ([], σ)
  | action :: rest =>
    match (σ.system.pcpus p).mode, perform p σ action with
    | .guest, .ok (event, σ) => (performAll p σ rest).map fun o => (event :: o.1, o.2)
    | _, _ => none

theorem run_of_performAll {p : Nat} : ∀ {actions : List Action} {events events' : List Event}
    {σ σ' : Scheduled}, Run (Starts p) (Step p) events σ →
      performAll p σ actions = some (events', σ') →
      Run (Starts p) (Step p) (events ++ events') σ' := by
  intro actions
  induction actions with
  | nil =>
    intro events events' σ σ' hrun h
    cases h
    rwa [List.append_nil]
  | cons action rest ih =>
    intro events events' σ σ' hrun h
    rw [performAll] at h
    split at h
    · rename_i event σ₁ hmode hperform
      obtain ⟨⟨tail, σ₂⟩, htail, h⟩ := Option.map_eq_some_iff.1 h
      cases h
      have := ih (hrun.next (step_of_perform hmode hperform)) htail
      rwa [List.append_assoc] at this
    · cases h

/-- CPU 0 after it has booted VM 0 and run the `spawn` command `n` times. -/
def booted : Nat → Except Fault System
  | 0 => coreMain (System.initial default fun _ => ⟨.off, 0, 0, default⟩) 0
      (some ⟨0x80000, 0x40200000⟩)
  | n + 1 => do
    let s ← booted n
    spawnVcpuOnCurrentPcpu s 0 (some ⟨0x80000 + 0x1000 * (n + 1), 0x40200000⟩)

/-- The state of the system after `booted`. -/
def Scheduled.booted (n : Nat) : Option Scheduled :=
  (Vm.booted n).toOption.map fun system => { system, retired := [] }

instance (p : Nat) (σ : Scheduled) : Decidable (Starts p σ) :=
  decidable_of_iff ((σ.system.vmList.map VM.vmId).Nodup ∧
      (∃ vm ∈ σ.system.vmList, vm.vmId = (σ.system.pcpus p).tpidrEl2) ∧
      (σ.system.pcpus p).mode = .guest ∧ σ.retired = [])
    ⟨fun h => ⟨h.1, h.2.1, h.2.2.1, h.2.2.2⟩, fun h => ⟨h.1, h.2, h.3, h.4⟩⟩

theorem run_of_booted (n : Nat) (actions : List Action) (events : List Event)
    (hstarts : ((Scheduled.booted n).all fun σ => Starts 0 σ) = true)
    (h : ((Scheduled.booted n).bind fun σ => performAll 0 σ actions).map Prod.fst = some events) :
    ∃ σ, Run (Starts 0) (Step 0) events σ := by
  obtain ⟨⟨events', σ'⟩, hbind, rfl⟩ := Option.map_eq_some_iff.1 h
  obtain ⟨σ, hσ, hall⟩ := Option.bind_eq_some_iff.1 hbind
  rw [hσ] at hstarts
  have hinit : Starts 0 σ := by simpa using hstarts
  exact ⟨σ', run_of_performAll (.start hinit) hall⟩

/-- With three VMs on a CPU, the retirement of the last one is followed by a yield between the other
two. -/
theorem never_resumed_iff_three : ∃ events σ, Run (Starts 0) (Step 0) events σ ∧
    events.map Event.restored = [some 1, some 2, some 0, some 1] ∧ NeverResumed events ∧
    Run (Starts 0) (LiveStep 0) events σ := by
  obtain ⟨σ, hrun⟩ := run_of_booted 2 [.yield, .yield, .cpuOff, .yield]
    [⟨.yield, 0, some 1, 1⟩, ⟨.yield, 1, some 2, 2⟩, ⟨.cpuOff, 2, some 0, 0⟩,
      ⟨.yield, 0, some 1, 1⟩] (by decide +kernel) (by decide +kernel)
  have hnever : NeverResumed [⟨.yield, 0, some 1, 1⟩, ⟨.yield, 1, some 2, 2⟩,
      ⟨.cpuOff, 2, some 0, 0⟩, ⟨.yield, 0, some 1, 1⟩] := by
    unfold NeverResumed
    decide
  exact ⟨_, σ, hrun, rfl, hnever, (never_resumed_iff hrun).1 hnever⟩

/-- With two VMs on a CPU, the yield after the retirement of the first one resumes it. -/
theorem retired_vm_resumed : ∃ events σ, Run (Starts 0) (Step 0) events σ ∧
    events = [⟨.cpuOff, 0, some 1, 1⟩, ⟨.yield, 1, some 0, 0⟩] ∧ ¬NeverResumed events := by
  obtain ⟨σ, hrun⟩ := run_of_booted 1 [.cpuOff, .yield]
    [⟨.cpuOff, 0, some 1, 1⟩, ⟨.yield, 1, some 0, 0⟩] (by decide +kernel) (by decide +kernel)
  refine ⟨_, σ, hrun, rfl, ?_⟩
  unfold NeverResumed
  decide

end MiniVisor.Vm
