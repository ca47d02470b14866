import MiniVisor.Vm.Coherence

/-!
# Switching between the VMs of a CPU

A run of the guests on one physical CPU that only change at `WFI`. `Yielding` keeps, next to the
system, the registers that each VM had at its last `WFI` and the VM that ran after each `WFI`.

Two invariants carry the result. The saved context of every VM of the CPU that is not running is
what the VM had at its last `WFI`, with `ELR_EL2` behind that instruction, or its initial context
(`Yielding.Kept`). The VM that runs after a number of yields is the one so many places further in
the cyclic order of the list (`Yielding.InTurn`). `switching_transparent` is the result for every
run.

`Booted` is where such runs start, and `booted_coreMain` and `booted_spawn` show that a CPU gets
there when it creates its VMs.
-/

set_option autoImplicit false

namespace MiniVisor.Vm

open MiniVisor.Lib

/-! ## Copies -/

section Copies

variable {ι α : Type} [DecidableEq ι]

/-- A loop that writes every place leaves nothing of what was there. -/
theorem foldl_update_eq (f : ι → α) (l : List ι) : ∀ g : ι → α, (∀ i, i ∈ l ∨ g i = f i) →
    l.foldl (fun g i => Function.update g i (f i)) g = f := by
  induction l with
  | nil => exact fun g h => funext fun i => (h i).resolve_left List.not_mem_nil
  | cons i l ih =>
    refine fun g h => ih _ fun j => ?_
    by_cases hj : j = i
    · exact .inr (hj ▸ Function.update_self i _ g)
    · have hsame : Function.update g i (f i) j = g j := Function.update_of_ne hj _ g
      exact (h j).imp (fun hmem => (List.mem_cons.1 hmem).resolve_left hj) hsame.trans

end Copies

theorem copyLrs_eq (source target : Fin numberOfSupportedLrs → BitVec 32) :
    copyLrs source target = source :=
  foldl_update_eq source _ target fun i => .inl (List.mem_finRange i)

/-- `activate` writes every register that `capture_current` reads, each from its own field. -/
theorem activate_captureCurrent (el1 el1' : El1Register → BitVec 64) :
    (El1Context.captureCurrent el1).activate el1' = el1 := by
  funext r
  cases r <;> rfl

theorem loadArray_asArray (registers : Registers) :
    Registers.loadArray registers.asArray = registers := by
  funext i
  exact Vector.getElem_ofFn i.isLt

/-- What was saved is what is restored, whatever is on the CPU. -/
theorem restore_save (context : VcpuContext) (r cpu : GuestRegisters) :
    (context.save r).restore cpu = r := by
  simp only [VcpuContext.save, VcpuContext.restore, loadArray_asArray, copyLrs_eq,
    activate_captureCurrent]

/-- The registers of a guest that has never run: `x0`, `ELR_EL2` and `SPSR_EL2` as `create_vm` has
set them, and the EL1 registers as the CPU had them before its first guest. -/
def initialRegisters (el1 : El1Register → BitVec 64) (entryPoint argument : BitVec 64)
    (origin : Nat) : GuestRegisters where
  registers i := if i.val = 0 then argument else 0
  elrEl2 := entryPoint
  spsrEl2 := spsrEl2MEl1h
  gichLr _ := 0
  el1 := el1
  origin := origin

theorem restore_initialContext (el1 : El1Register → BitVec 64) (entryPoint argument : BitVec 64)
    (origin : Nat) (cpu : GuestRegisters) :
    (initialContext (.captureCurrent el1) entryPoint argument origin).restore cpu =
      initialRegisters el1 entryPoint argument origin := by
  have hregs : Registers.loadArray ((Vector.replicate numberOfSlots 0).set 0 argument) =
      fun i => if i.val = 0 then argument else 0 := by
    funext i
    refine (Vector.getElem_set _ _).trans ?_
    simp only [eq_comm, Vector.getElem_replicate]
  simp only [initialContext, initialRegisters, VcpuContext.restore, copyLrs_eq,
    activate_captureCurrent, hregs]

/-! ## Runs on one CPU -/

/-- The system, what each VM had in its registers at its last `WFI`, and the VM that ran after each
`WFI`. -/
structure Yielding where
  system : System
  lastYield : Nat → Option GuestRegisters
  resumed : List Nat

/-- The guest runs and leaves these values in its registers, or it executes `WFI`. -/
inductive YieldAction where
  | guest (values : GuestRegisters)
  | wfi

namespace Yielding

/-- The registers on the CPU. -/
def loaded (σ : Yielding) (p : Nat) : GuestRegisters := (σ.system.pcpus p).loaded

/-- The VM on the CPU. -/
def current (σ : Yielding) (p : Nat) : Nat := (σ.system.pcpus p).tpidrEl2

/-- The state after the guest has left these values in its registers. -/
def ran (σ : Yielding) (p : Nat) (values : GuestRegisters) : Yielding :=
  { σ with
    system := σ.system.modifyCpu p fun cpu =>
      { cpu with loaded := { values with origin := cpu.loaded.origin } } }

/-- The state after a `WFI` that left the system like this. -/
def yielded (σ : Yielding) (p : Nat) (system : System) : Yielding where
  system := system
  lastYield := Function.update σ.lastYield (σ.current p) (some (σ.loaded p))
  resumed := σ.resumed ++ [(system.pcpus p).tpidrEl2]

def perform (p : Nat) (σ : Yielding) : YieldAction → Except Fault Yielding
  | .guest values => .ok (σ.ran p values)
  | .wfi => do
    let (_, system) ← wfxHandler σ.system p
    return σ.yielded p system

/-- A step that returns. -/
def Step (p : Nat) (σ : Yielding) (action : YieldAction) (σ' : Yielding) : Prop :=
  σ.perform p action = .ok σ'

/-- The identifiers of the VMs of the CPU, in the order of `VM_LIST`. -/
def ids (σ : Yielding) (p : Nat) : List Nat := (owned σ.system.vmList p).map VM.vmId

/-- What a VM has in its registers when it runs again: what it had at its last `WFI`, behind that
instruction, or what `create_vm` gave it. -/
def due (σ : Yielding) (el1 : El1Register → BitVec 64) (entryPoint : Nat → BitVec 64)
    (vmId : Nat) : GuestRegisters :=
  match σ.lastYield vmId with
  | some registers => registers.behind
  | none => initialRegisters el1 (entryPoint vmId) ramVirtualBase vmId

end Yielding

/-- The CPU runs one of its VMs, and the other ones have never run. -/
structure Booted (p : Nat) (el1 : El1Register → BitVec 64) (entryPoint : Nat → BitVec 64)
    (σ : Yielding) : Prop where
  distinct : (σ.system.vmList.map VM.vmId).Nodup
  running : σ.current p ∈ σ.ids p
  waiting : ∀ vmId ∈ σ.ids p, vmId ≠ σ.current p →
    σ.system.context vmId =
      initialContext (.captureCurrent el1) (entryPoint vmId) ramVirtualBase vmId
  lastYield : σ.lastYield = fun _ => none
  resumed : σ.resumed = []

/-! ## One yield -/

/-- The CPU has gone on to a VM: it has the registers of that VM, and the VM that it left has its
own behind the `WFI`. Where the CPU has one VM only, that one goes on. -/
structure Passed (s s' : System) (p next : Nat) : Prop where
  vmList : s'.vmList = s.vmList
  current : (s'.pcpus p).tpidrEl2 = next
  loaded : ∃ cpu, (s'.pcpus p).loaded =
    if next = (s.pcpus p).tpidrEl2 then (s.pcpus p).loaded.behind else (s.context next).restore cpu
  context : ∀ vmId ∈ (owned s.vmList p).map VM.vmId, vmId ≠ next → ∀ cpu,
    (s'.context vmId).restore cpu =
      if vmId = (s.pcpus p).tpidrEl2 then (s.pcpus p).loaded.behind
      else (s.context vmId).restore cpu

section Yield

variable {s : System} {p : Nat}

theorem nodup_owned (h : (s.vmList.map VM.vmId).Nodup) :
    ((owned s.vmList p).map VM.vmId).Nodup :=
  h.sublist (List.filter_sublist.map _)

/-- The place of a VM in the list of the CPU is where the scheduler finds it. -/
theorem findIdx?_owned (h : (s.vmList.map VM.vmId).Nodup) {i vmId : Nat}
    (hi : ((owned s.vmList p).map VM.vmId)[i]? = some vmId) :
    (owned s.vmList p).findIdx? (fun vm => vm.vmId == vmId) = some i := by
  have hnodup := nodup_owned (p := p) h
  obtain ⟨hlt, hget⟩ := List.getElem?_eq_some_iff.1 hi
  have hlt' : i < (owned s.vmList p).length := by rwa [List.length_map] at hlt
  rw [List.getElem_map] at hget
  rw [List.findIdx?_eq_some_iff_getElem]
  refine ⟨hlt', by rw [beq_iff_eq, hget], fun j hj => ?_⟩
  rw [beq_iff_eq]
  intro heq
  have hj' : ((owned s.vmList p).map VM.vmId)[j]? = some vmId := by
    rw [List.getElem?_map, List.getElem?_eq_getElem (by omega), Option.map_some, heq]
  have hji : j = i := (List.getElem?_inj (by rw [List.length_map]; omega) hnodup).1
    (hj'.trans hi.symm)
  omega

/-- A VM of the CPU that runs is found. -/
theorem getCurrentVm_of_mem (h : (s.pcpus p).tpidrEl2 ∈ (owned s.vmList p).map VM.vmId) :
    ∃ vm, getCurrentVm s p = .ok vm ∧ vm.vmId = (s.pcpus p).tpidrEl2 := by
  obtain ⟨vm, hvm, hid⟩ := List.mem_map.1 h
  have hsome : (s.vmList.find? fun vm => vm.vmId == (s.pcpus p).tpidrEl2).isSome := by
    rw [List.find?_isSome]
    exact ⟨vm, (List.mem_filter.1 hvm).1, by simpa using hid⟩
  obtain ⟨found, hfound⟩ := Option.isSome_iff_exists.1 hsome
  have hok : getCurrentVm s p = .ok found := by
    rw [getCurrentVm, hfound]
  exact ⟨found, hok, (getCurrentVm_eq_ok hok).2⟩

/-- The `WFI` of the VM in one place of the list goes on to the VM in the next place. -/
theorem wfxHandler_passes (h : (s.vmList.map VM.vmId).Nodup)
    (helr : (s.pcpus p).loaded.elrEl2.toNat + 4 < 2 ^ 64) {i : Nat}
    (hi : ((owned s.vmList p).map VM.vmId)[i]? = some (s.pcpus p).tpidrEl2) :
    ∃ restored s' next, wfxHandler s p = .ok (restored, s') ∧ Passed s s' p next ∧
      ((owned s.vmList p).map VM.vmId)[(i + 1) % (owned s.vmList p).length]? = some next := by
  have hlt : i < (owned s.vmList p).length := by
    have := (List.getElem?_eq_some_iff.1 hi).1
    rwa [List.length_map] at this
  obtain ⟨current, hcurrent, hid⟩ := getCurrentVm_of_mem (List.mem_of_getElem? hi)
  have hadvance : s.advance p = .ok (s.modifyCpu p Pcpu.behind) := advance_eq_ok.2 ⟨helr, rfl⟩
  by_cases hone : (owned s.vmList p).length ≤ 1
  · -- The only VM of the CPU goes on.
    have hnone : findNextSameAffinityVcpu s.vmList current.vmId p = none := by
      rw [findNextSameAffinityVcpu_eq, if_pos hone]
    have hok : wfxHandler s p = .ok (none, s.modifyCpu p Pcpu.behind) := by
      rw [wfxHandler, tryYieldToNextVcpu, hcurrent, ok_bind, hnone]
      exact bind_eq_ok.2 ⟨_, rfl, bind_eq_ok.2 ⟨_, hadvance, rfl⟩⟩
    have hzero : (i + 1) % (owned s.vmList p).length = i := by
      have hlen : (owned s.vmList p).length = 1 := by omega
      rw [hlen, Nat.mod_one]
      omega
    refine ⟨_, _, _, hok, ⟨rfl, rfl, ⟨default, ?_⟩, fun vmId hmem hne => absurd ?_ hne⟩, ?_⟩
    · rw [modifyCpu_pcpus_self]
      exact (if_pos rfl).symm
    · obtain ⟨j, hj⟩ := List.mem_iff_getElem?.1 hmem
      have hjlt := (List.getElem?_eq_some_iff.1 hj).1
      rw [List.length_map] at hjlt
      have hji : j = i := by omega
      rw [hji, hi] at hj
      rw [modifyCpu_pcpus_self]
      exact (Option.some.inj hj).symm
    · rw [hzero, hi, modifyCpu_pcpus_self]
      rfl
  · -- The next VM is another one, since the identifiers are distinct.
    have hnlt : (i + 1) % (owned s.vmList p).length < (owned s.vmList p).length :=
      Nat.mod_lt _ (by omega)
    obtain ⟨next, hnext⟩ : ∃ next, (owned s.vmList p)[(i + 1) % (owned s.vmList p).length]? =
        some next := ⟨_, List.getElem?_eq_getElem hnlt⟩
    have hfound : findNextSameAffinityVcpu s.vmList current.vmId p = some next := by
      rw [findNextSameAffinityVcpu_eq, if_neg hone, hid, findIdx?_owned h hi]
      exact hnext
    have hplace : ((owned s.vmList p).map VM.vmId)[(i + 1) % (owned s.vmList p).length]? =
        some next.vmId := by
      rw [List.getElem?_map, hnext, Option.map_some]
    have hother : next.vmId ≠ (s.pcpus p).tpidrEl2 := by
      intro heq
      have hsame : (i + 1) % (owned s.vmList p).length = i := by
        refine (List.getElem?_inj ?_ (nodup_owned (p := p) h)).1 (hplace.trans ?_)
        · rwa [List.length_map]
        · rw [hi, heq]
      rcases Nat.lt_or_ge (i + 1) (owned s.vmList p).length with hin | hout
      · rw [Nat.mod_eq_of_lt hin] at hsame
        omega
      · have hlast : i + 1 = (owned s.vmList p).length := by omega
        rw [hlast, Nat.mod_self] at hsame
        omega
    have hok : wfxHandler s p = .ok (some next.vmId,
        switchTo (saveContext (s.modifyCpu p Pcpu.behind) p current) p next) := by
      rw [wfxHandler, tryYieldToNextVcpu, hcurrent, ok_bind, hfound]
      exact bind_eq_ok.2 ⟨_, bind_eq_ok.2 ⟨_, hadvance, rfl⟩, rfl⟩
    have hsaved : ∀ vmId cpu,
        ((saveContext (s.modifyCpu p Pcpu.behind) p current).context vmId).restore cpu =
          if vmId = (s.pcpus p).tpidrEl2 then (s.pcpus p).loaded.behind
          else (s.context vmId).restore cpu := by
      intro vmId cpu
      simp only [saveContext, System.setContext, modifyCpu_pcpus_self, hid]
      split
      · exact restore_save _ _ _
      · rfl
    refine ⟨_, _, _, hok, ⟨rfl, ?_, ⟨(s.pcpus p).loaded.behind, ?_⟩,
      fun vmId _ _ => hsaved vmId⟩, hplace⟩
    · simp [switchTo, activateStage2TranslationTable]
    · rw [if_neg hother, ← (hsaved next.vmId _).trans (if_neg hother)]
      simp [switchTo, restoreContext, activateStage2TranslationTable, saveContext,
        System.setContext, Pcpu.behind]

end Yield

/-! ## Runs -/

section Runs

variable {p : Nat} {el1 : El1Register → BitVec 64} {entryPoint : Nat → BitVec 64}

/-- The VM on the CPU after so many yields is so many places behind the one that ran first. -/
def Yielding.InTurn (σ : Yielding) (p : Nat) : Prop :=
  ∃ start, (σ.ids p)[(start + σ.resumed.length) % (σ.ids p).length]? = some (σ.current p) ∧
    ∀ j < σ.resumed.length, σ.resumed[j]? = (σ.ids p)[(start + 1 + j) % (σ.ids p).length]?

/-- The context of a VM that waits gives any CPU the registers that the VM is due. -/
def Yielding.Kept (σ : Yielding) (p : Nat) (el1 : El1Register → BitVec 64)
    (entryPoint : Nat → BitVec 64) : Prop :=
  ∀ vmId ∈ σ.ids p, vmId ≠ σ.current p → ∀ cpu,
    (σ.system.context vmId).restore cpu = σ.due el1 entryPoint vmId

/-- What holds at every point of a run. -/
structure Turning (p : Nat) (el1 : El1Register → BitVec 64) (entryPoint : Nat → BitVec 64)
    (σ : Yielding) : Prop where
  distinct : (σ.system.vmList.map VM.vmId).Nodup
  kept : σ.Kept p el1 entryPoint
  inTurn : σ.InTurn p

theorem Booted.turning {σ : Yielding} (h : Booted p el1 entryPoint σ) :
    Turning p el1 entryPoint σ := by
  refine ⟨h.distinct, fun vmId hmem hne cpu => ?_, ?_⟩
  · rw [h.waiting vmId hmem hne, restore_initialContext, Yielding.due, h.lastYield]
  · obtain ⟨start, hstart⟩ := List.mem_iff_getElem?.1 h.running
    have hlt := (List.getElem?_eq_some_iff.1 hstart).1
    rw [Yielding.InTurn, h.resumed]
    refine ⟨start, ?_, fun j hj => absurd hj (Nat.not_lt_zero j)⟩
    rw [List.length_nil, Nat.add_zero, Nat.mod_eq_of_lt hlt, hstart]

/-- What a VM is due changes for the one that yields only. -/
theorem Yielding.due_yielded (σ : Yielding) (system : System) (vmId : Nat) :
    (σ.yielded p system).due el1 entryPoint vmId =
      if vmId = σ.current p then (σ.loaded p).behind else σ.due el1 entryPoint vmId := by
  simp only [Yielding.due, Yielding.yielded]
  by_cases hv : vmId = σ.current p
  · rw [if_pos hv, hv, Function.update_self]
  · rw [if_neg hv, Function.update_of_ne hv]

/-- A `WFI` that goes to the next place of the list keeps the invariant, and the VM that runs
afterwards has the registers that it is due. -/
theorem Turning.yielded {σ : Yielding} {s' : System} {start next : Nat}
    (h : Turning p el1 entryPoint σ) (hpassed : Passed σ.system s' p next)
    (hresumed : ∀ j < σ.resumed.length,
      σ.resumed[j]? = (σ.ids p)[(start + 1 + j) % (σ.ids p).length]?)
    (hplace : (σ.ids p)[(start + (σ.resumed.length + 1)) % (σ.ids p).length]? = some next) :
    Turning p el1 entryPoint (σ.yielded p s') ∧
      (σ.yielded p s').loaded p = (σ.yielded p s').due el1 entryPoint next := by
  have hids : (σ.yielded p s').ids p = σ.ids p := by
    simp only [Yielding.ids, Yielding.yielded, hpassed.vmList]
  have hcur : (σ.yielded p s').current p = next := hpassed.current
  refine ⟨⟨?_, fun vmId hmem hne cpu => ?_, start, ?_, fun j hj => ?_⟩, ?_⟩
  · simp only [Yielding.yielded, hpassed.vmList]
    exact h.distinct
  · rw [hids] at hmem
    rw [hcur] at hne
    refine (hpassed.context vmId hmem hne cpu).trans ?_
    rw [Yielding.due_yielded]
    by_cases hv : vmId = σ.current p
    · rw [if_pos hv]
      exact if_pos hv
    · rw [if_neg hv, ← h.kept vmId hmem hv cpu]
      exact if_neg hv
  · rw [hids, hcur, ← hplace]
    simp only [Yielding.yielded, List.length_append, List.length_singleton]
  · rw [hids]
    simp only [Yielding.yielded, List.length_append, List.length_singleton] at hj ⊢
    rcases Nat.lt_or_ge j σ.resumed.length with hold | hnew
    · rw [List.getElem?_append_left hold, hresumed j hold]
    · have hlast : j = σ.resumed.length := by omega
      rw [hlast, List.getElem?_concat_length, hpassed.current, Nat.add_assoc, Nat.add_comm 1,
        hplace]
  · obtain ⟨cpu, hloaded⟩ := hpassed.loaded
    refine hloaded.trans ?_
    rw [Yielding.due_yielded]
    by_cases hv : next = σ.current p
    · rw [if_pos hv]
      exact if_pos hv
    · rw [if_neg hv, ← h.kept next (List.mem_of_getElem? hplace) hv cpu]
      exact if_neg hv

/-- A `WFI` returns, and the VM that runs afterwards has the registers that it is due. -/
theorem Turning.wfi {σ : Yielding} (h : Turning p el1 entryPoint σ)
    (helr : (σ.loaded p).elrEl2.toNat + 4 < 2 ^ 64) :
    ∃ σ', σ.Step p .wfi σ' ∧ Turning p el1 entryPoint σ' ∧
      σ'.loaded p = σ'.due el1 entryPoint (σ'.current p) := by
  obtain ⟨start, hcurrent, hresumed⟩ := h.inTurn
  obtain ⟨restored, s', next, hok, hpassed, hnext⟩ := wfxHandler_passes h.distinct helr hcurrent
  have hlen : (σ.ids p).length = (owned σ.system.vmList p).length := List.length_map ..
  have hplace : (σ.ids p)[(start + (σ.resumed.length + 1)) % (σ.ids p).length]? = some next := by
    rw [← hnext, hlen, Nat.mod_add_mod, Nat.add_assoc]
    rfl
  obtain ⟨hturning, hloaded⟩ := h.yielded hpassed hresumed hplace
  refine ⟨σ.yielded p s', ?_, hturning, ?_⟩
  · rw [Yielding.Step, Yielding.perform, hok, ok_bind]
    rfl
  · rw [hloaded]
    exact congrArg _ hpassed.current.symm

/-- A `WFI` returns only with a place behind it. -/
theorem Yielding.Step.elrEl2 {σ σ' : Yielding} (h : σ.Step p .wfi σ') :
    (σ.loaded p).elrEl2.toNat + 4 < 2 ^ 64 := by
  obtain ⟨r, hok, -⟩ := bind_eq_ok.1 h
  exact (wfxHandler_eq_ok hok).1

theorem Turning.wfi_step {σ σ' : Yielding} (h : Turning p el1 entryPoint σ)
    (hstep : σ.Step p .wfi σ') :
    Turning p el1 entryPoint σ' ∧ σ'.loaded p = σ'.due el1 entryPoint (σ'.current p) := by
  obtain ⟨σ₁, hstep₁, hwfi⟩ := h.wfi hstep.elrEl2
  cases hstep.symm.trans hstep₁
  exact hwfi

theorem Yielding.current_ran (σ : Yielding) (values : GuestRegisters) :
    (σ.ran p values).current p = σ.current p := by
  simp only [Yielding.current, Yielding.ran, modifyCpu_pcpus_self]

/-- What the guest leaves in its registers changes nothing that a waiting VM has. -/
theorem Turning.ran {σ : Yielding} (h : Turning p el1 entryPoint σ) (values : GuestRegisters) :
    Turning p el1 entryPoint (σ.ran p values) := by
  refine ⟨h.distinct, fun vmId hmem hne => ?_, ?_⟩
  · rw [Yielding.current_ran] at hne
    exact h.kept vmId hmem hne
  · obtain ⟨start, hcurrent, hresumed⟩ := h.inTurn
    refine ⟨start, ?_, hresumed⟩
    rw [Yielding.current_ran]
    exact hcurrent

theorem turning_of_run {actions : List YieldAction} {σ : Yielding}
    (hrun : Run (Booted p el1 entryPoint) (Yielding.Step p) actions σ) :
    Turning p el1 entryPoint σ := by
  refine hrun.invariant (fun σ hσ => hσ.turning) ?_
  intro σ action σ' hσ hstep
  cases action with
  | guest values =>
    cases hstep
    exact hσ.ran values
  | wfi =>
    exact (hσ.wfi_step hstep).1

/-- As many yields in a row as the CPU has VMs go to each of them once, in the cyclic order of the
list. -/
def Yielding.FairTurns (σ : Yielding) (p : Nat) : Prop :=
  ∀ i, i + (σ.ids p).length ≤ σ.resumed.length →
    σ.ids p ~r (σ.resumed.drop i).take (σ.ids p).length ∧
      ∀ vmId ∈ σ.ids p, ((σ.resumed.drop i).take (σ.ids p).length).count vmId = 1

theorem Turning.fairTurns {σ : Yielding} (h : Turning p el1 entryPoint σ) : σ.FairTurns p := by
  intro i hi
  obtain ⟨start, -, hresumed⟩ := h.inTurn
  have hrotate : (σ.ids p).rotate (start + 1 + i) =
      (σ.resumed.drop i).take (σ.ids p).length := by
    refine List.ext_getElem? fun m => ?_
    rcases Nat.lt_or_ge m (σ.ids p).length with hm | hm
    · rw [List.getElem?_rotate hm, List.getElem?_take_of_lt hm, List.getElem?_drop,
        hresumed (i + m) (by omega)]
      congr 2
      omega
    · rw [List.getElem?_eq_none (by rw [List.length_rotate]; exact hm),
        List.getElem?_eq_none (by rw [List.length_take]; omega)]
  have hrotated : σ.ids p ~r (σ.resumed.drop i).take (σ.ids p).length := ⟨_, hrotate⟩
  refine ⟨hrotated, fun vmId hmem => ?_⟩
  rw [← hrotated.perm.count_eq]
  exact List.count_eq_one_of_mem (nodup_owned h.distinct) hmem

end Runs

/-! ## The start -/

/-- No VM has yielded yet. -/
def Yielding.start (system : System) : Yielding where
  system := system
  lastYield _ := none
  resumed := []

section Start

variable {s s' : System} {p : Nat}

/-- The first caller decides the EL1 registers, whatever the counters are. -/
theorem resetEl1Context_counters (s : System) (p nextVmId nextVmid : Nat) :
    resetEl1Context { s with nextVmId, nextVmid } p =
      ((resetEl1Context s p).1,
        { s with nextVmId, nextVmid, resetEl1 := some (resetEl1Context s p).1 }) := by
  simp only [resetEl1Context]
  cases hreset : s.resetEl1 <;> simp [← hreset]

/-- The context that `create_vm` gives the new VM, with the EL1 registers of the first caller. -/
theorem createVm_context {image : BootImage} {r : BitVec 64 × BitVec 64}
    (h : createVm s p (some image) = .ok (r, s')) :
    s'.context s.nextVmId =
        initialContext (resetEl1Context s p).1 image.entryPoint ramVirtualBase s.nextVmId ∧
      s'.resetEl1 = some (resetEl1Context s p).1 := by
  simp only [createVm, resetEl1Context_counters] at h
  split at h
  · cases h
  · split at h
    · cases h
      exact ⟨if_pos rfl, rfl⟩
    · obtain ⟨_, -, h⟩ := bind_eq_ok.1 h
      cases h
      exact ⟨if_pos rfl, rfl⟩

/-- The first VM of a CPU runs, and no other VM waits. -/
theorem booted_coreMain (h : Coherent s) (hoff : (s.pcpus p).mode = .off) {image : BootImage}
    (hrun : coreMain s p (some image) = .ok s') (entryPoint : Nat → BitVec 64)
    {el1 : El1Register → BitVec 64} (hel1 : (resetEl1Context s p).1 = .captureCurrent el1) :
    Booted p el1 entryPoint (.start s') ∧ s'.resetEl1 = some (.captureCurrent el1) := by
  obtain ⟨⟨⟨entry, argument⟩, s₁⟩, hcreate, hrun⟩ := bind_eq_ok.1 hrun
  cases hrun
  obtain ⟨vm, hc⟩ := createVm_spec hcreate
  have hunowned := (h.cpus p).unowned hoff
  have howned : owned s₁.vmList p = [vm] := by
    have hnone : s.vmList.filter (fun v => v.ownerAffinity == p) = [] := by
      refine List.filter_eq_nil_iff.2 fun v hv => ?_
      simpa using hunowned v hv
    rw [owned, hc.vmList, List.filter_append, hnone, List.nil_append,
      List.filter_cons_of_pos (by simpa using hc.owner), List.filter_nil]
  obtain ⟨σ, hσ⟩ : ∃ σ, σ = Yielding.start
    (s₁.modifyCpu p fun cpu => bootVm cpu entry argument s.nextVmId) := ⟨_, rfl⟩
  have hcurrent : σ.current p = vm.vmId := by
    simp only [hσ, Yielding.current, Yielding.start, modifyCpu_pcpus_self, hc.first hunowned]
    rfl
  have hids : σ.ids p = [vm.vmId] := by
    have hmap : (owned s₁.vmList p).map VM.vmId = [vm.vmId] := by
      rw [howned, List.map_singleton]
    rw [hσ]
    exact hmap
  refine ⟨⟨(hc.vmsOk h.vms).distinct, ?_, fun vmId hmem hne => absurd ?_ hne, rfl, rfl⟩,
    hel1 ▸ (createVm_context hcreate).2⟩
  · rw [← hσ, hids, hcurrent]
    exact List.mem_singleton_self _
  · rw [← hσ, hids, List.mem_singleton] at hmem
    rw [← hσ, hmem, hcurrent]

/-- `spawn` puts one more VM behind the others, with its initial context. -/
theorem booted_spawn {el1 : El1Register → BitVec 64} {entryPoint : Nat → BitVec 64} (h : VmsOk s)
    (hbooted : Booted p el1 entryPoint (.start s))
    (hreset : s.resetEl1 = some (.captureCurrent el1)) {image : BootImage}
    (hrun : spawnVcpuOnCurrentPcpu s p (some image) = .ok s') :
    Booted p el1 (Function.update entryPoint s.nextVmId image.entryPoint) (.start s') ∧
      s'.resetEl1 = some (.captureCurrent el1) := by
  obtain ⟨⟨r, s₁⟩, hcreate, hrun⟩ := bind_eq_ok.1 hrun
  obtain rfl : s₁ = s' := Except.ok.inj hrun
  obtain ⟨vm, hc⟩ := createVm_spec hcreate
  have hel1 : (resetEl1Context s p).1 = .captureCurrent el1 := by
    rw [resetEl1Context, hreset]
  obtain ⟨hcontext, hreset'⟩ := createVm_context hcreate
  rw [hel1] at hcontext hreset'
  have hids : (owned s₁.vmList p).map VM.vmId = (owned s.vmList p).map VM.vmId ++ [s.nextVmId] := by
    rw [owned, hc.vmList, List.filter_append, List.filter_cons_of_pos (by simpa using hc.owner),
      List.filter_nil, List.map_append, List.map_singleton, hc.vmId]
    rfl
  obtain ⟨first, hfirst, hid⟩ := List.mem_map.1 hbooted.running
  have hcpu : s₁.pcpus p = s.pcpus p := by
    refine hc.queued ⟨first, (List.mem_filter.1 hfirst).1, ?_⟩
    simpa using (List.mem_filter.1 hfirst).2
  refine ⟨⟨(hc.vmsOk h).distinct, ?_, fun vmId hmem hne => ?_, rfl, rfl⟩, hreset'⟩
  · have hmem := List.mem_append_left [s.nextVmId] hbooted.running
    rw [Yielding.ids, Yielding.start, hids, Yielding.current, hcpu]
    exact hmem
  · rw [Yielding.ids, Yielding.start, hids, List.mem_append, List.mem_singleton] at hmem
    rw [Yielding.current, Yielding.start, hcpu] at hne
    rcases hmem with hmem | rfl
    · have hlt : vmId ≠ s.nextVmId := by
        obtain ⟨v, hv, rfl⟩ := List.mem_map.1 hmem
        exact Nat.ne_of_lt (h.lt v (List.mem_filter.1 hv).1)
      rw [Function.update_of_ne hlt, ← hbooted.waiting vmId hmem hne]
      exact hc.context vmId (hc.vmId ▸ hlt)
    · rw [Function.update_self]
      exact hcontext

/-- CPU 0 with the VMs that `booted` gives it is where a run starts. -/
theorem booted_booted {n : Nat} : ∀ {s : System}, booted n = .ok s →
    Coherent s ∧ (s.pcpus 0).mode = .guest ∧
      Booted 0 (fun _ => 0) (fun _ => 0x40200000) (.start s) ∧
      s.resetEl1 = some (.captureCurrent fun _ => 0) := by
  induction n with
  | zero =>
    intro s h
    have hoff : Coherent System.off := coherent_of_poweredOff ⟨_, _, rfl, fun _ => rfl⟩
    obtain ⟨hbooted, hreset⟩ := booted_coreMain hoff rfl h (fun _ => 0x40200000) rfl
    refine ⟨hoff.coreMain rfl h, ?_, hbooted, hreset⟩
    obtain ⟨_, -, h⟩ := bind_eq_ok.1 h
    cases h
    rw [modifyCpu_pcpus_self]
    rfl
  | succ n ih =>
    intro s' h
    obtain ⟨s, hs, hspawn⟩ := bind_eq_ok.1 h
    obtain ⟨hcoherent, hguest, hbooted, hreset⟩ := ih hs
    have hown : ∃ vm ∈ s.vmList, vm.ownerAffinity = 0 := by
      obtain ⟨vm, hvm, -⟩ := List.mem_map.1 hbooted.running
      exact ⟨vm, (List.mem_filter.1 hvm).1, by simpa using (List.mem_filter.1 hvm).2⟩
    have hbooted' := booted_spawn hcoherent.vms hbooted hreset hspawn
    rw [Function.update_eq_self_iff.2 rfl] at hbooted'
    refine ⟨hcoherent.spawn hguest hown hspawn, ?_, hbooted'⟩
    obtain ⟨⟨_, _⟩, hcreate, hspawn⟩ := bind_eq_ok.1 hspawn
    cases hspawn
    obtain ⟨vm, hc⟩ := createVm_spec hcreate
    rw [hc.queued hown]
    exact hguest

end Start

/-! ## The result -/

/-- At every point of a run, the VM that runs after the next `WFI` has all its registers as they
were at its last `WFI`, with `ELR_EL2` behind that instruction, or its initial registers if it never
ran. The `WFI` returns unless it is the last instruction of the address space, where the addition to
`ELR_EL2` overflows. The turns of the run are fair. -/
theorem switching_transparent {p : Nat} {el1 : El1Register → BitVec 64}
    {entryPoint : Nat → BitVec 64} {actions : List YieldAction} {σ : Yielding}
    (hrun : Run (Booted p el1 entryPoint) (Yielding.Step p) actions σ) :
    (∀ σ', σ.Step p .wfi σ' → σ'.loaded p = σ'.due el1 entryPoint (σ'.current p)) ∧
      ((∃ σ', σ.Step p .wfi σ') ↔ (σ.loaded p).elrEl2.toNat + 4 < 2 ^ 64) ∧ σ.FairTurns p := by
  have hturning := turning_of_run hrun
  refine ⟨fun σ' hstep => (hturning.wfi_step hstep).2, ⟨?_, fun helr => ?_⟩, hturning.fairTurns⟩
  · rintro ⟨σ', hstep⟩
    exact hstep.elrEl2
  · obtain ⟨σ', hstep, -⟩ := hturning.wfi helr
    exact ⟨σ', hstep⟩

/-- What the guest of the first VM leaves in its registers. -/
def firstGuest : GuestRegisters :=
  { (default : GuestRegisters) with elrEl2 := 0x40200010, el1 := fun _ => 7 }

/-- Three VMs on a CPU: after three yields each of them has run once, and the first one goes on
behind its `WFI` with its own registers. -/
theorem switching_transparent_three : ∃ σ : Yielding,
    Run (Booted 0 (fun _ => 0) fun _ => 0x40200000) (Yielding.Step 0)
      [.guest firstGuest, .wfi, .guest default, .wfi, .wfi] σ ∧
    (σ.resumed = [1, 2, 0] ∧ (σ.loaded 0).elrEl2 = 0x40200014 ∧ (σ.loaded 0).el1 .spEl1 = 7) ∧
    ∃ σ', σ.Step 0 .wfi σ' ∧
      σ'.loaded 0 = σ'.due (fun _ => 0) (fun _ => 0x40200000) (σ'.current 0) ∧ σ.FairTurns 0 := by
  have hcheck : ((booted 2).toOption.bind fun s =>
      follow (fun σ action => (Yielding.perform 0 σ action).toOption) (Yielding.start s)
        [.guest firstGuest, .wfi, .guest default, .wfi, .wfi]).any
      (fun σ : Yielding => σ.resumed = [1, 2, 0] ∧ (σ.loaded 0).elrEl2 = 0x40200014 ∧
        (σ.loaded 0).el1 .spEl1 = 7) = true := by
    decide +kernel
  obtain ⟨σ, hσ, hlast⟩ := Option.any_eq_true _ _ |>.1 hcheck
  obtain ⟨s, hs, hfollow⟩ := Option.bind_eq_some_iff.1 hσ
  have hstart := (booted_booted (toOption_eq_some hs)).2.2.1
  have hnext : ∀ σ action σ', (Yielding.perform 0 σ action).toOption = some σ' →
      Yielding.Step 0 σ action σ' := fun _ _ _ h => toOption_eq_some h
  have hrun := (Run.start hstart).follow hnext _ hfollow
  have hend := of_decide_eq_true hlast
  obtain ⟨hdue, hreturns, hfair⟩ := switching_transparent hrun
  obtain ⟨σ', hstep⟩ := hreturns.2 (by rw [hend.2.1]; decide)
  exact ⟨σ, hrun, hend, σ', hstep, hdue σ' hstep, hfair⟩

end MiniVisor.Vm
