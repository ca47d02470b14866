import MiniVisor.Vm.Scheduler

/-!
# One VM per running physical CPU

The whole system: any number of physical CPUs that are started, parked and claimed by `CPU_ON`, that
create VMs at start-up or by the `spawn` command, and that yield and retire. `exec` is one such
event.

A CPU that runs a guest should do so for one VM only: the VM that `TPIDR_EL2` names, the VM whose
Stage 2 table and VMID are in `VTTBR_EL2`, and the VM whose registers are loaded (`RunsOneVm`).
`create_vm` switches `TPIDR_EL2` and `VTTBR_EL2` to the new VM when the CPU owns no VM yet, which is
right at start-up but not for `spawn` on a CPU that joined the VM of another CPU.
`runs_one_vm_of_run` proves the property for every run in which `spawn` is only executed on a CPU
that owns a VM.
-/

set_option autoImplicit false

namespace MiniVisor.Vm

open MiniVisor.Lib

/-! ## Events of the system -/

inductive SystemAction where
  /-- The boot CPU, or a CPU that `launch_cpu` started, creates its VM and enters it. -/
  | start (p : Nat) (image : Option BootImage)
  /-- `park_secondary_cpus_for_smp` starts the CPU, which parks. -/
  | park (p : Nat)
  /-- A parked CPU takes its request. -/
  | join (p : Nat)
  | spawn (p : Nat) (image : Option BootImage)
  | yield (p : Nat)
  | cpuOff (p : Nat)
  | cpuOn (p : Nat) (targetCpu entryPoint contextId : BitVec 64)
  /-- The guest runs, and leaves these values in its registers. -/
  | guest (p : Nat) (values : GuestRegisters)

/-- The CPU panics. -/
def System.stop (s : System) (p : Nat) : System :=
  s.modifyCpu p fun cpu => { cpu with mode := .stopped }

/-- The result of a handler, or a panic of the CPU. -/
def orStop (s : System) (p : Nat) : Except Fault System → System
  | .ok s' => s'
  | .error _ => s.stop p

/-- `create_vm` runs under the lock of `VIRTIO_BLK`, which a panic leaves locked. -/
def orStopLocked (s : System) (p : Nat) : Except Fault System → System
  | .ok s' => s'
  | .error _ => { s.stop p with blkStuck := true }

/-- The return value of `CPU_ON`, and the step over the `SMC`. -/
def returnX0 (s : System) (p : Nat) (x0 : BitVec 64) : Except Fault System :=
  System.advance (s.modifyCpu p fun cpu => { cpu with
    loaded := { cpu.loaded with
      registers := fun i => if i.val = 0 then x0 else cpu.loaded.registers i } }) p

/-- The system after an event, if the event is possible. -/
def exec (s : System) : SystemAction → Option System
  | .start p image =>
    if (s.pcpus p).mode = .off ∧ s.blkStuck = false then
      some (orStopLocked s p (coreMain s p image))
    else none
  | .park p =>
    if (s.pcpus p).mode = .off then
      some { smpPark s p with stackTops := s.stackTops ++ [p] }
    else none
  | .join p =>
    match (s.pcpus p).mode with
    | .parked (some request) => some (joinVm s p request)
    | _ => none
  | .spawn p image =>
    if (s.pcpus p).mode = .guest ∧ s.blkStuck = false then
      some (orStopLocked s p (spawnVcpuOnCurrentPcpu s p image))
    else none
  | .yield p =>
    if (s.pcpus p).mode = .guest then some (orStop s p ((wfxHandler s p).map Prod.snd)) else none
  | .cpuOff p =>
    if (s.pcpus p).mode = .guest then some (orStop s p ((handleGuestCpuOff s p).map Prod.snd))
    else none
  | .cpuOn p targetCpu entryPoint contextId =>
    if (s.pcpus p).mode = .guest then
      -- The other CPU keeps its request when the step over the `SMC` panics.
      some (match handleGuestCpuOn s p targetCpu entryPoint contextId with
        | .ok (x0, s') => orStop s' p (returnX0 s' p x0)
        | .error _ => s.stop p)
    else none
  | .guest p values =>
    if (s.pcpus p).mode = .guest then
      some (s.modifyCpu p fun cpu =>
        { cpu with loaded := { values with origin := cpu.loaded.origin } })
    else none

/-! ## The property -/

/-- A VM that `TPIDR_EL2` names. -/
def Named (s : System) (p : Nat) (vm : VM) : Prop := (s.pcpus p).tpidrEl2 = vm.vmId

/-- A VM whose Stage 2 table and VMID are in `VTTBR_EL2`. -/
def Mapped (s : System) (p : Nat) (vm : VM) : Prop :=
  (s.pcpus p).vttbrEl2 = vttbr vm.stage2TableAddress vm.vmid

/-- A VM whose guest the trap frame and `ELR_EL2` belong to. -/
def Loaded (s : System) (p : Nat) (vm : VM) : Prop := (s.pcpus p).loaded.origin = vm.vmId

instance (s : System) (p : Nat) (vm : VM) : Decidable (Named s p vm) :=
  inferInstanceAs (Decidable (_ = _))

instance (s : System) (p : Nat) (vm : VM) : Decidable (Mapped s p vm) :=
  inferInstanceAs (Decidable (_ = _))

instance (s : System) (p : Nat) (vm : VM) : Decidable (Loaded s p vm) :=
  inferInstanceAs (Decidable (_ = _))

/-- The three are one and the same VM, and no other VM is any of them. -/
def RunsOneVm (s : System) (p : Nat) : Prop :=
  ∃ vm ∈ s.vmList, ∀ v ∈ s.vmList,
    (Named s p v ↔ v = vm) ∧ (Mapped s p v ↔ v = vm) ∧ (Loaded s p v ↔ v = vm)

instance (s : System) (p : Nat) : Decidable (RunsOneVm s p) :=
  inferInstanceAs (Decidable (∃ vm ∈ s.vmList, ∀ v ∈ s.vmList, _))

/-! ## The invariant -/

/-- What holds of one CPU. -/
structure CpuOk (s : System) (p : Nat) : Prop where
  running : (s.pcpus p).mode = .guest →
    ∃ vm ∈ s.vmList, Named s p vm ∧ Mapped s p vm ∧ Loaded s p vm
  launch : ∀ request, (s.pcpus p).mode = .parked (some request) →
    request.vm ∈ s.vmList ∧ request.origin = request.vm.vmId
  unowned : (s.pcpus p).mode = .off → ∀ vm ∈ s.vmList, vm.ownerAffinity ≠ p

/-- What holds of the list of VMs. The identifiers are handed out in order and stay below 80. -/
structure VmsOk (s : System) : Prop where
  distinct : (s.vmList.map VM.vmId).Nodup
  lt : ∀ vm ∈ s.vmList, vm.vmId < s.nextVmId
  vmid : ∀ vm ∈ s.vmList, vm.vmid = vm.vmId
  next : s.nextVmid = s.nextVmId
  bound : s.nextVmId ≤ 80
  context : ∀ vm ∈ s.vmList, (s.context vm.vmId).origin = vm.vmId

structure Coherent (s : System) : Prop where
  vms : VmsOk s
  cpus : ∀ p, CpuOk s p

/-- The VMID can be read off `VTTBR_EL2`. -/
theorem vttbr_vmid (tableAddress vmid : Nat) (h : vmid < 256) :
    vttbr tableAddress vmid >>> 48 = vmid := by
  have hbaddr : tableAddress &&& vttbrBaddr ≤ vttbrBaddr := Nat.and_le_right
  have hlow : (tableAddress &&& vttbrBaddr) >>> 48 = 0 := by
    rw [Nat.shiftRight_eq_div_pow]
    exact Nat.div_eq_of_lt (lt_of_le_of_lt hbaddr (by decide))
  have hvmid : (vmid <<< 48) >>> 48 = vmid := by
    rw [Nat.shiftLeft_eq, Nat.shiftRight_eq_div_pow, Nat.mul_div_cancel _ (by decide)]
  have hmask : vttbrVmid >>> 48 = 2 ^ 8 - 1 := by decide
  rw [vttbr, Nat.shiftRight_or_distrib, Nat.shiftRight_and_distrib, hlow, hvmid, hmask,
    Nat.and_two_pow_sub_one_eq_mod, Nat.or_zero]
  exact Nat.mod_eq_of_lt h

/-- In a coherent system a running CPU runs one VM. -/
theorem Coherent.runsOneVm {s : System} (h : Coherent s) {p : Nat}
    (hguest : (s.pcpus p).mode = .guest) : RunsOneVm s p := by
  obtain ⟨vm, hvm, hnamed, hmapped, hloaded⟩ := (h.cpus p).running hguest
  have hsame : ∀ v ∈ s.vmList, v.vmId = vm.vmId → v = vm := fun v hv heq =>
    List.inj_on_of_nodup_map h.vms.distinct hv hvm heq
  refine ⟨vm, hvm, fun v hv => ⟨⟨fun hn => ?_, ?_⟩, ⟨fun hm => ?_, ?_⟩, ⟨fun hl => ?_, ?_⟩⟩⟩
  · exact hsame v hv (hn.symm.trans hnamed)
  · rintro rfl
    exact hnamed
  · have hlt : ∀ u ∈ s.vmList, u.vmid < 256 := fun u hu => by
      have := h.vms.lt u hu
      have := h.vms.bound
      rw [h.vms.vmid u hu]
      omega
    have heq := congrArg (· >>> 48) (hm.symm.trans hmapped)
    simp only [vttbr_vmid _ _ (hlt v hv), vttbr_vmid _ _ (hlt vm hvm)] at heq
    exact hsame v hv (by rw [← h.vms.vmid v hv, heq, h.vms.vmid vm hvm])
  · rintro rfl
    exact hmapped
  · exact hsame v hv (hl.symm.trans hloaded)
  · rintro rfl
    exact hloaded

/-! ## Changes to one CPU -/

section Cpu

variable {s s' : System} {p : Nat}

theorem CpuOk.congr {q : Nat} (h : CpuOk s q) (hcpu : s'.pcpus q = s.pcpus q)
    (hlist : s'.vmList = s.vmList) : CpuOk s' q := by
  refine ⟨fun hm => ?_, fun request hm => ?_, fun hm => ?_⟩
  · rw [hcpu] at hm
    simpa only [Named, Mapped, Loaded, hcpu, hlist] using h.running hm
  · rw [hcpu] at hm
    simpa only [hlist] using h.launch request hm
  · rw [hcpu] at hm
    simpa only [hlist] using h.unowned hm

/-- A change to one CPU, and to saved contexts that stay with their VM. -/
theorem Coherent.updateCpu (h : Coherent s) (hlist : s'.vmList = s.vmList)
    (hid : s'.nextVmId = s.nextVmId) (hvmid : s'.nextVmid = s.nextVmid)
    (hcontext : ∀ vm ∈ s.vmList, (s'.context vm.vmId).origin = vm.vmId)
    (hother : ∀ q, q ≠ p → s'.pcpus q = s.pcpus q) (hcpu : CpuOk s' p) : Coherent s' := by
  refine ⟨⟨?_, ?_, ?_, ?_, ?_, ?_⟩, fun q => ?_⟩
  · rw [hlist]
    exact h.vms.distinct
  · rw [hlist, hid]
    exact h.vms.lt
  · rw [hlist]
    exact h.vms.vmid
  · rw [hid, hvmid]
    exact h.vms.next
  · rw [hid]
    exact h.vms.bound
  · rw [hlist]
    exact hcontext
  · by_cases hq : q = p
    · exact hq ▸ hcpu
    · exact (h.cpus q).congr (hother q hq) hlist

theorem Coherent.modifyCpu (h : Coherent s) {f : Pcpu → Pcpu} (hcpu : CpuOk (s.modifyCpu p f) p) :
    Coherent (s.modifyCpu p f) :=
  h.updateCpu rfl rfl rfl h.vms.context (fun _ hq => modifyCpu_pcpus_of_ne s f hq) hcpu

/-- A CPU that is neither in a guest nor off nor about to join a VM. -/
theorem CpuOk.of_idle (h : (s.pcpus p).mode = .stopped ∨ (s.pcpus p).mode = .parked none) :
    CpuOk s p := by
  rcases h with h | h
  · exact ⟨by simp [h], by simp [h], by simp [h]⟩
  · exact ⟨by simp [h], by simp [h], by simp [h]⟩

/-- A CPU in a guest of the given VM. -/
theorem CpuOk.of_guest (vm : VM) (hvm : vm ∈ s.vmList) (hguest : (s.pcpus p).mode = .guest)
    (hnamed : Named s p vm) (hmapped : Mapped s p vm) (hloaded : Loaded s p vm) : CpuOk s p :=
  ⟨fun _ => ⟨vm, hvm, hnamed, hmapped, hloaded⟩, by simp [hguest], by simp [hguest]⟩

theorem Coherent.stop (h : Coherent s) (p : Nat) : Coherent (s.stop p) :=
  h.modifyCpu (.of_idle (Or.inl (by simp [System.modifyCpu])))

theorem Coherent.stopLocked (h : Coherent s) (p : Nat) :
    Coherent { s.stop p with blkStuck := true } := by
  refine (h.stop p).updateCpu (p := p) rfl rfl rfl (h.stop p).vms.context (fun _ _ => rfl) ?_
  exact ((h.stop p).cpus p).congr rfl rfl

theorem Coherent.smpPark (h : Coherent s) (p : Nat) : Coherent (smpPark s p) := by
  refine h.updateCpu (p := p) rfl rfl rfl h.vms.context (fun q hq => ?_) ?_
  · simp only [Vm.smpPark, System.modifyCpu, if_neg hq]
  · exact .of_idle (Or.inr (by simp [Vm.smpPark, System.modifyCpu]))

/-- A change of register values leaves the CPU with its VM. -/
theorem Coherent.keepVm (h : Coherent s) {f : Pcpu → Pcpu}
    (hmode : (f (s.pcpus p)).mode = (s.pcpus p).mode)
    (htpidr : (f (s.pcpus p)).tpidrEl2 = (s.pcpus p).tpidrEl2)
    (hvttbr : (f (s.pcpus p)).vttbrEl2 = (s.pcpus p).vttbrEl2)
    (horigin : (f (s.pcpus p)).loaded.origin = (s.pcpus p).loaded.origin) :
    Coherent (s.modifyCpu p f) := by
  refine h.modifyCpu ⟨fun hm => ?_, fun request hm => ?_, fun hm => ?_⟩
  · rw [modifyCpu_pcpus_self, hmode] at hm
    obtain ⟨vm, hvm, hnamed, hmapped, hloaded⟩ := (h.cpus p).running hm
    refine ⟨vm, hvm, ?_, ?_, ?_⟩
    · rwa [Named, modifyCpu_pcpus_self, htpidr]
    · rwa [Mapped, modifyCpu_pcpus_self, hvttbr]
    · rwa [Loaded, modifyCpu_pcpus_self, horigin]
  · rw [modifyCpu_pcpus_self, hmode] at hm
    exact (h.cpus p).launch request hm
  · rw [modifyCpu_pcpus_self, hmode] at hm
    exact (h.cpus p).unowned hm

theorem Coherent.returnX0 (h : Coherent s) {x0 : BitVec 64} (hrun : returnX0 s p x0 = .ok s') :
    Coherent s' := by
  obtain ⟨-, rfl⟩ := advance_eq_ok.1 hrun
  exact Coherent.keepVm (h.keepVm rfl rfl rfl rfl) rfl rfl rfl rfl

/-- The registers of the running guest are those of the current VM. -/
theorem Coherent.origin_eq (h : Coherent s) (hguest : (s.pcpus p).mode = .guest) {vm : VM}
    (hcurrent : getCurrentVm s p = .ok vm) : (s.pcpus p).loaded.origin = vm.vmId := by
  obtain ⟨v, -, hnamed, -, hloaded⟩ := (h.cpus p).running hguest
  rw [(getCurrentVm_eq_ok hcurrent).2]
  exact hloaded.trans hnamed.symm

theorem Coherent.saveContext (h : Coherent s) {vm : VM}
    (horigin : (s.pcpus p).loaded.origin = vm.vmId) : Coherent (saveContext s p vm) := by
  refine h.updateCpu (p := p) rfl rfl rfl (fun v hv => ?_) (fun _ _ => rfl)
    ((h.cpus p).congr rfl rfl)
  simp only [Vm.saveContext, System.setContext, VcpuContext.save]
  split
  · rename_i heq
    rw [horigin, heq]
  · exact h.vms.context v hv

theorem Coherent.switchTo (h : Coherent s) {next : VM} (hnext : next ∈ s.vmList)
    (hguest : (s.pcpus p).mode = .guest) : Coherent (switchTo s p next) := by
  refine h.updateCpu (p := p) rfl rfl rfl h.vms.context (fun q hq => ?_) ?_
  · simp only [Vm.switchTo, restoreContext, System.modifyCpu, if_neg hq]
  · refine .of_guest next hnext ?_ ?_ ?_ ?_
    · simp [Vm.switchTo, restoreContext, activateStage2TranslationTable, hguest]
    · simp [Named, Vm.switchTo]
    · simp [Mapped, Vm.switchTo, activateStage2TranslationTable]
    · simp [Loaded, Vm.switchTo, restoreContext, activateStage2TranslationTable,
        VcpuContext.restore, h.vms.context next hnext]

end Cpu

/-! ## The handlers -/

section Handlers

variable {s s' : System} {p : Nat}

theorem findNextSameAffinityVcpu_mem {vmList : List VM} {current : Nat} {next : VM}
    (h : findNextSameAffinityVcpu vmList current p = some next) : next ∈ vmList := by
  rw [findNextSameAffinityVcpu_eq] at h
  split at h
  · cases h
  · obtain ⟨i, -, hget⟩ := Option.bind_eq_some_iff.1 h
    exact (List.mem_filter.1 (List.mem_of_getElem? hget)).1

theorem Coherent.wfxHandler (h : Coherent s) (hguest : (s.pcpus p).mode = .guest)
    {switched : Option Nat} (hrun : wfxHandler s p = .ok (switched, s')) : Coherent s' := by
  obtain ⟨-, current, hcurrent, hcases⟩ := wfxHandler_eq_ok hrun
  have hbehind : Coherent (s.modifyCpu p Pcpu.behind) := h.keepVm rfl rfl rfl rfl
  rcases hcases with ⟨-, -, rfl⟩ | ⟨next, hnext, -, rfl⟩
  · exact hbehind
  · have hsave : Coherent (Vm.saveContext (s.modifyCpu p Pcpu.behind) p current) := by
      refine hbehind.saveContext ?_
      rw [modifyCpu_pcpus_self]
      exact h.origin_eq hguest hcurrent
    refine hsave.switchTo (findNextSameAffinityVcpu_mem hnext) ?_
    simpa [Vm.saveContext, System.setContext, Pcpu.behind] using hguest

theorem Coherent.handleGuestCpuOff (h : Coherent s) (hguest : (s.pcpus p).mode = .guest)
    {switched : Option Nat} (hrun : handleGuestCpuOff s p = .ok (switched, s')) : Coherent s' := by
  simp only [Vm.handleGuestCpuOff, switchToOtherVcpuOnRetire] at hrun
  cases hnext : findOtherSameAffinityVcpu s.vmList (s.pcpus p).tpidrEl2 p with
  | none =>
    simp only [hnext] at hrun
    split at hrun
    · cases hrun
      exact h.smpPark p
    · cases hrun
  | some next =>
    simp only [hnext] at hrun
    cases hrun
    exact h.switchTo (List.mem_of_find?_eq_some hnext) hguest

theorem Coherent.handleGuestCpuOn (h : Coherent s) (hguest : (s.pcpus p).mode = .guest)
    {targetCpu entryPoint contextId x0 : BitVec 64}
    (hrun : handleGuestCpuOn s p targetCpu entryPoint contextId = .ok (x0, s')) : Coherent s' := by
  simp only [Vm.handleGuestCpuOn] at hrun
  split at hrun
  · cases hrun
    exact h
  · obtain ⟨vm, hvm, hrun⟩ := bind_eq_ok.1 hrun
    cases hrun
    refine h.updateCpu (p := mpidrToAffinity targetCpu) rfl rfl rfl h.vms.context
      (fun q hq => modifyCpu_pcpus_of_ne _ _ hq) ⟨by simp, fun request hm => ?_, by simp⟩
    simp only [modifyCpu_pcpus_self, Mode.parked.injEq, Option.some.injEq] at hm
    subst hm
    exact ⟨(getCurrentVm_eq_ok hvm).1, h.origin_eq hguest hvm⟩

theorem Coherent.joinVm (h : Coherent s) {request : SmpLaunchRequest}
    (hmode : (s.pcpus p).mode = .parked (some request)) : Coherent (joinVm s p request) := by
  obtain ⟨hvm, horigin⟩ := (h.cpus p).launch request hmode
  refine h.modifyCpu (.of_guest request.vm hvm ?_ ?_ ?_ ?_)
  · simp [bootVm]
  · simp [Named, bootVm, activateVmOnThisPcpu]
  · simp [Mapped, bootVm, activateVmOnThisPcpu, activateStage2TranslationTable]
  · simp [Loaded, bootVm, horigin]

end Handlers

/-! ## New VMs -/

/-- What a `create_vm` that returns has done. -/
structure Created (s s' : System) (p : Nat) (vm : VM) : Prop where
  vmId : vm.vmId = s.nextVmId
  named : s.nextVmId % 256 < 80
  owner : vm.ownerAffinity = p
  vmid : vm.vmid = s.nextVmid &&& 0xFF
  vmList : s'.vmList = s.vmList ++ [vm]
  nextVmId : s'.nextVmId = s.nextVmId + 1
  nextVmid : s'.nextVmid = s.nextVmid + 1
  origin : (s'.context vm.vmId).origin = vm.vmId
  context : ∀ i, i ≠ vm.vmId → s'.context i = s.context i
  others : ∀ q, q ≠ p → s'.pcpus q = s.pcpus q
  queued : (∃ v ∈ s.vmList, v.ownerAffinity = p) → s'.pcpus p = s.pcpus p
  first : (∀ v ∈ s.vmList, v.ownerAffinity ≠ p) →
    s'.pcpus p = { s.pcpus p with
      tpidrEl2 := vm.vmId, vttbrEl2 := vttbr vm.stage2TableAddress vm.vmid }

section Create

variable {s s' : System} {p : Nat}

theorem resetEl1Context_eq (s : System) (p : Nat) :
    ∃ el1 reset, resetEl1Context s p = (el1, { s with resetEl1 := reset }) := by
  unfold resetEl1Context
  split
  · rename_i el1 h
    exact ⟨el1, some el1, by rw [← h]⟩
  · exact ⟨_, _, rfl⟩

theorem createVm_spec {image : Option BootImage} {r : BitVec 64 × BitVec 64}
    (h : createVm s p image = .ok (r, s')) : ∃ vm, Created s s' p vm := by
  cases image with
  | none => cases h
  | some image =>
    simp only [createVm] at h
    split at h
    · cases h
    · rename_i hname
      obtain ⟨el1, reset, hreset⟩ := resetEl1Context_eq
        { s with nextVmId := s.nextVmId + 1, nextVmid := s.nextVmid + 1 } p
      simp only [hreset] at h
      refine ⟨⟨s.nextVmId, p, image.tableAddress, s.nextVmid &&& 0xFF⟩, ?_⟩
      by_cases hown : ∃ v ∈ s.vmList, v.ownerAffinity = p
      · have hany : (s.vmList.any fun v => v.ownerAffinity == p) = true := by
          simpa using hown
        have hnot : ¬∀ v ∈ s.vmList, v.ownerAffinity ≠ p := fun hall => by
          obtain ⟨v, hv, hp⟩ := hown
          exact hall v hv hp
        simp only [System.setContext, hany, Bool.not_true, Bool.false_eq_true, if_false] at h
        obtain ⟨_, -, h⟩ := bind_eq_ok.1 h
        cases h
        exact ⟨rfl, by omega, rfl, rfl, rfl, rfl, rfl, by simp [initialContext],
          fun i hi => if_neg hi, fun _ _ => rfl, fun _ => rfl, fun hall => absurd hall hnot⟩
      · have hany : (s.vmList.any fun v => v.ownerAffinity == p) = false := by
          simpa using hown
        simp only [System.setContext, hany, Bool.not_false, if_true] at h
        cases h
        refine ⟨rfl, by omega, rfl, rfl, rfl, rfl, rfl, by simp [initialContext, System.modifyCpu],
          fun i hi => if_neg hi, fun q hq => ?_, fun hex => absurd hex hown, fun _ => ?_⟩
        · simp only [System.modifyCpu, if_neg hq]
        · simp [activateStage2TranslationTable, System.modifyCpu]

/-- A CPU keeps its VM when another CPU, or the CPU itself, creates one more. -/
theorem CpuOk.mono {q : Nat} (h : CpuOk s q) (hcpu : s'.pcpus q = s.pcpus q) {vm : VM}
    (hlist : s'.vmList = s.vmList ++ [vm]) (howner : (s.pcpus q).mode = .off →
    vm.ownerAffinity ≠ q) : CpuOk s' q := by
  refine ⟨fun hm => ?_, fun request hm => ?_, fun hm v hv => ?_⟩
  · rw [hcpu] at hm
    obtain ⟨v, hv, hnamed, hmapped, hloaded⟩ := h.running hm
    refine ⟨v, by simp [hlist, hv], ?_, ?_, ?_⟩
    · rwa [Named, hcpu]
    · rwa [Mapped, hcpu]
    · rwa [Loaded, hcpu]
  · rw [hcpu] at hm
    obtain ⟨hv, horigin⟩ := h.launch request hm
    exact ⟨by simp [hlist, hv], horigin⟩
  · rw [hcpu] at hm
    rw [hlist, List.mem_append, List.mem_singleton] at hv
    rcases hv with hv | rfl
    · exact h.unowned hm v hv
    · exact howner hm

/-- The new VM has a fresh identifier, which is also its VMID. -/
theorem Created.vmsOk {vm : VM} (hc : Created s s' p vm) (h : VmsOk s) : VmsOk s' := by
  have hid : s.nextVmId < 80 := by
    have := hc.named
    have := h.bound
    omega
  have hvmid : vm.vmid = vm.vmId := by
    have hmask : s.nextVmid &&& 0xFF = s.nextVmid % 2 ^ 8 := Nat.and_two_pow_sub_one_eq_mod _ 8
    rw [hc.vmid, hc.vmId, hmask, h.next]
    omega
  have hmem : ∀ v ∈ s'.vmList, v ∈ s.vmList ∨ v = vm := fun v hv => by
    rwa [hc.vmList, List.mem_append, List.mem_singleton] at hv
  refine ⟨?_, fun v hv => ?_, fun v hv => ?_, ?_, ?_, fun v hv => ?_⟩
  · rw [hc.vmList, List.map_append, List.map_singleton]
    refine List.nodup_append.2 ⟨h.distinct, List.nodup_singleton _, ?_⟩
    intro a ha b hb
    obtain ⟨v, hv, rfl⟩ := List.mem_map.1 ha
    rw [List.mem_singleton.1 hb, hc.vmId]
    exact Nat.ne_of_lt (h.lt v hv)
  · rw [hc.nextVmId]
    rcases hmem v hv with hv | rfl
    · have := h.lt v hv
      omega
    · rw [hc.vmId]
      omega
  · rcases hmem v hv with hv | rfl
    · exact h.vmid v hv
    · exact hvmid
  · rw [hc.nextVmId, hc.nextVmid, h.next]
  · rw [hc.nextVmId]
    omega
  · rcases hmem v hv with hv | rfl
    · have hne : v.vmId ≠ vm.vmId := by
        have := h.lt v hv
        rw [hc.vmId]
        omega
      rw [hc.context _ hne]
      exact h.context v hv
    · exact hc.origin

/-- `spawn` on a CPU that owns a VM only queues the new one. -/
theorem Coherent.spawn (h : Coherent s) (hguest : (s.pcpus p).mode = .guest)
    (hown : ∃ v ∈ s.vmList, v.ownerAffinity = p) {image : Option BootImage}
    (hrun : spawnVcpuOnCurrentPcpu s p image = .ok s') : Coherent s' := by
  obtain ⟨⟨r, s₁⟩, hcreate, hrun⟩ := bind_eq_ok.1 hrun
  cases hrun
  obtain ⟨vm, hc⟩ := createVm_spec hcreate
  refine ⟨hc.vmsOk h.vms, fun q => ?_⟩
  by_cases hq : q = p
  · subst hq
    exact (h.cpus q).mono (hc.queued hown) hc.vmList (by simp [hguest])
  · refine (h.cpus q).mono (hc.others q hq) hc.vmList fun _ => ?_
    rw [hc.owner]
    exact Ne.symm hq

/-- A CPU that starts enters the VM that it creates. -/
theorem Coherent.coreMain (h : Coherent s) (hoff : (s.pcpus p).mode = .off)
    {image : Option BootImage} (hrun : coreMain s p image = .ok s') : Coherent s' := by
  obtain ⟨⟨⟨entryPoint, argument⟩, s₁⟩, hcreate, hrun⟩ := bind_eq_ok.1 hrun
  cases hrun
  obtain ⟨vm, hc⟩ := createVm_spec hcreate
  have hcpu := hc.first ((h.cpus p).unowned hoff)
  have hvm : vm ∈ s₁.vmList := by simp [hc.vmList]
  have hvms := hc.vmsOk h.vms
  refine ⟨⟨hvms.1, hvms.2, hvms.3, hvms.4, hvms.5, hvms.6⟩, fun q => ?_⟩
  by_cases hq : q = p
  · subst hq
    refine .of_guest vm hvm ?_ ?_ ?_ ?_
    · simp [bootVm]
    · simp [Named, bootVm, hcpu]
    · simp [Mapped, bootVm, hcpu]
    · simp [Loaded, bootVm, hc.vmId]
  · refine CpuOk.congr (s := s₁) ?_ (modifyCpu_pcpus_of_ne _ _ hq) rfl
    refine (h.cpus q).mono (hc.others q hq) hc.vmList fun _ => ?_
    rw [hc.owner]
    exact Ne.symm hq

end Create

/-! ## Runs -/

/-- Every CPU is off and there is no VM. -/
def PoweredOff (s : System) : Prop :=
  ∃ context pcpus, s = System.initial context pcpus ∧ ∀ p, (pcpus p).mode = .off

/-- The `spawn` command is only run on a CPU that owns a VM. -/
def SpawnsBehindOwn (s : System) : SystemAction → Prop
  | .spawn p _ => ∃ vm ∈ s.vmList, vm.ownerAffinity = p
  | _ => True

/-- The events of the system that are permitted. -/
def SystemStep (permitted : System → SystemAction → Prop) (s : System) (action : SystemAction)
    (s' : System) : Prop :=
  permitted s action ∧ exec s action = some s'

theorem coherent_of_poweredOff {s : System} (h : PoweredOff s) : Coherent s := by
  obtain ⟨context, pcpus, rfl, hoff⟩ := h
  refine ⟨⟨List.nodup_nil, ?_, ?_, rfl, by simp [System.initial], ?_⟩, fun p => ⟨?_, ?_, ?_⟩⟩
  · simp [System.initial]
  · simp [System.initial]
  · simp [System.initial]
  · simp [System.initial, hoff p]
  · simp [System.initial, hoff p]
  · simp [System.initial]

theorem orStop_coherent {s : System} (h : Coherent s) (p : Nat) {result : Except Fault System}
    (hok : ∀ s', result = .ok s' → Coherent s') : Coherent (orStop s p result) := by
  cases result with
  | ok s' => exact hok s' rfl
  | error fault => exact h.stop p

theorem orStopLocked_coherent {s : System} (h : Coherent s) (p : Nat)
    {result : Except Fault System} (hok : ∀ s', result = .ok s' → Coherent s') :
    Coherent (orStopLocked s p result) := by
  cases result with
  | ok s' => exact hok s' rfl
  | error fault => exact h.stopLocked p

theorem map_eq_ok {α β : Type} {result : Except Fault α} {f : α → β} {b : β}
    (h : result.map f = .ok b) : ∃ a, result = .ok a ∧ f a = b := by
  cases result with
  | ok a => exact ⟨a, rfl, Except.ok.inj h⟩
  | error fault => cases h

/-- Every permitted event keeps the system coherent. -/
theorem Coherent.step {s s' : System} {action : SystemAction} (h : Coherent s)
    (hstep : SystemStep SpawnsBehindOwn s action s') : Coherent s' := by
  obtain ⟨hpermitted, hexec⟩ := hstep
  cases action with
  | start p image =>
    simp only [exec] at hexec
    split at hexec
    · rename_i hoff
      cases hexec
      exact orStopLocked_coherent h p fun s' hrun => h.coreMain hoff.1 hrun
    · cases hexec
  | park p =>
    simp only [exec] at hexec
    split at hexec
    · cases hexec
      exact (h.smpPark p).updateCpu (p := p) rfl rfl rfl (h.smpPark p).vms.context
        (fun _ _ => rfl) (((h.smpPark p).cpus p).congr rfl rfl)
    · cases hexec
  | join p =>
    simp only [exec] at hexec
    split at hexec
    · rename_i request hmode
      cases hexec
      exact h.joinVm hmode
    · cases hexec
  | spawn p image =>
    simp only [exec] at hexec
    split at hexec
    · rename_i hguest
      cases hexec
      exact orStopLocked_coherent h p fun s' hrun => h.spawn hguest.1 hpermitted hrun
    · cases hexec
  | yield p =>
    simp only [exec] at hexec
    split at hexec
    · rename_i hguest
      cases hexec
      refine orStop_coherent h p fun s' hrun => ?_
      obtain ⟨⟨switched, _⟩, hwfx, rfl⟩ := map_eq_ok hrun
      exact h.wfxHandler hguest hwfx
    · cases hexec
  | cpuOff p =>
    simp only [exec] at hexec
    split at hexec
    · rename_i hguest
      cases hexec
      refine orStop_coherent h p fun s' hrun => ?_
      obtain ⟨⟨switched, _⟩, hoff, rfl⟩ := map_eq_ok hrun
      exact h.handleGuestCpuOff hguest hoff
    · cases hexec
  | cpuOn p targetCpu entryPoint contextId =>
    simp only [exec] at hexec
    split at hexec
    · rename_i hguest
      cases hexec
      split
      · next x0 s₁ hon =>
        have hjoined := h.handleGuestCpuOn hguest hon
        exact orStop_coherent hjoined p fun s' hrun => hjoined.returnX0 hrun
      · exact h.stop p
    · cases hexec
  | guest p values =>
    simp only [exec] at hexec
    split at hexec
    · cases hexec
      exact h.keepVm rfl rfl rfl rfl
    · cases hexec

/-- The state after a list of events, if all of them are permitted and possible. -/
def execAll (permitted : System → SystemAction → Prop) [∀ s a, Decidable (permitted s a)]
    (s : System) : List SystemAction → Option System
  | [] => some s
  | action :: rest =>
    if permitted s action then (exec s action).bind fun s => execAll permitted s rest else none

theorem run_of_execAll {permitted : System → SystemAction → Prop}
    [∀ s a, Decidable (permitted s a)] {rest : List SystemAction} :
    ∀ {actions : List SystemAction} {s s' : System},
      Run PoweredOff (SystemStep permitted) actions s → execAll permitted s rest = some s' →
      Run PoweredOff (SystemStep permitted) (actions ++ rest) s' := by
  induction rest with
  | nil =>
    intro actions s s' hrun h
    cases h
    rwa [List.append_nil]
  | cons action rest ih =>
    intro actions s s' hrun h
    rw [execAll] at h
    split at h
    · rename_i hpermitted
      obtain ⟨s₁, hexec, hrest⟩ := Option.bind_eq_some_iff.1 h
      have := ih (hrun.next ⟨hpermitted, hexec⟩) hrest
      rwa [List.append_assoc] at this
    · cases h

/-- A machine that has not been switched on. -/
def System.off : System := System.initial default fun _ => ⟨.off, 0, 0, default⟩

/-- A run of the machine that is computed, and what is computed of its last state. -/
theorem exists_run (permitted : System → SystemAction → Prop) [∀ s a, Decidable (permitted s a)]
    (actions : List SystemAction) (P : System → Prop) [DecidablePred P]
    (h : ((execAll permitted System.off actions).any fun s => P s) = true) :
    ∃ s, Run PoweredOff (SystemStep permitted) actions s ∧ P s := by
  cases hexec : execAll permitted System.off actions with
  | none => simp [hexec] at h
  | some s =>
    have hstart : Run PoweredOff (SystemStep permitted) [] System.off :=
      .start ⟨_, _, rfl, fun _ => rfl⟩
    exact ⟨s, run_of_execAll hstart hexec, by simpa [hexec] using h⟩

instance (s : System) (action : SystemAction) : Decidable (SpawnsBehindOwn s action) := by
  cases action with
  | spawn p image => exact inferInstanceAs (Decidable (∃ vm ∈ s.vmList, vm.ownerAffinity = p))
  | _ => exact inferInstanceAs (Decidable True)

/-- In every run in which `spawn` is only executed on CPUs that own a VM, every CPU that runs a
guest runs one VM. -/
theorem runs_one_vm_of_run {actions : List SystemAction} {s : System}
    (h : Run PoweredOff (SystemStep SpawnsBehindOwn) actions s) (p : Nat)
    (hguest : (s.pcpus p).mode = .guest) : RunsOneVm s p := by
  have hcoherent : Coherent s :=
    h.invariant (fun s hs => coherent_of_poweredOff hs) fun s action s' hs hstep => hs.step hstep
  exact hcoherent.runsOneVm hguest

/-- A run with a queued VM and a CPU that joined: CPU 0 yields to its second VM while CPU 1 runs the
first one. -/
theorem runs_one_vm_of_run_joined : ∃ s, Run PoweredOff (SystemStep SpawnsBehindOwn)
      [.start 0 (some ⟨0x80000, 0x40200000⟩), .park 1, .cpuOn 0 1 0x40300000 7,
        .spawn 0 (some ⟨0x81000, 0x40200000⟩), .join 1, .yield 0] s ∧
    ((s.pcpus 0).tpidrEl2 = 1 ∧ (s.pcpus 1).tpidrEl2 = 0) ∧ RunsOneVm s 0 ∧ RunsOneVm s 1 := by
  obtain ⟨s, hrun, h0, h1, htpidr⟩ := exists_run SpawnsBehindOwn
    [.start 0 (some ⟨0x80000, 0x40200000⟩), .park 1, .cpuOn 0 1 0x40300000 7,
      .spawn 0 (some ⟨0x81000, 0x40200000⟩), .join 1, .yield 0]
    (fun s => (s.pcpus 0).mode = .guest ∧ (s.pcpus 1).mode = .guest ∧
      (s.pcpus 0).tpidrEl2 = 1 ∧ (s.pcpus 1).tpidrEl2 = 0) (by decide +kernel)
  exact ⟨s, hrun, htpidr, runs_one_vm_of_run hrun 0 h0, runs_one_vm_of_run hrun 1 h1⟩

/-- CPU 1 joined VM 0 and then runs `spawn`: `TPIDR_EL2` and `VTTBR_EL2` change to the new VM 1
while the registers of VM 0 stay loaded. -/
theorem spawn_on_joined_cpu : ∃ s, Run PoweredOff (SystemStep fun _ _ => True)
      [.start 0 (some ⟨0x80000, 0x40200000⟩), .park 1, .cpuOn 0 1 0x40300000 7, .join 1,
        .spawn 1 (some ⟨0x81000, 0x40200000⟩)] s ∧
    (s.pcpus 1).mode = .guest ∧ (s.pcpus 1).tpidrEl2 = 1 ∧ (s.pcpus 1).loaded.origin = 0 ∧
    ¬RunsOneVm s 1 := by
  exact exists_run (fun _ _ => True)
    [.start 0 (some ⟨0x80000, 0x40200000⟩), .park 1, .cpuOn 0 1 0x40300000 7, .join 1,
      .spawn 1 (some ⟨0x81000, 0x40200000⟩)]
    (fun s => (s.pcpus 1).mode = .guest ∧ (s.pcpus 1).tpidrEl2 = 1 ∧
      (s.pcpus 1).loaded.origin = 0 ∧ ¬RunsOneVm s 1) (by decide +kernel)

end MiniVisor.Vm
