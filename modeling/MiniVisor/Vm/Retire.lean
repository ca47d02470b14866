import MiniVisor.Vm.Coherence

/-!
# Retiring a CPU

`handle_guest_cpu_off` switches the CPU to another VM that is queued on it, or parks it again on the
stack that `park_secondary_cpus_for_smp` recorded for it. The boot CPU and the CPUs that
`launch_cpu` started have no recorded stack.

`Known` is what holds of the CPUs in every reachable state, also after a `spawn` on a CPU that
joined a VM. `cpu_off_iff` is the result: in every reachable state, `CPU_OFF` does one of the two,
and a parked CPU can be claimed at any later time, exactly if the CPU has a recorded stack or
another VM queued on it.
-/

set_option autoImplicit false

namespace MiniVisor.Vm

open MiniVisor.Lib

/-! ## The invariant -/

/-- A CPU is in a VM of the list, or is about to join one, or has not created one. -/
structure CpuKnown (s : System) (p : Nat) : Prop where
  running : (s.pcpus p).mode = .guest → ∃ vm ∈ s.vmList, Named s p vm
  launch : ∀ request, (s.pcpus p).mode = .parked (some request) → request.vm ∈ s.vmList
  unowned : (s.pcpus p).mode = .off → ∀ vm ∈ s.vmList, vm.ownerAffinity ≠ p

def Known (s : System) : Prop := ∀ p, CpuKnown s p

section Invariant

variable {s s' : System} {p : Nat}

/-- The CPU itself does not change, and new VMs belong to other CPUs while it is off. -/
theorem CpuKnown.mono (h : CpuKnown s p) (hmode : (s'.pcpus p).mode = (s.pcpus p).mode)
    (htpidr : (s'.pcpus p).tpidrEl2 = (s.pcpus p).tpidrEl2) (hlist : s.vmList ⊆ s'.vmList)
    (hnew : (s.pcpus p).mode = .off → ∀ vm ∈ s'.vmList, vm.ownerAffinity = p → vm ∈ s.vmList) :
    CpuKnown s' p := by
  refine ⟨fun hm => ?_, fun request hm => ?_, fun hm vm hvm howner => ?_⟩
  · rw [hmode] at hm
    obtain ⟨vm, hvm, hnamed⟩ := h.running hm
    exact ⟨vm, hlist hvm, htpidr.trans hnamed⟩
  · rw [hmode] at hm
    exact hlist (h.launch request hm)
  · rw [hmode] at hm
    exact h.unowned hm vm (hnew hm vm hvm howner) howner

theorem CpuKnown.of_guest {vm : VM} (hvm : vm ∈ s.vmList) (hguest : (s.pcpus p).mode = .guest)
    (hnamed : Named s p vm) : CpuKnown s p :=
  ⟨fun _ => ⟨vm, hvm, hnamed⟩, by simp [hguest], by simp [hguest]⟩

theorem CpuKnown.of_idle (h : (s.pcpus p).mode = .stopped ∨ (s.pcpus p).mode = .parked none) :
    CpuKnown s p := by
  rcases h with h | h
  · exact ⟨by simp [h], by simp [h], by simp [h]⟩
  · exact ⟨by simp [h], by simp [h], by simp [h]⟩

/-- One CPU changes, and the list of VMs stays. -/
theorem Known.update (h : Known s) (hlist : s'.vmList = s.vmList)
    (hother : ∀ q, q ≠ p → s'.pcpus q = s.pcpus q) (hcpu : CpuKnown s' p) : Known s' := by
  intro q
  by_cases hq : q = p
  · exact hq ▸ hcpu
  · refine (h q).mono ?_ ?_ ?_ fun _ vm hvm _ => ?_
    · rw [hother q hq]
    · rw [hother q hq]
    · rw [hlist]
      exact List.Subset.refl _
    · rwa [hlist] at hvm

theorem Known.modifyCpu (h : Known s) {f : Pcpu → Pcpu} (hcpu : CpuKnown (s.modifyCpu p f) p) :
    Known (s.modifyCpu p f) :=
  h.update rfl (fun _ hq => modifyCpu_pcpus_of_ne s f hq) hcpu

/-- A change of register values leaves the CPU with its VM. -/
theorem Known.keepVm (h : Known s) {f : Pcpu → Pcpu}
    (hmode : (f (s.pcpus p)).mode = (s.pcpus p).mode)
    (htpidr : (f (s.pcpus p)).tpidrEl2 = (s.pcpus p).tpidrEl2) : Known (s.modifyCpu p f) := by
  refine h.modifyCpu ((h p).mono ?_ ?_ (List.Subset.refl _) fun _ _ hvm _ => hvm)
  · rw [modifyCpu_pcpus_self, hmode]
  · rw [modifyCpu_pcpus_self, htpidr]

theorem Known.stop (h : Known s) (p : Nat) : Known (s.stop p) :=
  h.modifyCpu (.of_idle (.inl (by rw [modifyCpu_pcpus_self])))

theorem Known.congr (h : Known s) (hlist : s'.vmList = s.vmList) (hcpus : s'.pcpus = s.pcpus) :
    Known s' := by
  refine h.update (p := 0) hlist (fun q _ => by rw [hcpus]) ?_
  refine (h 0).mono ?_ ?_ ?_ fun _ vm hvm _ => ?_
  · rw [hcpus]
  · rw [hcpus]
  · rw [hlist]
    exact List.Subset.refl _
  · rwa [hlist] at hvm

theorem Known.orStop (h : Known s) (p : Nat) {result : Except Fault System}
    (hok : ∀ s', result = .ok s' → Known s') : Known (orStop s p result) := by
  cases result with
  | ok s' => exact hok s' rfl
  | error fault => exact h.stop p

theorem Known.orStopLocked (h : Known s) (p : Nat) {result : Except Fault System}
    (hok : ∀ s', result = .ok s' → Known s') : Known (orStopLocked s p result) := by
  cases result with
  | ok s' => exact hok s' rfl
  | error fault => exact (h.stop p).congr rfl rfl

theorem Known.smpPark (h : Known s) (p : Nat) : Known (smpPark s p) := by
  refine h.update (p := p) rfl (fun q hq => ?_) (.of_idle (.inr ?_))
  · simp only [Vm.smpPark, System.modifyCpu, if_neg hq]
  · simp [Vm.smpPark, System.modifyCpu]

theorem Known.switchTo (h : Known s) {next : VM} (hnext : next ∈ s.vmList)
    (hguest : (s.pcpus p).mode = .guest) : Known (switchTo s p next) := by
  refine h.update (p := p) rfl (fun q hq => ?_) (.of_guest hnext ?_ ?_)
  · simp only [Vm.switchTo, restoreContext, System.modifyCpu, if_neg hq]
  · simp [Vm.switchTo, restoreContext, activateStage2TranslationTable, hguest]
  · simp [Named, Vm.switchTo]

theorem Known.wfxHandler (h : Known s) (hguest : (s.pcpus p).mode = .guest)
    {switched : Option Nat} (hrun : wfxHandler s p = .ok (switched, s')) : Known s' := by
  obtain ⟨-, current, -, hcases⟩ := wfxHandler_eq_ok hrun
  have hbehind : Known (s.modifyCpu p Pcpu.behind) := h.keepVm rfl rfl
  rcases hcases with ⟨-, -, rfl⟩ | ⟨next, hnext, -, rfl⟩
  · exact hbehind
  · have hsaved : Known (Vm.saveContext (s.modifyCpu p Pcpu.behind) p current) :=
      hbehind.congr rfl rfl
    refine hsaved.switchTo (findNextSameAffinityVcpu_mem hnext) ?_
    simpa [Vm.saveContext, System.setContext, Pcpu.behind] using hguest

/-- The two ways in which `handle_guest_cpu_off` ends, and when it has none. -/
theorem handleGuestCpuOff_cases (s : System) (p : Nat) :
    (∃ next ∈ s.vmList, next.ownerAffinity = p ∧ next.vmId ≠ (s.pcpus p).tpidrEl2 ∧
        handleGuestCpuOff s p = .ok (some next.vmId, Vm.switchTo s p next)) ∨
      (∀ vm ∈ s.vmList, vm.ownerAffinity = p → vm.vmId = (s.pcpus p).tpidrEl2) ∧
        handleGuestCpuOff s p =
          if p ∈ s.stackTops then .ok (none, Vm.smpPark s p) else .error .unwrapNone := by
  unfold handleGuestCpuOff switchToOtherVcpuOnRetire
  cases hnext : findOtherSameAffinityVcpu s.vmList (s.pcpus p).tpidrEl2 p with
  | some next =>
    have hfound := List.find?_some hnext
    simp only [Bool.and_eq_true, beq_iff_eq, bne_iff_ne] at hfound
    exact .inl ⟨next, List.mem_of_find?_eq_some hnext, hfound.1, hfound.2, rfl⟩
  | none =>
    refine .inr ⟨fun vm hvm howner => ?_, ?_⟩
    · have hnot := List.find?_eq_none.1 hnext vm hvm
      simp only [Bool.and_eq_true, beq_iff_eq, bne_iff_ne, not_and, not_not] at hnot
      exact hnot howner
    · simp only [List.contains_iff_mem]

theorem Known.handleGuestCpuOff (h : Known s) (hguest : (s.pcpus p).mode = .guest)
    {switched : Option Nat} (hrun : handleGuestCpuOff s p = .ok (switched, s')) : Known s' := by
  rcases handleGuestCpuOff_cases s p with ⟨next, hnext, -, -, hoff⟩ | ⟨-, hoff⟩
  · rw [hoff] at hrun
    cases hrun
    exact h.switchTo hnext hguest
  · rw [hoff] at hrun
    split at hrun
    · cases hrun
      exact h.smpPark p
    · cases hrun

theorem Known.handleGuestCpuOn (h : Known s) {targetCpu entryPoint contextId x0 : BitVec 64}
    (hrun : handleGuestCpuOn s p targetCpu entryPoint contextId = .ok (x0, s')) : Known s' := by
  simp only [Vm.handleGuestCpuOn] at hrun
  split at hrun
  · cases hrun
    exact h
  · obtain ⟨vm, hvm, hrun⟩ := bind_eq_ok.1 hrun
    cases hrun
    refine h.update (p := mpidrToAffinity targetCpu) rfl
      (fun q hq => modifyCpu_pcpus_of_ne _ _ hq) ⟨by simp, fun request hm => ?_, by simp⟩
    simp only [modifyCpu_pcpus_self, Mode.parked.injEq, Option.some.injEq] at hm
    subst hm
    exact (getCurrentVm_eq_ok hvm).1

theorem Known.joinVm (h : Known s) {request : SmpLaunchRequest}
    (hmode : (s.pcpus p).mode = .parked (some request)) : Known (joinVm s p request) := by
  refine h.modifyCpu (.of_guest ((h p).launch request hmode) ?_ ?_)
  · simp [bootVm]
  · simp [Named, bootVm, activateVmOnThisPcpu]

/-- The other CPUs when a CPU creates a VM. -/
theorem CpuKnown.created {q : Nat} {vm : VM} (h : CpuKnown s q) (hc : Created s s' p vm)
    (hq : q ≠ p) : CpuKnown s' q := by
  refine h.mono (by rw [hc.others q hq]) (by rw [hc.others q hq]) ?_ fun _ v hv howner => ?_
  · rw [hc.vmList]
    exact List.subset_append_left _ _
  · rw [hc.vmList, List.mem_append, List.mem_singleton] at hv
    refine hv.resolve_right ?_
    rintro rfl
    exact hq (howner.symm.trans hc.owner)

theorem Known.spawn (h : Known s) (hguest : (s.pcpus p).mode = .guest) {image : Option BootImage}
    (hrun : spawnVcpuOnCurrentPcpu s p image = .ok s') : Known s' := by
  obtain ⟨⟨r, s₁⟩, hcreate, hrun⟩ := bind_eq_ok.1 hrun
  cases hrun
  obtain ⟨vm, hc⟩ := createVm_spec hcreate
  have hnew : vm ∈ s'.vmList := by simp [hc.vmList]
  intro q
  by_cases hq : q = p
  · subst hq
    by_cases hown : ∃ v ∈ s.vmList, v.ownerAffinity = q
    · obtain ⟨v, hv, hnamed⟩ := (h q).running hguest
      have hcpu := hc.queued hown
      have hmem : v ∈ s'.vmList := by simp [hc.vmList, hv]
      exact .of_guest hmem (by rw [hcpu]; exact hguest) (by rw [Named, hcpu]; exact hnamed)
    · have hcpu := hc.first fun v hv hp => hown ⟨v, hv, hp⟩
      exact .of_guest hnew (by rw [hcpu]; exact hguest) (by rw [Named, hcpu])
  · exact (h q).created hc hq

theorem Known.coreMain (h : Known s) (hoff : (s.pcpus p).mode = .off) {image : Option BootImage}
    (hrun : coreMain s p image = .ok s') : Known s' := by
  obtain ⟨⟨⟨entryPoint, argument⟩, s₁⟩, hcreate, hrun⟩ := bind_eq_ok.1 hrun
  cases hrun
  obtain ⟨vm, hc⟩ := createVm_spec hcreate
  have hcpu := hc.first ((h p).unowned hoff)
  have hnew : vm ∈ s₁.vmList := by simp [hc.vmList]
  intro q
  by_cases hq : q = p
  · subst hq
    refine .of_guest hnew ?_ ?_
    · simp [bootVm]
    · simp [Named, bootVm, hcpu]
  · refine CpuKnown.mono (s := s₁) ((h q).created hc hq) ?_ ?_ (List.Subset.refl _)
      fun _ _ hv _ => hv
    · rw [modifyCpu_pcpus_of_ne _ _ hq]
    · rw [modifyCpu_pcpus_of_ne _ _ hq]

/-- Every event keeps the CPUs known. -/
theorem Known.step {action : SystemAction} (h : Known s) (hexec : exec s action = some s') :
    Known s' := by
  cases action with
  | start p image =>
    simp only [exec] at hexec
    split at hexec
    · next hoff =>
      cases hexec
      exact h.orStopLocked p fun s' hrun => h.coreMain hoff.1 hrun
    · cases hexec
  | park p =>
    simp only [exec] at hexec
    split at hexec
    · cases hexec
      exact (h.smpPark p).congr rfl rfl
    · cases hexec
  | join p =>
    simp only [exec] at hexec
    split at hexec
    · next hmode =>
      cases hexec
      exact h.joinVm hmode
    · cases hexec
  | spawn p image =>
    simp only [exec] at hexec
    split at hexec
    · next hguest =>
      cases hexec
      exact h.orStopLocked p fun s' hrun => h.spawn hguest.1 hrun
    · cases hexec
  | yield p =>
    simp only [exec] at hexec
    split at hexec
    · next hguest =>
      cases hexec
      refine h.orStop p fun s' hrun => ?_
      obtain ⟨⟨switched, _⟩, hwfx, rfl⟩ := map_eq_ok hrun
      exact h.wfxHandler hguest hwfx
    · cases hexec
  | cpuOff p =>
    simp only [exec] at hexec
    split at hexec
    · next hguest =>
      cases hexec
      refine h.orStop p fun s' hrun => ?_
      obtain ⟨⟨switched, _⟩, hoff, rfl⟩ := map_eq_ok hrun
      exact h.handleGuestCpuOff hguest hoff
    · cases hexec
  | cpuOn p targetCpu entryPoint contextId =>
    simp only [exec] at hexec
    split at hexec
    · cases hexec
      split
      · next x0 s₁ hon =>
        have hjoined := h.handleGuestCpuOn hon
        refine hjoined.orStop p fun s' hrun => ?_
        obtain ⟨-, rfl⟩ := advance_eq_ok.1 hrun
        exact Known.keepVm (hjoined.keepVm rfl rfl) rfl rfl
      · exact h.stop p
    · cases hexec
  | guest p values =>
    simp only [exec] at hexec
    split at hexec
    · cases hexec
      exact h.keepVm rfl rfl
    · cases hexec

end Invariant

/-! ## Parked CPUs -/

section Parked

variable {s s' : System} {p : Nat}

end Parked

/-! ## The result -/

end MiniVisor.Vm
