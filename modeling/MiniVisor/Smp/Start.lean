import MiniVisor.Smp.SpinTable

/-!
# Starting further CPUs

`park_secondary_cpus_for_smp` and `launch_cpu` of `main.rs`. Both go over the nodes that
`Dtb::search_node` finds one after the other, which need not be all CPUs of the devicetree: the
search loses what stands behind a sibling of another name. A CPU is started by PSCI, which refuses a
CPU that is running, or by a write to its release address, which only a CPU that has not left its
pen reads. A call of `launch_cpu` comes with the affinity of the caller and with the CPUs for which
PSCI succeeds if they are off.

The parking starts all CPUs with a release address that it finds. `launch_right_iff`: from then on a
call does what it says exactly if the first CPU that it finds and can take for startable is one of
PSCI, or there is none and all CPUs of the devicetree are running. A CPU with a release address is
always taken for one.
-/

set_option autoImplicit false

namespace MiniVisor.Smp

open MiniVisor.Lib

/-! ## Model -/

/-- `enable-method` of a CPU, with `cpu-release-addr` if it is valid. -/
inductive EnableMethod where
  | spinTable (releaseAddress : Option Nat)
  | psci
  deriving DecidableEq, Repr

/-- A node of the devicetree. The affinity is absent if there is no `reg`. -/
structure CpuNode where
  affinity : Option Nat
  method : EnableMethod

/-- A search that goes on from each node that it has found finds these nodes, and no more. -/
def Finds (search : Option Nat → Option Nat) : Option Nat → List Nat → Prop
  | current, [] => search current = none
  | current, node :: rest => search current = some node ∧ Finds search (some node) rest

/-- The CPUs of a devicetree, and the nodes that a loop over `search_node` finds, by address. -/
structure Devicetree where
  cpus : List CpuNode
  searchNode : Option Nat → Option Nat
  cpuAt : Nat → CpuNode
  addresses : List Nat
  finds : Finds searchNode none addresses

/-- The CPUs that the loops of `main.rs` go over. -/
def Devicetree.found (dtb : Devicetree) : List CpuNode := dtb.addresses.map dtb.cpuAt

/-- `allocate_pages` for a stack, given the stacks that are in use. -/
structure StackAllocator where
  allocate : List Nat → Nat
  fresh : ∀ inUse, allocate inUse ∉ inUse

structure Cpus where
  /-- The CPUs that have left the firmware, by affinity. -/
  running : Nat → Bool
  /-- The stacks that are allocated. -/
  inUse : List Nat
  /-- The CPUs that entered `core_entry`, each with its stack. -/
  entered : List (Nat × Nat)

namespace Cpus

def allocated (alloc : StackAllocator) (s : Cpus) : Cpus :=
  { s with inUse := alloc.allocate s.inUse :: s.inUse }

/-- `free_pages`. -/
def free (stack : Nat) (s : Cpus) : Cpus := { s with inUse := s.inUse.erase stack }

/-- A CPU leaves the firmware for `core_entry`. -/
def enter (affinity stack : Nat) (s : Cpus) : Cpus :=
  { s with
    running := Function.update s.running affinity true
    entered := s.entered ++ [(affinity, stack)] }

/-- A CPU leaves the firmware for `smp_park_entry`. -/
def park (affinity : Nat) (s : Cpus) : Cpus :=
  { s with running := Function.update s.running affinity true }

/-- `park_secondary_cpus_for_smp` for one node. -/
def parkNode (alloc : StackAllocator) (current : Nat) (hasPsci : Bool) (accepts : Nat → Bool)
    (s : Cpus) (node : CpuNode) : Cpus :=
  match node.affinity with
  | none => s
  | some affinity =>
    if affinity = current then s
    else
      match node.method with
      | .spinTable none => (s.allocated alloc).free (alloc.allocate s.inUse)
      | .spinTable (some _) => (s.allocated alloc).park affinity
      | .psci =>
        if hasPsci = true ∧ s.running affinity = false ∧ accepts affinity = true then
          (s.allocated alloc).park affinity
        else (s.allocated alloc).free (alloc.allocate s.inUse)

/-- The boot CPU alone. -/
def booted (current : Nat) : Cpus := ⟨fun affinity => affinity == current, [], []⟩

def parkSecondaryCpusForSmp (alloc : StackAllocator) (dtb : Devicetree) (current : Nat)
    (hasPsci : Bool) (accepts : Nat → Bool) : Cpus :=
  dtb.found.foldl (parkNode alloc current hasPsci accepts) (booted current)

end Cpus

/-- A call of `launch_cpu`. -/
structure LaunchCall where
  current : Nat
  accepts : Nat → Bool

namespace LaunchCall

/-- The loop of `launch_cpu`, with the stack for the CPU. -/
def walk (call : LaunchCall) (stack : Nat) (s : Cpus) : List CpuNode → Bool × Cpus
  | [] => (false, s.free stack)
  | node :: rest =>
    match node.affinity with
    | none => call.walk stack s rest
    | some affinity =>
      if affinity = call.current then call.walk stack s rest
      else
        match node.method with
        | .spinTable none => call.walk stack s rest
        -- Nothing is heard of the CPU. One that has left its pen does not read the address.
        | .spinTable (some _) =>
          (true, if s.running affinity = true then s else s.enter affinity stack)
        | .psci =>
          if s.running affinity = true then call.walk stack s rest
          else if call.accepts affinity = true then (true, s.enter affinity stack)
          else call.walk stack s rest

/-- `launch_cpu`. -/
def launchCpu (alloc : StackAllocator) (dtb : Devicetree) (call : LaunchCall) (s : Cpus) :
    Bool × Cpus :=
  call.walk (alloc.allocate s.inUse) (s.allocated alloc) dtb.found

/-! ## Calls -/

/-- What a call has to do. With true one CPU that was not running enters `core_entry` on a stack
that was not in use. With false the stack is free again and all CPUs of the devicetree are running.
-/
def Right (alloc : StackAllocator) (dtb : Devicetree) (call : LaunchCall) (s : Cpus) : Prop :=
  ((call.launchCpu alloc dtb s).1 = true → ∃ affinity stack, s.running affinity = false ∧
      stack ∉ s.inUse ∧
      (call.launchCpu alloc dtb s).2.entered = s.entered ++ [(affinity, stack)]) ∧
    ((call.launchCpu alloc dtb s).1 = false → (call.launchCpu alloc dtb s).2.inUse = s.inUse ∧
      ∀ node ∈ dtb.cpus, ∃ affinity, node.affinity = some affinity ∧
        (call.launchCpu alloc dtb s).2.running affinity = true)

/-- A CPU that the call takes for startable: it has a release address, or it is off and PSCI
succeeds. -/
def takes (call : LaunchCall) (s : Cpus) (node : CpuNode) : Bool :=
  match node.affinity with
  | none => false
  | some affinity => affinity != call.current &&
    match node.method with
    | .spinTable releaseAddress => releaseAddress.isSome
    | .psci => !s.running affinity && call.accepts affinity

/-- The first CPU that is found and taken for startable is one of PSCI, or there is none and all
CPUs of the devicetree are running. -/
def Startable (dtb : Devicetree) (call : LaunchCall) (s : Cpus) : Prop :=
  match dtb.found.find? (call.takes s) with
  | some node => node.method = .psci
  | none => ∀ node ∈ dtb.cpus, ∃ affinity, node.affinity = some affinity ∧ s.running affinity = true

variable {alloc : StackAllocator} {dtb : Devicetree} {nodes : List CpuNode} {call : LaunchCall}
  {s s' : Cpus} {stack : Nat} {node : CpuNode}

/-- One node of the loop that the call does not take. -/
theorem walk_cons_of_not_takes (h : call.takes s node = false) (rest : List CpuNode) :
    call.walk stack s (node :: rest) = call.walk stack s rest := by
  obtain ⟨affinity, method⟩ := node
  rw [walk]
  cases affinity with
  | none => rfl
  | some affinity =>
    dsimp only
    split
    · rfl
    · next hother =>
      change (affinity != call.current && _) = false at h
      rw [bne_iff_ne.2 hother, Bool.true_and] at h
      rcases method with ⟨_ | _⟩ | _
      · rfl
      · exact absurd (show true = false from h) (by decide)
      · dsimp only at h ⊢
        split
        · rfl
        · next hoff =>
          rw [Bool.not_eq_true] at hoff
          rw [hoff, Bool.not_false, Bool.true_and] at h
          rw [if_neg (by rw [h]; decide)]

/-- One node of the loop that the call takes. -/
theorem walk_cons_of_takes (stack : Nat) (h : call.takes s node = true) (rest : List CpuNode) :
    ∃ affinity, node.affinity = some affinity ∧
      ((node.method = .psci ∧ s.running affinity = false ∧
          call.walk stack s (node :: rest) = (true, s.enter affinity stack)) ∨
        ∃ releaseAddress, node.method = .spinTable (some releaseAddress) ∧
          call.walk stack s (node :: rest) =
            (true, if s.running affinity = true then s else s.enter affinity stack)) := by
  obtain ⟨affinity, method⟩ := node
  cases affinity with
  | none => exact nomatch h
  | some affinity =>
    obtain ⟨hother, hmethod⟩ := Bool.and_eq_true_iff.1 h
    have hcurrent : affinity ≠ call.current := bne_iff_ne.1 hother
    refine ⟨affinity, rfl, ?_⟩
    rw [walk]
    dsimp only
    rw [if_neg hcurrent]
    rcases method with ⟨_ | releaseAddress⟩ | _
    · exact nomatch hmethod
    · exact .inr ⟨releaseAddress, rfl, rfl⟩
    · obtain ⟨hoff, haccepts⟩ := Bool.and_eq_true_iff.1 hmethod
      rw [Bool.not_eq_true'] at hoff
      refine .inl ⟨rfl, hoff, ?_⟩
      dsimp only
      rw [if_neg (by rw [hoff]; decide), if_pos haccepts]

/-- The loop goes on to the first CPU that the call takes. -/
theorem walk_eq_of_find (nodes : List CpuNode) :
    (nodes.find? (call.takes s) = none → call.walk stack s nodes = (false, s.free stack)) ∧
      ∀ node, nodes.find? (call.takes s) = some node →
        call.takes s node = true ∧ ∃ rest, call.walk stack s nodes =
          call.walk stack s (node :: rest) := by
  induction nodes with
  | nil => exact ⟨fun _ => rfl, fun _ h => (nomatch h)⟩
  | cons first rest ih =>
    rw [List.find?_cons]
    cases htakes : call.takes s first with
    | true =>
      refine ⟨fun h => (nomatch h), fun node h => ?_⟩
      cases h
      exact ⟨htakes, rest, rfl⟩
    | false =>
      rw [walk_cons_of_not_takes htakes]
      exact ih

/-- All CPUs with a release address are running. -/
def Released (nodes : List CpuNode) (s : Cpus) : Prop :=
  ∀ node ∈ nodes, ∀ affinity releaseAddress, node.affinity = some affinity →
    node.method = .spinTable (some releaseAddress) → s.running affinity = true

/-- A call after the parking. -/
theorem right_iff_startable (h : Released dtb.found s) :
    call.Right alloc dtb s ↔ call.Startable dtb s := by
  obtain ⟨hnone, hsome⟩ := @walk_eq_of_find call (s.allocated alloc) (alloc.allocate s.inUse)
    dtb.found
  have htakes : call.takes (s.allocated alloc) = call.takes s := rfl
  rw [htakes] at hnone hsome
  unfold Right Startable launchCpu
  cases hfind : dtb.found.find? (call.takes s) with
  | none =>
    have hfreed : ((s.allocated alloc).free (alloc.allocate s.inUse)).inUse = s.inUse :=
      List.erase_cons_head _ _
    rw [hnone hfind]
    exact ⟨fun hright => (hright.2 rfl).2,
      fun hall => ⟨fun h => (nomatch h), fun _ => ⟨hfreed, hall⟩⟩⟩
  | some node =>
    obtain ⟨htaken, rest, hwalk⟩ := hsome node hfind
    rw [hwalk]
    obtain ⟨affinity, haffinity, hcases⟩ := @walk_cons_of_takes call (s.allocated alloc) node
      (alloc.allocate s.inUse) htaken rest
    rcases hcases with ⟨hpsci, hoff, hrun⟩ | ⟨releaseAddress, htable, hrun⟩
    · rw [hrun]
      refine iff_of_true ⟨fun _ => ?_, fun h => nomatch h⟩ hpsci
      exact ⟨affinity, alloc.allocate s.inUse, hoff, alloc.fresh _, rfl⟩
    · -- The CPU is running since the parking: nobody reads the release address.
      have hrunning : (s.allocated alloc).running affinity = true :=
        h node (List.mem_of_find?_eq_some hfind) affinity releaseAddress haffinity htable
      rw [hrun, if_pos hrunning]
      refine iff_of_false (fun hright => ?_) (fun hpsci => nomatch htable.symm.trans hpsci)
      obtain ⟨a, stack, -, -, hentered⟩ := hright.1 rfl
      have hsame : s.entered = s.entered ++ [(a, stack)] := hentered
      exact absurd hsame (by simp)

/-! ## Runs -/

/-- A running CPU calls `launch_cpu`. -/
def Step (alloc : StackAllocator) (dtb : Devicetree) (s : Cpus) (call : LaunchCall)
    (s' : Cpus) : Prop :=
  s.running call.current = true ∧ s' = (call.launchCpu alloc dtb s).2

/-- A CPU that is running stays so. -/
theorem running_update {s : Cpus} {a b : Nat} (h : s.running a = true) :
    Function.update s.running b true a = true := by
  by_cases hab : a = b
  · rw [hab, Function.update_self]
  · rw [Function.update_of_ne hab]
    exact h

theorem running_walk (nodes : List CpuNode) {affinity : Nat} (h : s.running affinity = true) :
    (call.walk stack s nodes).2.running affinity = true := by
  cases hfind : nodes.find? (call.takes s) with
  | none =>
    rw [(walk_eq_of_find nodes).1 hfind]
    exact h
  | some node =>
    obtain ⟨htaken, rest, hwalk⟩ := (walk_eq_of_find nodes).2 node hfind
    obtain ⟨other, -, ⟨-, -, hrun⟩ | ⟨-, -, hrun⟩⟩ := walk_cons_of_takes stack htaken rest
    · rw [hwalk, hrun]
      exact running_update h
    · rw [hwalk, hrun]
      dsimp only
      split
      · exact h
      · exact running_update h

theorem Released.step (h : Released dtb.found s) (hstep : Step alloc dtb s call s') :
    Released dtb.found s' := by
  obtain ⟨-, rfl⟩ := hstep
  exact fun node hnode affinity releaseAddress haffinity hmethod =>
    running_walk dtb.found (h node hnode affinity releaseAddress haffinity hmethod)

theorem running_parkNode (alloc : StackAllocator) {current : Nat} {hasPsci : Bool}
    {accepts : Nat → Bool} (node : CpuNode) {affinity : Nat} (h : s.running affinity = true) :
    (s.parkNode alloc current hasPsci accepts node).running affinity = true := by
  unfold Cpus.parkNode
  split
  · exact h
  · split
    · exact h
    · split
      · exact h
      · exact running_update h
      · split
        · exact running_update h
        · exact h

/-- The parking starts every other CPU with a release address. -/
theorem released_foldl {current : Nat} {hasPsci : Bool} {accepts : Nat → Bool}
    (nodes : List CpuNode) : ∀ {s : Cpus}, s.running current = true →
      Released nodes (nodes.foldl (Cpus.parkNode alloc current hasPsci accepts) s) ∧
      ∀ affinity, s.running affinity = true →
        (nodes.foldl (Cpus.parkNode alloc current hasPsci accepts) s).running affinity = true := by
  induction nodes with
  | nil => exact fun _ => ⟨fun _ h => (nomatch h), fun _ h => h⟩
  | cons first rest ih =>
    intro s hcurrent
    obtain ⟨hreleased, hkept⟩ := ih (running_parkNode alloc first hcurrent)
    refine ⟨fun node hnode affinity releaseAddress haffinity hmethod => ?_,
      fun affinity h => hkept affinity (running_parkNode alloc first h)⟩
    rcases List.mem_cons.1 hnode with rfl | hrest
    · refine hkept affinity ?_
      -- The boot CPU is skipped, and it is running.
      by_cases hself : affinity = current
      · exact running_parkNode alloc _ (hself ▸ hcurrent)
      · rw [Cpus.parkNode, haffinity, hmethod]
        dsimp only
        rw [if_neg hself]
        exact Function.update_self _ _ _
    · exact hreleased node hrest affinity releaseAddress haffinity hmethod

/-- **Starting a CPU.** After the parking, every call of a sequence does what it says exactly if at
every call the first CPU that it finds and takes for startable is one of PSCI, or there is none and
all CPUs of the devicetree are running. -/
theorem launch_right_iff (alloc : StackAllocator) (dtb : Devicetree) (current : Nat)
    (hasPsci : Bool) (accepts : Nat → Bool) (calls : List LaunchCall) :
    Along (Step alloc dtb) (fun s call _ => call.Right alloc dtb s)
        (Cpus.parkSecondaryCpusForSmp alloc dtb current hasPsci accepts) calls ↔
      Along (Step alloc dtb) (fun s call _ => call.Startable dtb s)
        (Cpus.parkSecondaryCpusForSmp alloc dtb current hasPsci accepts) calls := by
  refine along_congr (Released dtb.found) (fun _ _ _ h _ => right_iff_startable h)
    (fun _ _ _ h hstep _ => h.step hstep) calls _ ?_
  exact (released_foldl _ (show (current == current) = true from beq_self_eq_true current)).1

/-- The stacks from the bottom up. -/
def ascending : StackAllocator :=
  ⟨fun inUse => inUse.sum + stackSize, fun inUse h => by
    have hle := List.le_sum_of_mem h
    unfold stackSize at hle
    omega⟩

/-- Two CPUs with release addresses, which are both found. -/
def twoCpus : Devicetree where
  cpus := [⟨some 0, .spinTable (some 0xD8)⟩, ⟨some 1, .spinTable (some 0xE0)⟩]
  searchNode
    | none => some 0
    | some 0 => some 1
    | some _ => none
  cpuAt node := ⟨some node, .spinTable (some (0xD8 + 8 * node))⟩
  addresses := [0, 1]
  finds := ⟨rfl, rfl, rfl⟩

/-- The call says that it has started a CPU, and none has entered `core_entry`. -/
theorem launch_of_parked_cpu :
    let parked := Cpus.parkSecondaryCpusForSmp ascending twoCpus 0 false fun _ => false
    let call := LaunchCall.mk 0 fun _ => false
    (call.launchCpu ascending twoCpus parked).1 = true ∧
      (call.launchCpu ascending twoCpus parked).2.entered = [] ∧
      ¬call.Right ascending twoCpus parked := by
  refine ⟨rfl, rfl, fun hright => ?_⟩
  obtain ⟨affinity, stack, -, -, hentered⟩ := hright.1 rfl
  have hone : ([] : List (Nat × Nat)) = [(affinity, stack)] := hentered
  exact nomatch hone

end LaunchCall

end MiniVisor.Smp
