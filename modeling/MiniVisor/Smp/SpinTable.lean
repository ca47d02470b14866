import MiniVisor.Lib.Transition

/-!
# CPUs released from the spin table

`park_secondary_cpus_for_smp` releases the CPUs of the devicetree one after the other. It hands each
of them its stack and the function to go on with in two statics, `SPIN_TABLE_SP` and
`SPIN_TABLE_TARGET`, writes the release address of the CPU and goes on to the next one. The firmware
lets the CPU go at some time after that write, and the CPU reads the statics in `spin_table_entry`
when it gets there. Nobody tells the releasing CPU that it has done so.

`own_stack_iff` is the result: every CPU starts on its own stack exactly along the runs in which
each CPU reads `SPIN_TABLE_SP` between the write of its own stack and the write of the next one.
-/

set_option autoImplicit false

namespace MiniVisor.Smp

open MiniVisor.Lib

/-! ## Model -/

/-- `STACK_SIZE`. -/
def stackSize : Nat := 0x10000

/-- The CPUs that are released by the spin table, in the order of the devicetree, each with the
stack that was allocated for it. Allocations do not overlap, and no two CPUs have the same affinity.
-/
structure SpinTableCpus (n : Nat) where
  affinity : Fin n → Nat
  releaseAddress : Fin n → Nat
  /-- The end of the stack. -/
  stackAddress : Fin n → Nat
  affinity_injective : Function.Injective affinity
  stack_disjoint : ∀ i j, i ≠ j →
    Disjoint (Finset.Ico (stackAddress i - stackSize) (stackAddress i))
      (Finset.Ico (stackAddress j - stackSize) (stackAddress j))
  stack_allocated : ∀ i, stackSize ≤ stackAddress i

/-- The stacks have different ends. -/
theorem SpinTableCpus.stackAddress_injective {n : Nat} (cpus : SpinTableCpus n) :
    Function.Injective cpus.stackAddress := by
  intro i j heq
  by_contra hne
  have hdisjoint := cpus.stack_disjoint i j hne
  rw [← heq, disjoint_self, Finset.bot_eq_empty, Finset.Ico_eq_empty_iff] at hdisjoint
  have hsize := cpus.stack_allocated i
  unfold stackSize at hsize hdisjoint
  omega

/-- Where the releasing CPU is in the loop, for one CPU: in `spin_table_cpu_on`, and then behind
it. -/
inductive Stage where
  | storeSp | storeTarget | writeRelease | record
  deriving DecidableEq, Repr

/-- Where a released CPU is: in the pen of the firmware, at the start of `spin_table_entry`, between
its two loads, and in the function that it was sent to. -/
inductive Entry where
  | pen
  | entered
  | loaded (sp : Nat)
  | started (sp target : Nat)
  deriving DecidableEq, Repr

/-- The stack pointer, once it is loaded. -/
def Entry.sp? : Entry → Option Nat
  | .loaded sp => some sp
  | .started sp _ => some sp
  | _ => none

structure SpinTable (n : Nat) where
  spinTableSp : Nat
  spinTableTarget : Nat
  /-- The release addresses that hold the address of `spin_table_entry`. -/
  released : Nat → Bool
  /-- `STACK_TOPS`. -/
  stackTops : List (Nat × Nat)
  /-- The CPU that is being released. -/
  next : Nat
  stage : Stage
  cpu : Fin n → Entry

inductive SpinTableAction (n : Nat) where
  /-- The releasing CPU does its next step. -/
  | release
  /-- The firmware finds that the release address was written. -/
  | leave (i : Fin n)
  | loadSp (i : Fin n)
  | loadTarget (i : Fin n)

variable {n : Nat}

/-- A step. The function that the CPUs are sent to is at `smpParkEntry`. -/
def SpinTable.perform (cpus : SpinTableCpus n) (smpParkEntry : Nat) (s : SpinTable n) :
    SpinTableAction n → Option (SpinTable n)
  | .release =>
    if h : s.next < n then
      match s.stage with
      | .storeSp =>
        some { s with spinTableSp := cpus.stackAddress ⟨s.next, h⟩, stage := .storeTarget }
      | .storeTarget => some { s with spinTableTarget := smpParkEntry, stage := .writeRelease }
      | .writeRelease =>
        some { s with
          released := Function.update s.released (cpus.releaseAddress ⟨s.next, h⟩) true
          stage := .record }
      | .record =>
        some { s with
          stackTops := s.stackTops ++
            [(cpus.affinity ⟨s.next, h⟩, cpus.stackAddress ⟨s.next, h⟩)]
          next := s.next + 1
          stage := .storeSp }
    else none
  | .leave i =>
    if s.cpu i = .pen ∧ s.released (cpus.releaseAddress i) = true then
      some { s with cpu := Function.update s.cpu i .entered }
    else none
  | .loadSp i =>
    match s.cpu i with
    | .entered => some { s with cpu := Function.update s.cpu i (.loaded s.spinTableSp) }
    | _ => none
  | .loadTarget i =>
    match s.cpu i with
    | .loaded sp => some { s with cpu := Function.update s.cpu i (.started sp s.spinTableTarget) }
    | _ => none

def SpinTableStep (cpus : SpinTableCpus n) (smpParkEntry : Nat) (s : SpinTable n)
    (action : SpinTableAction n) (s' : SpinTable n) : Prop :=
  s.perform cpus smpParkEntry action = some s'

/-- Before the first release. -/
def SpinTable.initial (n : Nat) : SpinTable n where
  spinTableSp := 0
  spinTableTarget := 0
  released _ := false
  stackTops := []
  next := 0
  stage := .storeSp
  cpu _ := .pen

/-! ## The property and the condition -/

/-- Every CPU that was released uses its own stack. -/
structure OwnStacks (cpus : SpinTableCpus n) (smpParkEntry : Nat) (s : SpinTable n) : Prop where
  stack : ∀ i sp, (s.cpu i).sp? = some sp → sp = cpus.stackAddress i
  target : ∀ i sp target, s.cpu i = .started sp target → target = smpParkEntry
  /-- No two CPUs are on the same stack. -/
  apart : ∀ i j sp, (s.cpu i).sp? = some sp → (s.cpu j).sp? = some sp → i = j
  /-- `STACK_TOPS` has the stack of every CPU that the releasing CPU is done with. -/
  recorded : ∀ i sp, (s.cpu i).sp? = some sp → i.val < s.next →
    s.stackTops.find? (fun x => x.1 == cpus.affinity i) = some (cpus.affinity i, sp)

/-- The stack that was last written to `SPIN_TABLE_SP` is the one of this CPU. -/
def SpinTable.Offers (s : SpinTable n) (i : Nat) : Prop :=
  s.next = i ∧ s.stage ≠ .storeSp ∨ s.next = i + 1 ∧ s.stage = .storeSp

/-- A CPU loads its stack pointer while its stack is the one that was last written. -/
def LoadsInTime (s : SpinTable n) : SpinTableAction n → Prop
  | .loadSp i => s.Offers i.val
  | _ => True

/-! ## The invariant -/

/-- What the statics hold, by where the releasing CPU is. -/
structure SpinTable.Ok (cpus : SpinTableCpus n) (smpParkEntry : Nat) (s : SpinTable n) : Prop where
  sp : ∀ i : Fin n, s.Offers i.val → s.spinTableSp = cpus.stackAddress i
  target : 0 < s.next ∨ s.stage = .writeRelease ∨ s.stage = .record →
    s.spinTableTarget = smpParkEntry
  released : ∀ a, s.released a = true → 0 < s.next ∨ s.stage = .record
  entered : ∀ i, s.cpu i ≠ .pen → 0 < s.next ∨ s.stage = .record
  bound : s.next ≤ n ∧ (s.stage ≠ .storeSp → s.next < n)
  tops : s.stackTops = (List.ofFn fun i => (cpus.affinity i, cpus.stackAddress i)).take s.next

section Invariant

variable {cpus : SpinTableCpus n} {smpParkEntry : Nat} {s s' : SpinTable n}

theorem SpinTable.Ok.initial : (SpinTable.initial n).Ok cpus smpParkEntry := by
  refine ⟨?_, ?_, ?_, ?_, ?_, ?_⟩
  · rintro i (⟨-, h⟩ | ⟨h, -⟩)
    · exact absurd rfl h
    · cases h
  · rintro (h | h | h) <;> cases h
  · exact fun a h => by cases h
  · exact fun i h => absurd rfl h
  · exact ⟨Nat.zero_le n, fun h => absurd rfl h⟩
  · rfl

/-- A step of the releasing CPU keeps what the statics hold. -/
theorem SpinTable.Ok.release (h : s.Ok cpus smpParkEntry)
    (hstep : SpinTableStep cpus smpParkEntry s .release s') : s'.Ok cpus smpParkEntry := by
  simp only [SpinTableStep, SpinTable.perform] at hstep
  split at hstep
  · next hnext =>
    split at hstep
    · next hstage =>
      cases hstep
      refine ⟨?_, ?_, ?_, ?_, ⟨h.bound.1, fun _ => hnext⟩, h.tops⟩
      · rintro i (⟨hi, -⟩ | ⟨-, hi⟩)
        · exact congrArg cpus.stackAddress (Fin.ext hi)
        · cases hi
      · rintro (hpos | hi | hi)
        · exact h.target (.inl hpos)
        · cases hi
        · cases hi
      · intro a ha
        refine .inl ((h.released a ha).resolve_right ?_)
        rw [hstage]
        exact nofun
      · intro i hi
        refine .inl ((h.entered i hi).resolve_right ?_)
        rw [hstage]
        exact nofun
    · next hstage =>
      cases hstep
      refine ⟨?_, fun _ => rfl, ?_, ?_, ⟨h.bound.1, fun _ => hnext⟩, h.tops⟩
      · rintro i (⟨hi, -⟩ | ⟨-, hi⟩)
        · exact h.sp i (.inl ⟨hi, by rw [hstage]; exact nofun⟩)
        · cases hi
      · intro a ha
        refine .inl ((h.released a ha).resolve_right ?_)
        rw [hstage]
        exact nofun
      · intro i hi
        refine .inl ((h.entered i hi).resolve_right ?_)
        rw [hstage]
        exact nofun
    · next hstage =>
      cases hstep
      refine ⟨?_, fun _ => h.target (.inr (.inl hstage)), fun _ _ => .inr rfl, fun _ _ => .inr rfl,
        ⟨h.bound.1, fun _ => hnext⟩, h.tops⟩
      rintro i (⟨hi, -⟩ | ⟨-, hi⟩)
      · exact h.sp i (.inl ⟨hi, by rw [hstage]; exact nofun⟩)
      · cases hi
    · next hstage =>
      cases hstep
      refine ⟨?_, fun _ => h.target (.inr (.inr hstage)), fun _ _ => .inl (Nat.succ_pos _),
        fun _ _ => .inl (Nat.succ_pos _), ⟨hnext, fun hne => absurd rfl hne⟩, ?_⟩
      · rintro i (⟨-, hi⟩ | ⟨hi, -⟩)
        · exact absurd rfl hi
        · exact h.sp i (.inl ⟨Nat.succ.inj hi, by rw [hstage]; exact nofun⟩)
      · have hlen : s.next < (List.ofFn fun i =>
          (cpus.affinity i, cpus.stackAddress i)).length := by
          rwa [List.length_ofFn]
        rw [List.take_succ_eq_append_getElem hlen, ← h.tops, List.getElem_ofFn]
  · cases hstep

/-- A step of a released CPU only changes where that CPU is. -/
theorem SpinTable.Ok.update (h : s.Ok cpus smpParkEntry) (i : Fin n) (entry : Entry)
    (hentered : 0 < s.next ∨ s.stage = .record) :
    SpinTable.Ok cpus smpParkEntry { s with cpu := Function.update s.cpu i entry } :=
  ⟨h.sp, h.target, h.released, fun _ _ => hentered, h.bound, h.tops⟩

theorem SpinTable.Ok.step (h : s.Ok cpus smpParkEntry) {action : SpinTableAction n}
    (hstep : SpinTableStep cpus smpParkEntry s action s') : s'.Ok cpus smpParkEntry := by
  cases action with
  | release => exact h.release hstep
  | leave i =>
    simp only [SpinTableStep, SpinTable.perform] at hstep
    split at hstep
    · next hpen =>
      cases hstep
      exact h.update i _ (h.released _ hpen.2)
    · cases hstep
  | loadSp i =>
    simp only [SpinTableStep, SpinTable.perform] at hstep
    split at hstep
    · next hentered =>
      cases hstep
      exact h.update i _ (h.entered i (by rw [hentered]; exact nofun))
    · cases hstep
  | loadTarget i =>
    simp only [SpinTableStep, SpinTable.perform] at hstep
    split at hstep
    · next hloaded =>
      cases hstep
      exact h.update i _ (h.entered i (by rw [hloaded]; exact nofun))
    · cases hstep

/-- Some stack was written when a CPU is out of the pen. -/
theorem SpinTable.Ok.exists_offers (h : s.Ok cpus smpParkEntry) {i : Fin n} (hi : s.cpu i ≠ .pen) :
    ∃ j : Fin n, s.Offers j.val := by
  by_cases hstage : s.stage = .storeSp
  · have hpos : 0 < s.next := (h.entered i hi).resolve_right (by rw [hstage]; exact nofun)
    have hle := h.bound.1
    exact ⟨⟨s.next - 1, by omega⟩, .inr ⟨by simp only; omega, hstage⟩⟩
  · exact ⟨⟨s.next, h.bound.2 hstage⟩, .inl ⟨rfl, hstage⟩⟩

/-- The statics hold the stack of a CPU exactly while it is the one that was last written. -/
theorem SpinTable.Ok.sp_eq_iff (h : s.Ok cpus smpParkEntry) {i : Fin n} (hi : s.cpu i ≠ .pen) :
    s.spinTableSp = cpus.stackAddress i ↔ s.Offers i.val := by
  obtain ⟨j, hj⟩ := h.exists_offers hi
  refine ⟨fun heq => ?_, h.sp i⟩
  rw [h.sp j hj] at heq
  rwa [← cpus.stackAddress_injective heq]

/-- `STACK_TOPS` has the allocated stack of every CPU that the releasing CPU is done with. -/
theorem SpinTable.Ok.find?_stackTops (h : s.Ok cpus smpParkEntry) {i : Fin n}
    (hi : i.val < s.next) : s.stackTops.find? (fun x => x.1 == cpus.affinity i) =
      some (cpus.affinity i, cpus.stackAddress i) := by
  have hat : s.stackTops[i.val]? = some (cpus.affinity i, cpus.stackAddress i) := by
    rw [h.tops, List.getElem?_take_of_lt hi, List.getElem?_ofFn, dif_pos i.isLt]
  rw [List.find?_eq_some_iff_getElem]
  obtain ⟨hlt, hget⟩ := List.getElem?_eq_some_iff.1 hat
  refine ⟨beq_self_eq_true _, i.val, hlt, hget, fun j hj => ?_⟩
  have hjn : j < n := hj.trans i.isLt
  have hother : s.stackTops[j]? = some (cpus.affinity ⟨j, hjn⟩, cpus.stackAddress ⟨j, hjn⟩) := by
    rw [h.tops, List.getElem?_take_of_lt (hj.trans hi), List.getElem?_ofFn, dif_pos hjn]
  obtain ⟨_, hgetj⟩ := List.getElem?_eq_some_iff.1 hother
  rw [hgetj, Bool.not_eq_true', beq_eq_false_iff_ne]
  intro haffinity
  have := congrArg Fin.val (cpus.affinity_injective haffinity)
  simp only at this
  omega

end Invariant

/-! ## The result -/

section Result

variable {cpus : SpinTableCpus n} {smpParkEntry : Nat} {s s' : SpinTable n}

/-- What a CPU has loaded is its own stack and the function it was sent to. -/
def Entry.Own (cpus : SpinTableCpus n) (smpParkEntry : Nat) (i : Fin n) : Entry → Prop
  | .pen => True
  | .entered => True
  | .loaded sp => sp = cpus.stackAddress i
  | .started sp target => sp = cpus.stackAddress i ∧ target = smpParkEntry

theorem Entry.own_iff {i : Fin n} {entry : Entry} : entry.Own cpus smpParkEntry i ↔
    (∀ sp, entry.sp? = some sp → sp = cpus.stackAddress i) ∧
      ∀ sp target, entry = .started sp target → target = smpParkEntry := by
  cases entry <;> simp [Entry.Own, Entry.sp?, eq_comm]

/-- That no two CPUs share a stack and that `STACK_TOPS` is right follows from what each CPU has
loaded. -/
theorem ownStacks_iff (hok : s.Ok cpus smpParkEntry) :
    OwnStacks cpus smpParkEntry s ↔ ∀ i, (s.cpu i).Own cpus smpParkEntry i := by
  constructor
  · exact fun h i => Entry.own_iff.2 ⟨h.stack i, h.target i⟩
  · intro h
    have hstack := fun i => (Entry.own_iff.1 (h i)).1
    refine ⟨hstack, fun i => (Entry.own_iff.1 (h i)).2, ?_, ?_⟩
    · intro i j sp hi hj
      exact cpus.stackAddress_injective ((hstack i sp hi).symm.trans (hstack j sp hj))
    · intro i sp hi hnext
      rw [hok.find?_stackTops hnext, hstack i sp hi]

/-- A step of one CPU keeps all CPUs on their own stacks exactly if it does so for that CPU. -/
theorem forall_own_update_iff (h : ∀ j, (s.cpu j).Own cpus smpParkEntry j) (i : Fin n)
    (entry : Entry) :
    (∀ j, (Function.update s.cpu i entry j).Own cpus smpParkEntry j) ↔
      entry.Own cpus smpParkEntry i := by
  rw [Function.forall_update_iff s.cpu fun j e => Entry.Own cpus smpParkEntry j e]
  exact and_iff_left fun j _ => h j

/-- A step keeps every CPU on its own stack exactly if a stack pointer is loaded in time. -/
theorem ownStacks_step_iff (hok : s.Ok cpus smpParkEntry) (h : OwnStacks cpus smpParkEntry s)
    {action : SpinTableAction n} (hstep : SpinTableStep cpus smpParkEntry s action s') :
    OwnStacks cpus smpParkEntry s' ↔ LoadsInTime s action := by
  rw [ownStacks_iff (hok.step hstep)]
  have hall := (ownStacks_iff hok).1 h
  cases action with
  | release =>
    have hcpu : s'.cpu = s.cpu := by
      simp only [SpinTableStep, SpinTable.perform] at hstep
      repeat' split at hstep
      all_goals
        cases hstep
        try rfl
    rw [hcpu]
    exact iff_of_true hall trivial
  | leave i =>
    simp only [SpinTableStep, SpinTable.perform] at hstep
    split at hstep
    · cases hstep
      exact forall_own_update_iff hall i .entered
    · cases hstep
  | loadSp i =>
    simp only [SpinTableStep, SpinTable.perform] at hstep
    split at hstep
    · next hentered =>
      cases hstep
      refine (forall_own_update_iff hall i (.loaded s.spinTableSp)).trans ?_
      exact hok.sp_eq_iff (by rw [hentered]; exact nofun)
    · cases hstep
  | loadTarget i =>
    simp only [SpinTableStep, SpinTable.perform] at hstep
    split at hstep
    · next sp hloaded =>
      cases hstep
      refine (forall_own_update_iff hall i (.started sp s.spinTableTarget)).trans ?_
      have hown := hall i
      rw [hloaded] at hown
      have hout := hok.entered i (by rw [hloaded]; exact nofun)
      exact iff_of_true ⟨hown, hok.target (hout.imp_right .inr)⟩ trivial
    · cases hstep

/-- **Every released CPU gets its own stack** along a run, whatever the number of CPUs and the order
of the steps, exactly when every CPU loads its stack pointer between the write of its stack and the
write of the next one. -/
theorem own_stack_iff (cpus : SpinTableCpus n) (smpParkEntry : Nat)
    (actions : List (SpinTableAction n)) :
    Along (SpinTableStep cpus smpParkEntry) (fun _ _ s' => OwnStacks cpus smpParkEntry s')
        (SpinTable.initial n) actions ↔
      Along (SpinTableStep cpus smpParkEntry) (fun s action _ => LoadsInTime s action)
        (SpinTable.initial n) actions := by
  refine along_congr (fun s => s.Ok cpus smpParkEntry ∧ OwnStacks cpus smpParkEntry s) ?_ ?_ actions
    _ ⟨.initial, (ownStacks_iff .initial).2 fun _ => trivial⟩
  · exact fun s action s' hinv hstep => ownStacks_step_iff hinv.1 hinv.2 hstep
  · exact fun s action s' hinv hstep hown => ⟨hinv.1.step hstep, hown⟩

end Result

/-- Two CPUs with the stacks `0x80000` to `0x90000` and `0x90000` to `0xA0000`. -/
def twoSpinTableCpus : SpinTableCpus 2 where
  affinity i := i.val + 1
  releaseAddress i := 0xE0 + 8 * i.val
  stackAddress i := 0x90000 + 0x10000 * i.val
  affinity_injective i j h := by
    simp only [Nat.add_right_cancel_iff] at h
    exact Fin.ext h
  stack_disjoint i j h := by
    rw [Finset.disjoint_left]
    intro x hi hj
    rw [Finset.mem_Ico] at hi hj
    have hij : i.val ≠ j.val := fun heq => h (Fin.ext heq)
    unfold stackSize at hi hj
    omega
  stack_allocated i := by
    unfold stackSize
    omega

/-- The first CPU leaves the pen and is overtaken by the release of the second one. -/
def overtaken : List (SpinTableAction 2) :=
  [.release, .release, .release, .leave 0, .release, .release]

/-- The first CPU then loads the stack of the second one. -/
theorem overtaken_cpu_loads_other_stack :
    ¬Along (SpinTableStep twoSpinTableCpus 0x1000)
      (fun _ _ s' => OwnStacks twoSpinTableCpus 0x1000 s') (SpinTable.initial 2)
      (overtaken ++ [.loadSp 0]) := by
  intro hal
  have hcheck : ((follow (SpinTable.perform twoSpinTableCpus 0x1000) (SpinTable.initial 2)
      overtaken).bind fun s => s.perform twoSpinTableCpus 0x1000 (.loadSp 0)).any
        (fun s => s.cpu 0 = .loaded 0xA0000) = true := by
    decide +kernel
  obtain ⟨s', hs', hc⟩ := (Option.any_eq_true _ _).1 hcheck
  obtain ⟨s, hs, hs'⟩ := Option.bind_eq_some_iff.1 hs'
  have hown : OwnStacks twoSpinTableCpus 0x1000 s' := hal.last (fun _ _ _ => id) overtaken hs hs'
  have hsp := hown.stack 0 0xA0000 (by rw [of_decide_eq_true hc]; rfl)
  cases hsp

end MiniVisor.Smp
