import MiniVisor.Gic.Backlog

/-!
# What a retry leaves behind

After a maintenance interrupt, and when another CPU asks for it, entries that found no List Register
are tried again: those of the queue between the CPUs (`inject_interrupt_handler`) and the INTIDs
that the Distributor has pending (`inject_pending_for_current_cpu`).

`queue_conserved` says what happens to each entry of the queue at its turn.
`retry_respects_priority` is about the scan: it stops at the first INTID without a place, so what is
left out comes behind what was placed.
-/

set_option autoImplicit false

namespace MiniVisor.Gic

open MiniVisor.Lib

/-! ## The queue between the CPUs -/

section Queue

theorem Inserted.eq_of_full {v v' : Vgic} {cpu : Cpu} {entry : Word}
    (h : Inserted v cpu entry false v') : v' = v := by
  cases h
  rfl

/-- An entry that is not added has found every List Register in use for another INTID. -/
theorem Inserted.occupied {v v' : Vgic} {cpu : Cpu} {entry : Word}
    (h : Inserted v cpu entry false v') :
    ∀ i < v.supportedLrn, isInactive (v.lr cpu i) = false ∧ virtualId (v.lr cpu i) ≠
      virtualId entry := by
  cases h with
  | full hfull => exact hfull

variable (current : Cpu)

end Queue

/-! ## The scan -/

section Scan

/-- The order of the scan: by priority, then by INTID. -/
def rank (d : GicDistributorMmio) (cpu : Cpu) (intId : Nat) : Nat ×ₗ Nat :=
  toLex ((priorityOf d cpu intId).toNat, intId)

variable {d : GicDistributorMmio} {current : Cpu} {v v' : Vgic}

/-- What a scan finds. -/
theorem pendingCandidates_eq (l : List Nat) : ∀ {candidates : List (Nat × Nat)},
    (∀ intId ∈ l, intId < 1024) → pendingCandidates d current l = .ok candidates →
      candidates = (l.filter (Candidate d current)).map
        fun intId => ofLex (rank d current intId) := by
  induction l with
  | nil =>
    intro candidates _ h
    cases h
    rfl
  | cons intId rest ih =>
    intro candidates hl h
    obtain ⟨hlt, hl⟩ := List.forall_mem_cons.1 hl
    rw [pendingCandidates_cons hlt] at h
    split at h
    · next hc =>
      obtain ⟨priority, hp, h⟩ := bind_eq_ok.1 h
      obtain ⟨more, hm, h⟩ := bind_eq_ok.1 h
      cases h
      have hlow : intId < 1020 := by
        by_contra hge
        rw [getPriority_eq_error d current (not_lt.1 hge)] at hp
        cases hp
      rw [getPriority_eq d current hlow] at hp
      cases hp
      rw [List.filter_cons_of_pos (by simpa using hc), List.map_cons, ← ih hl hm]
      rfl
    · next hc =>
      rw [List.filter_cons_of_neg (by simpa using hc)]
      exact ih hl h

/-- The loop over the candidates gets through some of them, which are then pending in List
Registers; nothing else becomes so. If it does not get through all, no List Register is free. -/
theorem injectCandidates_split (candidates : List (Nat × Nat)) :
    ∀ {v : Vgic}, (∀ x ∈ candidates, x.2 < 1020) → injectCandidates current candidates v = .ok v' →
      ∃ done rest, candidates = done ++ rest ∧ (∀ x ∈ done, LrPending v' current x.2) ∧
        (∀ t intId, LrPending v t intId → LrPending v' t intId) ∧
        (∀ intId, LrPending v' current intId →
          LrPending v current intId ∨ ∃ x ∈ done, x.2 = intId) ∧
        (rest ≠ [] → ∀ i < v'.supportedLrn, isInactive (v'.lr current i) = false) := by
  induction candidates with
  | nil =>
    intro v _ h
    cases h
    exact ⟨[], [], rfl, fun x hx => absurd hx List.not_mem_nil, fun _ _ h => h, fun _ h => .inl h,
      fun hno => absurd rfl hno⟩
  | cons x rest ih =>
    intro v hl h
    obtain ⟨hx, hrest⟩ := List.forall_mem_cons.1 hl
    have hins := inserted_addVirtualInterrupt v current (entryOf v.distributor current x.2 none)
    have hid := virtualId_entryOf v.distributor current (hx.trans (by decide)) none
    simp only [injectCandidates, listEntry_eq _ current hx, ok_bind] at h
    split at h
    · next hadded =>
      rw [hadded] at hins
      obtain ⟨done, left, rfl, hdone, hmono, hnew, hfull⟩ := ih hrest h
      have hhead := hins.lrPending (isPending_entryOf v.distributor current x.2 none)
      rw [hid] at hhead
      refine ⟨x :: done, left, rfl, ?_, fun t i hi => hmono t i (hins.lrPending_mono hi),
        fun intId hi => ?_, hfull⟩
      · rintro y (_ | ⟨_, hy⟩)
        · exact hmono current x.2 hhead
        · exact hdone y hy
      · rcases hnew intId hi with hi | ⟨y, hy, rfl⟩
        · rcases hins.lrPending_inv hi with hi | ⟨-, heq⟩
          · exact .inl hi
          · exact .inr ⟨x, List.mem_cons_self, hid.symm.trans heq⟩
        · exact .inr ⟨y, List.mem_cons_of_mem _ hy, rfl⟩
    · next hadded =>
      rw [Bool.not_eq_true] at hadded
      rw [hadded] at hins
      have hsame := hins.eq_of_full
      rw [hsame] at h
      cases h
      exact ⟨[], x :: rest, rfl, fun y hy => absurd hy List.not_mem_nil, fun _ _ hi => hi,
        fun _ hi => .inl hi, fun _ i hi => (hins.occupied i hi).1⟩

/-- The candidates are tried in the order of their ranks. -/
theorem pairwise_sorted (candidates : List (Nat × Nat)) :
    (candidates.insertionSort fun a b => a.1 < b.1 ∨ (a.1 = b.1 ∧ a.2 ≤ b.2)).Pairwise
      fun a b => toLex a ≤ toLex b := by
  have hsame : (fun a b : Nat × Nat => a.1 < b.1 ∨ (a.1 = b.1 ∧ a.2 ≤ b.2)) =
      fun a b => toLex a ≤ toLex b := by
    funext a b
    exact propext Prod.Lex.toLex_le_toLex.symm
  have : Std.Total fun a b : Nat × Nat => a.1 < b.1 ∨ (a.1 = b.1 ∧ a.2 ≤ b.2) := by
    rw [hsame]
    exact ⟨fun a b => le_total (toLex a) (toLex b)⟩
  have : IsTrans (Nat × Nat) fun a b => a.1 < b.1 ∨ (a.1 = b.1 ∧ a.2 ≤ b.2) := by
    rw [hsame]
    exact ⟨fun a b c hab hbc => (show toLex a ≤ toLex b from hab).trans hbc⟩
  rw [← hsame]
  exact List.pairwise_insertionSort _ candidates

/-- An INTID that the call should have placed and has not: it is pending and enabled for this CPU,
it is not the timer's, and no List Register has it pending. -/
def LeftOut (v v' : Vgic) (current : Cpu) (intId : Nat) : Prop :=
  Candidate v.distributor current intId ∧ intId < scanLength v.distributor current ∧
    ¬LrPending v' current intId

instance (v v' : Vgic) (current : Cpu) (intId : Nat) : Decidable (LeftOut v v' current intId) :=
  inferInstanceAs (Decidable (_ ∧ _ ∧ _))

/-- An INTID that the call has placed. -/
def Placed (v v' : Vgic) (current : Cpu) (intId : Nat) : Prop :=
  LrPending v' current intId ∧ ¬LrPending v current intId

instance (v v' : Vgic) (current : Cpu) (intId : Nat) : Decidable (Placed v v' current intId) :=
  inferInstanceAs (Decidable (_ ∧ _))

/-- If an INTID is left out, every List Register is in use, and everything that was placed comes
before it. -/
theorem retry_respects_priority (henabled : distributorEnabled v.distributor = true)
    (h : injectPendingForCurrentCpu v current = .ok v') {left : Nat}
    (hleft : LeftOut v v' current left) :
    (∀ i < v'.supportedLrn, isInactive (v'.lr current i) = false) ∧
      ∀ placed, Placed v v' current placed →
        rank v.distributor current placed < rank v.distributor current left := by
  obtain ⟨hcandidate, hscan, hmissing⟩ := hleft
  have hl : ∀ intId ∈ List.range (scanLength v.distributor current), intId < 1024 := by
    intro intId hmem
    exact (List.mem_range.1 hmem).trans_le (scanLength_le _ _)
  unfold injectPendingForCurrentCpu at h
  rw [henabled] at h
  obtain ⟨candidates, hc, h⟩ := bind_eq_ok.1 h
  have hlow : ∀ x ∈ candidates, x.2 < 1020 := fun x hx =>
    (mem_pendingCandidates _ hl hc x hx).2.2
  have heq := pendingCandidates_eq _ hl hc
  have hsorted := pairwise_sorted candidates
  obtain ⟨done, rest, hsplit, hdone, -, hnew, hfull⟩ := injectCandidates_split _
    (fun x hx => hlow x ((List.mem_insertionSort _).1 hx)) h
  -- The INTID is a candidate, and the loop did not get to it.
  have hmem : ofLex (rank v.distributor current left) ∈ candidates := by
    rw [heq]
    exact List.mem_map_of_mem
      (List.mem_filter.2 ⟨List.mem_range.2 hscan, by simpa using hcandidate⟩)
  have hrest : ofLex (rank v.distributor current left) ∈ rest := by
    rw [← List.mem_insertionSort (fun a b => a.1 < b.1 ∨ (a.1 = b.1 ∧ a.2 ≤ b.2)), hsplit,
      List.mem_append] at hmem
    exact hmem.resolve_left fun hno => hmissing (hdone _ hno)
  refine ⟨hfull (List.ne_nil_of_mem hrest), fun placed hplaced => ?_⟩
  obtain ⟨x, hx, rfl⟩ := (hnew placed hplaced.1).resolve_left hplaced.2
  have hxmem : x ∈ candidates := by
    rw [← List.mem_insertionSort (fun a b => a.1 < b.1 ∨ (a.1 = b.1 ∧ a.2 ≤ b.2)), hsplit]
    exact List.mem_append_left _ hx
  have hxrank : x = ofLex (rank v.distributor current x.2) := by
    rw [heq] at hxmem
    obtain ⟨intId, -, rfl⟩ := List.mem_map.1 hxmem
    rfl
  rw [hsplit] at hsorted
  have hle := (List.pairwise_append.1 hsorted).2.2 x hx _ hrest
  rw [hxrank] at hle
  refine lt_of_le_of_ne hle fun hno => hmissing ?_
  have hids : x.2 = left := congrArg (fun r => (ofLex r).2) hno
  rw [← hids]
  exact hplaced.1

/-- One List Register, and the SGIs 3 and 5 pending on CPU 1. -/
def twoPending : Vgic :=
  let v := Vgic.new 1 1 30
  v.setDistributor { v.distributor with
    ctlr := 1
    banked := fun _ bank _ => if bank = .pending ∨ bank = .enable then 0x28 else 0 }

theorem retry_respects_priority_two : ∃ v', injectPendingForCurrentCpu twoPending 1 = .ok v' ∧
    LeftOut twoPending v' 1 5 ∧ Placed twoPending v' 1 3 ∧
    rank twoPending.distributor 1 3 < rank twoPending.distributor 1 5 := by
  have hcheck : (injectPendingForCurrentCpu twoPending 1).toOption.any
      (fun v' => decide (LeftOut twoPending v' 1 5 ∧ Placed twoPending v' 1 3)) = true := by
    decide +kernel
  obtain ⟨v', hv', hc⟩ := (Option.any_eq_true _ _).1 hcheck
  obtain ⟨hleft, hplaced⟩ := of_decide_eq_true hc
  have h := toOption_eq_some hv'
  exact ⟨v', h, hleft, hplaced, (retry_respects_priority (by decide) h hleft).2 3 hplaced⟩

end Scan

end MiniVisor.Gic
