import MiniVisor.Lib.Transition

/-!
# The ticket lock

A model of `Mutex::lock` and `MutexGuard::drop` in `lock.rs` as a transition system over their
atomic steps. A call of `lock`, up to the drop of its guard, is done by an agent; any number of
agents may be on one CPU, since interrupts stay enabled while a call waits for its turn. The two
counters are words of 32 bits that wrap around.

The invariant (`Ordered`) keeps the line of agents behind the counters: the agent in place `k` of
the line has the ticket `now_serving + k`, and `next_ticket` is the ticket behind the last one. All
of this is meant modulo `2 ^ 32`, so that it is the bound on the length of the line that keeps the
tickets apart. `ticket_lock` is the result: mutual exclusion, guards in the order of the tickets,
and one agent whose turn it is.
-/

set_option autoImplicit false

namespace MiniVisor.Lock

open MiniVisor.Lib

/-- Where an agent is: outside, in the loop of `lock` with its ticket, behind the loop, in
possession of a guard, and behind the `fetch_add` of `drop`. -/
inductive Phase where
  | idle
  | waiting (myTicket : BitVec 32)
  | entering (myTicket : BitVec 32)
  | holding (daif : BitVec 64)
  | dropping (daif : BitVec 64)
  deriving DecidableEq, Repr

namespace Phase

/-- A ticket was drawn, and no guard was made yet. -/
def Waits : Phase → Prop
  | waiting _ => True
  | entering _ => True
  | _ => False

/-- There is a guard. -/
def Guards : Phase → Prop
  | holding _ => True
  | _ => False

instance : DecidablePred Guards
  | idle => .isFalse id
  | waiting _ => .isFalse id
  | entering _ => .isFalse id
  | holding _ => .isTrue trivial
  | dropping _ => .isFalse id

/-- The exit condition of the loop of `lock`: `now_serving` is the ticket of the agent. -/
def HasTurn (nowServing : BitVec 32) : Phase → Prop
  | waiting myTicket => nowServing = myTicket
  | entering myTicket => nowServing = myTicket
  | _ => False

/-- The phases of an agent that is the first in the line. -/
def AtFront (nowServing : BitVec 32) : Phase → Prop
  | waiting myTicket => myTicket = nowServing
  | entering myTicket => myTicket = nowServing
  | holding _ => True
  | _ => False

theorem atFront_waiting {nowServing : BitVec 32} : (waiting nowServing).AtFront nowServing := rfl

theorem AtFront.waits_or_guards {nowServing : BitVec 32} {phase : Phase}
    (h : phase.AtFront nowServing) : phase.Waits ∨ phase.Guards := by
  cases phase with
  | idle => exact h.elim
  | waiting _ => exact .inl trivial
  | entering _ => exact .inl trivial
  | holding _ => exact .inr trivial
  | dropping _ => exact h.elim

theorem AtFront.hasTurn {nowServing : BitVec 32} {phase : Phase} (h : phase.AtFront nowServing)
    (hwaits : phase.Waits) : phase.HasTurn nowServing := by
  cases phase with
  | idle => exact h.elim
  | waiting _ => exact h.symm
  | entering _ => exact h.symm
  | holding _ => exact hwaits.elim
  | dropping _ => exact h.elim

end Phase

section Model

variable {ι κ : Type}

/-- A mutex, with the agents that use it and the `DAIF` register of each CPU. -/
structure State (ι κ : Type) where
  nextTicket : BitVec 32
  nowServing : BitVec 32
  agent : ι → Phase
  daif : κ → BitVec 64

/-- The atomic steps: the `fetch_add` on `next_ticket`, a `load` of `now_serving`, the masking of
the interrupts with the construction of the guard, the `fetch_add` on `now_serving`, and the
restoration of the interrupts. -/
inductive Label (ι : Type) where
  | draw (i : ι)
  | load (i : ι)
  | guard (i : ι)
  | release (i : ι)
  | restore (i : ι)

/-- The agents in the order in which they drew their tickets. -/
def drawn : List (Label ι) → List ι :=
  List.filterMap fun
    | .draw i => some i
    | _ => none

/-- The agents in the order in which their guards were made. -/
def granted : List (Label ι) → List ι :=
  List.filterMap fun
    | .guard i => some i
    | _ => none

theorem drawn_append (labels : List (Label ι)) (label : Label ι) :
    drawn (labels ++ [label]) = drawn labels ++ drawn [label] := List.filterMap_append

theorem granted_append (labels : List (Label ι)) (label : Label ι) :
    granted (labels ++ [label]) = granted labels ++ granted [label] := List.filterMap_append

variable [DecidableEq ι] [DecidableEq κ]

/-- The `I` and `F` bits of `DAIF`. -/
def irqFiq : BitVec 64 := 0xC0

/-- The step of an agent on a CPU. There is none when the agent is somewhere else. -/
def State.perform (cpu : ι → κ) (s : State ι κ) : Label ι → Option (State ι κ)
  | .draw i =>
    match s.agent i with
    | .idle => some { s with
        nextTicket := s.nextTicket + 1
        agent := Function.update s.agent i (.waiting s.nextTicket) }
    | _ => none
  | .load i =>
    match s.agent i with
    | .waiting myTicket =>
      if s.nowServing ≠ myTicket then some s
      else some { s with agent := Function.update s.agent i (.entering myTicket) }
    | _ => none
  | .guard i =>
    match s.agent i with
    | .entering _ => some { s with
        agent := Function.update s.agent i (.holding (s.daif (cpu i)))
        daif := Function.update s.daif (cpu i) (s.daif (cpu i) ||| irqFiq) }
    | _ => none
  | .release i =>
    match s.agent i with
    | .holding daif => some { s with
        nowServing := s.nowServing + 1
        agent := Function.update s.agent i (.dropping daif) }
    | _ => none
  | .restore i =>
    match s.agent i with
    | .dropping daif => some { s with
        agent := Function.update s.agent i .idle
        daif := Function.update s.daif (cpu i) daif }
    | _ => none

/-- There are fewer than `2 ^ 32` agents that wait. -/
def State.FewWaiters (s : State ι κ) : Prop :=
  ∀ W : Finset ι, (∀ i ∈ W, (s.agent i).Waits) → W.card < 2 ^ 32

/-- The counters are equal, and nobody uses the mutex. -/
def Initial (s : State ι κ) : Prop := s.nextTicket = s.nowServing ∧ ∀ i, s.agent i = .idle

def Step (cpu : ι → κ) (s : State ι κ) (label : Label ι) (t : State ι κ) : Prop :=
  s.perform cpu label = some t ∧ t.FewWaiters

end Model

/-! ## What a step does -/

section Steps

variable {ι κ : Type} [DecidableEq ι] [DecidableEq κ] {cpu : ι → κ} {s t : State ι κ} {i : ι}

theorem perform_draw (h : s.perform cpu (.draw i) = some t) :
    s.agent i = .idle ∧ t = { s with
      nextTicket := s.nextTicket + 1
      agent := Function.update s.agent i (.waiting s.nextTicket) } := by
  unfold State.perform at h
  cases hp : s.agent i with
  | idle =>
    simp only [hp, Option.some.injEq] at h
    exact ⟨rfl, h.symm⟩
  | waiting _ => simp only [hp, reduceCtorEq] at h
  | entering _ => simp only [hp, reduceCtorEq] at h
  | holding _ => simp only [hp, reduceCtorEq] at h
  | dropping _ => simp only [hp, reduceCtorEq] at h

theorem perform_load (h : s.perform cpu (.load i) = some t) :
    t = s ∨ s.agent i = .waiting s.nowServing ∧
      t = { s with agent := Function.update s.agent i (.entering s.nowServing) } := by
  unfold State.perform at h
  cases hp : s.agent i with
  | waiting myTicket =>
    simp only [hp] at h
    by_cases hturn : s.nowServing = myTicket
    · rw [if_neg (not_not.2 hturn), Option.some.injEq] at h
      subst hturn
      exact .inr ⟨rfl, h.symm⟩
    · rw [if_pos hturn, Option.some.injEq] at h
      exact .inl h.symm
  | idle => simp only [hp, reduceCtorEq] at h
  | entering _ => simp only [hp, reduceCtorEq] at h
  | holding _ => simp only [hp, reduceCtorEq] at h
  | dropping _ => simp only [hp, reduceCtorEq] at h

theorem perform_guard (h : s.perform cpu (.guard i) = some t) :
    (∃ myTicket, s.agent i = .entering myTicket) ∧ t = { s with
      agent := Function.update s.agent i (.holding (s.daif (cpu i)))
      daif := Function.update s.daif (cpu i) (s.daif (cpu i) ||| irqFiq) } := by
  unfold State.perform at h
  cases hp : s.agent i with
  | entering myTicket =>
    simp only [hp, Option.some.injEq] at h
    exact ⟨⟨myTicket, rfl⟩, h.symm⟩
  | idle => simp only [hp, reduceCtorEq] at h
  | waiting _ => simp only [hp, reduceCtorEq] at h
  | holding _ => simp only [hp, reduceCtorEq] at h
  | dropping _ => simp only [hp, reduceCtorEq] at h

theorem perform_release (h : s.perform cpu (.release i) = some t) :
    ∃ daif, s.agent i = .holding daif ∧ t = { s with
      nowServing := s.nowServing + 1
      agent := Function.update s.agent i (.dropping daif) } := by
  unfold State.perform at h
  cases hp : s.agent i with
  | holding daif =>
    simp only [hp, Option.some.injEq] at h
    exact ⟨daif, rfl, h.symm⟩
  | idle => simp only [hp, reduceCtorEq] at h
  | waiting _ => simp only [hp, reduceCtorEq] at h
  | entering _ => simp only [hp, reduceCtorEq] at h
  | dropping _ => simp only [hp, reduceCtorEq] at h

theorem perform_restore (h : s.perform cpu (.restore i) = some t) :
    ∃ daif, s.agent i = .dropping daif ∧ t = { s with
      agent := Function.update s.agent i .idle
      daif := Function.update s.daif (cpu i) daif } := by
  unfold State.perform at h
  cases hp : s.agent i with
  | dropping daif =>
    simp only [hp, Option.some.injEq] at h
    exact ⟨daif, rfl, h.symm⟩
  | idle => simp only [hp, reduceCtorEq] at h
  | waiting _ => simp only [hp, reduceCtorEq] at h
  | entering _ => simp only [hp, reduceCtorEq] at h
  | holding _ => simp only [hp, reduceCtorEq] at h

end Steps

/-! ## The line -/

section Line

variable {ι κ : Type} {agent agent' : ι → Phase} {ticket : BitVec 32} {line : List ι} {i : ι}

theorem add_ofNat_succ (n : BitVec 32) (k : Nat) :
    n + BitVec.ofNat 32 (k + 1) = n + 1 + BitVec.ofNat 32 k := by
  rw [Nat.add_comm, BitVec.ofNat_add, ← BitVec.add_assoc]
  rfl

/-- Agents that wait one behind the other, with tickets from the given one on. -/
def Lined (agent : ι → Phase) : BitVec 32 → List ι → Prop
  | _, [] => True
  | ticket, i :: rest => agent i = .waiting ticket ∧ Lined agent (ticket + 1) rest

theorem Lined.congr (h : Lined agent ticket line) (heq : ∀ j ∈ line, agent' j = agent j) :
    Lined agent' ticket line := by
  induction line generalizing ticket with
  | nil => trivial
  | cons j rest ih =>
    refine ⟨(heq j List.mem_cons_self).trans h.1, ih h.2 fun k hk => ?_⟩
    exact heq k (List.mem_cons_of_mem _ hk)

theorem Lined.append (h : Lined agent ticket line)
    (hi : agent i = .waiting (ticket + BitVec.ofNat 32 line.length)) :
    Lined agent ticket (line ++ [i]) := by
  induction line generalizing ticket with
  | nil =>
    rw [List.length_nil, BitVec.add_zero] at hi
    exact ⟨hi, trivial⟩
  | cons j rest ih =>
    refine ⟨h.1, ih h.2 ?_⟩
    rw [hi, List.length_cons, add_ofNat_succ]

theorem Lined.ticket_of_mem (h : Lined agent ticket line) (hi : i ∈ line) :
    ∃ k < line.length, agent i = .waiting (ticket + BitVec.ofNat 32 k) := by
  induction line generalizing ticket with
  | nil => exact absurd hi List.not_mem_nil
  | cons j rest ih =>
    rcases List.mem_cons.1 hi with rfl | hi
    · refine ⟨0, Nat.zero_lt_succ _, ?_⟩
      rw [h.1, BitVec.add_zero]
    · obtain ⟨k, hk, hwait⟩ := ih h.2 hi
      refine ⟨k + 1, Nat.succ_lt_succ hk, ?_⟩
      rw [hwait, add_ofNat_succ]

theorem Lined.waits (h : Lined agent ticket line) (hi : i ∈ line) : (agent i).Waits := by
  obtain ⟨k, _, hwait⟩ := h.ticket_of_mem hi
  rw [hwait]
  trivial

theorem Lined.not_guards (h : Lined agent ticket line) (hi : i ∈ line) : ¬(agent i).Guards := by
  obtain ⟨k, _, hwait⟩ := h.ticket_of_mem hi
  rw [hwait]
  exact id

/-- The tickets of a line that is shorter than `2 ^ 32` are different from the one before it. -/
theorem Lined.not_hasTurn {nowServing : BitVec 32} (h : Lined agent (nowServing + 1) line)
    (hshort : line.length < 2 ^ 32) (hi : i ∈ line) : ¬(agent i).HasTurn nowServing := by
  obtain ⟨k, hk, hwait⟩ := h.ticket_of_mem hi
  rw [hwait]
  intro hturn
  have htoNat : nowServing.toNat = (nowServing + 1 + BitVec.ofNat 32 k).toNat :=
    congrArg BitVec.toNat hturn
  rw [BitVec.toNat_add, BitVec.toNat_add, BitVec.toNat_ofNat] at htoNat
  have hone : (1 : BitVec 32).toNat = 1 := rfl
  have hlt := nowServing.isLt
  omega

/-- The first agent of the line has its turn or a guard, and the others wait behind it. -/
def Served (agent : ι → Phase) (nowServing : BitVec 32) : List ι → Prop
  | [] => True
  | i :: rest => (agent i).AtFront nowServing ∧ Lined agent (nowServing + 1) rest

theorem Served.congr {nowServing : BitVec 32} (h : Served agent nowServing line)
    (heq : ∀ j ∈ line, agent' j = agent j) : Served agent' nowServing line := by
  cases line with
  | nil => trivial
  | cons i rest =>
    refine ⟨?_, h.2.congr fun j hj => heq j (List.mem_cons_of_mem _ hj)⟩
    rw [heq i List.mem_cons_self]
    exact h.1

/-- An agent of the line that has its turn or has left the loop is the first one. -/
theorem Served.first {nowServing : BitVec 32} (h : Served agent nowServing line)
    (hshort : line.length ≤ 2 ^ 32) (hi : i ∈ line)
    (hturn : (agent i).HasTurn nowServing ∨ ∀ ticket, agent i ≠ .waiting ticket) :
    ∃ rest, line = i :: rest := by
  cases line with
  | nil => exact absurd hi List.not_mem_nil
  | cons j rest =>
    rcases List.mem_cons.1 hi with rfl | hi
    · exact ⟨rest, rfl⟩
    · rcases hturn with hturn | hleft
      · exact absurd hturn (h.2.not_hasTurn hshort hi)
      · obtain ⟨k, _, hwait⟩ := h.2.ticket_of_mem hi
        exact absurd hwait (hleft _)

/-- The agents of a line that have a guard. -/
def guarded (agent : ι → Phase) (line : List ι) : List ι :=
  line.filter fun i => (agent i).Guards

theorem guarded_congr (heq : ∀ j ∈ line, agent' j = agent j) :
    guarded agent' line = guarded agent line :=
  List.filter_congr fun j hj => by rw [heq j hj]

theorem guarded_cons (agent : ι → Phase) (i : ι) (line : List ι) :
    guarded agent (i :: line) =
      (if (agent i).Guards then [i] else []) ++ guarded agent line := by
  unfold guarded
  rw [List.filter_cons]
  by_cases hg : (agent i).Guards
  · rw [if_pos (decide_eq_true hg), if_pos hg, List.singleton_append]
  · rw [if_neg (Bool.eq_false_iff.1 (decide_eq_false hg)), if_neg hg, List.nil_append]

theorem Lined.guarded_eq_nil (h : Lined agent ticket line) : guarded agent line = [] :=
  List.filter_eq_nil_iff.2 fun j hj => by
    rw [decide_eq_true_iff]
    exact h.not_guards hj

/-- Only the phase of one agent changes. -/
structure Moves (agent agent' : ι → Phase) (i : ι) (phase : Phase) : Prop where
  self : agent' i = phase
  other : ∀ j, j ≠ i → agent' j = agent j

theorem moves_update [DecidableEq ι] (agent : ι → Phase) (i : ι) (phase : Phase) :
    Moves agent (Function.update agent i phase) i phase :=
  ⟨Function.update_self i _ _, fun _ hj => Function.update_of_ne hj _ _⟩

theorem Moves.agrees {phase : Phase} (h : Moves agent agent' i phase) (hout : i ∉ line) :
    ∀ j ∈ line, agent' j = agent j :=
  fun j hj => h.other j fun hji => hout (hji ▸ hj)

end Line

/-! ## The invariant -/

section Invariant

variable {ι κ : Type}

/-- The agents that have drawn a ticket and not dropped their guard stand in a line; those before
them had their guards in the order of their tickets. -/
structure Ordered (labels : List (Label ι)) (s : State ι κ) (line : List ι) : Prop where
  nodup : line.Nodup
  mem : ∀ i, i ∈ line ↔ (s.agent i).Waits ∨ (s.agent i).Guards
  short : line.length ≤ 2 ^ 32
  next : s.nextTicket = s.nowServing + BitVec.ofNat 32 line.length
  served : Served s.agent s.nowServing line
  order : ∃ before, drawn labels = before ++ line ∧
    granted labels = before ++ guarded s.agent line

theorem Initial.ordered {s : State ι κ} (h : Initial s) : Ordered [] s [] := by
  refine ⟨List.nodup_nil, fun i => ?_, Nat.zero_le _, ?_, trivial, [], rfl, rfl⟩
  · rw [h.2 i]
    exact ⟨fun hi => absurd hi List.not_mem_nil, fun hi => hi.elim False.elim False.elim⟩
  · rw [h.1, List.length_nil, BitVec.add_zero]

variable {s s' : State ι κ} {i : ι} {labels : List (Label ι)} {line : List ι}

theorem Ordered.not_mem (h : Ordered labels s line) (hwaits : ¬(s.agent i).Waits)
    (hguards : ¬(s.agent i).Guards) : i ∉ line :=
  fun hi => ((h.mem i).1 hi).elim hwaits hguards

/-- An agent takes a place behind the line. -/
theorem Ordered.draw [DecidableEq ι] (h : Ordered labels s line) (hidle : s.agent i = .idle)
    (hmoves : Moves s.agent s'.agent i (.waiting s.nextTicket))
    (hnext : s'.nextTicket = s.nextTicket + 1) (hserving : s'.nowServing = s.nowServing)
    (hfew : s'.FewWaiters) : Ordered (labels ++ [.draw i]) s' (line ++ [i]) := by
  have hout : i ∉ line := h.not_mem (by rw [hidle]; exact id) (by rw [hidle]; exact id)
  have hline := hmoves.agrees hout
  have hnodup : (line ++ [i]).Nodup := by
    rw [← List.concat_eq_append]
    exact h.nodup.concat hout
  have hserved : Served s'.agent s'.nowServing (line ++ [i]) := by
    have hold := h.served.congr hline
    have hticket := h.next
    rw [hserving]
    cases line with
    | nil =>
      rw [List.length_nil, BitVec.add_zero] at hticket
      refine ⟨?_, trivial⟩
      rw [hmoves.self, hticket]
      exact Phase.atFront_waiting
    | cons a rest =>
      refine ⟨hold.1, hold.2.append ?_⟩
      rw [hmoves.self, hticket, List.length_cons, add_ofNat_succ]
  obtain ⟨before, hdrawn, hgranted⟩ := h.order
  refine ⟨hnodup, fun j => ?_, ?_, ?_, hserved, before, ?_, ?_⟩
  · rw [List.mem_append, List.mem_singleton]
    by_cases hj : j = i
    · subst hj
      rw [hmoves.self]
      exact ⟨fun _ => .inl trivial, fun _ => .inr rfl⟩
    · rw [hmoves.other j hj, ← h.mem j]
      exact or_iff_left hj
  · -- all agents of the new line but the first are waiting, so there are fewer than `2 ^ 32`
    cases hcons : line ++ [i] with
    | nil => exact Nat.zero_le _
    | cons a rest =>
      rw [hcons] at hserved hnodup
      have hcard := hfew rest.toFinset fun j hj => hserved.2.waits (List.mem_toFinset.1 hj)
      rw [List.toFinset_card_of_nodup hnodup.of_cons] at hcard
      exact hcard
  · rw [hnext, hserving, List.length_append, BitVec.ofNat_add, ← BitVec.add_assoc, ← h.next]
    rfl
  · rw [drawn_append, ← List.append_assoc, ← hdrawn]
    rfl
  · have hnone : guarded s'.agent [i] = [] := by
      rw [guarded_cons, hmoves.self]
      rfl
    have hsplit : guarded s'.agent (line ++ [i]) =
        guarded s'.agent line ++ guarded s'.agent [i] := List.filter_append ..
    rw [granted_append, hgranted, hsplit, hnone, guarded_congr hline, List.append_nil]
    exact List.append_nil _

/-- The first agent of the line goes on, to its guard at most. -/
theorem Ordered.change {rest : List ι} (h : Ordered labels s (i :: rest)) {phase : Phase}
    (hmoves : Moves s.agent s'.agent i phase) (hfront : phase.AtFront s.nowServing)
    (hnext : s'.nextTicket = s.nextTicket) (hserving : s'.nowServing = s.nowServing)
    {label : Label ι} (hlabel : drawn [label] = [])
    (hguard : granted [label] = if phase.Guards then [i] else [])
    (hno : ¬(s.agent i).Guards) : Ordered (labels ++ [label]) s' (i :: rest) := by
  have hrest := hmoves.agrees (List.nodup_cons.1 h.nodup).1
  obtain ⟨before, hdrawn, hgranted⟩ := h.order
  refine ⟨h.nodup, fun j => ?_, h.short, ?_, ?_, before, ?_, ?_⟩
  · by_cases hj : j = i
    · subst hj
      rw [hmoves.self]
      exact ⟨fun _ => hfront.waits_or_guards, fun _ => List.mem_cons_self⟩
    · rw [hmoves.other j hj]
      exact h.mem j
  · rw [hnext, hserving]
    exact h.next
  · rw [hserving]
    refine ⟨?_, h.served.2.congr hrest⟩
    rw [hmoves.self]
    exact hfront
  · rw [drawn_append, hlabel, List.append_nil]
    exact hdrawn
  · rw [guarded_cons, if_neg hno, h.served.2.guarded_eq_nil, List.append_nil,
      List.append_nil] at hgranted
    rw [granted_append, hguard, hgranted, guarded_cons, hmoves.self, guarded_congr hrest,
      h.served.2.guarded_eq_nil, List.append_nil]

/-- The guard of the first agent is dropped, and it is the turn of the next one. -/
theorem Ordered.release {rest : List ι} (h : Ordered labels s (i :: rest)) {daif : BitVec 64}
    (hholding : s.agent i = .holding daif) (hmoves : Moves s.agent s'.agent i (.dropping daif))
    (hnext : s'.nextTicket = s.nextTicket) (hserving : s'.nowServing = s.nowServing + 1) :
    Ordered (labels ++ [.release i]) s' rest := by
  have hout : i ∉ rest := (List.nodup_cons.1 h.nodup).1
  have hrest := hmoves.agrees hout
  obtain ⟨before, hdrawn, hgranted⟩ := h.order
  refine ⟨h.nodup.of_cons, fun j => ?_, Nat.le_of_succ_le h.short, ?_, ?_, before ++ [i], ?_, ?_⟩
  · by_cases hj : j = i
    · subst hj
      rw [hmoves.self]
      exact ⟨fun hmem => absurd hmem hout, fun hd => hd.elim False.elim False.elim⟩
    · rw [hmoves.other j hj, ← h.mem j, List.mem_cons]
      exact ⟨.inr, fun hmem => hmem.resolve_left hj⟩
  · rw [hnext, hserving, ← add_ofNat_succ]
    exact h.next
  · refine Served.congr ?_ hrest
    have hlined := h.served.2
    rw [hserving]
    cases rest with
    | nil => trivial
    | cons a rest =>
      refine ⟨?_, hlined.2⟩
      rw [hlined.1]
      exact Phase.atFront_waiting
  · rw [drawn_append, hdrawn, List.append_assoc before [i] rest]
    exact List.append_nil _
  · have hgiven : (s.agent i).Guards := by
      rw [hholding]
      trivial
    rw [guarded_cons, if_pos hgiven, h.served.2.guarded_eq_nil, List.append_nil] at hgranted
    rw [granted_append, hgranted, guarded_congr hrest, h.served.2.guarded_eq_nil, List.append_nil]
    exact List.append_nil _

/-- An agent outside of the line leaves. -/
theorem Ordered.restore (h : Ordered labels s line) {daif : BitVec 64}
    (hdropping : s.agent i = .dropping daif) (hmoves : Moves s.agent s'.agent i .idle)
    (hnext : s'.nextTicket = s.nextTicket) (hserving : s'.nowServing = s.nowServing) :
    Ordered (labels ++ [.restore i]) s' line := by
  have hout : i ∉ line := h.not_mem (by rw [hdropping]; exact id) (by rw [hdropping]; exact id)
  have hline := hmoves.agrees hout
  obtain ⟨before, hdrawn, hgranted⟩ := h.order
  refine ⟨h.nodup, fun j => ?_, h.short, ?_, ?_, before, ?_, ?_⟩
  · by_cases hj : j = i
    · subst hj
      rw [hmoves.self]
      exact ⟨fun hmem => absurd hmem hout, fun hd => hd.elim False.elim False.elim⟩
    · rw [hmoves.other j hj]
      exact h.mem j
  · rw [hnext, hserving]
    exact h.next
  · rw [hserving]
    exact h.served.congr hline
  · rw [drawn_append, hdrawn]
    exact List.append_nil _
  · rw [granted_append, hgranted, guarded_congr hline]
    exact List.append_nil _

theorem Ordered.guards_unique (h : Ordered labels s line) {i j : ι} (hi : (s.agent i).Guards)
    (hj : (s.agent j).Guards) : i = j := by
  have hleft : ∀ {k}, (s.agent k).Guards → ∀ ticket, s.agent k ≠ .waiting ticket :=
    fun hk ticket hwait => by rw [hwait] at hk; exact hk
  obtain ⟨rest, hline⟩ := h.served.first h.short ((h.mem i).2 (.inr hi)) (.inr (hleft hi))
  obtain ⟨rest', hline'⟩ := h.served.first h.short ((h.mem j).2 (.inr hj)) (.inr (hleft hj))
  rw [hline] at hline'
  exact (List.cons.inj hline').1

theorem Ordered.granted_prefix (h : Ordered labels s line) : granted labels <+: drawn labels := by
  obtain ⟨before, hdrawn, hgranted⟩ := h.order
  rw [hdrawn, hgranted, List.prefix_append_right_inj]
  cases line with
  | nil => exact List.nil_prefix
  | cons i rest =>
    rw [guarded_cons, h.served.2.guarded_eq_nil, List.append_nil]
    split
    · exact ⟨rest, rfl⟩
    · exact List.nil_prefix

theorem Ordered.turn_unique (h : Ordered labels s line) (hno : ∀ i, ¬(s.agent i).Guards)
    (hwaits : ∃ i, (s.agent i).Waits) :
    ∃! i, (s.agent i).Waits ∧ (s.agent i).HasTurn s.nowServing := by
  obtain ⟨j, hj⟩ := hwaits
  cases line with
  | nil => exact absurd ((h.mem j).2 (.inl hj)) List.not_mem_nil
  | cons i rest =>
    have hfront := h.served.1
    have hi : (s.agent i).Waits := hfront.waits_or_guards.resolve_right (hno i)
    refine ⟨i, ⟨hi, hfront.hasTurn hi⟩, fun k hk => ?_⟩
    obtain ⟨rest', hline⟩ := h.served.first h.short ((h.mem k).2 (.inl hk.1)) (.inl hk.2)
    exact (List.cons.inj hline).1.symm

variable [DecidableEq ι] [DecidableEq κ] {cpu : ι → κ} {t : State ι κ}

/-- Every step keeps the line in order. -/
theorem Ordered.step (h : Ordered labels s line) {label : Label ι} (hstep : Step cpu s label t) :
    ∃ line', Ordered (labels ++ [label]) t line' := by
  obtain ⟨hperform, hfew⟩ := hstep
  cases label with
  | draw i =>
    obtain ⟨hidle, ht⟩ := perform_draw hperform
    subst ht
    exact ⟨line ++ [i], h.draw hidle (moves_update _ _ _) rfl rfl hfew⟩
  | load i =>
    rcases perform_load hperform with rfl | ⟨hwaiting, rfl⟩
    · refine ⟨line, h.nodup, h.mem, h.short, h.next, h.served, ?_⟩
      obtain ⟨before, hdrawn, hgranted⟩ := h.order
      refine ⟨before, ?_, ?_⟩
      · rw [drawn_append, hdrawn]
        exact List.append_nil _
      · rw [granted_append, hgranted]
        exact List.append_nil _
    · -- the turn came to this agent, so it is the first one
      have hmem : i ∈ line := (h.mem i).2 (.inl (by rw [hwaiting]; trivial))
      obtain ⟨rest, rfl⟩ := h.served.first h.short hmem (.inl (by rw [hwaiting]; rfl))
      have hfront : (Phase.entering s.nowServing).AtFront s.nowServing := rfl
      refine ⟨i :: rest, h.change (moves_update _ _ _) hfront ?_ ?_ rfl rfl ?_⟩
      · rfl
      · rfl
      · rw [hwaiting]
        exact id
  | guard i =>
    obtain ⟨⟨myTicket, hentering⟩, rfl⟩ := perform_guard hperform
    have hmem : i ∈ line := (h.mem i).2 (.inl (by rw [hentering]; trivial))
    obtain ⟨rest, rfl⟩ := h.served.first h.short hmem (.inr (by rw [hentering]; nofun))
    have hfront : (Phase.holding (s.daif (cpu i))).AtFront s.nowServing := trivial
    refine ⟨i :: rest, h.change (moves_update _ _ _) hfront ?_ ?_ rfl rfl ?_⟩
    · rfl
    · rfl
    · rw [hentering]
      exact id
  | release i =>
    obtain ⟨daif, hholding, rfl⟩ := perform_release hperform
    have hmem : i ∈ line := (h.mem i).2 (.inr (by rw [hholding]; trivial))
    obtain ⟨rest, rfl⟩ := h.served.first h.short hmem (.inr (by rw [hholding]; nofun))
    exact ⟨rest, h.release hholding (moves_update _ _ _) rfl rfl⟩
  | restore i =>
    obtain ⟨daif, hdropping, ht⟩ := perform_restore hperform
    subst ht
    exact ⟨line, h.restore hdropping (moves_update _ _ _) rfl rfl⟩

theorem ordered_of_run (hrun : Run Initial (Step cpu) labels s) :
    ∃ line, Ordered labels s line := by
  induction hrun with
  | start h => exact ⟨[], h.ordered⟩
  | next _ hstep ih =>
    obtain ⟨line, h⟩ := ih
    exact h.step hstep

/-- **The ticket lock.** In every interleaving of the steps, from equal counters, with fewer than
`2 ^ 32` agents that wait: there is at most one guard, the guards were made in the order of the
tickets, and when there is no guard but an agent that waits, it is the turn of exactly one. -/
theorem ticket_lock (hrun : Run Initial (Step cpu) labels s) :
    (∀ i j, (s.agent i).Guards → (s.agent j).Guards → i = j) ∧
      granted labels <+: drawn labels ∧
      ((∀ i, ¬(s.agent i).Guards) → (∃ i, (s.agent i).Waits) →
        ∃! i, (s.agent i).Waits ∧ (s.agent i).HasTurn s.nowServing) := by
  obtain ⟨line, h⟩ := ordered_of_run hrun
  exact ⟨fun i j => h.guards_unique, h.granted_prefix, h.turn_unique⟩

end Invariant

/-- Two agents can never be too many. -/
theorem fewWaiters_bool {κ : Type} (s : State Bool κ) : s.FewWaiters := by
  intro W _
  refine Nat.lt_of_le_of_lt (Finset.card_le_univ W) ?_
  rw [Fintype.card_bool]
  decide

/-- The counters before they wrap around. -/
def lastTicket : State Bool Bool := ⟨0xFFFFFFFF, 0xFFFFFFFF, fun _ => .idle, fun _ => 0⟩

/-- Two agents take the lock one after the other, across the wrap-around of the counters. -/
def twoAgents : List (Label Bool) :=
  [.draw true, .draw false, .load false, .load true, .guard true, .release true, .load false,
    .guard false, .restore true]

theorem ticket_lock_wraps : ∃ s, Run Initial (Step id) twoAgents s ∧
    s.nextTicket = 1 ∧ (s.agent false).Guards ∧ granted twoAgents <+: drawn twoAgents := by
  have hfollow : ∃ t, follow (fun s label => s.perform id label) lastTicket twoAgents = some t ∧
      t.nextTicket = 1 ∧ (t.agent false).Guards :=
    ⟨_, rfl, by decide, by decide⟩
  obtain ⟨t, ht, hnext, hguards⟩ := hfollow
  have hrun : Run Initial (Step id) twoAgents t :=
    Run.follow (fun s label t h => ⟨h, fewWaiters_bool t⟩) twoAgents
      (.start ⟨rfl, fun _ => rfl⟩) ht
  exact ⟨t, hrun, hnext, hguards, (ticket_lock hrun).2.1⟩

end MiniVisor.Lock
