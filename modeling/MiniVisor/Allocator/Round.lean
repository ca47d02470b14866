import MiniVisor.Allocator.Free

/-!
# What one round of `define_free_memory` can do

The lemmas on `define_free_memory` for a range that is not free compute the result of a round. For
any other range it is enough to know the ways in which a round can end. `freeBeside_cases` lists
them for a round at an entry of the chain: it adds the whole size of the range to `free_size`, or it
leaves the range to the next entry, or it needs a new entry and the pool has none.
-/

set_option autoImplicit false

namespace MiniVisor.Allocator

open MiniVisor.Lib

/-! ## What the parts of a round leave alone -/

section Frames

variable {a b : MemoryAllocator} {x : Nat}

theorem chainAfterSmaller_frame : ∀ (fuel listEntry : Nat),
    chainAfterSmaller a x fuel listEntry = .ok b → ListFrame a b := by
  intro fuel
  induction fuel with
  | zero =>
    intro listEntry h
    exact absurd h (by simp [chainAfterSmaller])
  | succ fuel ih =>
    intro listEntry h
    cases hn : getListNext a listEntry with
    | none =>
      simp only [chainAfterSmaller, hn, Except.ok.injEq] at h
      exact h ▸ chainListAfter_frame
    | some nextEntry =>
      simp only [chainAfterSmaller, hn] at h
      split at h
      · rw [Except.ok.injEq] at h
        exact h ▸ chainListAfter_frame.trans chainListBefore_frame
      · exact ih nextEntry h

theorem insertToFreeList_frame (h : insertToFreeList a x = .ok b) : ListFrame a b := by
  obtain ⟨_, -, h⟩ := bind_eq_ok.1 h
  obtain ⟨_, -, h⟩ := bind_eq_ok.1 h
  split at h
  · split at h
    · cases h
      exact chainListBefore_frame.setHead _ _
    · exact chainAfterSmaller_frame _ _ h
  · cases h
    exact (ListFrame.refl a).setHead _ _

/-- However the lists are, filing an entry touches nothing but them. -/
theorem chainEntryToFreeList_frame {oldSize : Option Nat}
    (h : chainEntryToFreeList a x oldSize = .ok b) : ListFrame a b := by
  cases oldSize with
  | none => exact insertToFreeList_frame h
  | some old =>
    simp only [chainEntryToFreeList] at h
    split at h
    · cases h
      exact ListFrame.refl a
    · exact (unchainFromOrder_frame a x _).trans (insertToFreeList_frame h)

theorem setRangeAt_freeSize {s e : Nat} (h : setRangeAt a x s e = .ok b) :
    b.freeSize = a.freeSize := by
  obtain ⟨_, -, h⟩ := bind_eq_ok.1 h
  cases h
  rfl

theorem delete_freeSize (a : MemoryAllocator) (x : Nat) : (delete a x).freeSize = a.freeSize := by
  simp only [delete]
  split <;> split <;> rfl

end Frames

/-! ## The ways in which a round ends -/

section Cases

variable {a b : MemoryAllocator} {x z s e size oldSize after : Nat} {step : FreeStep}

/-- The rounds that end with success add the size of the range to `free_size`. -/
def AddsSize (a : MemoryAllocator) (size : Nat) (step : FreeStep) : Prop :=
  ∃ b, step = .done (.ok (), b) ∧ b.freeSize = a.freeSize + size

theorem AddsSize.of_freeSize (h : AddsSize b size step) (hb : b.freeSize = a.freeSize) :
    AddsSize a size step := by
  obtain ⟨c, hc, hsize⟩ := h
  exact ⟨c, hc, by rw [hsize, hb]⟩

theorem finishGrown_cases (h : finishGrown a x size oldSize = .ok step) : AddsSize a size step := by
  obtain ⟨total, htotal, h⟩ := bind_eq_ok.1 h
  obtain ⟨b, hb, h⟩ := bind_eq_ok.1 h
  cases h
  refine ⟨b, rfl, ?_⟩
  rw [(chainEntryToFreeList_frame hb).freeSize]
  exact eq_of_checkedAdd htotal

theorem finishNew_cases (h : finishNew a x z size oldSize = .ok step) : AddsSize a size step := by
  obtain ⟨total, htotal, h⟩ := bind_eq_ok.1 h
  obtain ⟨b, hb, h⟩ := bind_eq_ok.1 h
  obtain ⟨c, hc, h⟩ := bind_eq_ok.1 h
  cases h
  refine ⟨c, rfl, ?_⟩
  rw [(chainEntryToFreeList_frame hc).freeSize, (chainEntryToFreeList_frame hb).freeSize]
  exact eq_of_checkedAdd htotal

theorem createMemoryEntry_freeSize {n : Nat} (h : createMemoryEntry a = some (n, b)) :
    b.freeSize = a.freeSize := by
  simp only [createMemoryEntry] at h
  split at h
  · cases h
    rfl
  · cases h

theorem insertWithNext_cases (h : insertWithNext a x z s e size oldSize = .ok step) :
    AddsSize a size step ∨ createMemoryEntry a = none := by
  unfold insertWithNext at h
  split at h
  · exact Or.inr ‹_›
  · rename_i n a₁ hnew
    obtain ⟨a₂, hrange, h⟩ := bind_eq_ok.1 h
    have hsize : a₂.freeSize = a.freeSize :=
      (setRangeAt_freeSize hrange).trans (createMemoryEntry_freeSize hnew)
    refine Or.inl ?_
    split at h
    · split at h
      · obtain ⟨_, -, h⟩ := bind_eq_ok.1 h
        exact (finishNew_cases h).of_freeSize hsize
      · exact (finishNew_cases h).of_freeSize hsize
    · exact (finishNew_cases h).of_freeSize hsize

theorem insertAtLast_cases (h : insertAtLast a x s e size oldSize = .ok step) :
    AddsSize a size step ∨ createMemoryEntry a = none := by
  unfold insertAtLast at h
  split at h
  · exact Or.inr ‹_›
  · rename_i n a₁ hnew
    obtain ⟨a₂, hrange, h⟩ := bind_eq_ok.1 h
    have hsize : a₂.freeSize = a.freeSize :=
      (setRangeAt_freeSize hrange).trans (createMemoryEntry_freeSize hnew)
    refine Or.inl ?_
    split at h
    · exact (finishNew_cases h).of_freeSize hsize
    · split at h
      · obtain ⟨_, -, h⟩ := bind_eq_ok.1 h
        exact (finishNew_cases h).of_freeSize hsize
      · exact (finishNew_cases h).of_freeSize hsize

theorem growUp_cases {up : Bool} (h : growUp a x s e after = .ok (up, b)) :
    up = false ∧ after ≠ s ∧ b = a ∨
      up = true ∧ ∃ hle, b = a.withRange x (a.pool x).start e hle := by
  by_cases hs : after = s
  · right
    simp only [growUp, if_pos hs] at h
    obtain ⟨c, hc, h⟩ := bind_eq_ok.1 h
    cases h
    by_cases hle : (a.pool x).start ≤ e
    · rw [setRangeAt_eq a x hle, Except.ok.injEq] at hc
      exact ⟨rfl, hle, hc.symm⟩
    · exact absurd hc (by simp [setRangeAt, MemoryEntry.setRange, hle])
  · left
    rw [growUp_of_ne hs, Except.ok.injEq, Prod.mk.injEq] at h
    exact ⟨h.1.symm, hs, h.2.symm⟩

theorem growDown_cases {down : Bool} (h : growDown a x s e = .ok (down, b)) :
    down = false ∧ b = a ∨ down = true ∧ ∃ hle, b = a.withRange x s (a.pool x).stop hle := by
  simp only [growDown] at h
  split at h
  · obtain ⟨_, -, h⟩ := bind_eq_ok.1 h
    split at h
    · obtain ⟨c, hc, h⟩ := bind_eq_ok.1 h
      cases h
      by_cases hle : s ≤ (a.pool x).stop
      · rw [setRangeAt_eq a x hle, Except.ok.injEq] at hc
        exact Or.inr ⟨rfl, hle, hc.symm⟩
      · exact absurd hc (by simp [setRangeAt, MemoryEntry.setRange, hle])
    · cases h
      exact Or.inl ⟨rfl, rfl⟩
  · cases h
    exact Or.inl ⟨rfl, rfl⟩

theorem growNext_cases {grown : Bool} (h : growNext a z s e = .ok (grown, b)) :
    b.freeSize = a.freeSize ∧ (grown = false → (a.pool z).start ≠ e + 1 ∧ b = a) := by
  obtain ⟨after, hafter, h⟩ := bind_eq_ok.1 h
  rw [eq_of_checkedAdd hafter] at h
  split at h
  · obtain ⟨c, hc, h⟩ := bind_eq_ok.1 h
    obtain ⟨d, hd, hc⟩ := bind_eq_ok.1 hc
    cases h
    refine ⟨?_, by simp⟩
    rw [(chainEntryToFreeList_frame hc).freeSize, setRangeAt_freeSize hd]
  · cases h
    exact ⟨rfl, fun _ => ⟨‹_›, rfl⟩⟩

theorem mergeNext_freeSize {processed : Bool} (h : mergeNext a x z after processed = .ok b) :
    b.freeSize = a.freeSize := by
  obtain ⟨_, -, h⟩ := bind_eq_ok.1 h
  split at h
  · obtain ⟨c, hc, h⟩ := bind_eq_ok.1 h
    cases h
    rw [delete_freeSize, unchainEntryFromFreeList, (unchainFromOrder_frame c z _).freeSize,
      setRangeAt_freeSize hc]
  · cases h
    rfl

/-- What a round does about an entry behind the selected one. When the selected entry has not grown
and the two do not touch, the pool must be full for the round to end without adding the size. -/
theorem freeWithNext_cases {processed : Bool}
    (h : freeWithNext a x z s e size oldSize after processed = .ok step)
    (hapart : processed = false → (a.pool x).stop + 1 < wordSize ∧
      (a.pool x).stop + 1 < (a.pool z).start ∧ after < (a.pool z).start) :
    ((a.pool z).start ≤ s ∧ processed = false ∧
        ((a.pool z).stop < e → step = .again a ((a.pool z).stop + 1) (e - (a.pool z).stop))) ∨
      s < (a.pool z).start ∧
        (AddsSize a size step ∨
          processed = false ∧ (a.pool z).start ≠ e + 1 ∧ createMemoryEntry a = none) := by
  unfold freeWithNext at h
  split at h
  · rename_i hle
    cases processed with
    | true => exact absurd h (by simp)
    | false =>
      refine Or.inl ⟨hle, rfl, fun hlt => ?_⟩
      simp only [Bool.not_false, assertThat_true, ok_bind, ge_iff_le, if_neg (not_le.2 hlt)] at h
      obtain ⟨next, hnext, h⟩ := bind_eq_ok.1 h
      obtain ⟨rest, hrest, h⟩ := bind_eq_ok.1 h
      rw [checkedSub_eq (by omega)] at hrest
      cases hrest
      rw [eq_of_checkedAdd hnext] at h
      cases h
      rfl
  · rename_i hlt
    refine Or.inr ⟨by omega, ?_⟩
    obtain ⟨⟨grown, b⟩, hgrow, h⟩ := bind_eq_ok.1 h
    obtain ⟨c, hmerge, h⟩ := bind_eq_ok.1 h
    obtain ⟨hsize, hsame⟩ := growNext_cases hgrow
    have hc := (mergeNext_freeSize hmerge).trans hsize
    cases hp : processed || grown with
    | true =>
      simp only [hp, if_true] at h
      exact Or.inl ((finishGrown_cases h).of_freeSize hc)
    | false =>
      simp only [hp, Bool.false_eq_true, if_false] at h
      obtain ⟨hproc, hgrown⟩ := Bool.or_eq_false_iff.1 hp
      obtain ⟨hne, rfl⟩ := hsame hgrown
      obtain ⟨hx, hapart, hafter⟩ := hapart hproc
      simp only [mergeNext_of_apart x after (processed || grown) hx (by omega) hafter,
        Except.ok.injEq] at hmerge
      subst hmerge
      rcases insertWithNext_cases h with h | h
      · exact Or.inl h
      · exact Or.inr ⟨hproc, hne, h⟩

/-- The selected entry grows, or nothing has happened yet. -/
theorem grow_cases {c : MemoryAllocator} {up down : Bool}
    (hup : growUp a x s e after = .ok (up, b)) (hdown : growDown b x s e = .ok (down, c)) :
    ((up || down) = false ∧ after ≠ s ∧ c = a) ∨
      ((up || down) = true ∧ c.freeSize = a.freeSize ∧ (c.pool x).next = (a.pool x).next) := by
  rcases growUp_cases hup with ⟨rfl, hne, rfl⟩ | ⟨rfl, _, rfl⟩
  · rcases growDown_cases hdown with ⟨rfl, rfl⟩ | ⟨rfl, _, rfl⟩
    · exact Or.inl ⟨rfl, hne, rfl⟩
    · exact Or.inr ⟨rfl, rfl, withRange_next _ _ _ _⟩
  · rcases growDown_cases hdown with ⟨rfl, rfl⟩ | ⟨rfl, _, rfl⟩
    · exact Or.inr ⟨rfl, rfl, withRange_next _ _ _ _⟩
    · exact Or.inr ⟨rfl, rfl, (withRange_next _ _ _ _).trans (withRange_next _ _ _ _)⟩

/-- An entry that has grown is filed again, whatever its neighbour is. -/
theorem grown_addsSize {c : MemoryAllocator} {r : List Nat} {processed : Bool}
    (hp : processed = true) (hsize : c.freeSize = a.freeSize) (hnext : getNextEntry c x = r.head?)
    (hrun : (match getNextEntry c x with
      | some next => freeWithNext c x next s e size oldSize after processed
      | none =>
        if processed then finishGrown c x size oldSize
        else insertAtLast c x s e size oldSize) = .ok step) : AddsSize a size step := by
  rw [hnext] at hrun
  cases r with
  | nil =>
    rw [List.head?_nil] at hrun
    simp only [hp, if_true] at hrun
    exact (finishGrown_cases hrun).of_freeSize hsize
  | cons z r =>
    rw [List.head?_cons] at hrun
    rcases freeWithNext_cases hrun (by simp [hp]) with ⟨-, hfalse, -⟩ | ⟨-, hadd | ⟨hfalse, -, -⟩⟩
    · exact absurd (hp.symm.trans hfalse) (by simp)
    · exact hadd.of_freeSize hsize
    · exact absurd (hp.symm.trans hfalse) (by simp)

/-- A round at an entry of the chain adds the size of the range to `free_size`, or leaves the range
to the next entry, which starts no later, or needs a new entry when there is none left. -/
theorem freeBeside_cases {l r : List Nat} {lists : Nat → List Nat} (h : Rep a (l ++ x :: r) lists)
    (hrun : freeBeside a x s e size = .ok step) :
    AddsSize a size step ∨
      (∃ z r', r = z :: r' ∧ (a.pool z).start ≤ s ∧
        ((a.pool z).stop < e → step = .again a ((a.pool z).stop + 1) (e - (a.pool z).stop))) ∨
      ((l ++ x :: r).length = poolSize ∧ (a.pool x).stop + 1 ≠ s ∧
        ∀ z r', r = z :: r' → s < (a.pool z).start ∧ (a.pool z).start ≠ e + 1) := by
  have hstop := h.stop_lt (x := x) (by simp)
  have hpw := physicalLimit_lt
  have hgap := h.stop_lt_of_mem.2
  obtain ⟨after, hafter, hrun⟩ := bind_eq_ok.1 hrun
  rw [eq_of_checkedAdd hafter] at hrun
  obtain ⟨⟨up, b⟩, hup, hrun⟩ := bind_eq_ok.1 hrun
  obtain ⟨⟨down, c⟩, hdown, hrun⟩ := bind_eq_ok.1 hrun
  have hnext : getNextEntry a x = r.head? := h.addressChain.getNextEntry_eq
  rcases grow_cases hup hdown with ⟨hp, hne, rfl⟩ | ⟨hp, hsize, hlink⟩
  · -- Nothing has grown: the next entry decides.
    simp only [hp, Bool.false_eq_true, if_false, hnext] at hrun
    cases r with
    | nil =>
      rcases insertAtLast_cases hrun with hadd | hfull
      · exact Or.inl hadd
      · exact Or.inr (Or.inr ⟨(createMemoryEntry_eq_none h.addressChain).1 hfull, hne, by simp⟩)
    | cons z r' =>
      have hz := hgap z (by simp)
      rcases freeWithNext_cases hrun (fun _ => ⟨by omega, hz, hz⟩) with
        ⟨hle, -, hagain⟩ | ⟨hlt, hadd | ⟨-, hadj, hfull⟩⟩
      · exact Or.inr (Or.inl ⟨z, r', rfl, hle, hagain⟩)
      · exact Or.inl hadd
      · refine Or.inr (Or.inr ⟨(createMemoryEntry_eq_none h.addressChain).1 hfull, hne, ?_⟩)
        rintro _ _ ⟨⟩
        exact ⟨hlt, hadj⟩
  · have hnext' : getNextEntry c x = r.head? := by rw [← hnext, getNextEntry, hlink, getNextEntry]
    exact Or.inl (grown_addsSize hp hsize hnext' hrun)

end Cases

end MiniVisor.Allocator
