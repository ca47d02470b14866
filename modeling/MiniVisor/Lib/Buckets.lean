import Mathlib

/-!
# Segregated lists

Elements are filed by a key into finitely many buckets: `cls` gives the bucket of a key, and each
bucket is sorted by key. `Filed n cls key C buckets` says that the buckets below `n` hold exactly
the elements of `C`, each once, each in the bucket of its key.

`unfile` takes an element out of every bucket and `refile` moves it to the bucket of its present
key. Both are defined on any buckets, sorted or not: `refile` puts the element before the first one
whose key is not smaller. `Filed.refile` and `Filed.unfile` are the two ways in which a
well-filed collection changes; a key may change together with a `refile`.
-/

set_option autoImplicit false

namespace MiniVisor.Lib

universe u v

variable {α : Type u} {κ : Type v} [LinearOrder κ]

/-- The buckets below `n` hold the elements of `C`, sorted and in the bucket of their key. -/
structure Filed (n : Nat) (cls : κ → Nat) (key : α → κ) (C : Set α) (buckets : Nat → List α) :
    Prop where
  nodup : ∀ o < n, (buckets o).Nodup
  mem : ∀ o < n, ∀ x, x ∈ buckets o ↔ x ∈ C ∧ cls (key x) = o
  sorted : ∀ o < n, (buckets o).Pairwise fun x y => key x ≤ key y

/-- Insertion of `x` before the first element whose key is not smaller. -/
def insertByKey (key : α → κ) (x : α) (l : List α) : List α :=
  l.orderedInsert (fun a b => key a ≤ key b) x

/-- `x` taken out of every bucket. -/
def unfile [DecidableEq α] (buckets : Nat → List α) (x : α) : Nat → List α :=
  fun o => (buckets o).erase x

/-- `x` taken out of every bucket and inserted into the bucket of its key. -/
def refile [DecidableEq α] (cls : κ → Nat) (key : α → κ) (buckets : Nat → List α) (x : α) :
    Nat → List α :=
  fun o => if o = cls (key x) then insertByKey key x ((buckets o).erase x) else (buckets o).erase x

variable {n : Nat} {cls : κ → Nat} {key key' : α → κ} {C C' : Set α} {buckets : Nat → List α}

/-- The insertion point of `insertByKey`, as a split of the list. -/
theorem insertByKey_eq_split (key : α → κ) (x : α) (l : List α) :
    ∃ a b, l = a ++ b ∧ insertByKey key x l = a ++ x :: b ∧
      (∀ y ∈ a, key y < key x) ∧ (∀ y, b.head? = some y → key x ≤ key y) := by
  induction l with
  | nil => exact ⟨[], [], rfl, rfl, by simp, by simp⟩
  | cons z rest ih =>
    by_cases h : key x ≤ key z
    · refine ⟨[], z :: rest, rfl, ?_, by simp, ?_⟩
      · exact List.orderedInsert_cons_of_le (fun a b => key a ≤ key b) rest h
      · intro y hy
        simp only [List.head?_cons, Option.some.injEq] at hy
        exact hy ▸ h
    · obtain ⟨a, b, hl, hi, ha, hb⟩ := ih
      refine ⟨z :: a, b, by rw [hl]; rfl, ?_, ?_, hb⟩
      · have hz := List.orderedInsert_of_not_le (fun a b => key a ≤ key b) rest h
        show List.orderedInsert (fun a b => key a ≤ key b) x (z :: rest) = _
        rw [hz, List.cons_append, ← hi]
        rfl
      · intro y hy
        rcases List.mem_cons.mp hy with rfl | hy
        · exact lt_of_not_ge h
        · exact ha y hy

@[simp] theorem mem_insertByKey {x y : α} {l : List α} :
    y ∈ insertByKey key x l ↔ y = x ∨ y ∈ l :=
  List.mem_orderedInsert _

theorem nodup_insertByKey {x : α} {l : List α} (hl : l.Nodup) (hx : x ∉ l) :
    (insertByKey key x l).Nodup :=
  ((List.perm_orderedInsert _ x l).nodup_iff).2 (List.nodup_cons.2 ⟨hx, hl⟩)

/-- Insertion keeps a list sorted. -/
theorem pairwise_insertByKey (x : α) {l : List α}
    (hl : l.Pairwise fun a b => key a ≤ key b) :
    (insertByKey key x l).Pairwise fun a b => key a ≤ key b := by
  have : Std.Total fun a b : α => key a ≤ key b := ⟨fun a b => le_total (key a) (key b)⟩
  have : IsTrans α fun a b => key a ≤ key b := ⟨fun _ _ _ => le_trans⟩
  exact List.Pairwise.orderedInsert x l hl

/-- Taking an element out of a well-filed collection. -/
theorem Filed.unfile [DecidableEq α] (h : Filed n cls key C buckets) (x : α) :
    Filed n cls key (C \ {x}) (unfile buckets x) where
  nodup o ho := (h.nodup o ho).erase x
  mem o ho y := by
    show y ∈ (buckets o).erase x ↔ _
    rw [(h.nodup o ho).mem_erase_iff, h.mem o ho]
    simp only [Set.mem_sdiff, Set.mem_singleton_iff]
    tauto
  sorted o ho := (h.sorted o ho).sublist List.erase_sublist

/-- Keys that agree on the collection file it the same way. -/
theorem Filed.congr (h : Filed n cls key C buckets) (hk : ∀ y ∈ C, key' y = key y)
    (hC : ∀ y, y ∈ C' ↔ y ∈ C) : Filed n cls key' C' buckets where
  nodup := h.nodup
  mem o ho y := by
    rw [h.mem o ho, hC]
    constructor
    · rintro ⟨hy, hc⟩
      exact ⟨hy, by rw [hk y hy, hc]⟩
    · rintro ⟨hy, hc⟩
      exact ⟨hy, by rw [← hk y hy, hc]⟩
  sorted o ho := by
    refine (h.sorted o ho).imp_of_mem fun {a b} ha hb hab => ?_
    rw [hk a ((h.mem o ho a).1 ha).1, hk b ((h.mem o ho b).1 hb).1]
    exact hab

/-- Filing one element under its present key. The keys of the other elements are unchanged; the
element itself may be new or may have had any key before. -/
theorem Filed.refile [DecidableEq α] (h : Filed n cls key C buckets) (x : α)
    (hk : ∀ y ∈ C, y ≠ x → key' y = key y) :
    Filed n cls key' (insert x C) (refile cls key' buckets x) := by
  have hu : Filed n cls key' (C \ {x}) (Lib.unfile buckets x) :=
    (h.unfile x).congr (fun y hy => hk y hy.1 hy.2) fun y => Iff.rfl
  have hx : ∀ o < n, x ∉ (buckets o).erase x := fun o ho => (h.nodup o ho).not_mem_erase
  refine ⟨fun o ho => ?_, fun o ho y => ?_, fun o ho => ?_⟩
  · by_cases hc : o = cls (key' x)
    · simp only [Lib.refile, if_pos hc]
      exact nodup_insertByKey (hu.nodup o ho) (hx o ho)
    · simp only [Lib.refile, if_neg hc]
      exact hu.nodup o ho
  · have hm := hu.mem o ho y
    simp only [Lib.unfile, Set.mem_sdiff, Set.mem_singleton_iff] at hm
    by_cases hc : o = cls (key' x)
    · simp only [Lib.refile, if_pos hc, mem_insertByKey, hm, Set.mem_insert_iff]
      constructor
      · rintro (rfl | ⟨⟨hy, -⟩, ho'⟩)
        · exact ⟨Or.inl rfl, hc.symm⟩
        · exact ⟨Or.inr hy, ho'⟩
      · rintro ⟨hy, ho'⟩
        by_cases hyx : y = x
        · exact Or.inl hyx
        · exact Or.inr ⟨⟨hy.resolve_left hyx, hyx⟩, ho'⟩
    · simp only [Lib.refile, if_neg hc, hm, Set.mem_insert_iff]
      constructor
      · rintro ⟨⟨hy, -⟩, ho'⟩
        exact ⟨Or.inr hy, ho'⟩
      · rintro ⟨hy, ho'⟩
        have hyx : y ≠ x := by
          rintro rfl
          exact hc ho'.symm
        exact ⟨⟨hy.resolve_left hyx, hyx⟩, ho'⟩
  · by_cases hc : o = cls (key' x)
    · simp only [Lib.refile, if_pos hc]
      exact pairwise_insertByKey x (hu.sorted o ho)
    · simp only [Lib.refile, if_neg hc]
      exact hu.sorted o ho

/-- A filed element is in the bucket of its key. -/
theorem mem_refile_self [DecidableEq α] (key : α → κ) (x : α) :
    x ∈ Lib.refile cls key buckets x (cls (key x)) := by
  simp [Lib.refile]

/-- Filing an element and taking it out again leaves it out. -/
theorem unfile_refile [DecidableEq α] (x : α) {o : Nat} (hnd : (buckets o).Nodup) :
    Lib.unfile (Lib.refile cls key buckets x) x o = Lib.unfile buckets x o := by
  have hx : x ∉ (buckets o).erase x := hnd.not_mem_erase
  by_cases hc : o = cls (key x)
  · simp only [Lib.unfile, Lib.refile, if_pos hc]
    exact List.erase_orderedInsert_of_notMem hx
  · simp only [Lib.unfile, Lib.refile, if_neg hc]
    exact List.erase_of_not_mem hx

/-- The buckets below `n` differ at most in where the elements of `T` are. -/
def SameBut [DecidableEq α] (n : Nat) (T : List α) (buckets buckets' : Nat → List α) : Prop :=
  ∀ o < n, (buckets' o).filter (fun y => y ∉ T) = (buckets o).filter fun y => y ∉ T

section SameBut

variable [DecidableEq α] {T U : List α} {buckets' buckets'' : Nat → List α}

theorem SameBut.trans (h : SameBut n T buckets buckets') (h' : SameBut n T buckets' buckets'') :
    SameBut n T buckets buckets'' :=
  fun o ho => (h' o ho).trans (h o ho)

/-- More elements may be elsewhere. -/
theorem SameBut.mono (h : SameBut n T buckets buckets') (hTU : T ⊆ U) :
    SameBut n U buckets buckets' := by
  intro o ho
  have hfilter : ∀ l : List α, l.filter (fun y => y ∉ U) =
      (l.filter fun y => y ∉ T).filter fun y => y ∉ U := by
    intro l
    rw [List.filter_filter]
    refine List.filter_congr fun y _ => ?_
    by_cases hy : y ∈ U
    · simp [hy]
    · have hyT : y ∉ T := fun hmem => hy (hTU hmem)
      simp [hy, hyT]
  rw [hfilter, h o ho, ← hfilter]

theorem Filed.sameBut_unfile (h : Filed n cls key C buckets) (x : α) :
    SameBut n [x] buckets (Lib.unfile buckets x) := by
  intro o ho
  show ((buckets o).erase x).filter _ = _
  rw [(h.nodup o ho).erase_eq_filter, List.filter_filter]
  refine List.filter_congr fun y _ => ?_
  by_cases hy : y = x <;> simp [hy]

/-- Filing one element moves no other. -/
theorem Filed.sameBut_refile (h : Filed n cls key C buckets) (x : α) :
    SameBut n [x] buckets (Lib.refile cls key' buckets x) := by
  intro o ho
  have hout := h.sameBut_unfile x o ho
  by_cases hc : o = cls (key' x)
  · obtain ⟨l, r, hl, hi, -, -⟩ := insertByKey_eq_split key' x ((buckets o).erase x)
    simp only [Lib.refile, if_pos hc, hi]
    rw [← hout, Lib.unfile, hl]
    simp [List.filter_append]
  · simp only [Lib.refile, if_neg hc]
    exact hout

end SameBut

end MiniVisor.Lib
