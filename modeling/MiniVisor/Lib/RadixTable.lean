import Mathlib

/-!
# Tables of several levels in memory

A table is a row of words in memory, and a word is empty, a leaf, or refers to a table of the next
level. `Format` says what a word means at each depth, the depth of the last level being zero, and
`walk` looks up an address from a word on.

The tables below a word do not share memory when each table belongs to one word. An `Owner` records
this: it gives the depth and the first address of each table, and `Serves` says that the tables
below a word are recorded with the addresses of that word. Then a word whose own memory and whose
tables are left alone serves as before and is looked up as before (`Serves.frame`), whatever is
written to the tables of other addresses.
-/

set_option autoImplicit false

namespace MiniVisor.Lib.Radix

variable {D L : Type}

/-- The meaning of a word. -/
inductive Kind (L : Type) where
  | empty
  | leaf (l : L)
  | table (address : Nat)

/-- The meaning with other leaves. -/
def Kind.map {L' : Type} (f : L → L') : Kind L → Kind L'
  | .empty => .empty
  | .leaf l => .leaf (f l)
  | .table t => .table t

@[simp] theorem Kind.map_eq_table {L' : Type} {f : L → L'} {kind : Kind L} {t : Nat} :
    kind.map f = .table t ↔ kind = .table t := by
  cases kind <;> simp [Kind.map]

structure Format (D L : Type) where
  /-- The meaning of a word at a depth. -/
  kind : Nat → D → Kind L
  /-- The number of words of a table. -/
  fan : Nat
  /-- The number of addresses of a word at depth zero. -/
  unit : Nat
  /-- The distance of the words in memory. -/
  stride : Nat
  fan_pos : 0 < fan
  unit_pos : 0 < unit

/-- The depth and the first address of each table. -/
abbrev Owner := Nat → Option (Nat × Nat)

/-- Nothing is forgotten. -/
def Owner.Grows (own own' : Owner) : Prop := ∀ t x, own t = some x → own' t = some x

theorem Owner.Grows.refl (own : Owner) : own.Grows own := fun _ _ h => h

theorem Owner.Grows.trans {own own' own'' : Owner} (h : own.Grows own') (h' : own'.Grows own'') :
    own.Grows own'' := fun t x ht => h' t x (h t x ht)

namespace Format

variable (F : Format D L)

/-- The number of addresses of a word at a depth. -/
def size (k : Nat) : Nat := F.unit * F.fan ^ k

/-- A word of a table. -/
def slot (t i : Nat) : Nat := t + F.stride * i

theorem size_succ (k : Nat) : F.size (k + 1) = F.fan * F.size k := by
  unfold size
  rw [Nat.pow_succ]
  ring

theorem size_pos (k : Nat) : 0 < F.size k := Nat.mul_pos F.unit_pos (Nat.pow_pos F.fan_pos)

/-- The addresses of a word of a table are among those of the table. -/
theorem add_mul_size_le {i : Nat} (k : Nat) (hi : i < F.fan) :
    i * F.size k + F.size k ≤ F.size (k + 1) := by
  rw [F.size_succ, ← Nat.succ_mul]
  exact Nat.mul_le_mul_right _ hi

/-- The leaf of an address below a word, and the position of the address in it. -/
def walk (mem : Nat → D) : (depth entry x : Nat) → Option (L × Nat)
  | 0, e, x =>
    match F.kind 0 (mem e) with
    | .leaf l => some (l, x % F.size 0)
    | _ => none
  | k + 1, e, x =>
    match F.kind (k + 1) (mem e) with
    | .empty => none
    | .leaf l => some (l, x % F.size (k + 1))
    | .table t => walk mem k (F.slot t (x / F.size k % F.fan)) x

/-- The tables below a word. -/
def Below (mem : Nat → D) : (depth entry t : Nat) → Prop
  | 0, _, _ => False
  | k + 1, e, t =>
    ∃ next, F.kind (k + 1) (mem e) = .table next ∧
      (t = next ∨ ∃ i < F.fan, Below mem k (F.slot next i) t)

/-- The tables below a word with first address `b` are recorded with their addresses. -/
def Serves (own : Owner) (mem : Nat → D) : (depth entry b : Nat) → Prop
  | 0, _, _ => True
  | k + 1, e, b =>
    ∀ t, F.kind (k + 1) (mem e) = .table t →
      own t = some (k, b) ∧ ∀ i < F.fan, Serves own mem k (F.slot t i) (b + i * F.size k)

/-- A recorded table with its addresses inside `[lo, hi)`. -/
def Inside (own : Owner) (lo hi t : Nat) : Prop :=
  ∃ k b, own t = some (k, b) ∧ lo ≤ b ∧ b + F.size (k + 1) ≤ hi

/-- A format with the same words and other leaves. -/
def map {L' : Type} (f : L → L') : Format D L' where
  kind k d := (F.kind k d).map f
  fan := F.fan
  unit := F.unit
  stride := F.stride
  fan_pos := F.fan_pos
  unit_pos := F.unit_pos

theorem walk_map {L' : Type} (f : L → L') (mem : Nat → D) (k : Nat) :
    ∀ e x : Nat, (F.map f).walk mem k e x = (F.walk mem k e x).map (Prod.map f id) := by
  induction k with
  | zero =>
    intro e x
    rw [walk, walk]
    show (match (F.kind 0 (mem e)).map f with | .leaf l => _ | _ => _) = _
    cases F.kind 0 (mem e) <;> rfl
  | succ k ih =>
    intro e x
    rw [walk, walk]
    show (match (F.kind (k + 1) (mem e)).map f with
      | .empty => _ | .leaf l => _ | .table t => _) = _
    cases F.kind (k + 1) (mem e) with
    | empty => rfl
    | leaf l => rfl
    | table t => exact ih _ x

theorem serves_map {L' : Type} (f : L → L') (own : Owner) (mem : Nat → D) (k : Nat) :
    ∀ e b : Nat, (F.map f).Serves own mem k e b ↔ F.Serves own mem k e b := by
  induction k with
  | zero => exact fun _ _ => Iff.rfl
  | succ k ih =>
    intro e b
    refine forall_congr' fun t => imp_congr Kind.map_eq_table ?_
    exact and_congr_right fun _ => forall₂_congr fun i _ => ih _ _

variable {F}

theorem Inside.mono {own : Owner} {lo hi lo' hi' t : Nat} (h : F.Inside own lo hi t)
    (hlo : lo' ≤ lo) (hhi : hi ≤ hi') : F.Inside own lo' hi' t := by
  obtain ⟨k, b, ht, hb, hbi⟩ := h
  exact ⟨k, b, ht, by omega, by omega⟩

theorem Inside.grows {own own' : Owner} {lo hi t : Nat} (h : F.Inside own lo hi t)
    (hg : own.Grows own') : F.Inside own' lo hi t := by
  obtain ⟨k, b, ht, hb, hbi⟩ := h
  exact ⟨k, b, hg t _ ht, hb, hbi⟩

/-- A word that refers to no table serves. -/
theorem serves_of_no_table {own : Owner} {mem : Nat → D} {e : Nat} (k b : Nat)
    (h : ∀ t, F.kind k (mem e) ≠ .table t) : F.Serves own mem k e b := by
  cases k with
  | zero => exact trivial
  | succ k => exact fun t ht => absurd ht (h t)

theorem walk_leaf {mem : Nat → D} {k e : Nat} {l : L} (h : F.kind k (mem e) = .leaf l) (x : Nat) :
    F.walk mem k e x = some (l, x % F.size k) := by
  cases k with
  | zero => rw [walk, h]
  | succ k => rw [walk, h]

theorem walk_empty {mem : Nat → D} {k e : Nat} (h : F.kind k (mem e) = .empty) (x : Nat) :
    F.walk mem k e x = none := by
  cases k with
  | zero => rw [walk, h]
  | succ k => rw [walk, h]

theorem walk_table {mem : Nat → D} {k e t : Nat} (h : F.kind (k + 1) (mem e) = .table t) (x : Nat) :
    F.walk mem (k + 1) e x = F.walk mem k (F.slot t (x / F.size k % F.fan)) x := by
  rw [walk, h]

/-- The word of an address in a table whose addresses begin at `b`. -/
theorem index_eq {k b i x : Nat} (hb : b % F.size (k + 1) = 0) (hi : i < F.fan)
    (hlo : b + i * F.size k ≤ x) (hhi : x < b + i * F.size k + F.size k) :
    x / F.size k % F.fan = i := by
  obtain ⟨c, rfl⟩ : F.size (k + 1) ∣ b := Nat.dvd_of_mod_eq_zero hb
  have hpos := F.size_pos k
  have hsplit : F.size (k + 1) * c + i * F.size k = (F.fan * c + i) * F.size k := by
    rw [F.size_succ]
    ring
  have hdiv : x / F.size k = F.fan * c + i := by
    apply Nat.div_eq_of_lt_le
    · omega
    · rw [Nat.succ_mul]
      omega
  rw [hdiv, Nat.mul_add_mod, Nat.mod_eq_of_lt hi]

/-- The tables below a word are inside its addresses. -/
theorem Serves.inside {own : Owner} {mem : Nat → D} (k : Nat) :
    ∀ {e b t : Nat}, F.Serves own mem k e b → F.Below mem k e t →
      F.Inside own b (b + F.size k) t := by
  induction k with
  | zero => exact fun _ h => h.elim
  | succ k ih =>
    rintro e b t h ⟨next, hnext, ht⟩
    obtain ⟨hown, hslots⟩ := h next hnext
    rcases ht with rfl | ⟨i, hi, ht⟩
    · exact ⟨k, b, hown, Nat.le_refl _, Nat.le_refl _⟩
    · have hle := F.add_mul_size_le k hi
      exact (ih (hslots i hi) ht).mono (by omega) (by omega)

/-- The word and the tables inside its addresses are as before. -/
structure Same (F : Format D L) (own : Owner) (mem mem' : Nat → D) (k e b : Nat) : Prop where
  word : mem' e = mem e
  tables : ∀ t, F.Inside own b (b + F.size k) t → ∀ i < F.fan, mem' (F.slot t i) = mem (F.slot t i)

/-- The frame rule. The induction is on the depth: the tables below a word of a table are inside the
addresses of this word, and so inside those of the table. -/
theorem Serves.frame {own own' : Owner} {mem mem' : Nat → D} (hg : own.Grows own') (k : Nat) :
    ∀ {e b : Nat}, F.Serves own mem k e b → F.Same own mem mem' k e b →
      F.Serves own' mem' k e b ∧ (∀ x, F.walk mem' k e x = F.walk mem k e x) ∧
        ∀ t, F.Below mem' k e t ↔ F.Below mem k e t := by
  induction k with
  | zero =>
    intro e b _ hs
    refine ⟨trivial, fun x => ?_, fun t => Iff.rfl⟩
    rw [walk, walk, hs.word]
  | succ k ih =>
    intro e b h hs
    have hnext : ∀ t, F.kind (k + 1) (mem e) = .table t → ∀ i < F.fan,
        F.Serves own' mem' k (F.slot t i) (b + i * F.size k) ∧
        (∀ x, F.walk mem' k (F.slot t i) x = F.walk mem k (F.slot t i) x) ∧
        ∀ u, F.Below mem' k (F.slot t i) u ↔ F.Below mem k (F.slot t i) u := by
      intro t ht i hi
      obtain ⟨hown, hslots⟩ := h t ht
      have hle := F.add_mul_size_le k hi
      refine ih (hslots i hi) ⟨hs.tables t ⟨k, b, hown, Nat.le_refl _, Nat.le_refl _⟩ i hi, ?_⟩
      exact fun u hu => hs.tables u (hu.mono (by omega) (by omega))
    refine ⟨fun t ht => ?_, fun x => ?_, fun t => ?_⟩
    · rw [hs.word] at ht
      exact ⟨hg t _ (h t ht).1, fun i hi => (hnext t ht i hi).1⟩
    · rw [walk, walk, hs.word]
      cases hkind : F.kind (k + 1) (mem e) with
      | empty => rfl
      | leaf l => rfl
      | table t => exact (hnext t hkind _ (Nat.mod_lt _ F.fan_pos)).2.1 x
    · rw [Below, Below, hs.word]
      refine exists_congr fun next => and_congr_right fun hkind => or_congr_right ?_
      exact exists_congr fun i => and_congr_right fun hi => (hnext next hkind i hi).2.2 t

end Format

end MiniVisor.Lib.Radix
