import Mathlib

/-!
# Doubly linked lists over a pool of nodes

A pool stores nodes that name each other: `prv x` and `nxt x` are the nodes before and after `x`,
or `none`. `Segment prv nxt p l q` says that the nodes of `l` are linked in this order, that the
first of them names `p` before it and that the last names `q` after it. `Linked prv nxt head l` is a
whole list: it starts at `head`, both ends are `none`, and no node occurs twice.

The three editing lemmas (`Linked.unlink`, `Linked.insert` and `Linked.congr`) take the links after
the edit as arbitrary functions and say only where they have to agree with the links before it, so
they apply to any way of writing the links.
-/

set_option autoImplicit false

namespace MiniVisor.Lib

universe u

variable {α : Type u}

/-- The nodes of `l` are linked in order, between the node `p` and the node `q`. -/
def Segment (prv nxt : α → Option α) : Option α → List α → Option α → Prop
  | _, [], _ => True
  | p, x :: rest, q => prv x = p ∧ nxt x = rest.head?.or q ∧ Segment prv nxt (some x) rest q

/-- A whole list without repetition, entered at `head`. -/
structure Linked (prv nxt : α → Option α) (head : Option α) (l : List α) : Prop where
  head_eq : head = l.head?
  segment : Segment prv nxt none l none
  nodup : l.Nodup

variable {prv nxt prv' nxt' : α → Option α}

/-- A segment splits at every position. -/
theorem segment_append (p q : Option α) (a b : List α) :
    Segment prv nxt p (a ++ b) q ↔
      Segment prv nxt p a (b.head?.or q) ∧ Segment prv nxt (a.getLast?.or p) b q := by
  induction a generalizing p with
  | nil => simp [Segment]
  | cons x rest ih =>
    have hlast : (x :: rest).getLast?.or p = rest.getLast?.or (some x) := by
      cases rest with
      | nil => rfl
      | cons y ys => simp [List.getLast?_eq_some_getLast]
    have hhead : (rest ++ b).head?.or q = rest.head?.or (b.head?.or q) := by
      cases rest <;> simp
    simp only [List.cons_append, Segment, ih, hlast, hhead]
    tauto

/-- Links that agree on the nodes of a segment link the same segment. -/
theorem Segment.congr {l : List α} (hp : ∀ x ∈ l, prv' x = prv x) (hn : ∀ x ∈ l, nxt' x = nxt x) :
    ∀ {p q : Option α}, Segment prv nxt p l q → Segment prv' nxt' p l q := by
  induction l with
  | nil => exact fun _ => trivial
  | cons x rest ih =>
    intro p q h
    obtain ⟨h1, h2, h3⟩ := h
    refine ⟨?_, ?_, ih ?_ ?_ h3⟩
    · rw [hp x List.mem_cons_self, h1]
    · rw [hn x List.mem_cons_self, h2]
    · exact fun y hy => hp y (List.mem_cons_of_mem x hy)
    · exact fun y hy => hn y (List.mem_cons_of_mem x hy)

/-- Redirecting the link out of the last node of a segment. -/
theorem Segment.setLast {p q q' : Option α} {l : List α} (h : Segment prv nxt p l q)
    (hnd : l.Nodup) (hp : ∀ x ∈ l, prv' x = prv x)
    (hlast : ∀ x ∈ l, l.getLast? = some x → nxt' x = q')
    (hn : ∀ x ∈ l, l.getLast? ≠ some x → nxt' x = nxt x) : Segment prv' nxt' p l q' := by
  rcases List.eq_nil_or_concat l with rfl | ⟨a, x, rfl⟩
  · trivial
  · rw [List.concat_eq_append] at *
    have hx : x ∉ a := by
      intro hxa
      exact (List.nodup_append.mp hnd).2.2 x hxa x (by simp) rfl
    rw [segment_append] at h ⊢
    obtain ⟨h1, h2⟩ := h
    refine ⟨Segment.congr ?_ ?_ h1, ?_, ?_, trivial⟩
    · exact fun y hy => hp y (by simp [hy])
    · intro y hy
      refine hn y (by simp [hy]) ?_
      rintro hyl
      simp only [List.getLast?_append, List.getLast?_singleton, Option.some_or,
        Option.some.injEq] at hyl
      exact hx (hyl ▸ hy)
    · rw [hp x (by simp)]
      exact h2.1
    · simpa using hlast x (by simp) (by simp)

/-- Redirecting the link into the first node of a segment. -/
theorem Segment.setHead {p p' q : Option α} {l : List α} (h : Segment prv nxt p l q)
    (hnd : l.Nodup) (hn : ∀ x ∈ l, nxt' x = nxt x)
    (hhead : ∀ x ∈ l, l.head? = some x → prv' x = p')
    (hp : ∀ x ∈ l, l.head? ≠ some x → prv' x = prv x) : Segment prv' nxt' p' l q := by
  cases l with
  | nil => trivial
  | cons x rest =>
    obtain ⟨-, h2, h3⟩ := h
    have hx : x ∉ rest := (List.nodup_cons.mp hnd).1
    refine ⟨hhead x List.mem_cons_self rfl, ?_, Segment.congr ?_ ?_ h3⟩
    · rw [hn x List.mem_cons_self, h2]
    · intro y hy
      refine hp y (List.mem_cons_of_mem x hy) ?_
      rintro hyx
      simp only [List.head?_cons, Option.some.injEq] at hyx
      exact hx (hyx ▸ hy)
    · exact fun y hy => hn y (List.mem_cons_of_mem x hy)

/-! ## Reading a linked list -/

/-- The links of a node are its neighbours in the list. -/
theorem Linked.links {head : Option α} {a b : List α} {x : α}
    (h : Linked prv nxt head (a ++ x :: b)) : prv x = a.getLast? ∧ nxt x = b.head? := by
  have hs := (segment_append none none a (x :: b)).1 h.segment
  obtain ⟨-, h1, h2, -⟩ := hs
  exact ⟨by simpa using h1, by simpa using h2⟩

theorem Linked.nil : Linked prv nxt none ([] : List α) :=
  ⟨rfl, trivial, List.nodup_nil⟩

theorem Linked.notMem_split {head : Option α} {a b : List α} {x : α}
    (h : Linked prv nxt head (a ++ x :: b)) : x ∉ a ∧ x ∉ b := by
  have hnd := h.nodup
  rw [List.nodup_append, List.nodup_cons] at hnd
  exact ⟨fun hx => hnd.2.2 x hx x List.mem_cons_self rfl, hnd.2.1.1⟩

/-- Links that agree on the nodes of a list link the same list. -/
theorem Linked.congr {head : Option α} {l : List α} (h : Linked prv nxt head l)
    (hp : ∀ x ∈ l, prv' x = prv x) (hn : ∀ x ∈ l, nxt' x = nxt x) : Linked prv' nxt' head l :=
  ⟨h.head_eq, Segment.congr hp hn h.segment, h.nodup⟩

/-! ## Editing a linked list -/

/-- Taking `x` out: the node before it names its successor, the node after it names its
predecessor, and the head moves when `x` was the first node. -/
theorem Linked.unlink [DecidableEq α] {head head' : Option α} {a b : List α} {x : α}
    (h : Linked prv nxt head (a ++ x :: b))
    (hhead : head' = if a = [] then b.head? else head)
    (hnext : ∀ y, y ≠ x → nxt' y = if a.getLast? = some y then b.head? else nxt y)
    (hprev : ∀ y, y ≠ x → prv' y = if b.head? = some y then a.getLast? else prv y) :
    Linked prv' nxt' head' (a ++ b) := by
  obtain ⟨hxa, hxb⟩ := h.notMem_split
  have hnd := h.nodup
  rw [List.nodup_append, List.nodup_cons] at hnd
  obtain ⟨hna, ⟨-, hnb⟩, hdisj⟩ := hnd
  have hab : ∀ y, y ∈ a → y ∉ b := fun y hya hyb =>
    hdisj y hya y (List.mem_cons_of_mem x hyb) rfl
  obtain ⟨hsa, -, -, hsb⟩ := (segment_append none none a (x :: b)).1 h.segment
  refine ⟨?_, ?_, ?_⟩
  · rw [hhead]
    cases a with
    | nil => simp
    | cons y ys => simpa using h.head_eq
  · rw [segment_append]
    constructor
    · -- the last node of `a` is the only one whose successor changes
      refine Segment.setLast hsa hna ?_ ?_ ?_
      · intro y hy
        rw [hprev y (fun e => hxa (e ▸ hy)), if_neg]
        exact fun e => hab y hy (List.mem_of_mem_head? (by simp [e]))
      · intro y hy hl
        rw [hnext y (fun e => hxa (e ▸ hy)), if_pos hl]
        simp
      · intro y hy hl
        rw [hnext y (fun e => hxa (e ▸ hy)), if_neg hl]
    · refine Segment.setHead hsb hnb ?_ ?_ ?_
      · intro y hy
        rw [hnext y (fun e => hxb (e ▸ hy)), if_neg]
        exact fun e => hab y (List.mem_of_getLast? e) hy
      · intro y hy hl
        rw [hprev y (fun e => hxb (e ▸ hy)), if_pos hl]
        simp
      · intro y hy hl
        rw [hprev y (fun e => hxb (e ▸ hy)), if_neg hl]
  · rw [List.nodup_append]
    exact ⟨hna, hnb, fun y hy z hz e => hab y hy (e ▸ hz)⟩

/-- Putting a new node `x` between two parts of a list. -/
theorem Linked.insert [DecidableEq α] {head head' : Option α} {a b : List α} {x : α}
    (h : Linked prv nxt head (a ++ b)) (hx : x ∉ a ++ b)
    (hhead : head' = if a = [] then some x else head)
    (hxp : prv' x = a.getLast?) (hxn : nxt' x = b.head?)
    (hnext : ∀ y, y ≠ x → nxt' y = if a.getLast? = some y then some x else nxt y)
    (hprev : ∀ y, y ≠ x → prv' y = if b.head? = some y then some x else prv y) :
    Linked prv' nxt' head' (a ++ x :: b) := by
  have hxa : x ∉ a := fun hxa => hx (by simp [hxa])
  have hxb : x ∉ b := fun hxb => hx (by simp [hxb])
  have hnd := h.nodup
  rw [List.nodup_append] at hnd
  obtain ⟨hna, hnb, hdisj⟩ := hnd
  have hab : ∀ y, y ∈ a → y ∉ b := fun y hya hyb => hdisj y hya y hyb rfl
  obtain ⟨hsa, hsb⟩ := (segment_append none none a b).1 h.segment
  refine ⟨?_, ?_, ?_⟩
  · rw [hhead]
    cases a with
    | nil => simp
    | cons y ys => simpa using h.head_eq
  · rw [segment_append]
    refine ⟨?_, by simpa using hxp, by simpa using hxn, ?_⟩
    · refine Segment.setLast hsa hna ?_ ?_ ?_
      · intro y hy
        rw [hprev y (fun e => hxa (e ▸ hy)), if_neg]
        exact fun e => hab y hy (List.mem_of_mem_head? (by simp [e]))
      · intro y hy hl
        rw [hnext y (fun e => hxa (e ▸ hy)), if_pos hl]
        simp
      · intro y hy hl
        rw [hnext y (fun e => hxa (e ▸ hy)), if_neg hl]
    · refine Segment.setHead hsb hnb ?_ ?_ ?_
      · intro y hy
        rw [hnext y (fun e => hxb (e ▸ hy)), if_neg]
        exact fun e => hab y (List.mem_of_getLast? e) hy
      · intro y hy hl
        rw [hprev y (fun e => hxb (e ▸ hy)), if_pos hl]
      · intro y hy hl
        rw [hprev y (fun e => hxb (e ▸ hy)), if_neg hl]
  · rw [List.nodup_append, List.nodup_cons]
    refine ⟨hna, ⟨hxb, hnb⟩, ?_⟩
    rintro y hy z hz rfl
    rcases List.mem_cons.mp hz with rfl | hzb
    · exact hxa hy
    · exact hab y hy hzb

end MiniVisor.Lib
