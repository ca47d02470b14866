import Mathlib

/-!
# Circular buffers

A buffer of `n` slots is a function of the index. `ringContents` are the elements from a head on,
around the end of the buffer. An element that is put behind the last one is the last one of the
contents (`ringContents_push`), and the element at the head is the first one (`ringContents_pop`).
-/

set_option autoImplicit false

namespace MiniVisor.Lib

universe u

variable {α : Type u} {n : Nat}

/-- The `len` elements of a circular buffer of `n` slots from `head` on. -/
def ringContents (n : Nat) (buffer : Nat → α) (head len : Nat) : List α :=
  (List.range len).map fun i => buffer ((head + i) % n)

@[simp] theorem length_ringContents (buffer : Nat → α) (head len : Nat) :
    (ringContents n buffer head len).length = len := by
  rw [ringContents, List.length_map, List.length_range]

/-- The slot behind the last element is not one of the others while there is room. -/
theorem ringContents_push {buffer : Nat → α} {head len : Nat} (hroom : len < n) (x : α) :
    ringContents n (Function.update buffer ((head + len) % n) x) head (len + 1) =
      ringContents n buffer head len ++ [x] := by
  have hother : ∀ i < len, (head + i) % n ≠ (head + len) % n := by
    intro i hi heq
    have hcongr : i ≡ len [MOD n] := Nat.ModEq.add_left_cancel' head heq
    rw [Nat.ModEq, Nat.mod_eq_of_lt (hi.trans hroom), Nat.mod_eq_of_lt hroom] at hcongr
    exact hi.ne hcongr
  rw [ringContents, List.range_succ, List.map_append, List.map_singleton, Function.update_self]
  congr 1
  refine List.map_congr_left fun i hi => ?_
  exact Function.update_of_ne (hother i (List.mem_range.1 hi)) _ _

theorem ringContents_pop {buffer : Nat → α} {head len : Nat} (hhead : head < n) :
    ringContents n buffer head (len + 1) =
      buffer head :: ringContents n buffer ((head + 1) % n) len := by
  have hslot : ∀ i, (head + (i + 1)) % n = ((head + 1) % n + i) % n := by
    intro i
    rw [Nat.mod_add_mod, Nat.add_assoc, Nat.add_comm 1 i]
  rw [ringContents, List.range_succ_eq_map, List.map_cons, List.map_map, Nat.add_zero,
    Nat.mod_eq_of_lt hhead]
  congr 1
  refine List.map_congr_left fun i _ => ?_
  show buffer ((head + (i + 1)) % n) = _
  rw [hslot]

end MiniVisor.Lib
