import MiniVisor.Lib.Fault

/-!
# Slices

`index` is the checked read of an element of a slice: a read behind the end is a fault.
-/

set_option autoImplicit false

namespace MiniVisor.Lib

universe u

variable {α : Type u}

/-- The element at a position. -/
def index (slice : List α) (i : Nat) : Except Fault α :=
  match slice[i]? with
  | some a => .ok a
  | none => .error .indexOutOfBounds

theorem index_of_lt [Inhabited α] {slice : List α} {i : Nat} (h : i < slice.length) :
    index slice i = .ok (slice.getD i default) := by
  rw [index, List.getD_eq_getElem?_getD, List.getElem?_eq_getElem h]
  rfl

theorem index_append (before : List α) (a : α) (after : List α) :
    index (before ++ a :: after) before.length = .ok a := by
  rw [index, List.getElem?_append_right le_rfl, Nat.sub_self]
  rfl

end MiniVisor.Lib
