import MiniVisor.Lib.Numerals

/-!
# Computations that can fault

A program compiled with overflow checks stops on a failed assertion, on an arithmetic overflow, on
an array index out of bounds, on the `unwrap` of an absent value, on a division by zero and on the
use of a null or misaligned pointer; a loop may also run forever.
`Except Fault` is the monad of such computations. A model of a loop takes fuel, and running out of
it is the fault `outOfFuel`, so a theorem that a computation ends in `Except.ok` says both that no
check fires and that every loop ends.

`checkedAdd` and `checkedSub` are the checked operations on a 64-bit unsigned word.
-/

set_option autoImplicit false

namespace MiniVisor.Lib

universe u v

/-- Why a computation stops without a result. -/
inductive Fault where
  | assertion
  | overflow
  | indexOutOfBounds
  | unwrapNone
  | divisionByZero
  | nullPointer
  | misaligned
  | outOfFuel
  deriving DecidableEq, Repr

/-- The number of values of a 64-bit word. -/
def wordSize : Nat := 2 ^ 64

/-- `a + b`, or a fault when the sum does not fit a 64-bit word. -/
def checkedAdd (a b : Nat) : Except Fault Nat :=
  if a + b < wordSize then .ok (a + b) else .error .overflow

/-- `a - b`, or a fault when `b` is larger than `a`. -/
def checkedSub (a b : Nat) : Except Fault Nat :=
  if b ≤ a then .ok (a - b) else .error .overflow

/-- The computation ends in a value. -/
def Succeeds {α : Type u} (x : Except Fault α) : Prop := ∃ a, x = .ok a

/-- The value of an `assert!`. -/
def assertThat (b : Bool) : Except Fault Unit :=
  if b then .ok () else .error .assertion

theorem checkedAdd_eq {a b : Nat} (h : a + b < wordSize) : checkedAdd a b = .ok (a + b) :=
  if_pos h

theorem checkedSub_eq {a b : Nat} (h : b ≤ a) : checkedSub a b = .ok (a - b) :=
  if_pos h

theorem eq_of_checkedAdd {a b c : Nat} (h : checkedAdd a b = .ok c) : c = a + b := by
  unfold checkedAdd at h
  split_ifs at h
  cases h
  rfl

theorem eq_of_checkedSub {a b c : Nat} (h : checkedSub a b = .ok c) : a = c + b := by
  unfold checkedSub at h
  split_ifs at h with hle
  cases h
  exact (Nat.sub_add_cancel hle).symm

@[simp] theorem assertThat_true : assertThat true = .ok () := rfl

@[simp] theorem assertThat_false : assertThat false = .error .assertion := rfl

section Bind

variable {α : Type u} {β : Type u}

@[simp] theorem ok_bind (a : α) (f : α → Except Fault β) : (Except.ok a >>= f) = f a := rfl

@[simp] theorem error_bind (e : Fault) (f : α → Except Fault β) :
    ((Except.error e : Except Fault α) >>= f) = Except.error e := rfl

/-- A bind that ends in a value went through a value of its first part. -/
theorem bind_eq_ok {x : Except Fault α} {f : α → Except Fault β} {b : β} :
    (x >>= f) = .ok b ↔ ∃ a, x = .ok a ∧ f a = .ok b := by
  cases x with
  | error e => simp
  | ok a => simp

@[simp] theorem succeeds_ok (a : α) : Succeeds (.ok a) := ⟨a, rfl⟩

@[simp] theorem not_succeeds_error (e : Fault) : ¬Succeeds (.error e : Except Fault α) :=
  fun ⟨_, h⟩ => nomatch h

/-- A bind succeeds when its first part does and its second part does on the value. -/
theorem succeeds_bind {x : Except Fault α} {f : α → Except Fault β} :
    Succeeds (x >>= f) ↔ ∃ a, x = .ok a ∧ Succeeds (f a) := by
  cases x with
  | error e => simp
  | ok a => simp

end Bind

/-- A computation whose first result is known has a second one. -/
theorem exists_of_map_fst {α β ε : Type} {x : Except ε (α × β)} {r : α}
    (h : x.map Prod.fst = .ok r) : ∃ b, x = .ok (r, b) := by
  cases x with
  | error fault => cases h
  | ok o =>
    cases h
    exact ⟨o.2, rfl⟩

theorem toOption_eq_some {α ε : Type} {x : Except ε α} {a : α} (h : x.toOption = some a) :
    x = .ok a := by
  cases x with
  | error e => cases h
  | ok b =>
    cases h
    rfl

end MiniVisor.Lib
