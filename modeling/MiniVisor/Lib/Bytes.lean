import Mathlib

/-!
# Byte-addressed memory

A memory gives the byte at each address. `beNat` is the big-endian number of any bytes; a number
that is written as bytes loses its upper bits (`beNat_be32_mod`, `beNat_be16_mod`). `readLe` reads
little-endian words of any length.
-/

set_option autoImplicit false

namespace MiniVisor.Lib

abbrev Memory := Nat → UInt8

/-- A word in big-endian order. -/
def be32 (n : Nat) : List UInt8 :=
  [UInt8.ofNat (n / 2 ^ 24), UInt8.ofNat (n / 2 ^ 16), UInt8.ofNat (n / 2 ^ 8), UInt8.ofNat n]

/-- The number that some bytes are in big-endian order. -/
def beNat (l : List UInt8) : Nat := l.foldl (fun n x => n * 256 + x.toNat) 0

@[simp] theorem beNat_concat (l : List UInt8) (x : UInt8) :
    beNat (l ++ [x]) = beNat l * 256 + x.toNat := by
  unfold beNat
  rw [List.foldl_append]
  rfl

theorem beNat_lt (l : List UInt8) : beNat l < 256 ^ l.length := by
  induction l using List.reverseRecOn with
  | nil => exact Nat.one_pos
  | append_singleton l x ih =>
    have hbyte := x.toNat_lt
    rw [beNat_concat, List.length_append, List.length_singleton, Nat.pow_succ]
    omega

theorem beNat_take_lt (l : List UInt8) (n : Nat) : beNat (l.take n) < 256 ^ n :=
  (beNat_lt _).trans_le (Nat.pow_le_pow_right (by decide) (List.length_take_le n l))

/-- A number of more than 32 bits loses the upper ones. -/
theorem beNat_be32_mod (n : Nat) : beNat (be32 n) = n % 2 ^ 32 := by
  unfold beNat be32
  simp only [List.foldl_cons, List.foldl_nil, UInt8.toNat_ofNat']
  omega

theorem beNat_be32 {n : Nat} (h : n < 2 ^ 32) : beNat (be32 n) = n :=
  (beNat_be32_mod n).trans (Nat.mod_eq_of_lt h)

/-- A half word in big-endian order. -/
def be16 (n : Nat) : List UInt8 := [UInt8.ofNat (n / 2 ^ 8), UInt8.ofNat n]

theorem beNat_be16_mod (n : Nat) : beNat (be16 n) = n % 2 ^ 16 := by
  unfold beNat be16
  simp only [List.foldl_cons, List.foldl_nil, UInt8.toNat_ofNat']
  omega

/-- A word in little-endian order. -/
def le32 (n : Nat) : List UInt8 := (be32 n).reverse

/-- The number that some bytes are in little-endian order. -/
def leNat (l : List UInt8) : Nat := beNat l.reverse

theorem leNat_le32 {n : Nat} (h : n < 2 ^ 32) : leNat (le32 n) = n := by
  unfold leNat le32
  rw [List.reverse_reverse]
  exact beNat_be32 h

/-- The memory with the given bytes, and zeros elsewhere. -/
def ofBytes (bytes : List (Nat × UInt8)) : Memory := fun a => (bytes.lookup a).getD 0

/-- The little-endian word of some bytes at an address. -/
def readLe (m : Memory) : Nat → Nat → Nat
  | 0, _ => 0
  | n + 1, a => (m a).toNat + 256 * readLe m n (a + 1)

theorem readLe_lt (m : Memory) (n a : Nat) : readLe m n a < 256 ^ n := by
  induction n generalizing a with
  | zero => exact Nat.one_pos
  | succ n ih =>
    have hbyte := (m a).toNat_lt
    have hrest := ih (a + 1)
    rw [readLe, Nat.pow_succ]
    omega

end MiniVisor.Lib
