import Mathlib

/-!
# Numerals of small finite types

The numerals of `Fin n` need that `n` is not zero. For the sizes that the models use, the fact has a
name, so that a definition with such a numeral holds no proof of its own.
-/

set_option autoImplicit false

namespace MiniVisor.Lib

instance neZeroTwo : NeZero 2 := ⟨by decide⟩

instance neZeroEight : NeZero 8 := ⟨by decide⟩

end MiniVisor.Lib
