import Mathlib

/-!
# Numerals

The literals `2` and `100` over an arbitrary field rest on a proof that the number is at least
two. The proofs have names here, so that all definitions with such a literal refer to the same one.
-/

namespace Lib

instance atLeastTwo_two : Nat.AtLeastTwo 2 := ⟨le_rfl⟩

instance atLeastTwo_hundred : Nat.AtLeastTwo 100 := ⟨by decide⟩

end Lib
