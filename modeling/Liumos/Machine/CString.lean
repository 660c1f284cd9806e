/-
C strings: a text in which the terminator does not occur, and such a text in memory with the terminator behind
it.
-/
import Mathlib.Data.List.Basic

namespace Liumos

/-- The text of a C string. -/
structure CString {α : Type} (nul : α) where
  text : List α
  nul_notMem : nul ∉ text

/-- The string that the address `p` points to is `w`. -/
structure CStringAt {α : Type} (nul : α) (buf : Nat → α) (p : Nat) (w : List α) : Prop where
  nul_notMem : nul ∉ w
  char : ∀ i c, w[i]? = some c → buf (p + i) = c
  stop : buf (p + w.length) = nul

end Liumos
