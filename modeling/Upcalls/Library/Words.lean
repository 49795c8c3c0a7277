import Mathlib.Algebra.Group.Nat.Defs
import Mathlib.Data.Nat.Notation

/-! # Numbers of 64 bits -/

namespace Upcalls.Library

/-- Subtraction on `size_t`. -/
def sub64 (a b : ℕ) : ℕ := (a + 2 ^ 64 - b) % 2 ^ 64

/-- The largest value of an eventfd counter. -/
def eventfdMax : ℕ := 2 ^ 64 - 2

section Words

variable {a b k : ℕ}

theorem sub64_eq (h : b ≤ a) (ha : a < 2 ^ 64) : sub64 a b = a - b := by
  have hsum : a + 2 ^ 64 - b = a - b + 2 ^ 64 := by omega
  rw [sub64, hsum, Nat.add_mod_right, Nat.mod_eq_of_lt (by omega)]

theorem sub64_eq_of_add (h : k + b = a) (ha : a < 2 ^ 64) : sub64 a b = k := by
  rw [sub64_eq (Nat.le.intro ((Nat.add_comm b k).trans h)) ha]
  exact Nat.sub_eq_of_eq_add h.symm

end Words

end Upcalls.Library
