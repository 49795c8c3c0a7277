import Mathlib.Data.List.TakeWhile
import Upcalls.Library.Printing

/-! # Strings in arrays

The string in an array of bytes ends in front of the first NUL.
-/

namespace Upcalls.Library

def cString (array : List UInt8) : List UInt8 := array.takeWhile (· ≠ 0)

section Strings

variable {array s word : List UInt8}

theorem cString_append_zero (s junk : List UInt8) : cString (s ++ 0 :: junk) = cString s := by
  induction s with
  | nil => rfl
  | cons b s ih =>
      rw [List.cons_append, cString, cString, List.takeWhile_cons, List.takeWhile_cons]
      split
      · exact congrArg _ ih
      · rfl

theorem cString_replicate (k : ℕ) : cString (List.replicate k 0) = [] := by
  cases k <;> rfl

theorem cString_of_not_mem (h : 0 ∉ s) : cString s = s := by
  rw [cString, List.takeWhile_eq_self_iff]
  intro b hb
  exact decide_eq_true (ne_of_mem_of_not_mem hb h)

theorem HasString.cString (h : HasString array s) (hs : 0 ∉ s) : cString array = s := by
  obtain ⟨junk, rfl⟩ := h
  rw [List.append_assoc, List.singleton_append, cString_append_zero, cString_of_not_mem hs]

/-- A word without a NUL is ahead of an array if it is ahead of the string in it. -/
theorem prefix_cString_iff (hword : 0 ∉ word) : word <+: cString s ↔ word <+: s := by
  constructor
  · intro h
    exact h.trans (List.takeWhile_prefix _)
  · rintro ⟨rest, rfl⟩
    have hnonzero : ∀ b ∈ word, decide (b ≠ 0) = true := fun b hb =>
      decide_eq_true (ne_of_mem_of_not_mem hb hword)
    exact ⟨_, (List.takeWhile_append_of_pos hnonzero).symm⟩

/-- What stands behind a word. -/
theorem cString_drop (h : word <+: cString s) :
    cString (s.drop word.length) = (cString s).drop word.length := by
  obtain ⟨rest, hrest⟩ := h
  have hnonzero : ∀ b ∈ word, decide (b ≠ 0) = true := fun b hb =>
    List.mem_takeWhile_imp (p := fun b => decide (b ≠ 0)) (hrest ▸ List.mem_append_left _ hb)
  obtain ⟨tail, htail⟩ : word <+: s := (List.prefix_append word rest).trans
    (hrest ▸ List.takeWhile_prefix _)
  rw [← htail, List.drop_left, cString, cString, List.takeWhile_append_of_pos hnonzero,
    List.drop_left]

end Strings

end Upcalls.Library
