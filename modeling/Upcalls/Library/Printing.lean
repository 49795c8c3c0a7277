import Mathlib.Data.List.Basic
import Mathlib.Data.Nat.Notation

/-! # Printing into an array

`snprintf` into an array of bytes, and lines that are printed one behind the other until
the array is nearly full.
-/

namespace Upcalls.Library

/-! ## `snprintf` -/

/-- The array after `snprintf(&array[off], n, text)`: of the text and its NUL at most `n`
bytes are written, and the last one is a NUL. -/
def snprintf (off n : ℕ) (text array : List UInt8) : List UInt8 :=
  if n = 0 then array
  else
    let text := text.take (n - 1)
    array.take off ++ text ++ [0] ++ array.drop (off + text.length + 1)

/-- The array begins with `text` and its NUL. -/
def HasString (array text : List UInt8) : Prop := text ++ [0] <+: array

section Snprintf

variable {array text added : List UInt8} {off n : ℕ}

theorem length_snprintf (h : off + n ≤ array.length) :
    (snprintf off n text array).length = array.length := by
  rw [snprintf]
  split
  · rfl
  · have htake : (text.take (n - 1)).length ≤ n - 1 := List.length_take_le _ _
    simp only [List.length_append, List.length_take, List.length_drop, List.length_singleton]
    omega

theorem snprintf_of_lt (h : added.length < n) :
    snprintf off n added array =
      array.take off ++ added ++ [0] ++ array.drop (off + added.length + 1) := by
  have htake : added.take (n - 1) = added := List.take_of_length_le (by omega)
  rw [snprintf, if_neg (by omega), htake]

/-- A text that fits is printed behind what the array holds. -/
theorem HasString.print (h : HasString array text)
    (hfit : text.length + added.length < array.length) :
    HasString (snprintf text.length (array.length - text.length) added array)
      (text ++ added) := by
  have htext : array.take text.length = text :=
    (List.prefix_iff_eq_take.mp ((List.prefix_append text [0]).trans h)).symm
  rw [snprintf_of_lt (by omega), htext]
  exact List.prefix_append _ _

/-- A text that fits is printed at the front. -/
theorem hasString_print (hfit : added.length < array.length) :
    HasString (snprintf 0 array.length added array) added := by
  rw [snprintf_of_lt hfit]
  exact List.prefix_append _ _

theorem HasString.take (h : HasString array text) :
    array.take (text.length + 1) = text ++ [0] := by
  have htake := List.prefix_iff_eq_take.mp h
  rw [List.length_append, List.length_singleton] at htake
  exact htake.symm

end Snprintf

/-! ## Until the array is nearly full -/

section Shown

variable {α : Type*}

/-- The lines that are printed behind `c` bytes, when the first one that leads past `limit`
is the last. -/
def shown (limit : ℕ) : ℕ → List (List α) → List (List α)
  | _, [] => []
  | c, l :: ls => if limit < c + l.length then [l] else l :: shown limit (c + l.length) ls

theorem shown_front (limit c : ℕ) (ls : List (List α)) : shown limit c ls <+: ls := by
  induction ls generalizing c with
  | nil => exact List.prefix_rfl
  | cons l ls ih =>
      rw [shown]
      split
      · exact ⟨ls, rfl⟩
      · exact (List.prefix_cons_inj l).mpr (ih _)

theorem shown_ne_nil {limit c : ℕ} {ls : List (List α)} (h : ls ≠ []) :
    shown limit c ls ≠ [] := by
  cases ls with
  | nil => exact (h rfl).elim
  | cons l ls =>
      rw [shown]
      split <;> exact List.cons_ne_nil _ _

/-- Lines are left out only when those that are printed lead past the limit. -/
theorem shown_eq_or_lt (limit c : ℕ) (ls : List (List α)) :
    shown limit c ls = ls ∨ limit < c + (shown limit c ls).flatten.length := by
  induction ls generalizing c with
  | nil => exact .inl rfl
  | cons l ls ih =>
      rw [shown]
      split
      · rename_i hpast
        right
        rwa [List.flatten_singleton]
      · rw [List.flatten_cons, List.length_append, ← Nat.add_assoc]
        rcases ih (c + l.length) with hall | hpast
        · exact .inl (congrArg _ hall)
        · exact .inr hpast

/-- The lines that are printed end in front of `cap` exactly if each line does that begins
up to `limit`. -/
theorem shown_lt_iff {limit cap : ℕ} (hcap : limit < cap) {c : ℕ} (hc : c ≤ limit)
    (ls : List (List α)) :
    c + (shown limit c ls).flatten.length < cap ↔
      ∀ k < ls.length, c + (ls.take k).flatten.length ≤ limit →
        c + (ls.take (k + 1)).flatten.length < cap := by
  induction ls generalizing c with
  | nil =>
      simp only [shown, List.flatten_nil, List.length_nil, Nat.add_zero, Nat.not_lt_zero,
        false_imp_iff, implies_true, iff_true]
      omega
  | cons l ls ih =>
      rw [shown]
      have hsum : ∀ k, c + ((l :: ls).take (k + 1)).flatten.length =
          c + l.length + (ls.take k).flatten.length := by
        intro k
        rw [List.take_succ_cons, List.flatten_cons, List.length_append, Nat.add_assoc]
      constructor
      · intro hlt k hk hle
        rw [hsum]
        split at hlt
        · rename_i hpast
          cases k with
          | zero => simpa using hlt
          | succ k =>
              rw [hsum] at hle
              omega
        · rename_i hpast
          cases k with
          | zero =>
              rw [List.take_zero, List.flatten_nil, List.length_nil]
              omega
          | succ k =>
              rw [hsum] at hle
              rw [List.flatten_cons, List.length_append, ← Nat.add_assoc] at hlt
              exact (ih (Nat.le_of_not_lt hpast)).mp hlt k (Nat.lt_of_succ_lt_succ hk) hle
      · intro hall
        split
        · have hfirst := hall 0 (Nat.zero_lt_succ _) hc
          simpa [hsum] using hfirst
        · rename_i hpast
          rw [List.flatten_cons, List.length_append, ← Nat.add_assoc]
          refine (ih (Nat.le_of_not_lt hpast)).mpr ?_
          intro k hk hle
          have hnext := hall (k + 1) (Nat.succ_lt_succ hk) (by rw [hsum]; exact hle)
          rw [hsum] at hnext
          exact hnext

end Shown

end Upcalls.Library
