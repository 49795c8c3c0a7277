import Mathlib.Algebra.BigOperators.Fin
import Mathlib.Algebra.BigOperators.Group.Finset.Basic
import Mathlib.Data.List.Pairwise

/-! # Histograms as tables

A table has a line for each bucket that is not empty.
-/

namespace Upcalls.Library.Histogram

/-- The lines of the buckets below `len`, as label and count. -/
def table (len : ℕ) (label count : ℕ → ℕ) : List (ℕ × ℕ) :=
  (List.range len).filterMap fun b => if count b ≠ 0 then some (label b, count b) else none

variable {len : ℕ} {label count : ℕ → ℕ}

theorem mem_table {l c : ℕ} :
    (l, c) ∈ table len label count ↔ ∃ b < len, l = label b ∧ c = count b ∧ c ≠ 0 := by
  rw [table, List.mem_filterMap]
  constructor
  · rintro ⟨b, hb, hline⟩
    split at hline
    · rename_i hcount
      cases hline
      exact ⟨b, List.mem_range.mp hb, rfl, rfl, hcount⟩
    · cases hline
  · rintro ⟨b, hb, rfl, rfl, hcount⟩
    exact ⟨b, List.mem_range.mpr hb, if_pos hcount⟩

theorem pairwise_table (h : ∀ a b, a < b → label a < label b) :
    (table len label count).Pairwise (·.1 < ·.1) := by
  rw [table, List.pairwise_filterMap]
  refine (List.pairwise_lt_range).imp ?_
  intro a b hab x hx y hy
  split at hx
  · cases hx
    split at hy
    · cases hy
      exact h a b hab
    · cases hy
  · cases hx

theorem sum_table : ((table len label count).map Prod.snd).sum =
    ∑ b ∈ Finset.range len, count b := by
  induction len with
  | zero => rfl
  | succ len ih =>
      rw [Finset.sum_range_succ, ← ih, table, List.range_succ, List.filterMap_append,
        List.map_append, List.sum_append, ← table]
      congr 1
      by_cases hcount : count len = 0
      · simp [hcount]
      · simp [hcount]

theorem table_congr {count' : ℕ → ℕ} (h : ∀ b < len, count b = count' b) :
    table len label count = table len label count' := by
  refine List.filterMap_congr ?_
  intro b hb
  rw [h b (List.mem_range.mp hb)]

/-- Each item is in one bucket. -/
theorem sum_countP {α : Type*} (bucket : α → ℕ) (xs : List α) (h : ∀ x ∈ xs, bucket x < len) :
    ∑ b ∈ Finset.range len, xs.countP (bucket · = b) = xs.length := by
  induction xs with
  | nil => simp
  | cons x xs ih =>
      have hx : ∑ b ∈ Finset.range len, (if bucket x = b then 1 else 0) = 1 := by
        rw [Finset.sum_ite_eq, if_pos (Finset.mem_range.mpr (h x List.mem_cons_self))]
      simp only [List.countP_cons, decide_eq_true_eq]
      rw [Finset.sum_add_distrib, hx, ih fun y hy => h y (List.mem_cons_of_mem _ hy),
        List.length_cons]

/-- The buckets of several lists together. -/
theorem sum_buckets {α : Type*} {n : ℕ} (bucket : α → ℕ) (xs : Fin n → List α)
    (h : ∀ w, ∀ x ∈ xs w, bucket x < len) :
    ∑ b ∈ Finset.range len, ∑ w, (xs w).countP (bucket · = b) = ∑ w, (xs w).length := by
  rw [Finset.sum_comm]
  exact Finset.sum_congr rfl fun w _ => sum_countP bucket (xs w) (h w)

theorem sum_range_eq {n : ℕ} (f : ℕ → ℕ) : ((List.range n).map f).sum = ∑ w : Fin n, f w := by
  rw [← Finset.sum_range]
  induction n with
  | zero => rfl
  | succ n ih => rw [List.range_succ, List.map_append, List.sum_append, ih,
      Finset.sum_range_succ, List.map_singleton, List.sum_singleton]

end Upcalls.Library.Histogram
