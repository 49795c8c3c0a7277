import Mathlib.Data.List.Basic
import Mathlib.Data.List.Nodup

/-! # Linked lists

The nodes that `next` leads to from some node, up to `null`.
-/

namespace Upcalls.Library

variable {α : Type*}

def Chain (null : α) (next : α → α) : α → List α → Prop
  | p, [] => p = null
  | p, x :: xs => p = x ∧ x ≠ null ∧ Chain null next (next x) xs

namespace Chain

variable {null p t e : α} {next next' : α → α} {xs ys : List α}

theorem eq_null_iff (h : Chain null next p xs) : p = null ↔ xs = [] := by
  cases xs with
  | nil => exact ⟨fun _ => rfl, fun _ => h⟩
  | cons x xs => simp [h.1, h.2.1]

theorem ne_null (h : Chain null next p xs) {x : α} (hx : x ∈ xs) : x ≠ null := by
  induction xs generalizing p with
  | nil => cases hx
  | cons y xs ih =>
      rcases List.mem_cons.mp hx with rfl | hx
      · exact h.2.1
      · exact ih h.2.2 hx

/-- The first node determines the list. -/
theorem unique (hx : Chain null next p xs) (hy : Chain null next p ys) : xs = ys := by
  induction xs generalizing p ys with
  | nil => exact (hy.eq_null_iff.mp hx).symm
  | cons x xs ih =>
      cases ys with
      | nil => exact hx.eq_null_iff.mp hy
      | cons y ys =>
          have hhead : x = y := hx.1.symm.trans hy.1
          subst hhead
          rw [ih hx.2.2 hy.2.2]

/-- From each of its nodes a list goes on with what is behind the node. -/
theorem drop (h : Chain null next p (xs ++ e :: ys)) : Chain null next e (e :: ys) := by
  induction xs generalizing p with
  | nil =>
      rw [List.nil_append] at h
      exact ⟨rfl, h.2⟩
  | cons x xs ih => exact ih h.2.2

/-- A list that ends has no node twice. -/
theorem nodup (h : Chain null next p xs) : xs.Nodup := by
  induction xs generalizing p with
  | nil => exact .nil
  | cons x xs ih =>
      rw [List.nodup_cons]
      refine ⟨?_, ih h.2.2⟩
      intro hmem
      obtain ⟨before, behind, hsplit⟩ := List.append_of_mem hmem
      have hagain : Chain null next x (x :: behind) := by
        have hrest := h.2.2
        rw [hsplit] at hrest
        exact hrest.drop
      have hsame : x :: xs = x :: behind := unique ⟨rfl, h.2⟩ hagain
      have hlength := congrArg List.length hsame
      rw [hsplit] at hlength
      simp only [List.length_cons, List.length_append] at hlength
      omega

theorem congr (h : Chain null next p xs) (hsame : ∀ x ∈ xs, next' x = next x) :
    Chain null next' p xs := by
  induction xs generalizing p with
  | nil => exact h
  | cons x xs ih =>
      refine ⟨h.1, h.2.1, ?_⟩
      rw [hsame x (by simp)]
      apply ih h.2.2
      intro y hy
      exact hsame y (List.mem_cons_of_mem x hy)

/-- The last node leads nowhere. -/
theorem next_getLast (h : Chain null next p xs) (ht : xs.getLast? = some t) : next t = null := by
  induction xs generalizing p with
  | nil => cases ht
  | cons x xs ih =>
      cases xs with
      | nil =>
          cases ht
          exact h.2.2
      | cons y xs => exact ih h.2.2 ht

/-- A node behind the last one. -/
theorem snoc (h : Chain null next p xs) (ht : xs.getLast? = some t) (hlink : next' t = e)
    (hsame : ∀ x ∈ xs, x ≠ t → next' x = next x) (he : e ≠ null) (hend : next' e = null) :
    Chain null next' p (xs ++ [e]) := by
  have hnodup := h.nodup
  induction xs generalizing p with
  | nil => cases ht
  | cons x xs ih =>
      cases xs with
      | nil =>
          cases ht
          exact ⟨h.1, h.2.1, hlink, he, hend⟩
      | cons y xs =>
          have hne : x ≠ t := by
            intro heq
            rw [heq] at hnodup
            exact (List.nodup_cons.mp hnodup).1 (List.mem_of_getLast? ht)
          refine ⟨h.1, h.2.1, ?_⟩
          rw [hsame x (by simp) hne]
          apply ih h.2.2 ht
          · intro z hz
            exact hsame z (List.mem_cons_of_mem x hz)
          · exact (List.nodup_cons.mp hnodup).2

end Chain

end Upcalls.Library
