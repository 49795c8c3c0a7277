import Mathlib.Data.List.Basic
import Mathlib.Data.Nat.Notation
import Mathlib.Order.Lattice

/-! # Work in batches

Some number of items is worked on in batches of a fixed size. The last batch may be shorter.
-/

namespace Upcalls.Library

/-- The batches that are closed, and the items of the open one. -/
structure Batches (α : Type*) where
  past : List (List α)
  cur : Option (List α)

namespace Batches

variable {α : Type*} {b total : ℕ} {w w' : Batches α}

/-- The items of the closed batches. -/
def before (w : Batches α) : ℕ := w.past.flatten.length

def count (w : Batches α) : ℕ := w.before + (w.cur.getD []).length

inductive Step (b total : ℕ) : Batches α → Batches α → Prop
  | start {past} : past.flatten.length < total → Step b total ⟨past, none⟩ ⟨past, some []⟩
  | item {past xs} (x : α) : xs.length + 1 ≠ b → past.flatten.length + xs.length + 1 ≠ total →
      Step b total ⟨past, some xs⟩ ⟨past, some (xs ++ [x])⟩
  | last {past xs} (x : α) :
      xs.length + 1 = b ∨ past.flatten.length + xs.length + 1 = total →
      Step b total ⟨past, some xs⟩ ⟨past ++ [xs ++ [x]], none⟩

/-- A closed batch has as many items as fit in it or as were left when it was begun, and an
open one has fewer. -/
structure Ok (b total : ℕ) (w : Batches α) : Prop where
  sizes : ∀ {pre batch post}, w.past = pre ++ batch :: post →
    batch.length = min b (total - pre.flatten.length)
  pos : ∀ batch ∈ w.past, 1 ≤ batch.length
  cur : ∀ {xs}, w.cur = some xs → xs.length < min b (total - w.before)
  le : w.before ≤ total

theorem ok_start : Ok b total (⟨[], none⟩ : Batches α) where
  sizes h := by simp at h
  pos batch h := by cases h
  cur h := by cases h
  le := Nat.zero_le total

theorem Step.ok (hb : 1 ≤ b) (h : Step b total w w') (hw : w.Ok b total) : w'.Ok b total := by
  have hcur : ∀ xs, w.cur = some xs → xs.length < min b (total - w.before) := fun _ h => hw.cur h
  cases h with
  | @start past hlt =>
      refine ⟨hw.sizes, hw.pos, ?_, hw.le⟩
      intro xs hxs
      cases hxs
      simp only [before, List.length_nil]
      omega
  | @item past xs x hb' htotal =>
      have hlt := hcur xs rfl
      refine ⟨hw.sizes, hw.pos, ?_, hw.le⟩
      intro ys hys
      cases hys
      simp only [before, List.length_append, List.length_singleton] at hlt ⊢
      omega
  | @last past xs x hlast =>
      have hlt := hcur xs rfl
      simp only [before] at hlt
      refine ⟨?_, ?_, ?_, ?_⟩
      · intro pre batch post hpast
        rcases List.eq_nil_or_concat post with rfl | ⟨post, z, rfl⟩
        · obtain ⟨rfl, hbatch⟩ := List.append_inj' hpast rfl
          cases List.singleton_inj.mp hbatch
          rw [List.length_append, List.length_singleton]
          omega
        · rw [List.concat_eq_append, ← List.cons_append, ← List.append_assoc] at hpast
          obtain ⟨hpre, -⟩ := List.append_inj' hpast rfl
          exact hw.sizes hpre
      · intro batch hbatch
        rcases List.mem_append.mp hbatch with hbatch | hbatch
        · exact hw.pos batch hbatch
        · rw [List.mem_singleton.mp hbatch, List.length_append, List.length_singleton]
          omega
      · intro ys hys
        cases hys
      · simp only [before, List.flatten_append, List.length_append, List.flatten_singleton,
          List.length_singleton]
        omega

/-- Only the very last batch is not full. -/
theorem Ok.full (hw : w.Ok b total) {pre post : List (List α)} {batch : List α}
    (h : w.past = pre ++ batch :: post) (hmore : post ≠ [] ∨ w.before < total) :
    batch.length = b := by
  have hsize := hw.sizes h
  have hbefore : w.before = pre.flatten.length + batch.length + post.flatten.length := by
    simp only [before, h, List.flatten_append, List.flatten_cons, List.length_append]
    omega
  rcases hmore with hpost | hlt
  · cases post with
    | nil => exact (hpost rfl).elim
    | cons z post =>
        have hz := hw.sizes (show w.past = (pre ++ [batch]) ++ z :: post by simp [h])
        have hpos := hw.pos z (by simp [h])
        simp only [List.flatten_append, List.length_append, List.flatten_singleton] at hz
        omega
  · omega

theorem Ok.le_size (hw : w.Ok b total) {batch : List α} (h : batch ∈ w.past) :
    batch.length ≤ b := by
  obtain ⟨pre, post, hpast⟩ := List.append_of_mem h
  rw [hw.sizes hpast]
  exact Nat.min_le_left _ _

end Batches

end Upcalls.Library
