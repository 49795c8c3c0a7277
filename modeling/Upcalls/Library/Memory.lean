import Mathlib.Data.List.Nodup
import Mathlib.Data.List.Perm.Basic
import Mathlib.Logic.Function.Basic

/-! # Block memory

A pointer names an allocated block and an offset into it; pointers into different
blocks never meet. Block 0 is never allocated, so `Ptr.null` is no block's address.
-/

namespace Upcalls.Library

structure Ptr where
  block : ℕ
  off : ℕ
  deriving DecidableEq, Repr

namespace Ptr

def null : Ptr := ⟨0, 0⟩

/-- Pointer arithmetic stays inside the block it starts from. -/
def add (p : Ptr) (n : ℕ) : Ptr := { p with off := p.off + n }

@[simp] theorem add_block (p : Ptr) (n : ℕ) : (p.add n).block = p.block := rfl

@[simp] theorem add_off (p : Ptr) (n : ℕ) : (p.add n).off = p.off + n := rfl

end Ptr

/-- The addresses an allocator answers with: live blocks are pairwise distinct. -/
structure Blocks where
  addr : ℕ → Ptr
  distinct : Function.Injective addr

/-- The first `n` answers. -/
def Blocks.firsts (b : Blocks) (n : ℕ) : List Ptr := (List.range n).map b.addr

@[simp] theorem Blocks.length_firsts (b : Blocks) (n : ℕ) : (b.firsts n).length = n := by
  simp [firsts]

theorem Blocks.nodup_firsts (b : Blocks) (n : ℕ) : (b.firsts n).Nodup :=
  List.Nodup.map b.distinct List.nodup_range

/-! ## Resizing an array -/

section Realloc

variable {α : Type*}

/-- `realloc` keeps the old elements that still fit; `junk` is the indeterminate content
of the added ones. -/
def realloc (old : List α) (n : ℕ) (junk : ℕ → α) : List α :=
  (List.range n).map fun i => old.getD i (junk i)

@[simp] theorem length_realloc (old : List α) (n : ℕ) (junk : ℕ → α) :
    (realloc old n junk).length = n := by
  simp [realloc]

/-- Growing an array leaves its elements where they are. -/
theorem realloc_prefix {old : List α} {n : ℕ} (h : old.length ≤ n) (junk : ℕ → α) :
    old <+: realloc old n junk := by
  refine List.prefix_iff_getElem.mpr ⟨by simpa using h, ?_⟩
  intro i hi
  simp [realloc, List.getD_eq_getElem?_getD, hi]

theorem take_realloc {old : List α} {n k : ℕ} (h : old.length ≤ n) (hk : k ≤ old.length)
    (junk : ℕ → α) : (realloc old n junk).take k = old.take k := by
  obtain ⟨added, hadded⟩ := realloc_prefix h junk
  rw [← hadded, List.take_append_of_le_length hk]

end Realloc

/-! ## An array with a fill count -/

section Fill

variable {α : Type*}

/-- Storing at the fill count and advancing it appends to the filled part. -/
theorem take_succ_set {xs : List α} {n : ℕ} (h : n < xs.length) (a : α) :
    (xs.set n a).take (n + 1) = xs.take n ++ [a] := by
  have hset : n < (xs.set n a).length := by simpa using h
  rw [List.take_add_one, List.getElem?_eq_getElem hset, List.getElem_set_self]
  simp [List.take_set_of_le]

end Fill

/-! ## Taking out an element -/

theorem countP_eraseIdx {α : Type*} (q : α → Bool) {xs : List α} {i : ℕ} {x : α}
    (hx : xs[i]? = some x) :
    xs.countP q = (xs.eraseIdx i).countP q + if q x then 1 else 0 := by
  obtain ⟨hi, rfl⟩ := List.getElem?_eq_some_iff.mp hx
  rw [← (List.getElem_cons_eraseIdx_perm hi).countP_eq q, List.countP_cons]

/-- Different elements count each for themselves. -/
theorem count_add_count_le {α : Type*} [DecidableEq α] {q : α → Bool} {a b : α} (hab : a ≠ b)
    (ha : q a = true) (hb : q b = true) (xs : List α) :
    xs.count a + xs.count b ≤ xs.countP q := by
  induction xs with
  | nil => exact Nat.le_refl 0
  | cons x xs ih =>
      simp only [List.count_cons, List.countP_cons, beq_iff_eq]
      by_cases hxa : x = a
      · subst hxa
        rw [if_pos rfl, if_neg hab, if_pos ha]
        omega
      · rw [if_neg hxa]
        by_cases hxb : x = b
        · subst hxb
          rw [if_pos rfl, if_pos hb]
          omega
        · rw [if_neg hxb]
          omega

end Upcalls.Library
