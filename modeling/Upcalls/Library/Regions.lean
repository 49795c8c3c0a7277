import Mathlib.Algebra.Group.Nat.Defs
import Mathlib.Data.List.Basic
import Mathlib.Data.Nat.Notation

/-! # Regions of an address space

Regions that are laid out one behind the other, objects that an allocator keeps apart, and
the masks that round an address down.
-/

namespace Upcalls.Library

structure Region where
  start : ℕ
  size : ℕ
  deriving DecidableEq, Repr

namespace Region

/-- The first address behind the region. -/
def stop (r : Region) : ℕ := r.start + r.size

def Disjoint (r r' : Region) : Prop := r.stop ≤ r'.start ∨ r'.stop ≤ r.start

instance (r r' : Region) : Decidable (r.Disjoint r') :=
  inferInstanceAs (Decidable (r.stop ≤ r'.start ∨ r'.stop ≤ r.start))

def Contains (r : Region) (a : ℕ) : Prop := r.start ≤ a ∧ a < r.stop

/-- The region lies inside of `[a, b)`. -/
def Within (a b : ℕ) (r : Region) : Prop := a ≤ r.start ∧ r.stop ≤ b

theorem Within.mono {a b c d : ℕ} {r : Region} (h : r.Within b c) (hab : a ≤ b) (hcd : c ≤ d) :
    r.Within a d :=
  ⟨Nat.le_trans hab h.1, Nat.le_trans h.2 hcd⟩

end Region

/-- The regions fill `[a, b)` in their order, without gaps. -/
def Tiles : ℕ → List Region → ℕ → Prop
  | a, [], b => a = b
  | a, r :: rs, b => r.start = a ∧ Tiles r.stop rs b

variable {a b : ℕ} {rs : List Region}

theorem Tiles.le (h : Tiles a rs b) : a ≤ b := by
  induction rs generalizing a with
  | nil => exact Nat.le_of_eq h
  | cons r rs ih =>
      have hrest := ih h.2
      have hstart := h.1
      simp only [Region.stop] at hrest
      omega

theorem Tiles.snoc (h : Tiles a rs b) (size : ℕ) : Tiles a (rs ++ [⟨b, size⟩]) (b + size) := by
  induction rs generalizing a with
  | nil => exact ⟨h.symm, rfl⟩
  | cons r rs ih => exact ⟨h.1, ih h.2⟩

theorem Tiles.within (h : Tiles a rs b) {r : Region} (hr : r ∈ rs) : r.Within a b := by
  induction rs generalizing a with
  | nil => cases hr
  | cons r' rs ih =>
      have hstart := h.1
      rcases List.mem_cons.mp hr with rfl | hr
      · exact ⟨Nat.le_of_eq hstart.symm, h.2.le⟩
      · apply (ih h.2 hr).mono _ (Nat.le_refl b)
        simp only [Region.stop]
        omega

theorem Tiles.pairwise (h : Tiles a rs b) : rs.Pairwise fun r r' => r.stop ≤ r'.start := by
  induction rs generalizing a with
  | nil => exact .nil
  | cons r rs ih =>
      apply List.Pairwise.cons
      · intro r' hr'
        exact (h.2.within hr').1
      · exact ih h.2

theorem Tiles.disjoint (h : Tiles a rs b) : rs.Pairwise Region.Disjoint :=
  h.pairwise.imp Or.inl

/-! ## Objects -/

/-- Where the objects are: `k` has `size k` bytes from `place k` on, and no two objects
share a byte. -/
structure Placement {κ : Type*} (size : κ → ℕ) where
  place : κ → ℕ
  apart : ∀ {k k'}, k ≠ k' → Region.Disjoint ⟨place k, size k⟩ ⟨place k', size k'⟩

namespace Placement

variable {κ : Type*} {size : κ → ℕ} (P : Placement size)

def extent (k : κ) : Region := ⟨P.place k, size k⟩

/-- The `len` bytes at the offset `off` of `k`, which may lie behind its end. -/
def slice (k : κ) (off len : ℕ) : Region := ⟨P.place k + off, len⟩

/-- A slice of one object meets no other object. -/
theorem slice_disjoint {k k' : κ} (hne : k ≠ k') {off len : ℕ} (h : off + len ≤ size k) :
    (P.slice k off len).Disjoint (P.extent k') := by
  have hapart := P.apart hne
  simp only [Region.Disjoint, Region.stop, slice, extent] at hapart ⊢
  omega

end Placement

/-! ## Masks -/

/-- The mask that clears the lowest `k` of `w` bits rounds down. -/
theorem and_mask {x k w : ℕ} (hx : x < 2 ^ w) (hk : k ≤ w) :
    x &&& (2 ^ w - 1 - (2 ^ k - 1)) = x / 2 ^ k * 2 ^ k := by
  have hmask : 2 ^ w - 1 - (2 ^ k - 1) = 2 ^ k * (2 ^ (w - k) - 1) := by
    rw [Nat.mul_sub, ← Nat.pow_add, Nat.add_sub_cancel' hk, Nat.mul_one]
    have hpos := Nat.two_pow_pos k
    omega
  apply Nat.eq_of_testBit_eq
  intro i
  rw [hmask, Nat.mul_comm (x / 2 ^ k), Nat.testBit_and, Nat.testBit_two_pow_mul,
    Nat.testBit_two_pow_mul, Nat.testBit_two_pow_sub_one, Nat.testBit_div_two_pow]
  by_cases hi : k ≤ i
  · by_cases hw : i < w
    · have hlt : i - k < w - k := by omega
      simp [hi, hlt]
    · have hfalse : x.testBit i = false :=
        Nat.testBit_lt_two_pow (Nat.lt_of_lt_of_le hx (Nat.pow_le_pow_right (by decide) (by omega)))
      simp [hi, hfalse]
  · simp [hi]

end Upcalls.Library
