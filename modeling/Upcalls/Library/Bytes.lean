import Mathlib.Logic.Function.Basic
import Upcalls.Library.Framing

/-! # Byte memory

A memory of bytes by address. What is stored at some place is loaded from it, and a store
is not seen at any other place.
-/

namespace Upcalls.Library

abbrev ByteMem := ℕ → UInt8

namespace ByteMem

def store (mem : ByteMem) (p : ℕ) : List UInt8 → ByteMem
  | [] => mem
  | b :: bytes => store (Function.update mem p b) (p + 1) bytes

def load (mem : ByteMem) (p : ℕ) : ℕ → List UInt8
  | 0 => []
  | n + 1 => mem p :: load mem (p + 1) n

variable {mem mem' : ByteMem} {p q n : ℕ} {bytes : List UInt8}

theorem store_of_lt {a : ℕ} (h : a < p) : store mem p bytes a = mem a := by
  induction bytes generalizing mem p with
  | nil => rfl
  | cons b bytes ih =>
      rw [store, ih (Nat.lt_succ_of_lt h), Function.update_of_ne (Nat.ne_of_lt h)]

theorem store_of_ge {a : ℕ} (h : p + bytes.length ≤ a) : store mem p bytes a = mem a := by
  induction bytes generalizing mem p with
  | nil => rfl
  | cons b bytes ih =>
      simp only [List.length_cons] at h
      rw [store, ih (by omega), Function.update_of_ne (by omega)]

theorem load_congr (h : ∀ a, p ≤ a → a < p + n → mem a = mem' a) :
    load mem p n = load mem' p n := by
  induction n generalizing p with
  | zero => rfl
  | succ n ih =>
      rw [load, load, h p (Nat.le_refl p) (by omega), ih]
      intro a ha hlt
      exact h a (by omega) (by omega)

@[simp] theorem load_store_self : load (store mem p bytes) p bytes.length = bytes := by
  induction bytes generalizing mem p with
  | nil => rfl
  | cons b bytes ih =>
      rw [List.length_cons, load, store, ih, store_of_lt (Nat.lt_succ_self p),
        Function.update_self]

theorem load_store_take {k : ℕ} (h : k ≤ bytes.length) :
    load (store mem p bytes) p k = bytes.take k := by
  induction bytes generalizing mem p k with
  | nil =>
      cases Nat.le_zero.mp h
      rfl
  | cons b bytes ih =>
      cases k with
      | zero => rfl
      | succ k =>
          rw [load, store, ih (Nat.le_of_succ_le_succ h), store_of_lt (Nat.lt_succ_self p),
            Function.update_self, List.take_succ_cons]

/-- A store is not seen in front of it or behind it. -/
theorem load_store_of_disjoint (h : q + n ≤ p ∨ p + bytes.length ≤ q) :
    load (store mem p bytes) q n = load mem q n := by
  apply load_congr
  intro a hle hlt
  rcases h with h | h
  · exact store_of_lt (by omega)
  · exact store_of_ge (by omega)

/-! ## Words -/

/-- Store the lowest `w` bytes of a number. -/
def storeWord (w : ℕ) (mem : ByteMem) (p v : ℕ) : ByteMem := store mem p (littleEndian w v)

def loadWord (w : ℕ) (mem : ByteMem) (p : ℕ) : ℕ := ofLittleEndian (load mem p w)

variable {w w' v : ℕ}

theorem loadWord_storeWord_self : loadWord w (storeWord w mem p v) p = v % 256 ^ w := by
  have hload : load (store mem p (littleEndian w v)) p (littleEndian w v).length =
      littleEndian w v := load_store_self
  rw [length_littleEndian] at hload
  rw [loadWord, storeWord, hload, ofLittleEndian_littleEndian]

theorem loadWord_storeWord_of_disjoint (h : q + w' ≤ p ∨ p + w ≤ q) :
    loadWord w' (storeWord w mem p v) q = loadWord w' mem q := by
  rw [loadWord, storeWord, load_store_of_disjoint (by simpa using h), loadWord]

theorem storeWord_of_outside {a : ℕ} (h : a < p ∨ p + w ≤ a) : storeWord w mem p v a = mem a := by
  rcases h with h | h
  · exact store_of_lt h
  · exact store_of_ge (by simpa using h)

end ByteMem

end Upcalls.Library
