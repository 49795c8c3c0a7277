import Mathlib.Data.List.Basic
import Mathlib.Data.Nat.Notation
import Mathlib.Tactic.Ring

/-! # Length-prefixed frames

A body behind its length, and what a receiver takes for the body when it has only a part of
the length.
-/

namespace Upcalls.Library

/-! ## Little-endian numbers -/

/-- The lowest `w` digits of `n` to base 256, the lowest first. -/
def littleEndian : ℕ → ℕ → List UInt8
  | 0, _ => []
  | w + 1, n => UInt8.ofNat n :: littleEndian w (n / 256)

def ofLittleEndian : List UInt8 → ℕ
  | [] => 0
  | b :: bytes => b.toNat + 256 * ofLittleEndian bytes

@[simp] theorem length_littleEndian (w n : ℕ) : (littleEndian w n).length = w := by
  induction w generalizing n with
  | zero => rfl
  | succ w ih => rw [littleEndian, List.length_cons, ih]

theorem littleEndian_add (v w n : ℕ) :
    littleEndian (v + w) n = littleEndian v n ++ littleEndian w (n / 256 ^ v) := by
  induction v generalizing n with
  | zero => simp [littleEndian]
  | succ v ih =>
      rw [Nat.succ_add, littleEndian, littleEndian, ih, List.cons_append, Nat.div_div_eq_div_mul,
        Nat.pow_succ']

theorem ofLittleEndian_littleEndian (w n : ℕ) :
    ofLittleEndian (littleEndian w n) = n % 256 ^ w := by
  induction w generalizing n with
  | zero => rw [Nat.pow_zero, Nat.mod_one]; rfl
  | succ w ih =>
      have hbyte : (UInt8.ofNat n).toNat = n % 256 := UInt8.toNat_ofNat'
      rw [littleEndian, ofLittleEndian, ih, hbyte, Nat.pow_succ' (n := w), Nat.mod_mul]

theorem ofLittleEndian_append (xs ys : List UInt8) :
    ofLittleEndian (xs ++ ys) = ofLittleEndian xs + 256 ^ xs.length * ofLittleEndian ys := by
  induction xs with
  | nil => simp [ofLittleEndian]
  | cons x xs ih =>
      rw [List.cons_append, ofLittleEndian, ih, ofLittleEndian, List.length_cons, Nat.pow_succ']
      ring

/-- A number with a last digit that is not 0 is as large as its digits allow. -/
theorem le_ofLittleEndian (bytes : List UInt8) {b : UInt8} (hb : b ≠ 0) :
    256 ^ bytes.length ≤ ofLittleEndian (bytes ++ [b]) := by
  have hpos : 1 ≤ b.toNat := Nat.one_le_iff_ne_zero.mpr fun h => hb (UInt8.toNat_inj.mp h)
  rw [ofLittleEndian_append, ofLittleEndian, ofLittleEndian, Nat.mul_zero, Nat.add_zero]
  calc 256 ^ bytes.length ≤ 256 ^ bytes.length * b.toNat := Nat.le_mul_of_pos_right _ hpos
    _ ≤ _ := Nat.le_add_left _ _

/-! ## Frames -/

def frame (w : ℕ) (body : List UInt8) : List UInt8 := littleEndian w body.length ++ body

/-- What comes out for the body when the first `k` bytes are taken for the length. -/
def unframe (k : ℕ) (bytes : List UInt8) : List UInt8 :=
  (bytes.drop k).take (ofLittleEndian (bytes.take k))

section Frame

variable {w k : ℕ} {body : List UInt8}

theorem frame_split (hk : k ≤ w) :
    frame w body = littleEndian k body.length ++
      (littleEndian (w - k) (body.length / 256 ^ k) ++ body) := by
  obtain ⟨v, rfl⟩ := Nat.exists_eq_add_of_le hk
  rw [frame, littleEndian_add, List.append_assoc, Nat.add_sub_cancel_left]

theorem take_frame (hk : k ≤ w) : (frame w body).take k = littleEndian k body.length := by
  rw [frame_split hk]
  exact List.take_left' (length_littleEndian k _)

theorem drop_frame (hk : k ≤ w) :
    (frame w body).drop k = littleEndian (w - k) (body.length / 256 ^ k) ++ body := by
  rw [frame_split hk]
  exact List.drop_left' (length_littleEndian k _)

theorem ofLittleEndian_take_frame (hk : k ≤ w) :
    ofLittleEndian ((frame w body).take k) = body.length % 256 ^ k := by
  rw [take_frame hk, ofLittleEndian_littleEndian]

/-- The receiver never waits for more than is sent. -/
theorem ofLittleEndian_take_frame_le (hk : k ≤ w) :
    ofLittleEndian ((frame w body).take k) ≤ ((frame w body).drop k).length := by
  rw [ofLittleEndian_take_frame hk, drop_frame hk, List.length_append]
  exact (Nat.mod_le _ _).trans (Nat.le_add_left _ _)

theorem length_unframe (hk : k ≤ w) :
    (unframe k (frame w body)).length = body.length % 256 ^ k := by
  rw [unframe, List.length_take, Nat.min_eq_left (ofLittleEndian_take_frame_le hk),
    ofLittleEndian_take_frame hk]

theorem unframe_frame (hbody : body.length < 256 ^ w) : unframe w (frame w body) = body := by
  rw [unframe, ofLittleEndian_take_frame (Nat.le_refl w), drop_frame (Nat.le_refl w),
    Nat.mod_eq_of_lt hbody, Nat.sub_self, littleEndian, List.nil_append, List.take_length]

/-- With a part of the length, what comes out is never the body: it begins with the rest of
the length. -/
theorem unframe_frame_ne {b : UInt8} {rest : List UInt8} (hk : k < w) (hbody : body = b :: rest)
    (hb : b ≠ 0) : unframe k (frame w body) ≠ body := by
  intro h
  have hmod : body.length % 256 ^ k = body.length := by
    rw [← length_unframe (Nat.le_of_lt hk), h]
  have hdiv : body.length / 256 ^ k = 0 := by
    apply Nat.div_eq_of_lt
    rw [← hmod]
    exact Nat.mod_lt _ (Nat.pow_pos (by decide))
  obtain ⟨v, hv⟩ := Nat.exists_eq_add_of_lt hk
  have hmore : w - k = v + 1 := by omega
  rw [unframe, ofLittleEndian_take_frame (Nat.le_of_lt hk), drop_frame (Nat.le_of_lt hk), hmod,
    hdiv, hmore, littleEndian, hbody, List.length_cons, List.cons_append, List.take_succ_cons] at h
  exact hb (List.cons.inj h).1.symm

end Frame

end Upcalls.Library
