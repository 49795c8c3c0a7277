import Mathlib.Algebra.Group.Nat.Defs
import Mathlib.Data.Int.Notation
import Mathlib.Data.List.Basic
import Mathlib.Data.Nat.Notation

/-! # Numerals

Numbers as decimal digits in ASCII, and how they are read back.
-/

namespace Upcalls.Library

/-! ## Characters -/

def tab : UInt8 := 9

def newline : UInt8 := 10

def space : UInt8 := 32

def comma : UInt8 := 44

theorem newline_ne_tab : newline ≠ tab := by decide

def ascii (s : String) : List UInt8 := s.toUTF8.data.toList

def isDigit (b : UInt8) : Bool := 48 ≤ b.toNat ∧ b.toNat ≤ 57

theorem toNat_of_isDigit {c : Char} (h : c.isDigit = true) :
    48 ≤ c.toNat ∧ c.toNat ≤ 57 ∧ (UInt8.ofNat c.toNat).toNat = c.toNat := by
  simp only [Char.isDigit, Bool.and_eq_true, decide_eq_true_eq] at h
  have hlow : 48 ≤ c.toNat := UInt32.le_iff_toNat_le.mp h.1
  have hhigh : c.toNat ≤ 57 := UInt32.le_iff_toNat_le.mp h.2
  refine ⟨hlow, hhigh, ?_⟩
  rw [UInt8.toNat_ofNat']
  omega

/-! ## Numbers -/

def decimal (n : ℕ) : List UInt8 := (Nat.toDigits 10 n).map fun c => UInt8.ofNat c.toNat

section Decimal

variable {n m : ℕ} {s s' : List UInt8}

theorem isDigit_decimal (n : ℕ) : ∀ b ∈ decimal n, isDigit b = true := by
  intro b hb
  obtain ⟨c, hc, rfl⟩ := List.mem_map.mp hb
  have hdigit := toNat_of_isDigit (Nat.isDigit_of_mem_toDigits (by decide) (by decide) hc)
  rw [isDigit, hdigit.2.2]
  simp [hdigit.1, hdigit.2.1]

/-- The digits can be read back. -/
theorem map_decimal (n : ℕ) :
    (decimal n).map (fun b => Char.ofNat b.toNat) = Nat.toDigits 10 n := by
  rw [decimal, List.map_map]
  conv_rhs => rw [← List.map_id (Nat.toDigits 10 n)]
  apply List.map_congr_left
  intro c hc
  have hdigit := toNat_of_isDigit (Nat.isDigit_of_mem_toDigits (by decide) (by decide) hc)
  rw [Function.comp_apply, hdigit.2.2, Char.ofNat_toNat, id]

theorem decimal_injective (h : decimal n = decimal m) : n = m := by
  have hchars : Nat.toDigits 10 n = Nat.toDigits 10 m := by
    rw [← map_decimal, h, map_decimal]
  rw [← Nat.ofDigitChars_toDigits (b := 10) (n := n) (by decide) (by decide), hchars,
    Nat.ofDigitChars_toDigits (by decide) (by decide)]

/-- A number ends where its digits do. -/
theorem decimal_append (hs : ∀ b ∈ s.head?, isDigit b = false)
    (hs' : ∀ b ∈ s'.head?, isDigit b = false) (h : decimal n ++ s = decimal m ++ s') :
    n = m ∧ s = s' := by
  have htake : ∀ {k : ℕ} {r : List UInt8}, (∀ b ∈ r.head?, isDigit b = false) →
      (decimal k ++ r).takeWhile isDigit = decimal k := by
    intro k r hr
    rw [List.takeWhile_append_of_pos (isDigit_decimal k)]
    cases r with
    | nil => simp
    | cons b r => rw [List.takeWhile_cons_of_neg (by simp [hr b rfl]), List.append_nil]
  have hdigits : decimal n = decimal m := by rw [← htake hs, h, htake hs']
  refine ⟨decimal_injective hdigits, ?_⟩
  rw [hdigits] at h
  exact List.append_cancel_left h

theorem length_decimal_le {n d : ℕ} (hd : 0 < d) (hn : n < 10 ^ d) : (decimal n).length ≤ d := by
  rw [decimal, List.length_map]
  exact (Nat.length_toDigits_le_iff (by decide) hd).mpr hn

/-! ## Fields -/

/-- The number that a field is, when all of it is digits. -/
def ofDecimal (field : List UInt8) : Option ℕ :=
  if field ≠ [] ∧ field.all isDigit then
    some (Nat.ofDigitChars 10 (field.map fun b => Char.ofNat b.toNat) 0)
  else none

theorem decimal_ne_nil : decimal n ≠ [] := by
  rw [decimal, ne_eq, List.map_eq_nil_iff]
  exact Nat.toDigits_ne_nil

theorem ofDecimal_decimal : ofDecimal (decimal n) = some n := by
  have hdigits : (decimal n).all isDigit = true := List.all_eq_true.mpr (isDigit_decimal n)
  rw [ofDecimal, if_pos ⟨decimal_ne_nil, hdigits⟩, map_decimal,
    Nat.ofDigitChars_toDigits (by decide) (by decide)]

theorem not_mem_decimal {b : UInt8} (hb : isDigit b = false) : b ∉ decimal n := by
  intro hmem
  rw [isDigit_decimal n b hmem] at hb
  cases hb

/-! ## Numbers with a sign -/

def decimalInt (i : ℤ) : List UInt8 :=
  if i < 0 then ascii "-" ++ decimal i.natAbs else decimal i.natAbs

def ofDecimalInt : List UInt8 → Option ℤ
  | [] => none
  | b :: field =>
      if b = 45 then (ofDecimal field).map fun k : ℕ => -(k : ℤ)
      else (ofDecimal (b :: field)).map fun k : ℕ => (k : ℤ)

theorem ascii_minus : ascii "-" = [45] := rfl

theorem ofDecimalInt_decimalInt (i : ℤ) : ofDecimalInt (decimalInt i) = some i := by
  rw [decimalInt]
  split
  · rename_i hneg
    rw [ascii_minus, List.singleton_append, ofDecimalInt, if_pos rfl, ofDecimal_decimal,
      Option.map_some]
    congr 1
    omega
  · rename_i hpos
    have hread := ofDecimal_decimal (n := i.natAbs)
    have hminus : (45 : UInt8) ∉ decimal i.natAbs := not_mem_decimal rfl
    cases hdigits : decimal i.natAbs with
    | nil => exact (decimal_ne_nil hdigits).elim
    | cons b field =>
        rw [hdigits] at hread hminus
        have hne : b ≠ 45 := fun heq => hminus (heq ▸ List.mem_cons_self)
        rw [ofDecimalInt, if_neg hne, hread, Option.map_some]
        congr 1
        omega

theorem not_mem_decimalInt {b : UInt8} (hb : isDigit b = false) (hminus : b ≠ 45) (i : ℤ) :
    b ∉ decimalInt i := by
  rw [decimalInt]
  split
  · rw [ascii_minus, List.mem_append, List.mem_singleton, not_or]
    exact ⟨hminus, not_mem_decimal hb⟩
  · exact not_mem_decimal hb

end Decimal

end Upcalls.Library
