import Upcalls.Model.PerfStats

/-! # The lines of the stats file -/

namespace Upcalls.PerfStats

open Library

theorem length_decimalInt_le (i : Int32) : (decimalInt i.toInt).length ≤ 11 := by
  have hlow : -2 ^ 31 ≤ i.toInt := Int32.le_toInt i
  have hhigh : i.toInt < 2 ^ 31 := Int32.toInt_lt i
  have hdigits : (decimal i.toInt.natAbs).length ≤ 10 :=
    length_decimal_le (by decide) (by omega)
  rw [decimalInt]
  split
  · rw [List.length_append]
    have hminus : (ascii "-").length = 1 := rfl
    omega
  · omega

theorem length_fields_le (values : List UInt64) :
    (values.flatMap fun v => ascii "\t" ++ decimal v.toNat).length ≤ 21 * values.length := by
  induction values with
  | nil => exact Nat.le_refl 0
  | cons v values ih =>
      have hdigits : (decimal v.toNat).length ≤ 20 := by
        have hv : v.toNat < 2 ^ 64 := v.toNat_lt
        exact length_decimal_le (by decide) (by omega)
      have htab : (ascii "\t").length = 1 := rfl
      rw [List.flatMap_cons, List.length_append, List.length_append, List.length_cons]
      omega

variable (t : Thread) (values : PerfValues)

theorem length_perfText_le : (perfText t values).length ≤ 159 := by
  have hindex := length_decimalInt_le t.index
  have hfields := length_fields_le (List.ofFn values ++ [t.acceptCount, t.connCount])
  have hnewline : (ascii "\n").length = 1 := rfl
  rw [List.length_append, List.length_ofFn] at hfields
  simp only [List.length_cons, List.length_nil, TOTAL_EVENTS] at hfields
  rw [perfText, List.length_append, List.length_append]
  omega

/-- The line fits into `perf_line`. -/
theorem perfLine_eq_perfText : perfLine t values = perfText t values := by
  have hlength := length_perfText_le t values
  rw [perfLine, snprintf]
  exact List.take_of_length_le (by simp only [TOTAL_EVENTS]; omega)

theorem perfLine_ne_nil : perfLine t values ≠ [] := by
  rw [perfLine_eq_perfText, perfText]
  exact List.append_ne_nil_of_right_ne_nil _ (by decide)

theorem perfLines_ne_nil (threads : List Thread) :
    ∀ line ∈ perfLines values threads, line ≠ [] := by
  induction threads generalizing values with
  | nil =>
      intro line hline
      cases hline
  | cons t threads ih =>
      intro line hline
      rcases List.mem_cons.mp hline with rfl | hline
      · exact perfLine_ne_nil t _
      · exact ih _ line hline

end Upcalls.PerfStats
