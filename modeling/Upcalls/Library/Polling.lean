import Mathlib.Data.List.Destutter

/-! # Registers that are polled

A value is acted on when it is not the one that was read last.
-/

namespace Upcalls.Library

section Polling

variable {α : Type*} [DecidableEq α] {first last x : α} {polled acted : List α}

/-- `polled` are the values that were read, `acted` are those acted on, and `last` is the one
to compare with. -/
structure Polling (first : α) (polled acted : List α) (last : α) : Prop where
  acted : first :: acted = polled.destutter' (· ≠ ·) first
  last : (first :: polled).getLast? = some last

theorem destutter'_snoc {a c : α} {l : List α} (b : α) (hlast : (a :: l).getLast? = some c) :
    (l ++ [b]).destutter' (· ≠ ·) a =
      l.destutter' (· ≠ ·) a ++ if c = b then [] else [b] := by
  induction l generalizing a with
  | nil =>
      obtain rfl : a = c := Option.some.inj hlast
      rw [List.nil_append, List.destutter'_singleton, List.destutter'_nil]
      by_cases heq : a = b
      · rw [if_neg (not_not.mpr heq), if_pos heq]
        rfl
      · rw [if_pos heq, if_neg heq]
        rfl
  | cons d l ih =>
      have hrest : (d :: l).getLast? = some c := by
        rwa [List.getLast?_cons_cons] at hlast
      rw [List.cons_append, List.destutter'_cons, List.destutter'_cons]
      by_cases heq : a = d
      · subst heq
        rw [if_neg (not_not.mpr rfl), if_neg (not_not.mpr rfl)]
        exact ih hrest
      · rw [if_pos heq, if_pos heq, ih hrest]
        rfl

namespace Polling

theorem start : Polling first [] [] first := ⟨rfl, rfl⟩

theorem same (h : Polling first polled acted last) :
    Polling first (polled ++ [last]) acted last := by
  refine ⟨?_, by rw [← List.cons_append, List.getLast?_concat]⟩
  rw [destutter'_snoc last h.last, if_pos rfl, List.append_nil]
  exact h.acted

theorem changed (h : Polling first polled acted last) (hne : x ≠ last) :
    Polling first (polled ++ [x]) (acted ++ [x]) x := by
  refine ⟨?_, by rw [← List.cons_append, List.getLast?_concat]⟩
  rw [destutter'_snoc x h.last, if_neg (Ne.symm hne), ← List.cons_append, h.acted]

end Polling

end Polling

end Upcalls.Library
