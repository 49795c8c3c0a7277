import Upcalls.Library.Machine

/-! # Machines that come to an end

The rank of a state bounds how many steps are left. Every step lowers it but the ones that the
environment makes on its own account, for an input that is `outside`, and only those that are
`paid` may raise it.
-/

namespace Upcalls.Library.Machine

variable {σ ι ω : Type*} {M : Machine σ ι ω}

structure Ranked (M : Machine σ ι ω) (Inv : σ → Prop) (rank : σ → ℕ) (outside paid : ι → Bool)
    (k : ℕ) : Prop where
  keeps : ∀ {s t a o}, Inv s → M.step s a = some (t, o) → Inv t
  falls : ∀ {s t a o}, Inv s → M.step s a = some (t, o) → outside a = false → rank t < rank s
  rests : ∀ {s t a o}, Inv s → M.step s a = some (t, o) → outside a = true → paid a = false →
    rank t ≤ rank s
  rises : ∀ {s t a o}, Inv s → M.step s a = some (t, o) → paid a = true → rank t ≤ rank s + k

section Ranked

variable {Inv : σ → Prop} {rank : σ → ℕ} {outside paid : ι → Bool} {k : ℕ}

/-- The steps of a run that are not outside are paid for by the rank, and by those that are
`paid`. -/
theorem Ranked.run (h : M.Ranked Inv rank outside paid k) {s t : σ} {tr : List (ι × ω)}
    (hr : M.Run s tr t) (hs : Inv s) :
    Inv t ∧ rank t + tr.countP (fun x => !outside x.1) ≤
      rank s + k * tr.countP (fun x => paid x.1) := by
  induction hr with
  | nil => exact ⟨hs, Nat.le_add_right _ _⟩
  | @snoc u v tr a o _ hlast ih =>
      obtain ⟨hu, hle⟩ := ih
      refine ⟨h.keeps hu hlast, ?_⟩
      rw [List.countP_append, List.countP_append, List.countP_singleton, List.countP_singleton]
      cases ha : outside a with
      | false =>
          have hfalls := h.falls hu hlast ha
          have hmul := Nat.mul_le_mul_left k
            (Nat.le_add_right (tr.countP fun x => paid x.1) (if paid a = true then 1 else 0))
          simp only [Bool.not_false, if_true]
          omega
      | true =>
          simp only [Bool.not_true, Bool.false_eq_true, if_false, Nat.add_zero]
          cases hpaid : paid a with
          | false =>
              have hrests := h.rests hu hlast ha hpaid
              simp only [Bool.false_eq_true, if_false, Nat.add_zero]
              omega
          | true =>
              have hrises := h.rises hu hlast hpaid
              simp only [if_true, Nat.mul_add, Nat.mul_one]
              omega

/-- A machine that can move on its own account unless it is finished does finish, within as
many steps as its rank says. -/
theorem Ranked.finishes (h : M.Ranked Inv rank outside paid k) (Final : σ → Prop)
    (hmoves : ∀ s, Inv s → ¬ Final s → ∃ a t o, outside a = false ∧ M.step s a = some (t, o))
    {s : σ} (hs : Inv s) :
    ∃ tr t, M.Run s tr t ∧ Final t ∧ (∀ x ∈ tr, outside x.1 = false) ∧ tr.length ≤ rank s := by
  induction hrank : rank s using Nat.strongRecOn generalizing s with
  | ind m ih =>
      by_cases hfinal : Final s
      · exact ⟨[], s, .nil, hfinal, List.forall_mem_nil _, Nat.zero_le _⟩
      · obtain ⟨a, t, o, ha, hstep⟩ := hmoves s hs hfinal
        have hfalls := h.falls hs hstep ha
        obtain ⟨tr, u, hrun, hu, hown, hlength⟩ :=
          ih (rank t) (hrank ▸ hfalls) (h.keeps hs hstep) rfl
        refine ⟨(a, o) :: tr, u, hrun.cons hstep, hu, List.forall_mem_cons.mpr ⟨ha, hown⟩, ?_⟩
        rw [List.length_cons]
        omega

end Ranked

end Upcalls.Library.Machine
