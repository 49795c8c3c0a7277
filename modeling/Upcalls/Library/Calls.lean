import Mathlib.Data.Nat.Notation
import Mathlib.Order.Defs.LinearOrder

/-! # Loops of calls

A loop makes one call in each turn. The answer makes it go on, or return. The answers to
all of its calls are given beforehand, as a sequence.
-/

namespace Upcalls.Library

variable {σ α ρ : Type*}

/-- Where a loop is after `k` answers: in a state, or back with a result. -/
def after (turn : σ → α → σ ⊕ ρ) (f : ℕ → α) (s : σ) : ℕ → σ ⊕ ρ
  | 0 => .inl s
  | k + 1 =>
      match after turn f s k with
      | .inl t => turn t (f k)
      | .inr r => .inr r

def Returns (turn : σ → α → σ ⊕ ρ) (f : ℕ → α) (s : σ) : Prop :=
  ∃ k r, after turn f s k = .inr r

variable {turn : σ → α → σ ⊕ ρ} {f : ℕ → α} {s : σ}

theorem after_succ {k : ℕ} {t : σ} (h : after turn f s k = .inl t) :
    after turn f s (k + 1) = turn t (f k) := by
  rw [after, h]

theorem after_succ_inl {k : ℕ} {u : σ} (h : after turn f s (k + 1) = .inl u) :
    ∃ t, after turn f s k = .inl t ∧ turn t (f k) = .inl u := by
  cases hk : after turn f s k with
  | inl t =>
      rw [after_succ hk] at h
      exact ⟨t, rfl, h⟩
  | inr r =>
      rw [after, hk] at h
      cases h

/-- A loop that is under way was under way before. -/
theorem after_inl_le {j k : ℕ} {u : σ} (h : after turn f s k = .inl u) (hj : j ≤ k) :
    ∃ t, after turn f s j = .inl t := by
  induction k generalizing u with
  | zero =>
      rw [Nat.le_zero.mp hj]
      exact ⟨u, h⟩
  | succ k ih =>
      rcases Nat.lt_or_ge k j with hlt | hge
      · rw [Nat.le_antisymm hj hlt]
        exact ⟨u, h⟩
      · obtain ⟨t, ht, -⟩ := after_succ_inl h
        exact ih ht hge

/-- A loop that never returns is always in some state. -/
theorem not_returns_iff : ¬ Returns turn f s ↔ ∀ k, ∃ t, after turn f s k = .inl t := by
  constructor
  · intro h k
    cases hk : after turn f s k with
    | inl t => exact ⟨t, rfl⟩
    | inr r => exact absurd ⟨k, r, hk⟩ h
  · rintro h ⟨k, r, hr⟩
    obtain ⟨t, ht⟩ := h k
    rw [hr] at ht
    cases ht

/-- What holds at first and after each turn that goes on holds as long as the loop does. -/
theorem after_invariant {P : ℕ → σ → Prop} (hstart : P 0 s)
    (hturn : ∀ k t u, after turn f s k = .inl t → P k t → turn t (f k) = .inl u → P (k + 1) u)
    {k : ℕ} {t : σ} (h : after turn f s k = .inl t) : P k t := by
  induction k generalizing t with
  | zero =>
      cases h
      exact hstart
  | succ k ih =>
      obtain ⟨u, hu, hlast⟩ := after_succ_inl h
      exact hturn k u t hu (ih hu) hlast

/-- A loop returns when each turn that goes on makes a measure smaller. -/
theorem returns_of_measure (m : σ → ℕ)
    (hturn : ∀ k t u, after turn f s k = .inl t → turn t (f k) = .inl u → m u < m t) :
    Returns turn f s := by
  by_contra h
  have hall := not_returns_iff.mp h
  have hbound : ∀ {k t}, after turn f s k = .inl t → k + m t ≤ m s := by
    intro k t ht
    refine after_invariant (P := fun k t => k + m t ≤ m s) ?_ ?_ ht
    · exact Nat.le_of_eq (Nat.zero_add _)
    · intro k t u hk hle hu
      have hlt := hturn k t u hk hu
      omega
  obtain ⟨t, ht⟩ := hall (m s + 1)
  have hle := hbound ht
  omega

/-- A loop does not return when from some turn on each one leads back to such a state. -/
theorem not_returns_of_stuck {P : σ → Prop} {k : ℕ} {t : σ} (hk : after turn f s k = .inl t)
    (ht : P t) (hturn : ∀ j u, k ≤ j → P u → ∃ v, turn u (f j) = .inl v ∧ P v) :
    ¬ Returns turn f s := by
  have hstuck : ∀ j, ∃ u, after turn f s (k + j) = .inl u ∧ P u := by
    intro j
    induction j with
    | zero => exact ⟨t, hk, ht⟩
    | succ j ih =>
        obtain ⟨u, hu, hpu⟩ := ih
        obtain ⟨v, hv, hpv⟩ := hturn (k + j) u (Nat.le_add_right k j) hpu
        refine ⟨v, ?_, hpv⟩
        rw [← Nat.add_assoc, after_succ hu]
        exact hv
  refine not_returns_iff.mpr ?_
  intro j
  obtain ⟨u, hu, -⟩ := hstuck j
  exact after_inl_le hu (Nat.le_add_left j k)

end Upcalls.Library
