import Mathlib.Data.Nat.Notation

/-! # Free blocks and owned blocks

Blocks are handed out from free lists and by an allocator that counts up. `free b` says
how often block `b` is on a free list, and `owns k b` that the holder `k` uses it.
-/

namespace Upcalls.Library

variable {K : Type*}

/-- No block is free twice, free and in use, or in use by two holders, and no block from
`next` on is known to anyone. -/
structure Separated (free : ℕ → ℕ) (owns : K → ℕ → Prop) (next : ℕ) : Prop where
  once : ∀ b, free b ≤ 1
  unowned : ∀ {k b}, owns k b → free b = 0
  single : ∀ {k k' b}, owns k b → owns k' b → k = k'
  fresh : ∀ {b}, next ≤ b → free b = 0 ∧ ∀ k, ¬ owns k b

namespace Separated

variable {free free' : ℕ → ℕ} {owns owns' : K → ℕ → Prop} {next next' : ℕ}

/-- Holders may let go of blocks that nobody uses again. -/
theorem mono (h : Separated free owns next) (hfree : ∀ x, free' x = free x)
    (howns : ∀ k x, owns' k x → owns k x) : Separated free' owns' next where
  once b := by
    rw [hfree]
    exact h.once b
  unowned ho := by
    rw [hfree]
    exact h.unowned (howns _ _ ho)
  single ho ho' := h.single (howns _ _ ho) (howns _ _ ho')
  fresh hb := by
    rw [hfree]
    exact ⟨(h.fresh hb).1, fun k ho => (h.fresh hb).2 k (howns _ _ ho)⟩

theorem grow (h : Separated free owns next) (hnext : next ≤ next') :
    Separated free owns next' where
  once := h.once
  unowned := h.unowned
  single := h.single
  fresh hb := h.fresh (Nat.le_trans hnext hb)

/-- A block from a free list, or the allocator's next one. -/
def Available (free : ℕ → ℕ) (next b next' : ℕ) : Prop :=
  (0 < free b ∧ next' = next) ∨ (b = next ∧ next' = next + 1)

theorem unowned_of_available (h : Separated free owns next) {b : ℕ}
    (hb : Available free next b next') (k : K) : ¬ owns k b := by
  intro ho
  rcases hb with ⟨hpos, -⟩ | ⟨rfl, -⟩
  · rw [h.unowned ho] at hpos
    exact Nat.lt_irrefl 0 hpos
  · exact (h.fresh (Nat.le_refl b)).2 k ho

/-- `k` takes the available block `b`. -/
theorem take (h : Separated free owns next) {b : ℕ} (k : K)
    (hb : Available free next b next') (hfree : ∀ x, free' x = if x = b then 0 else free x)
    (howns : ∀ k' x, owns' k' x → owns k' x ∨ (k' = k ∧ x = b)) :
    Separated free' owns' next' := by
  have hno := h.unowned_of_available hb
  refine ⟨?_, ?_, ?_, ?_⟩
  · intro x
    rw [hfree]
    split
    · exact Nat.zero_le 1
    · exact h.once x
  · intro k' x ho
    rw [hfree]
    split
    · rfl
    · rename_i hx
      rcases howns k' x ho with ho | ⟨-, rfl⟩
      · exact h.unowned ho
      · exact absurd rfl hx
  · intro k₁ k₂ x h₁ h₂
    rcases howns k₁ x h₁ with h₁ | ⟨rfl, rfl⟩
    · rcases howns k₂ x h₂ with h₂ | ⟨-, rfl⟩
      · exact h.single h₁ h₂
      · exact absurd h₁ (hno k₁)
    · rcases howns k₂ x h₂ with h₂ | ⟨rfl, -⟩
      · exact absurd h₂ (hno k₂)
      · rfl
  · intro x hx
    have hx' : next ≤ x ∧ x ≠ b := by
      rcases hb with ⟨hpos, rfl⟩ | ⟨rfl, rfl⟩
      · refine ⟨hx, ?_⟩
        rintro rfl
        rw [(h.fresh hx).1] at hpos
        exact Nat.lt_irrefl 0 hpos
      · omega
    obtain ⟨hzero, hnone⟩ := h.fresh hx'.1
    refine ⟨by rw [hfree, if_neg hx'.2, hzero], ?_⟩
    intro k' ho
    rcases howns k' x ho with ho | ⟨-, rfl⟩
    · exact hnone k' ho
    · exact hx'.2 rfl

/-- The holder of `b` puts it on a free list. -/
theorem give (h : Separated free owns next) {k : K} {b : ℕ} (hown : owns k b)
    (hfree : ∀ x, free' x = free x + if x = b then 1 else 0)
    (howns : ∀ k' x, owns' k' x → owns k' x ∧ x ≠ b) : Separated free' owns' next := by
  refine ⟨?_, ?_, ?_, ?_⟩
  · intro x
    rw [hfree]
    split
    · rename_i hx
      have hzero := h.unowned hown
      rw [hx]
      omega
    · exact h.once x
  · intro k' x ho
    obtain ⟨ho, hx⟩ := howns k' x ho
    rw [hfree, if_neg hx, h.unowned ho]
  · intro k₁ k₂ x h₁ h₂
    exact h.single (howns k₁ x h₁).1 (howns k₂ x h₂).1
  · intro x hx
    obtain ⟨hzero, hnone⟩ := h.fresh hx
    refine ⟨?_, fun k' ho => hnone k' (howns k' x ho).1⟩
    rw [hfree, hzero, if_neg]
    rintro rfl
    exact hnone k hown

end Separated

end Upcalls.Library
