import Mathlib.Data.List.Count
import Upcalls.Library.Ownership
import Upcalls.Model.TcpEcho

/-! # Object caches hand out blocks that nobody uses -/

namespace Upcalls.TcpEcho

open Library

/-- `cache_alloc` takes the first entry, or a new block when there is none. -/
theorem cacheAlloc_cases (cache : List ℕ) (next : ℕ) :
    (cache = (cacheAlloc cache next).entry :: (cacheAlloc cache next).cache ∧
        (cacheAlloc cache next).next = next) ∨
      (cache = [] ∧ (cacheAlloc cache next).cache = [] ∧ (cacheAlloc cache next).entry = next ∧
        (cacheAlloc cache next).next = next + 1) := by
  cases cache with
  | nil => exact .inr ⟨rfl, rfl, rfl, rfl⟩
  | cons entry rest => exact .inl ⟨rfl, rfl⟩

theorem cacheAlloc_next_le (cache : List ℕ) (next : ℕ) :
    next ≤ (cacheAlloc cache next).next := by
  cases cache with
  | nil => exact Nat.le_succ next
  | cons entry rest => exact Nat.le_refl next

theorem count_cacheFree (cache : List ℕ) (p b : ℕ) :
    (cacheFree cache p).count b = cache.count b + if b = p then 1 else 0 := by
  rw [cacheFree, List.count_append, List.count_singleton]
  simp only [beq_iff_eq, eq_comm (a := p)]

section Take

variable {K : Type*} {free free' : ℕ → ℕ} {owns owns' : K → ℕ → Prop} {cache : List ℕ}
  {next : ℕ}

theorem cacheAlloc_available (h : Separated free owns next)
    (hcount : ∀ b, free' b + cache.count b = free b + (cacheAlloc cache next).cache.count b) :
    Separated.Available free next (cacheAlloc cache next).entry (cacheAlloc cache next).next ∧
      ∀ b, free' b = if b = (cacheAlloc cache next).entry then 0 else free b := by
  rcases cacheAlloc_cases cache next with ⟨hcache, hnext⟩ | ⟨hnil, hrest, hentry, hnext⟩
  · have hpopped : ∀ b, free' b + (if (cacheAlloc cache next).entry = b then 1 else 0) =
        free b := by
      intro b
      have hb := hcount b
      have hhead := congrArg (List.count b) hcache
      simp only [List.count_cons, beq_iff_eq] at hhead
      omega
    refine ⟨.inl ⟨?_, hnext⟩, ?_⟩
    · have := hpopped (cacheAlloc cache next).entry
      rw [if_pos rfl] at this
      omega
    · intro b
      have hb := hpopped b
      split
      · rename_i heq
        have hone := h.once b
        rw [if_pos heq.symm] at hb
        omega
      · rename_i hne
        rw [if_neg (Ne.symm hne)] at hb
        exact hb
  · refine ⟨.inr ⟨hentry, hnext⟩, ?_⟩
    intro b
    have hb := hcount b
    rw [hrest, hnil] at hb
    split
    · rename_i heq
      rw [heq, hentry] at hb ⊢
      rw [(h.fresh (Nat.le_refl next)).1] at hb
      exact hb
    · exact hb

/-- The holder `k` gets an entry that was free or new. -/
theorem cacheAlloc_take (h : Separated free owns next) (k : K)
    (hcount : ∀ b, free' b + cache.count b = free b + (cacheAlloc cache next).cache.count b)
    (howns : ∀ k' b, owns' k' b → owns k' b ∨ (k' = k ∧ b = (cacheAlloc cache next).entry)) :
    Separated free' owns' (cacheAlloc cache next).next := by
  obtain ⟨havail, hfree⟩ := cacheAlloc_available h hcount
  exact h.take k havail hfree howns

theorem cacheAlloc_unowned (h : Separated free owns next)
    (hcount : ∀ b, free' b + cache.count b = free b + (cacheAlloc cache next).cache.count b)
    (k : K) : ¬ owns k (cacheAlloc cache next).entry :=
  h.unowned_of_available (cacheAlloc_available h hcount).1 k

end Take

end Upcalls.TcpEcho
