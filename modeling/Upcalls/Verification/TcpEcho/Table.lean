import Upcalls.Verification.TcpEcho.Cache

/-! # The connection table

A connection in `conns[]` knows its descriptor, and no two descriptors share a record.
`free` counts the records in the connection caches.
-/

namespace Upcalls.TcpEcho

open Library

theorem Table.conns_close {t : Table} {fd g : ℤ} {q : ℕ} (h : (t.close fd).conns g = some q) :
    g ≠ fd ∧ t.conns g = some q := by
  by_cases hg : g = fd
  · subst hg
    simp only [Table.close, Function.update_self, reduceCtorEq] at h
  · simp only [Table.close, Function.update_of_ne hg] at h
    exact ⟨hg, h⟩

theorem Table.conns_close_ne {t : Table} {fd g : ℤ} (hg : g ≠ fd) :
    (t.close fd).conns g = t.conns g :=
  Function.update_of_ne hg _ _

theorem Table.conns_install_self {t : Table} {fd : ℤ} {p next : ℕ} {c : Connection} :
    (t.install fd p c next).conns fd = some p :=
  Function.update_self ..

theorem Table.conns_install_ne {t : Table} {fd g : ℤ} (hg : g ≠ fd) {p next : ℕ}
    {c : Connection} : (t.install fd p c next).conns g = t.conns g :=
  Function.update_of_ne hg _ _

structure Filed (free : ℕ → ℕ) (t : Table) : Prop where
  live : ∀ {fd p}, t.conns fd = some p → (t.conn p).fd = fd
  separated : Separated free (fun fd p => t.conns fd = some p) t.next

namespace Filed

variable {free free' : ℕ → ℕ} {t : Table} {fd : ℤ} {p : ℕ}

theorem accept (h : Filed free t) (opened : ℤ → Bool) : Filed free { t with opened := opened } :=
  ⟨h.live, h.separated⟩

/-- No connection is open. -/
theorem empty (hconns : ∀ fd, t.conns fd = none) (hcached : ∀ b, free b ≤ 1)
    (hfresh : ∀ b, t.next ≤ b → free b = 0) : Filed free t := by
  have hnone : ∀ fd b, ¬ t.conns fd = some b := by
    intro fd b hb
    rw [hconns] at hb
    cases hb
  exact {
    live := fun hp => (hnone _ _ hp).elim
    separated := {
      once := hcached
      unowned := fun ho => (hnone _ _ ho).elim
      single := fun ho => (hnone _ _ ho).elim
      fresh := fun hb => ⟨hfresh _ hb, fun fd => hnone fd _⟩ } }

/-- Whatever changes in a record but its descriptor, and however many blocks are
allocated. -/
theorem setConn (h : Filed free t) {c : Connection} (hc : c.fd = (t.conn p).fd) {next : ℕ}
    (hnext : t.next ≤ next) : Filed free { t.setConn p c with next := next } := by
  refine ⟨?_, h.separated.grow hnext⟩
  intro g q hq
  rw [← h.live hq]
  by_cases hqp : q = p
  · subst hqp
    simp only [Table.setConn, Function.update_self, hc]
  · simp only [Table.setConn, Function.update_of_ne hqp]

theorem install (h : Filed free t) {cache : List ℕ} {c : Connection} (hc : c.fd = fd)
    (hfree : ∀ b, free' b + cache.count b = free b + (cacheAlloc cache t.next).cache.count b)
    {next : ℕ} (hnext : (cacheAlloc cache t.next).next ≤ next) :
    Filed free' (t.install fd (cacheAlloc cache t.next).entry c next) := by
  have hnew := cacheAlloc_unowned h.separated hfree
  refine ⟨?_, (cacheAlloc_take h.separated fd hfree ?_).grow hnext⟩
  · intro g q hq
    by_cases hg : g = fd
    · subst hg
      simp only [Table.install, Function.update_self, Option.some.injEq] at hq ⊢
      rw [← hq, Function.update_self, hc]
    · simp only [Table.install, Function.update_of_ne hg] at hq ⊢
      have hqp : q ≠ (cacheAlloc cache t.next).entry := by
        rintro rfl
        exact hnew g hq
      rw [Function.update_of_ne hqp]
      exact h.live hq
  · intro g q hq
    by_cases hg : g = fd
    · subst hg
      simp only [Table.install, Function.update_self, Option.some.injEq] at hq
      exact .inr ⟨rfl, hq.symm⟩
    · simp only [Table.install, Function.update_of_ne hg] at hq
      exact .inl hq

theorem close (h : Filed free t) (hp : t.conns fd = some p)
    (hfree : ∀ b, free' b = free b + if b = p then 1 else 0) : Filed free' (t.close fd) := by
  refine ⟨fun hq => h.live (Table.conns_close hq).2, h.separated.give (k := fd) hp hfree ?_⟩
  intro g q hq
  obtain ⟨hg, hq⟩ := Table.conns_close hq
  refine ⟨hq, ?_⟩
  rintro rfl
  exact hg (h.separated.single hq hp)

end Filed

end Upcalls.TcpEcho
