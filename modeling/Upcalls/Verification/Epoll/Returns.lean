import Upcalls.Library.Calls
import Upcalls.Verification.Epoll.Equations

/-! # When `on_read` returns

The first loop of `on_read` returns at each error. The second one tries again, so it does
not return while each `write` fails.
-/

namespace Upcalls.Epoll

open Library TcpEcho

variable {msgSize : ℕ}

/-- How many bytes a call transfers. -/
def Ret.size : Ret → ℕ
  | .count k => k
  | .error _ => 0

/-- What the calls from `k` on transfer, `j` of them. -/
def transferred (f : ℕ → Ret) (k : ℕ) : ℕ → ℕ
  | 0 => 0
  | j + 1 => transferred f k j + (f (k + j)).size

theorem transferred_le (f : ℕ → Ret) (k : ℕ) {i j : ℕ} (h : i ≤ j) :
    transferred f k i ≤ transferred f k j := by
  induction j, h using Nat.le_induction with
  | base => exact Nat.le_refl _
  | succ j _ ih => exact Nat.le_trans ih (Nat.le_add_right _ _)

/-- Failing calls transfer nothing. -/
theorem transferred_fail {f : ℕ → Ret} {K : ℕ} (hfail : ∀ k, K ≤ k → f k = .error false)
    (k j : ℕ) : transferred f k j ≤ transferred f k (K - k) := by
  induction j with
  | zero => exact Nat.zero_le _
  | succ j ih =>
      rcases Nat.lt_or_ge (k + j) K with hlt | hge
      · exact transferred_le f k (by omega)
      · rw [transferred, hfail (k + j) hge]
        exact ih

/-! ## Turns -/

section Turns

variable {conn : Connection} {cursor : ℕ} {ret : Ret × Ret} {x : Connection × Next}

theorem goOn_inl {s : Connection × Next} (h : goOn s = .inl x) : s = x := by
  rw [goOn] at h
  split at h
  · exact Sum.inl.inj h
  · exact Sum.inl.inj h
  · cases h
  · cases h

/-- `on_read` goes on after a `read` that brings something. -/
theorem read_inl (h : onReadTurn msgSize (conn, .read cursor) ret = .inl x) :
    ∃ k, k ≠ 0 ∧ ret.1 = .count k ∧
      (cursor + k < msgSize ∧ x = (conn, .read (cursor + k)) ∨
        msgSize ≤ cursor + k ∧ ∃ c, x = (c, .write 0)) := by
  simp only [onReadTurn, afterRead] at h
  cases hret : ret.1 with
  | error again =>
      rw [hret] at h
      simp only at h
      split at h <;> cases h
  | count k =>
      rw [hret] at h
      simp only at h
      split at h
      · cases h
      · rename_i hk
        split at h
        · rename_i hlt
          exact ⟨k, hk, rfl, .inl ⟨hlt, (goOn_inl h).symm⟩⟩
        · rename_i hge
          exact ⟨k, hk, rfl, .inr ⟨Nat.le_of_not_lt hge, _, (goOn_inl h).symm⟩⟩

theorem read_goes {k : ℕ} (hk : k ≠ 0) (hret : ret.1 = .count k)
    (hlt : cursor + k < msgSize) :
    onReadTurn msgSize (conn, .read cursor) ret = .inl (conn, .read (cursor + k)) := by
  simp only [onReadTurn, afterRead, hret, if_neg hk, if_pos hlt, goOn]

theorem read_fills {k : ℕ} (hk : k ≠ 0) (hret : ret.1 = .count k)
    (hge : msgSize ≤ cursor + k) :
    ∃ c, onReadTurn msgSize (conn, .read cursor) ret = .inl (c, .write 0) := by
  simp only [onReadTurn, afterRead, hret, if_neg hk, if_neg (Nat.not_lt.mpr hge), goOn]
  exact ⟨_, rfl⟩

/-- `on_read` goes on after a `write` that fails, or leaves something to write. -/
theorem write_inl (h : onReadTurn msgSize (conn, .write cursor) ret = .inl x) :
    ret.2 ≠ .count 0 ∧ cursor + ret.2.size < msgSize ∧
      x = (conn, .write (cursor + ret.2.size)) := by
  simp only [onReadTurn, afterWrite] at h
  cases hret : ret.2 with
  | error again =>
      rw [hret] at h
      simp only at h
      split at h
      · rename_i hlt
        exact ⟨Ret.noConfusion, hlt, (goOn_inl h).symm⟩
      · cases h
  | count k =>
      rw [hret] at h
      simp only at h
      split at h
      · cases h
      · rename_i hk
        split at h
        · rename_i hlt
          exact ⟨fun hzero => hk (Ret.count.inj hzero), hlt, (goOn_inl h).symm⟩
        · cases h

theorem write_goes (hzero : ret.2 ≠ .count 0) (hlt : cursor + ret.2.size < msgSize) :
    onReadTurn msgSize (conn, .write cursor) ret =
      .inl (conn, .write (cursor + ret.2.size)) := by
  simp only [onReadTurn, afterWrite]
  cases hret : ret.2 with
  | error again =>
      rw [hret] at hlt
      simp only [Ret.size, Nat.add_zero] at hlt ⊢
      rw [if_pos hlt, goOn]
  | count k =>
      rw [hret] at hlt hzero
      simp only [Ret.size] at hlt ⊢
      rw [if_neg fun hk => hzero (congrArg Ret.count hk), if_pos hlt, goOn]

end Turns

/-! ## Whole calls -/

/-- What the calls of `on_read` answer: `reads` is for its first loop, `writes` for its
second one. -/
def answers (reads writes : ℕ → Ret) (k : ℕ) : Ret × Ret := (reads k, writes k)

/-- The first `k` reads end with a whole message behind `cursor`. -/
structure Filled (msgSize cursor : ℕ) (reads : ℕ → Ret) (k : ℕ) : Prop where
  pos : 0 < k
  counts : ∀ i < k, ∃ c, c ≠ 0 ∧ reads i = .count c
  short : ∀ i, 0 < i → i < k → cursor + transferred reads 0 i < msgSize
  full : msgSize ≤ cursor + transferred reads 0 k

/-- `on_read` is in its first loop. -/
structure Reading (msgSize : ℕ) (conn : Connection) (cursor : ℕ) (reads : ℕ → Ret) (k : ℕ)
    (x : Connection × Next) : Prop where
  state : x = (conn, .read (cursor + transferred reads 0 k))
  counts : ∀ i < k, ∃ c, c ≠ 0 ∧ reads i = .count c
  short : ∀ i, 0 < i → i ≤ k → cursor + transferred reads 0 i < msgSize

/-- `on_read` is in its second loop, since the read before `k₀`. -/
structure Writing (msgSize cursor : ℕ) (reads writes : ℕ → Ret) (k₀ k : ℕ)
    (x : Connection × Next) : Prop where
  filled : Filled msgSize cursor reads k₀
  le : k₀ ≤ k
  state : ∃ c, x = (c, .write (transferred writes k₀ (k - k₀)))
  nonzero : ∀ i, k₀ ≤ i → i < k → writes i ≠ .count 0
  short : transferred writes k₀ (k - k₀) < msgSize

section Calls

variable {conn : Connection} {cursor : ℕ} {reads writes : ℕ → Ret} {k : ℕ}
  {x y : Connection × Next}

theorem Reading.turn (hx : Reading msgSize conn cursor reads k x) (hsize : 1 ≤ msgSize)
    (h : onReadTurn msgSize x (answers reads writes k) = .inl y) :
    Reading msgSize conn cursor reads (k + 1) y ∨
      Writing msgSize cursor reads writes (k + 1) (k + 1) y := by
  obtain ⟨hstate, hcounts, hshort⟩ := hx
  rw [hstate] at h
  obtain ⟨c, hc, hret, hy⟩ := read_inl h
  have hret : reads k = .count c := hret
  have hnext : transferred reads 0 (k + 1) = transferred reads 0 k + c := by
    rw [transferred, Nat.zero_add k, hret]
    rfl
  have hcounts' : ∀ i < k + 1, ∃ c, c ≠ 0 ∧ reads i = .count c := by
    intro i hi
    rcases Nat.lt_succ_iff_lt_or_eq.mp hi with hi | rfl
    · exact hcounts i hi
    · exact ⟨c, hc, hret⟩
  rcases hy with ⟨hlt, rfl⟩ | ⟨hge, d, rfl⟩
  · refine .inl ⟨?_, hcounts', ?_⟩
    · rw [hnext, Nat.add_assoc]
    · intro i hpos hi
      rcases Nat.le_succ_iff.mp hi with hi | rfl
      · exact hshort i hpos hi
      · rw [hnext]
        omega
  · refine .inr ⟨⟨Nat.succ_pos k, hcounts', ?_, ?_⟩, Nat.le_refl _, ?_, ?_, ?_⟩
    · intro i hpos hi
      exact hshort i hpos (Nat.le_of_lt_succ hi)
    · rw [hnext]
      omega
    · rw [Nat.sub_self]
      exact ⟨d, rfl⟩
    · intro i hle hlt
      omega
    · rw [Nat.sub_self]
      exact hsize

theorem Writing.turn {k₀ : ℕ} (hx : Writing msgSize cursor reads writes k₀ k x)
    (h : onReadTurn msgSize x (answers reads writes k) = .inl y) :
    Writing msgSize cursor reads writes k₀ (k + 1) y := by
  obtain ⟨hfilled, hle, ⟨c, rfl⟩, hnonzero, -⟩ := hx
  obtain ⟨hzero, hlt, rfl⟩ := write_inl h
  have hnext : transferred writes k₀ (k + 1 - k₀) =
      transferred writes k₀ (k - k₀) + (writes k).size := by
    rw [Nat.sub_add_comm hle, transferred, Nat.add_sub_cancel' hle]
  refine ⟨hfilled, Nat.le_succ_of_le hle, ⟨c, ?_⟩, ?_, ?_⟩
  · rw [hnext]
    rfl
  · intro i hi hik
    rcases Nat.lt_succ_iff_lt_or_eq.mp hik with hik | rfl
    · exact hnonzero i hi hik
    · exact hzero
  · rw [hnext]
    exact hlt

theorem after_phase (hsize : 1 ≤ msgSize)
    (h : after (onReadTurn msgSize) (answers reads writes) (conn, .read cursor) k = .inl x) :
    Reading msgSize conn cursor reads k x ∨
      ∃ k₀, Writing msgSize cursor reads writes k₀ k x := by
  refine after_invariant (P := fun k x => Reading msgSize conn cursor reads k x ∨
    ∃ k₀, Writing msgSize cursor reads writes k₀ k x) ?_ ?_ h
  · refine .inl ⟨rfl, ?_, ?_⟩
    · intro i hi
      exact absurd hi (Nat.not_lt_zero i)
    · intro i hpos hi
      omega
  · intro k x y _ hx hy
    rcases hx with hx | ⟨k₀, hx⟩
    · rcases hx.turn hsize hy with hy | hy
      · exact .inl hy
      · exact .inr ⟨k + 1, hy⟩
    · exact .inr ⟨k₀, hx.turn hy⟩

/-- Each read brings a byte at least. -/
theorem le_transferred (hcounts : ∀ i < k, ∃ c, c ≠ 0 ∧ reads i = .count c) :
    k ≤ transferred reads 0 k := by
  induction k with
  | zero => exact Nat.zero_le _
  | succ k ih =>
      obtain ⟨c, hc, hret⟩ := hcounts k (Nat.lt_succ_self k)
      have hle := ih fun i hi => hcounts i (Nat.lt_succ_of_lt hi)
      have hsize : (reads (0 + k)).size = c := by
        rw [Nat.zero_add, hret]
        rfl
      rw [transferred, hsize]
      omega

theorem Reading.le (hx : Reading msgSize conn cursor reads k x) : k ≤ msgSize := by
  rcases Nat.eq_zero_or_pos k with rfl | hpos
  · exact Nat.zero_le _
  · have hle := le_transferred hx.counts
    have hlt := hx.short k hpos (Nat.le_refl k)
    omega

/-- The reads before the last one leave `on_read` in its first loop. -/
theorem after_reads (hcounts : ∀ i < k, ∃ c, c ≠ 0 ∧ reads i = .count c)
    (hshort : ∀ i, 0 < i → i ≤ k → cursor + transferred reads 0 i < msgSize) :
    after (onReadTurn msgSize) (answers reads writes) (conn, .read cursor) k =
      .inl (conn, .read (cursor + transferred reads 0 k)) := by
  induction k with
  | zero => rfl
  | succ k ih =>
      obtain ⟨c, hc, hret⟩ := hcounts k (Nat.lt_succ_self k)
      have hnext : transferred reads 0 (k + 1) = transferred reads 0 k + c := by
        rw [transferred, Nat.zero_add k, hret]
        rfl
      have hlt := hshort (k + 1) (Nat.succ_pos k) (Nat.le_refl _)
      rw [hnext, ← Nat.add_assoc] at hlt
      have hk := ih (fun i hi => hcounts i (Nat.lt_succ_of_lt hi))
        fun i hpos hi => hshort i hpos (Nat.le_succ_of_le hi)
      rw [after_succ hk, hnext, ← Nat.add_assoc]
      exact read_goes hc hret hlt

theorem Filled.after (h : Filled msgSize cursor reads k) :
    ∃ c, Library.after (onReadTurn msgSize) (answers reads writes) (conn, .read cursor) k =
      .inl (c, .write 0) := by
  obtain ⟨hpos, hcounts, hshort, hfull⟩ := h
  obtain ⟨k, rfl⟩ := Nat.exists_eq_succ_of_ne_zero (Nat.pos_iff_ne_zero.mp hpos)
  obtain ⟨c, hc, hret⟩ := hcounts k (Nat.lt_succ_self k)
  have hk : Library.after (onReadTurn msgSize) (answers reads writes) (conn, .read cursor) k =
      .inl (conn, .read (cursor + transferred reads 0 k)) := by
    apply after_reads
    · intro i hi
      exact hcounts i (Nat.lt_succ_of_lt hi)
    · intro i hpos hi
      exact hshort i hpos (Nat.lt_succ_of_le hi)
  have hnext : transferred reads 0 (k + 1) = transferred reads 0 k + c := by
    rw [transferred, Nat.zero_add k, hret]
    rfl
  rw [Nat.succ_eq_add_one, hnext, ← Nat.add_assoc] at hfull
  rw [Nat.succ_eq_add_one, after_succ hk]
  exact read_fills hc hret hfull

/-- From there on, `on_read` is in its second loop as long as something is left to write. -/
theorem after_writes {k₀ : ℕ} {c : Connection}
    (h₀ : after (onReadTurn msgSize) (answers reads writes) (conn, .read cursor) k₀ =
      .inl (c, .write 0)) {j : ℕ} (hnonzero : ∀ i < j, writes (k₀ + i) ≠ .count 0)
    (hshort : transferred writes k₀ j < msgSize) :
    after (onReadTurn msgSize) (answers reads writes) (conn, .read cursor) (k₀ + j) =
      .inl (c, .write (transferred writes k₀ j)) := by
  induction j with
  | zero => exact h₀
  | succ j ih =>
      have hle := transferred_le writes k₀ (Nat.le_succ j)
      have hj := ih (fun i hi => hnonzero i (Nat.lt_succ_of_lt hi)) (Nat.lt_of_le_of_lt hle hshort)
      rw [← Nat.add_assoc, after_succ hj]
      exact write_goes (hnonzero j (Nat.lt_succ_self j)) hshort

/-- A whole message is there, and the writes ahead of `K`, where each one fails, leave some
of it. -/
structure Captured (msgSize cursor : ℕ) (reads writes : ℕ → Ret) (K k : ℕ) : Prop where
  filled : Filled msgSize cursor reads k
  nonzero : ∀ i, k ≤ i → i < K → writes i ≠ .count 0
  short : transferred writes k (K - k) < msgSize

/-- `on_read` never returns when the connection fails while it has bytes to write. -/
theorem Captured.not_returns {K : ℕ} (hfail : ∀ i, K ≤ i → writes i = .error false)
    (h : Captured msgSize cursor reads writes K k) :
    ¬ Returns (onReadTurn msgSize) (answers reads writes) (conn, .read cursor) := by
  have hfilled : ∃ c, after (onReadTurn msgSize) (answers reads writes) (conn, .read cursor) k =
      .inl (c, .write 0) := h.filled.after
  obtain ⟨c, hk⟩ := hfilled
  rw [not_returns_iff]
  intro j
  have hlater : after (onReadTurn msgSize) (answers reads writes) (conn, .read cursor) (k + j) =
      .inl (c, .write (transferred writes k j)) := by
    apply after_writes hk
    · intro i _ hzero
      rcases Nat.lt_or_ge (k + i) K with hlt | hge
      · exact h.nonzero (k + i) (Nat.le_add_right k i) hlt hzero
      · rw [hfail (k + i) hge] at hzero
        cases hzero
    · exact Nat.lt_of_le_of_lt (transferred_fail hfail k j) h.short
  exact after_inl_le hlater (Nat.le_add_left j k)

/-- An `on_read` that does not return is at last in its second loop. -/
theorem captured_of_not_returns {K : ℕ} (hsize : 1 ≤ msgSize)
    (h : ¬ Returns (onReadTurn msgSize) (answers reads writes) (conn, .read cursor)) :
    ∃ k, Captured msgSize cursor reads writes K k := by
  obtain ⟨x, hx⟩ := not_returns_iff.mp h (K + msgSize + 1)
  rcases after_phase hsize hx with hreading | ⟨k₀, hwriting⟩
  · have hle := hreading.le
    omega
  · refine ⟨k₀, hwriting.filled, ?_, ?_⟩
    · intro i hi hlt
      exact hwriting.nonzero i hi (by omega)
    · have hle : K - k₀ ≤ K + msgSize + 1 - k₀ := by omega
      exact Nat.lt_of_le_of_lt (transferred_le writes k₀ hle) hwriting.short

end Calls

/-- While each `write` from `K` on fails for good, `on_read` returns unless it then has
bytes left to write. -/
theorem onRead_returns_iff {K : ℕ} {reads writes : ℕ → Ret} (conn : Connection)
    (hsize : 1 ≤ msgSize) (hfail : ∀ k, K ≤ k → writes k = .error false) :
    Returns (onReadTurn msgSize) (answers reads writes) (conn, .read conn.cursor) ↔
      ¬ ∃ k, Captured msgSize conn.cursor reads writes K k := by
  constructor
  · rintro hreturns ⟨k, hk⟩
    exact hk.not_returns hfail hreturns
  · intro hcaptured
    by_contra hreturns
    exact hcaptured (captured_of_not_returns hsize hreturns)

/-! ## Calls that a peer resets -/

/-- A connection with a saved cursor in front of the last of two bytes. -/
def halfRead : Connection := ⟨1, 1, 1, .reading, 5⟩

/-- The peer resets the connection: each call fails. -/
def broken (_ : ℕ) : Ret := .error false

/-- The reset comes before the second byte. -/
theorem onRead_returns_iff_broken :
    Returns (onReadTurn 2) (answers broken broken) (halfRead, .read halfRead.cursor) := by
  refine (onRead_returns_iff (K := 0) halfRead (by decide) fun _ _ => rfl).mpr ?_
  rintro ⟨k, hk⟩
  obtain ⟨c, -, hret⟩ := hk.filled.counts 0 hk.filled.pos
  cases hret

/-- The second byte is there, and the reset comes before the first `write`. -/
theorem not_onRead_returns :
    ¬ ∀ (msgSize : ℕ) (conn : Connection) (reads writes : ℕ → Ret), 1 ≤ msgSize →
      (∃ K, ∀ k, K ≤ k → writes k = .error false) →
      Returns (onReadTurn msgSize) (answers reads writes) (conn, .read conn.cursor) := by
  intro h
  have hreturns := h 2 halfRead (fun _ => .count 1) broken (by decide) ⟨0, fun _ _ => rfl⟩
  have hfilled : Filled 2 halfRead.cursor (fun _ => .count 1) 1 := by
    refine ⟨by decide, ?_, ?_, by decide⟩
    · intro i _
      exact ⟨1, by decide, rfl⟩
    · intro i hpos hi
      omega
  have hcaptured : Captured 2 halfRead.cursor (fun _ => .count 1) broken 0 1 :=
    ⟨hfilled, fun _ _ _ => Ret.noConfusion, by decide⟩
  exact hcaptured.not_returns (fun _ _ => rfl) hreturns

/-! ## The worker -/

namespace Server

variable {n : ℕ}

theorem goOn_cases (x : Connection × Next) : goOn x = .inl x ∨ goOn x = .inr x := by
  rw [goOn]
  split
  · exact .inl rfl
  · exact .inl rfl
  · exact .inr rfl
  · exact .inr rfl

/-- A worker in `on_read` makes these turns: it leaves the loops when they return. -/
theorem io_turn {s s' : Server n} {w : Fin n} {ret : Ret} {p : ℕ} {next : Next}
    (hpc : (s.worker w).pc = next.pc p) (h : s.io msgSize w ret = some s') :
    ∃ x, (s'.worker w).pc = x.2.pc p ∧ s'.shared.conn p = x.1 ∧
      (onReadTurn msgSize (s.shared.conn p, next) (ret, ret) = .inl x ∨
        onReadTurn msgSize (s.shared.conn p, next) (ret, ret) = .inr x) := by
  cases next with
  | read cursor =>
      have hread : (s.worker w).pc = .read p cursor := hpc
      simp only [io, hread] at h
      split at h
      · cases Option.some.inj h
        refine ⟨afterRead msgSize (s.shared.conn p) cursor ret, ?_, ?_, goOn_cases _⟩
        · rw [Team.share_worker, Team.set_worker_self]
        · exact Function.update_self _ _ _
      · cases h
  | write cursor =>
      have hwrite : (s.worker w).pc = .write p cursor := hpc
      simp only [io, hwrite] at h
      split at h
      · cases Option.some.inj h
        refine ⟨afterWrite msgSize (s.shared.conn p) cursor ret, ?_, ?_, goOn_cases _⟩
        · rw [Team.share_worker, Team.set_worker_self]
        · exact Function.update_self _ _ _
      · cases h
  | close =>
      have hclose : (s.worker w).pc = .onClose (some p) none := hpc
      simp only [io, hclose] at h
      cases h
  | done =>
      have hdone : (s.worker w).pc = .loop := hpc
      simp only [io, hdone] at h
      cases h

end Server

end Upcalls.Epoll
