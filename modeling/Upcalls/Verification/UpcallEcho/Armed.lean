import Upcalls.Verification.UpcallEcho.Safety

/-! # Every open connection can be woken

A connection waits for a read or a write of its own. The handlers re-arm or close it,
but not after an error: a connection whose request failed waits for nothing.
-/

namespace Upcalls.UpcallEcho

open Library LibUpcall TcpEcho

variable {n msgSize : ℕ}

/-- One accept request for each worker and a read or write for each connection. -/
structure Server.Armed (s : Server n) : Prop where
  accept : ∀ w, (s.worker w).accepts = 1
  waiting : ∀ fd, (s.shared.conns fd).isSome = true → 0 < s.ops fd

/-- No read or write handler was given an error. -/
def NoFailure (tr : List (Input n × Output)) : Prop :=
  ∀ a e effects, (a, .dispatched e effects) ∈ tr → isOp e = true → 0 ≤ e.result

theorem noFailure_iff (tr : List (Input n × Output)) :
    NoFailure tr ↔ ∀ fd, failures tr fd = 0 := by
  constructor
  · intro h fd
    refine List.countP_eq_zero.mpr ?_
    rintro ⟨a, o⟩ hmem hfail
    cases o with
    | silent => simp [Output.failed] at hfail
    | dispatched e effects =>
        simp only [Output.failed, decide_eq_true_eq] at hfail
        have := h a e effects hmem hfail.1
        omega
  · intro h a e effects hmem hop
    by_contra hneg
    have hfail : Output.failed e.fd (.dispatched e effects) = true := by
      simp [Output.failed, hop]
      omega
    exact List.countP_eq_zero.mp (h e.fd) _ hmem hfail

/-- In every state of a run, the connections can be woken if and only if no read or write
has failed so far. -/
theorem echoServer_armed_iff {tr : List (Input n × Output)} {s : Server n}
    (h : (echoServer n msgSize).Reaches tr s) : s.Armed ↔ NoFailure tr := by
  have hs := Server.reaches_inv h
  rw [noFailure_iff]
  constructor
  · intro harmed fd
    have hcount := hs.armed fd
    have hone := Server.present_le_one s.shared fd
    by_cases hp : (s.shared.conns fd).isSome = true
    · have := harmed.waiting fd hp
      omega
    · rw [Server.present, if_neg hp] at hcount
      omega
  · intro hnone
    refine ⟨hs.accepts, ?_⟩
    intro fd hp
    have hcount := hs.armed fd
    rw [Server.present, if_pos hp, hnone fd] at hcount
    omega

theorem echoServer_armed_iff_shortEcho :
    ∃ tr s, (echoServer 1 2).Reaches tr s ∧ (s.shared.conns 5).isSome = true ∧
      (s.Armed ↔ NoFailure tr) := by
  have hrun : ((echoServer 1 2).exec smallServer (shortEcho 0)).isSome := by decide
  have hreach := Machine.reaches_exec_get smallServer_start hrun
  exact ⟨_, _, hreach, rfl, echoServer_armed_iff hreach⟩

/-- The pool runs dry: the read of a new connection fails with `-ENOMEM`. -/
theorem echoServer_not_armed :
    ¬ ∀ (n msgSize : ℕ) (tr : List (Input n × Output)) (s : Server n), 1 ≤ msgSize →
      (echoServer n msgSize).Reaches tr s → s.Armed := by
  intro h
  have hrun : ((echoServer 1 2).exec smallServer (turn 0 1 5 ++ turn 0 1 (-12))).isSome := by
    decide
  have hreach := Machine.reaches_exec_get smallServer_start hrun
  have hwaiting := (h 1 2 _ _ (by decide) hreach).waiting 5 rfl
  exact Nat.lt_irrefl 0 hwaiting

end Upcalls.UpcallEcho
