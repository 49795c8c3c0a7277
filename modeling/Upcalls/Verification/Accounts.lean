import Upcalls.Verification.Epoll.Accounts
import Upcalls.Verification.IoUring.Accounts
import Upcalls.Verification.Threads.Accounts
import Upcalls.Verification.UpcallEcho.Accounts
import Upcalls.Verification.UpcallEcho.Safety

/-! # What the servers count

The four servers publish `accept_count` and `conn_count`. The difference of the sums over the
workers is the number of open connections for two of them; io_uring also counts the messages
that it has echoed, and the threads server counts no connection that it closes.
-/

namespace Upcalls

open Library

/-- In every state of a run the ledger of the upcall and epoll servers balances, the one of
the io_uring server does if and only if no write of the run has finished a message, and the
one of the threads server if and only if no connection has been closed. -/
theorem ledgers_balanced (n msgSize : ℕ) :
    (∀ (s₀ s : UpcallEcho.Server n) tr, s₀.Start →
      (UpcallEcho.echoServer n msgSize).Run s₀ tr s → (s.ledger s₀).Balanced) ∧
    (∀ (s₀ s : Epoll.Server n) tr, s₀.Start → s₀.Cleared →
      (Epoll.echoServer n msgSize).Run s₀ tr s → (s.ledger s₀).Balanced) ∧
    (∀ (s₀ s : IoUring.Server n) tr, s₀.Start → s₀.Cleared →
      (IoUring.echoServer n msgSize).Run s₀ tr s →
        ((s.ledger s₀).Balanced ↔
          ((IoUring.echoServer n msgSize).guard fun u a => !u.finishes msgSize a).Run
            s₀ tr s)) ∧
    (∀ (s₀ s : Threads.Server n) tr, s₀.Start →
      (Threads.echoServer n msgSize).Run s₀ tr s →
        ((s.ledger s₀).Balanced ↔
          ((Threads.echoServer n msgSize).guard fun _ a => !a.closes).Run s₀ tr s)) := by
  refine ⟨?_, ?_, ?_, ?_⟩
  · intro s₀ s tr hstart hrun
    exact UpcallEcho.Server.run_balanced hstart hrun
  · intro s₀ s tr hstart hcleared hrun
    exact Epoll.Server.run_balanced hstart hcleared hrun
  · intro s₀ s tr hstart hcleared hrun
    exact IoUring.Server.run_balanced_iff hstart hcleared hrun
  · intro s₀ s tr hstart hrun
    exact Threads.Server.run_balanced_iff hstart hrun

/-! ## Runs -/

theorem Epoll.smallServer_cleared : Epoll.smallServer.Cleared := ⟨fun _ => rfl, fun _ => rfl⟩

theorem IoUring.smallServer_cleared : IoUring.smallServer.Cleared :=
  ⟨fun _ => rfl, fun _ => rfl⟩

/-- One worker, listening on descriptor 3. -/
def Threads.smallServer : Threads.Server 1 where
  worker _ := { pc := .accept, acceptCount := 0, connCount := 0 }
  shared := { conns := fun _ => none, opened := fun fd => fd ≤ 3, handlers := [] }

theorem Threads.smallServer_start : Threads.smallServer.Start :=
  ⟨fun _ => rfl, fun _ => rfl, fun _ => rfl, fun _ => rfl, rfl⟩

/-- A client connects and sends half of its message. -/
def Threads.halfMessage {n : ℕ} (w : Fin n) : List (Threads.Input n) :=
  [.accept w 7, .pthreadCreate w, .io 0 1]

theorem ledgers_balanced_runs :
    (∃ tr s, (UpcallEcho.echoServer 1 2).Run UpcallEcho.smallServer tr s ∧
      (s.ledger UpcallEcho.smallServer).ins = 1 ∧
      (s.ledger UpcallEcho.smallServer).Balanced) ∧
    (∃ tr s, (Epoll.echoServer 2 1).Run Epoll.smallServer tr s ∧
      (s.ledger Epoll.smallServer).ins = 1 ∧ (s.ledger Epoll.smallServer).Balanced) ∧
    (∃ tr s, (IoUring.echoServer 2 1).Run IoUring.smallServer tr s ∧
      (s.ledger IoUring.smallServer).ins = 1 ∧ (s.ledger IoUring.smallServer).Balanced) ∧
    (∃ tr s, (Threads.echoServer 1 2).Run Threads.smallServer tr s ∧
      (s.ledger Threads.smallServer).ins = 1 ∧ (s.ledger Threads.smallServer).Balanced) := by
  refine ⟨?_, ?_, ?_, ?_⟩
  · have hexec : ((UpcallEcho.echoServer 1 2).exec UpcallEcho.smallServer
        (UpcallEcho.shortEcho 0)).isSome := by decide
    have hrun := Machine.run_of_exec (Option.some_get hexec).symm
    exact ⟨_, _, hrun, rfl, (ledgers_balanced 1 2).1 _ _ _ UpcallEcho.smallServer_start hrun⟩
  · have hexec : ((Epoll.echoServer 2 1).exec Epoll.smallServer
        (Epoll.handOver 0 1)).isSome := by decide
    have hrun := Machine.run_of_exec (Option.some_get hexec).symm
    exact ⟨_, _, hrun, rfl, (ledgers_balanced 2 1).2.1 _ _ _ Epoll.smallServer_start
      Epoll.smallServer_cleared hrun⟩
  · have hexec : (((IoUring.echoServer 2 1).guard fun u a => !u.finishes 1 a).exec
        IoUring.smallServer (IoUring.handOver 0 1)).isSome := by decide
    have hguard := Machine.run_of_exec (Option.some_get hexec).symm
    exact ⟨_, _, hguard.of_guard, rfl, ((ledgers_balanced 2 1).2.2.1 _ _ _
      IoUring.smallServer_start IoUring.smallServer_cleared hguard.of_guard).mpr hguard⟩
  · have hexec : (((Threads.echoServer 1 2).guard fun _ a => !a.closes).exec
        Threads.smallServer (Threads.halfMessage 0)).isSome := by decide
    have hguard := Machine.run_of_exec (Option.some_get hexec).symm
    exact ⟨_, _, hguard.of_guard, rfl, ((ledgers_balanced 1 2).2.2.2 _ _ _
      Threads.smallServer_start hguard.of_guard).mpr hguard⟩

/-! ## Wrong counts -/

/-- Every worker waits for the kernel, and nothing waits for a worker. -/
def IoUring.Server.Quiet {n : ℕ} (s : IoUring.Server n) : Prop :=
  ∀ w, (s.worker w).pc = .wait ∧ (s.worker w).cq = [] ∧ (s.worker w).incoming = []

def Threads.Server.Quiet {n : ℕ} (s : Threads.Server n) : Prop :=
  (∀ w, (s.worker w).pc = .accept) ∧ s.shared.handlers = []

instance {n : ℕ} (s : IoUring.Server n) : Decidable s.Quiet :=
  inferInstanceAs (Decidable (∀ w, (s.worker w).pc = .wait ∧ (s.worker w).cq = [] ∧
    (s.worker w).incoming = []))

instance {n : ℕ} (s : Threads.Server n) : Decidable s.Quiet :=
  inferInstanceAs (Decidable ((∀ w, (s.worker w).pc = .accept) ∧ s.shared.handlers = []))

/-- A client sends worker `v` a message of one byte and gets it back. -/
def IoUring.oneEcho {n : ℕ} (v w : Fin n) : List (IoUring.Input n) :=
  [.run w, .run v, .complete v 0 7, .run v, .accept v v, .run v, .run v, .complete v 1 1, .run v,
    .run v, .run v, .complete v 2 1, .run v, .run v, .run v]

theorem IoUring.oneEcho_runs :
    ((IoUring.echoServer 2 1).exec IoUring.smallServer (IoUring.oneEcho 0 1)).isSome := by decide

theorem IoUring.oneEcho_quiet :
    (((IoUring.echoServer 2 1).exec IoUring.smallServer (IoUring.oneEcho 0 1)).get
      IoUring.oneEcho_runs).1.Quiet := by decide

/-- A client connects and closes its connection. -/
def Threads.noMessage {n : ℕ} (w : Fin n) : List (Threads.Input n) :=
  [.accept w 7, .pthreadCreate w, .io 0 0, .done 0]

theorem Threads.noMessage_runs :
    ((Threads.echoServer 1 2).exec Threads.smallServer (Threads.noMessage 0)).isSome := by decide

theorem Threads.noMessage_quiet :
    (((Threads.echoServer 1 2).exec Threads.smallServer (Threads.noMessage 0)).get
      Threads.noMessage_runs).1.Quiet := by decide

/-- After its close, the one connection of the run is not open any more. -/
theorem Threads.noMessage_present :
    ((((Threads.echoServer 1 2).exec Threads.smallServer (Threads.noMessage 0)).get
      Threads.noMessage_runs).1.ledger Threads.smallServer).present = ∅ := by
  refine Set.eq_empty_of_forall_notMem ?_
  rintro fd ⟨hopened, hnew, -⟩
  change Function.update (Function.update Threads.smallServer.shared.opened 7 true) 7 false fd =
    true at hopened
  rw [Function.update_idem, Function.update_apply] at hopened
  split at hopened
  · cases hopened
  · rw [hnew] at hopened
    cases hopened

/-- One open connection with one message echoed counts as none, and one closed connection
as one. -/
theorem not_ledgers_balanced :
    (∃ tr s, (IoUring.echoServer 2 1).Run IoUring.smallServer tr s ∧ s.Quiet ∧
      ¬ (s.ledger IoUring.smallServer).Balanced) ∧
    (∃ tr s, (Threads.echoServer 1 2).Run Threads.smallServer tr s ∧ s.Quiet ∧
      ¬ (s.ledger Threads.smallServer).Balanced) := by
  constructor
  · refine ⟨_, _, Machine.run_of_exec (Option.some_get IoUring.oneEcho_runs).symm,
      IoUring.oneEcho_quiet, ?_⟩
    intro hbalanced
    have hlt : 1 < 1 := hbalanced.outs_lt_ins (x := 7) ⟨rfl, rfl, rfl⟩
    exact Nat.lt_irrefl 1 hlt
  · refine ⟨_, _, Machine.run_of_exec (Option.some_get Threads.noMessage_runs).symm,
      Threads.noMessage_quiet, ?_⟩
    intro hbalanced
    have heq : 1 = 0 := hbalanced.ins_eq_outs Threads.noMessage_present
    exact Nat.one_ne_zero heq

end Upcalls
