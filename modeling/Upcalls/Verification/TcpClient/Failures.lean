import Upcalls.Verification.TcpClient.Refusals
import Upcalls.Verification.TcpClient.Registration

/-! # The sockets of the clients when calls fail

A worker that is dying goes on with the clients that `epoll_wait` has reported, and a
connection that fails is `DONE` with a socket that is still open. Whatever fails, no client
closes the socket of another.
-/

namespace Upcalls.TcpClient

open Library

variable {m n : ℕ} {o : Options}

/-- The client has an open socket. -/
def Client.Holds (c : Client) : Prop := c.state ≠ .init ∧ (c.state = .done → 0 ≤ c.sock)

theorem Client.holds_of_live {c : Client} (h : c.state.live = true) : c.Holds := by
  refine ⟨?_, ?_⟩
  · intro heq
    rw [heq] at h
    cases h
  · intro heq
    rw [heq] at h
    cases h

namespace Worker

/-- Each socket that a client holds is open and its own, and no client is left without
transactions but those that are `DONE`. -/
structure Kept (s : Worker n) : Prop where
  opened : ∀ {j}, (s.clients j).Holds → 0 ≤ (s.clients j).sock ∧ s.opened (s.clients j).sock = true
  apart : ∀ {i j}, (s.clients i).Holds → (s.clients j).Holds →
    (s.clients i).sock = (s.clients j).sock → i = j
  txn : ∀ {j}, (s.clients j).state ≠ .done → (s.clients j).txnRemaining ≠ 0

variable {s s' : Worker n} {j : Fin n} {c : Client}

/-! ## Changes of the state -/

theorem Kept.congr (h : s.Kept) (hclients : s'.clients = s.clients)
    (hopened : s'.opened = s.opened) : s'.Kept := by
  refine ⟨?_, ?_, ?_⟩
  · rw [hclients, hopened]
    exact h.opened
  · rw [hclients]
    exact h.apart
  · rw [hclients]
    exact h.txn

/-- A client that keeps its socket, if it still holds one. -/
theorem Kept.setClient (h : s.Kept)
    (hholds : c.Holds → (s.clients j).Holds ∧ c.sock = (s.clients j).sock)
    (htxn : c.state ≠ .done → c.txnRemaining ≠ 0) : (s.setClient j c).Kept := by
  have hself : (s.setClient j c).clients j = c := setClient_self ..
  have hother : ∀ i, i ≠ j → (s.setClient j c).clients i = s.clients i :=
    fun i hi => Function.update_of_ne hi _ _
  have hold : ∀ i, ((s.setClient j c).clients i).Holds →
      (s.clients i).Holds ∧ ((s.setClient j c).clients i).sock = (s.clients i).sock := by
    intro i hi
    by_cases hij : i = j
    · subst hij
      rw [hself] at hi ⊢
      exact hholds hi
    · rw [hother i hij] at hi ⊢
      exact ⟨hi, rfl⟩
  refine ⟨?_, ?_, ?_⟩
  · intro i hi
    obtain ⟨hold, hsock⟩ := hold i hi
    rw [hsock]
    exact h.opened hold
  · intro i k hi hk hsock
    obtain ⟨hi, hsi⟩ := hold i hi
    obtain ⟨hk, hsk⟩ := hold k hk
    exact h.apart hi hk (hsi.symm.trans (hsock.trans hsk))
  · intro i hi
    by_cases hij : i = j
    · subst hij
      rw [hself] at hi ⊢
      exact htxn hi
    · rw [hother i hij] at hi ⊢
      exact h.txn hi

/-- A new socket. -/
theorem Kept.socket (h : s.Kept) {fd : ℤ} (hfd : 0 ≤ fd) (hfree : s.opened fd = false)
    (hopened : s'.opened = Function.update s.opened fd true)
    (hclients : s'.clients = Function.update s.clients j c) (hsock : c.sock = fd)
    (htxn : c.state ≠ .done → c.txnRemaining ≠ 0) : s'.Kept := by
  have hne : ∀ i, (s.clients i).Holds → (s.clients i).sock ≠ fd := by
    intro i hi heq
    have hopen := (h.opened hi).2
    rw [heq, hfree] at hopen
    cases hopen
  refine ⟨?_, ?_, ?_⟩
  · intro i hi
    rw [hclients, Function.update_apply] at hi ⊢
    rw [hopened]
    split
    · rw [hsock]
      exact ⟨hfd, Function.update_self ..⟩
    · rename_i hij
      rw [if_neg hij] at hi
      rw [Function.update_of_ne (hne i hi)]
      exact h.opened hi
  · intro i k hi hk heq
    rw [hclients, Function.update_apply] at hi hk heq
    rw [Function.update_apply] at heq
    split at heq <;> split at heq
    · rename_i hi' hk'
      rw [hi', hk']
    · rename_i hi' hk'
      rw [if_neg hk'] at hk
      exact (hne k hk (heq.symm.trans hsock)).elim
    · rename_i hi' hk'
      rw [if_neg hi'] at hi
      exact (hne i hi (heq.trans hsock)).elim
    · rename_i hi' hk'
      rw [if_neg hi'] at hi
      rw [if_neg hk'] at hk
      exact h.apart hi hk heq
  · intro i hi
    rw [hclients, Function.update_apply] at hi ⊢
    split
    · rename_i hij
      rw [if_pos hij] at hi
      exact htxn hi
    · rename_i hij
      rw [if_neg hij] at hi
      exact h.txn hi

/-- A client closes its socket, or a descriptor that is none. -/
theorem Kept.close (h : s.Kept) (hsock : (s.clients j).Holds ∨ (s.clients j).sock < 0)
    (hopened : s'.opened = Function.update s.opened (s.clients j).sock false)
    (hclients : s'.clients = Function.update s.clients j c) (hc : ¬ c.Holds)
    (htxn : c.state ≠ .done → c.txnRemaining ≠ 0) : s'.Kept := by
  have hold : ∀ i, (s'.clients i).Holds → i ≠ j ∧ (s.clients i).Holds ∧
      s'.clients i = s.clients i := by
    intro i hi
    rw [hclients, Function.update_apply] at hi ⊢
    split at hi
    · exact (hc hi).elim
    · rename_i hij
      rw [if_neg hij]
      exact ⟨hij, hi, rfl⟩
  have hne : ∀ i, i ≠ j → (s.clients i).Holds → (s.clients i).sock ≠ (s.clients j).sock := by
    intro i hij hi heq
    rcases hsock with hj | hneg
    · exact hij (h.apart hi hj heq)
    · have hpos := (h.opened hi).1
      omega
  refine ⟨?_, ?_, ?_⟩
  · intro i hi
    obtain ⟨hij, hi, hsame⟩ := hold i hi
    rw [hsame, hopened, Function.update_of_ne (hne i hij hi)]
    exact h.opened hi
  · intro i k hi hk heq
    obtain ⟨-, hi, hsi⟩ := hold i hi
    obtain ⟨-, hk, hsk⟩ := hold k hk
    rw [hsi, hsk] at heq
    exact h.apart hi hk heq
  · intro i hi
    rw [hclients, Function.update_apply] at hi ⊢
    split
    · rename_i hij
      rw [if_pos hij] at hi
      exact htxn hi
    · rename_i hij
      rw [if_neg hij] at hi
      exact h.txn hi

theorem Kept.done (h : s.Kept) (hstate : (s.clients j).state = .done) (count : ℕ) :
    (s.done j count).Kept := by
  refine h.close (j := j) (c := { s.clients j with sock := -1 }) ?_ rfl rfl ?_ ?_
  · by_cases hsock : 0 ≤ (s.clients j).sock
    · left
      refine ⟨?_, fun _ => hsock⟩
      rw [hstate]
      exact State.noConfusion
    · exact .inr (Int.lt_of_not_ge hsock)
  · intro hholds
    have hneg : (0 : ℤ) ≤ -1 := hholds.2 hstate
    omega
  · intro hne
    exact (hne hstate).elim

theorem Kept.enter (h : s.Kept) (j : Fin n) (count : ℕ) : (s.enter o j count).Kept := by
  have hset : (s.setClient j { s.clients j with batchRemaining := o.batchSize }).Kept :=
    h.setClient (fun hholds => ⟨hholds, rfl⟩) fun hne => h.txn hne
  unfold Worker.enter
  dsimp only
  split
  · exact hset.congr rfl rfl
  · exact h.congr rfl rfl
  · exact h.congr rfl rfl
  · exact h.congr rfl rfl
  · exact h.congr rfl rfl
  · rename_i hstate
    exact h.done hstate count

/-! ## Steps -/

section Steps

variable {count cursor : ℕ} {out : Output n}

theorem Kept.init (h : s.Kept) (hstate : (s.clients j).state = .init) {a : Opened}
    (hstep : s.init o j count a = some (s', out)) : s'.Kept := by
  have htxn : (s.clients j).txnRemaining ≠ 0 := by
    refine h.txn ?_
    rw [hstate]
    exact State.noConfusion
  cases a with
  | noSocket =>
      cases hstep
      have hset : (s.setClient j { s.clients j with sock := -1 }).Kept :=
        h.setClient (fun hholds => (hholds.1 hstate).elim) fun _ => htxn
      exact hset.congr rfl rfl
  | noOption fd =>
      simp only [Worker.init, decide_eq_true_eq] at hstep
      split at hstep
      · rename_i hfd
        cases hstep
        exact h.socket hfd.1 hfd.2 rfl rfl rfl fun _ => htxn
      · cases hstep
  | ready fd =>
      simp only [Worker.init, decide_eq_true_eq] at hstep
      split at hstep
      · rename_i hfd
        cases hstep
        refine Kept.enter ?_ j count
        exact h.socket hfd.1 hfd.2 rfl rfl rfl fun _ => htxn
      · cases hstep
  | inProgress fd added =>
      simp only [Worker.init, decide_eq_true_eq] at hstep
      split at hstep
      · rename_i hfd
        cases hstep
        cases added <;> exact h.socket hfd.1 hfd.2 rfl rfl rfl fun _ => htxn
      · cases hstep
  | failed fd added =>
      simp only [Worker.init, decide_eq_true_eq] at hstep
      split at hstep
      · rename_i hfd
        cases hstep
        cases added <;> exact h.socket hfd.1 hfd.2 rfl rfl rfl fun _ => htxn
      · cases hstep

theorem Kept.connecting (h : s.Kept) (hstate : (s.clients j).state = .connecting)
    (a : Connected) : (s.connecting o j count a).Kept := by
  have hlive : (s.clients j).Holds := Client.holds_of_live (by rw [hstate]; rfl)
  cases a with
  | ok =>
      have hset : (s.setClient j { s.clients j with state := .new }).Kept := by
        refine h.setClient (fun _ => ⟨hlive, rfl⟩) fun _ => h.txn ?_
        rw [hstate]
        exact State.noConfusion
      change (Worker.enter o j count ((s.del (s.clients j).sock).setClient j
        { s.clients j with state := .new })).Kept
      refine Kept.enter ?_ j count
      exact hset.congr rfl rfl
  | _ => exact h.congr rfl rfl

theorem Kept.new (h : s.Kept) (hstate : (s.clients j).state = .new) (added : Bool) :
    (s.new o j count added).Kept := by
  have hlive : (s.clients j).Holds := Client.holds_of_live (by rw [hstate]; rfl)
  cases added with
  | true =>
      have hset : (s.setClient j { s.clients j with state := .ready }).Kept := by
        refine h.setClient (fun _ => ⟨hlive, rfl⟩) fun _ => h.txn ?_
        rw [hstate]
        exact State.noConfusion
      change (Worker.enter o j count ((s.add (s.clients j).sock .epollIn j).setClient j
        { s.clients j with state := .ready })).Kept
      refine Kept.enter ?_ j count
      exact hset.congr rfl rfl
  | false => exact h.congr rfl rfl

theorem Kept.ready (h : s.Kept) (hstate : (s.clients j).state = .ready) {ret : Option ℕ}
    (hstep : s.ready o j count cursor ret = some s') : s'.Kept := by
  have hlive : (s.clients j).Holds := Client.holds_of_live (by rw [hstate]; rfl)
  have hset : (s.setClient j { s.clients j with state := .sent }).Kept := by
    refine h.setClient (fun _ => ⟨hlive, rfl⟩) fun _ => h.txn ?_
    rw [hstate]
    exact State.noConfusion
  cases ret with
  | none =>
      cases hstep
      exact hset.congr rfl rfl
  | some k =>
      simp only [Worker.ready] at hstep
      split at hstep
      · cases hstep
        exact h.congr rfl rfl
      · split at hstep
        · cases hstep
          exact hset.congr rfl rfl
        · cases hstep

theorem Kept.completeTxn (h : s.Kept) (hstate : (s.clients j).state = .sent) (count : ℕ) :
    (s.completeTxn o j count).1.Kept := by
  have hlive : (s.clients j).Holds := Client.holds_of_live (by rw [hstate]; rfl)
  have hpos := (h.opened hlive).1
  rw [Worker.completeTxn]
  dsimp only
  split
  · refine Kept.enter ?_ j (count + 1)
    exact h.setClient (fun _ => ⟨hlive, rfl⟩) fun hne => (hne rfl).elim
  · rename_i htxn
    split
    · refine Kept.enter ?_ j (count + 1)
      exact h.close (.inl hlive) rfl rfl (fun hholds => hholds.1 rfl) fun _ => htxn
    · refine Kept.enter ?_ j (count + 1)
      exact h.setClient (fun _ => ⟨hlive, rfl⟩) fun _ => htxn

theorem Kept.received (h : s.Kept) (hstate : (s.clients j).state = .sent) (count cursor : ℕ) :
    (s.received o j count cursor).1.Kept := by
  have hset : (s.setClient j
      { s.clients j with cursor := (s.clients j).cursor + cursor }).Kept :=
    h.setClient (fun hholds => ⟨hholds, rfl⟩) fun hne => h.txn hne
  have hsame : ((s.setClient j
      { s.clients j with cursor := (s.clients j).cursor + cursor }).clients j).state = .sent := by
    rw [setClient_self]
    exact hstate
  unfold Worker.received
  dsimp only
  split
  · exact hset.congr rfl rfl
  · have hlogged : ((s.setClient j { s.clients j with
        cursor := (s.clients j).cursor + cursor }).tsclog o j .recvDone).Kept := hset.congr rfl rfl
    exact hlogged.completeTxn hsame count

theorem Kept.sent (h : s.Kept) (hstate : (s.clients j).state = .sent) {ret : Received}
    (hstep : s.sent o j count cursor ret = some (s', out)) : s'.Kept := by
  have hfst : ∀ {x : Worker n × Output n}, some x = some (s', out) → x.1.Kept → s'.Kept := by
    intro x hx hkept
    rwa [Option.some.inj hx] at hkept
  cases ret with
  | again => exact hfst hstep (h.received hstate count cursor)
  | error => exact hfst hstep (Kept.received (s := s.setDying) (h.congr rfl rfl) hstate count 0)
  | data bytes =>
      have hset : ∀ buf : List UInt8, (s.setClient j { s.clients j with buf := buf }).Kept :=
        fun buf => h.setClient (fun hholds => ⟨hholds, rfl⟩) fun hne => h.txn hne
      have hsame : ∀ buf : List UInt8,
          ((s.setClient j { s.clients j with buf := buf }).clients j).state = .sent := by
        intro buf
        rw [setClient_self]
        exact hstate
      simp only [Worker.sent] at hstep
      split at hstep
      · exact hfst hstep ((hset _).congr rfl rfl)
      · split at hstep
        · exact hfst hstep ((hset _).received (hsame _) count _)
        · cases hstep

theorem Kept.doStateTransition (h : s.Kept) {a : Input}
    (hstep : s.doStateTransition o a = some (s', out)) : s'.Kept := by
  rw [Worker.doStateTransition] at hstep
  split at hstep
  · split at hstep
    · rename_i hstate
      exact h.init hstate hstep
    · rename_i hstate
      cases hstep
      exact h.connecting hstate _
    · rename_i hstate
      cases hstep
      exact h.new hstate _
    · rename_i hstate
      obtain ⟨t, ht, hpair⟩ := Option.map_eq_some_iff.mp hstep
      cases hpair
      exact h.ready hstate ht
    · rename_i hstate
      exact h.sent hstate hstep
    · cases hstep
  · cases hstep

theorem Kept.run (h : s.Kept) (hstep : s.run o = some s') : s'.Kept := by
  rw [Worker.run] at hstep
  split at hstep
  · rename_i j todo _ _
    cases hstep
    exact Kept.enter (s := { s with todo := todo }) (h.congr rfl rfl) j 0
  · split at hstep
    · cases hstep
    · cases hstep
      exact h.congr rfl rfl
  · cases hstep

theorem Kept.epollWait (h : s.Kept) {fds : List ℤ} (hstep : s.epollWait o fds = some s') :
    s'.Kept := by
  rw [Worker.epollWait] at hstep
  split at hstep
  · split at hstep
    · cases hstep
      exact h.congr rfl rfl
    · cases hstep
  · cases hstep

theorem Kept.epollWaitEnds (h : s.Kept) {failed : Bool}
    (hstep : s.epollWaitEnds o failed = some s') : s'.Kept := by
  rw [Worker.epollWaitEnds] at hstep
  split at hstep
  · split at hstep
    · cases hstep
      cases failed <;> exact h.congr rfl rfl
    · cases hstep
  · cases hstep

theorem Kept.step (h : s.Kept) {a : Input} (hstep : s.step o a = some (s', out)) : s'.Kept := by
  cases a with
  | run =>
      obtain ⟨t, ht, hpair⟩ := Option.map_eq_some_iff.mp hstep
      cases hpair
      exact h.run ht
  | wait fds =>
      obtain ⟨t, ht, hpair⟩ := Option.map_eq_some_iff.mp hstep
      cases hpair
      exact h.epollWait ht
  | timeout | waitFailed =>
      obtain ⟨t, ht, hpair⟩ := Option.map_eq_some_iff.mp hstep
      cases hpair
      exact h.epollWaitEnds ht
  | setDying =>
      cases hstep
      exact h.congr rfl rfl
  | connect | connected | add | send | recv => exact h.doStateTransition hstep

end Steps

theorem kept_start (h : s.Start o) (ht : 1 ≤ o.transactionCount) : s.Kept := by
  have hnone : ∀ j, ¬ (s.clients j).Holds := by
    intro j hholds
    obtain ⟨buf, -, hj⟩ := h.clients j
    rw [hj] at hholds
    exact hholds.1 rfl
  refine ⟨fun hj => (hnone _ hj).elim, fun hi => (hnone _ hi).elim, ?_⟩
  intro j _
  obtain ⟨buf, -, hj⟩ := h.clients j
  rw [hj]
  exact Nat.one_le_iff_ne_zero.mp ht

end Worker

/-! ## All workers -/

/-- Whatever calls fail, in whatever worker. -/
theorem process_kept {tr : List ((Fin m × Input) × Output n)} {s : Fin m → Worker n}
    (h : (process m n o).Reaches tr s) (ht : 1 ≤ o.transactionCount) (w : Fin m) :
    (s w).Kept := by
  induction h generalizing w with
  | init hs => exact Worker.kept_start (hs w).2 ht
  | @step tr s t a out _ hlast ih =>
      obtain ⟨me, hstep, rfl⟩ := processStep_spec hlast
      have hall : ∀ v, (Function.update s a.1 me v).Kept := by
        intro v
        by_cases hv : v = a.1
        · rw [hv, Function.update_self]
          exact (ih a.1).step hstep
        · rw [Function.update_of_ne hv]
          exact ih v
      split
      · exact (hall w).congr rfl rfl
      · exact hall w

end Upcalls.TcpClient
