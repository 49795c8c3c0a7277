import Mathlib.Algebra.Order.BigOperators.Ring.Finset
import Upcalls.Library.Team
import Upcalls.Verification.TcpClient.Life

/-! # What a worker counts -/

namespace Upcalls.TcpClient

open Library

variable {n : ℕ} {o : Options}

/-- What the call under way is going to add to `complete`. -/
def Pc.count : Pc n → ℕ
  | .call _ count _ => count
  | _ => 0

def Output.txns : Output n → ℕ
  | .completed _ _ => 1
  | _ => 0

namespace Worker

/-- The transactions that the clients have finished. -/
def finished (o : Options) (s : Worker n) : ℕ :=
  ∑ j, (o.transactionCount - (s.clients j).txnRemaining)

/-! ## Steps -/

theorem finished_set (s : Worker n) (j : Fin n) (c : Client) :
    ∑ i, (o.transactionCount - (Function.update s.clients j c i).txnRemaining) +
        (o.transactionCount - (s.clients j).txnRemaining) =
      s.finished o + (o.transactionCount - c.txnRemaining) :=
  Team.tally_set (fun c => o.transactionCount - c.txnRemaining)
    (⟨s.clients, ()⟩ : Team n Client Unit) j c

theorem finished_same {s : Worker n} {j : Fin n} {c : Client}
    (h : c.txnRemaining = (s.clients j).txnRemaining) :
    ∑ i, (o.transactionCount - (Function.update s.clients j c i).txnRemaining) =
      s.finished o := by
  have hset := finished_set (o := o) s j c
  rw [h] at hset
  omega

theorem finished_less {s : Worker n} {j : Fin n} {c : Client}
    (h : c.txnRemaining = sub64 (s.clients j).txnRemaining 1)
    (hpos : (s.clients j).txnRemaining ≠ 0)
    (hle : (s.clients j).txnRemaining ≤ o.transactionCount) :
    ∑ i, (o.transactionCount - (Function.update s.clients j c i).txnRemaining) =
      s.finished o + 1 := by
  have hset := finished_set (o := o) s j c
  have hlt := o.transactionCount_lt
  rw [h, sub64] at hset
  omega

theorem Lives.le {s : Worker n} {j : Fin n} {l : Life} (h : s.Lives o j l) :
    (s.clients j).txnRemaining ≤ o.transactionCount := by
  have htxn := h.txn
  omega

theorem Lives.pos {s : Worker n} {j : Fin n} {l : Life} (h : s.Lives o j l)
    (hstate : (s.clients j).state = .sent) : (s.clients j).txnRemaining ≠ 0 := by
  intro hzero
  rw [h.left.mp hzero] at hstate
  cases hstate

/-- A step finishes as many transactions as it shows. -/
theorem Stepped.finished_add {s s' : Worker n} {a : Input} {out : Output n}
    (h : Stepped o s a s' out) (hs : s.Inv) (hlives : ∀ j, ∃ l, s.Lives o j l) :
    s'.finished o = s.finished o + out.txns := by
  cases h with
  | enteredInit hpc htodo hstate => exact finished_same rfl
  | enteredOther hpc htodo hstate =>
      exact (hs.not_other hpc (htodo ▸ List.mem_cons_self) hstate).elim
  | connectedAtOnce hpc hstate hpos hfd => exact finished_same rfl
  | began hpc hstate hpos hfd => exact finished_same rfl
  | connected hpc hstate => exact finished_same rfl
  | added hpc hstate => exact finished_same rfl
  | sentAll hpc hstate hfull => exact finished_same rfl
  | receivedPart hpc hstate hlt => exact finished_same rfl
  | again hpc hstate hlt => exact finished_same rfl
  | @finished j count cursor answer buf hpc hstate hfull hzero =>
      obtain ⟨l, hl⟩ := hlives j
      exact finished_less rfl (hl.pos hstate) hl.le
  | @batchEnded j count cursor answer buf hpc hstate hfull hmore hzero =>
      obtain ⟨l, hl⟩ := hlives j
      exact finished_less rfl (hl.pos hstate) hl.le
  | @next j count cursor answer buf hpc hstate hfull hmore hbatch =>
      obtain ⟨l, hl⟩ := hlives j
      exact finished_less rfl (hl.pos hstate) hl.le
  | _ => rfl

/-- A step counts the transactions that it shows. -/
theorem Stepped.complete_add {s s' : Worker n} {a : Input} {out : Output n}
    (h : Stepped o s a s' out) (hs : s.Inv)
    (hfit : s.complete + s.pc.count + out.txns < 2 ^ 64) :
    s'.complete + s'.pc.count = s.complete + s.pc.count + out.txns := by
  cases h with
  | waited hpc htodo hgoes hnodup hle hready => rfl
  | timedOut hpc htodo =>
      rw [hpc]
      rfl
  | exited hpc htodo hgoes =>
      rw [hpc]
      rfl
  | enteredInit hpc htodo hstate =>
      rw [hpc]
      rfl
  | enteredConnecting hpc htodo hstate =>
      rw [hpc]
      rfl
  | enteredSent hpc htodo hstate =>
      rw [hpc]
      rfl
  | enteredOther hpc htodo hstate =>
      exact (hs.not_other hpc (htodo ▸ List.mem_cons_self) hstate).elim
  | connectedAtOnce hpc hstate hpos hfd =>
      rw [hpc]
      rfl
  | began hpc hstate hpos hfd =>
      rw [hpc] at hfit ⊢
      exact Nat.mod_eq_of_lt hfit
  | connected hpc hstate =>
      rw [hpc]
      rfl
  | added hpc hstate =>
      rw [hpc]
      rfl
  | sentPart hpc hstate hlt =>
      rw [hpc]
      rfl
  | sentAll hpc hstate hfull =>
      rw [hpc] at hfit ⊢
      exact Nat.mod_eq_of_lt hfit
  | receivedPart hpc hstate hlt =>
      rw [hpc]
      rfl
  | again hpc hstate hlt =>
      rw [hpc] at hfit ⊢
      exact Nat.mod_eq_of_lt hfit
  | finished hpc hstate hfull hzero =>
      rw [hpc] at hfit ⊢
      exact Nat.mod_eq_of_lt hfit
  | batchEnded hpc hstate hfull hmore hzero =>
      rw [hpc]
      rfl
  | next hpc hstate hfull hmore hbatch =>
      rw [hpc]
      rfl

/-! ## Runs -/

theorem finished_le (s : Worker n) : s.finished o ≤ o.transactionCount * n := by
  have hle : s.finished o ≤ ∑ _j : Fin n, o.transactionCount :=
    Finset.sum_le_sum fun j _ => Nat.sub_le _ _
  rw [Finset.sum_const, Finset.card_univ, Fintype.card_fin, smul_eq_mul, Nat.mul_comm] at hle
  exact hle

/-- As long as the number of all transactions fits in `complete`, it counts those that are
finished. -/
theorem reaches_complete {tr : List (Input × Output n)} {s : Worker n}
    (h : (worker n o).Reaches tr s) (hdying : s.dying = false) (hb : 1 ≤ o.batchSize)
    (ht : 1 ≤ o.transactionCount) (hfit : o.transactionCount * n < 2 ^ 64) :
    s.complete + s.pc.count = s.finished o := by
  have hcounted := reaches_induction (P := fun tr s => s.Inv ∧ (∀ j, ∃ l, Known o tr s j l) ∧
    s.complete + s.pc.count = s.finished o) ?_ ?_ h hdying
  · exact hcounted.2.2
  · intro s hs
    refine ⟨inv_start hs, fun j => ⟨_, known_start hs ht j⟩, ?_⟩
    have hnone : s.finished o = 0 := by
      refine Finset.sum_eq_zero ?_
      intro j _
      obtain ⟨buf, -, hj⟩ := hs.clients j
      rw [hj]
      exact Nat.sub_self _
    rw [hs.complete, hs.pc, hnone]
    rfl
  · rintro tr s a out s' - ⟨hs, hknown, hcount⟩ hstep
    have hlives : ∀ j, ∃ l, s.Lives o j l := by
      intro j
      obtain ⟨l, hl⟩ := hknown j
      exact ⟨l, hl.lives⟩
    have hfinished := hstep.finished_add hs hlives
    have hle := finished_le (o := o) s'
    refine ⟨(hstep.kept hs).1, ?_, ?_⟩
    · intro j
      obtain ⟨l, hl⟩ := hknown j
      exact hl.step hb hs hstep
    · rw [hstep.complete_add hs (by omega), hcount, hfinished]

/-- All clients are done, with their sockets closed. -/
def AllDone (tr : List (Input × Output n)) (s : Worker n) : Prop :=
  ∀ j, (s.clients j).state = .done ∧ (s.clients j).sock = -1 ∧
    ∀ c ∈ conns j tr, c.closed = true

/-- What a worker counts between calls of `do_state_transition`. -/
structure Counted (o : Options) (tr : List (Input × Output n)) (s : Worker n) : Prop where
  complete : s.complete = ∑ j, (o.transactionCount - (s.clients j).txnRemaining)
  txns : ∀ j, (s.clients j).txnRemaining + ((conns j tr).map Conn.txns).sum = o.transactionCount
  batch : ∀ {j pre c}, conns j tr = pre ++ [c] → c.closed = false →
    (s.clients j).batchRemaining + c.txns = o.batchSize
  noWrap : ∀ {j}, (s.clients j).state = .sent →
    1 ≤ (s.clients j).txnRemaining ∧ 1 ≤ (s.clients j).batchRemaining
  carried : ∀ {j pre c post}, conns j tr = pre ++ c :: post →
    if c.closed then c.txns = min o.batchSize (o.transactionCount - (pre.map Conn.txns).sum)
    else c.txns < min o.batchSize (o.transactionCount - (pre.map Conn.txns).sum)
  finished : s.complete = o.transactionCount * n ↔ s.AllDone tr
  goesOn : s.goesOn o = true ↔ ¬ s.AllDone tr

end Worker

namespace Life

theorem sum_conns_eq (l : Life) : (l.conns.map Conn.txns).sum = l.work.count := by
  rw [conns, List.map_append, List.sum_append, sum_conns, Batches.count]
  cases l.work.cur with
  | none => rfl
  | some rs => rfl

end Life

namespace Worker

theorem Lives.done {s : Worker n} {j : Fin n} {l : Life} (h : s.Lives o j l)
    (hstate : (s.clients j).state = .done) : ∀ c ∈ l.conns, c.closed = true := by
  have hat := h.state
  rw [hstate] at hat
  cases hat with
  | done =>
      intro c hc
      rw [Life.conns, Option.map_none, Option.toList_none, List.append_nil] at hc
      obtain ⟨rs, -, rfl⟩ := List.mem_map.mp hc
      rfl

/-- An open connection has the rest of its batch to go. -/
theorem Lives.batch_open {s : Worker n} {j : Fin n} {l : Life} (h : s.Lives o j l) {rs : List ℕ}
    (hcur : l.work.cur = some rs) :
    (s.clients j).batchRemaining + rs.length = o.batchSize := by
  have hne : (s.clients j).state ≠ .done := by
    intro hstate
    have hat := h.state
    rw [hstate] at hat
    cases hat with
    | done => cases hcur
  have hbatch := h.batch hne
  rw [hcur] at hbatch
  exact hbatch

theorem Known.batch {tr : List (Input × Output n)} {s : Worker n} {j : Fin n} {l : Life}
    (h : Known o tr s j l) {pre : List Conn} {c : Conn} (hconns : Worker.conns j tr = pre ++ [c])
    (hopen : c.closed = false) : (s.clients j).batchRemaining + c.txns = o.batchSize := by
  rw [h.conns, Life.conns] at hconns
  cases hcur : l.work.cur with
  | none =>
      rw [hcur, Option.map_none, Option.toList_none, List.append_nil] at hconns
      have hmem : c ∈ l.work.past.map fun rs => (⟨rs.length, true⟩ : Conn) := by
        rw [hconns]
        exact List.mem_append_right _ List.mem_cons_self
      obtain ⟨rs, -, rfl⟩ := List.mem_map.mp hmem
      cases hopen
  | some rs =>
      rw [hcur, Option.map_some, Option.toList_some] at hconns
      obtain ⟨-, hc⟩ := List.append_inj' hconns rfl
      cases List.singleton_inj.mp hc
      exact h.lives.batch_open hcur

theorem Known.noWrap {tr : List (Input × Output n)} {s : Worker n} {j : Fin n} {l : Life}
    (h : Known o tr s j l) (hstate : (s.clients j).state = .sent) :
    1 ≤ (s.clients j).txnRemaining ∧ 1 ≤ (s.clients j).batchRemaining := by
  refine ⟨Nat.pos_of_ne_zero (h.lives.pos hstate), ?_⟩
  cases hcur : l.work.cur with
  | none =>
      have hat := h.lives.state
      rw [hstate] at hat
      cases hat <;> cases hcur
  | some rs =>
      have hbatch := h.lives.batch_open hcur
      have hroom := h.ok.cur hcur
      omega

/-- The clients have finished everything when each of them is done. -/
theorem finished_eq_iff {tr : List (Input × Output n)} {s : Worker n} (hs : s.Inv)
    (hknown : ∀ j, ∃ l, Known o tr s j l) :
    s.finished o = o.transactionCount * n ↔ s.AllDone tr := by
  have hall : o.transactionCount * n = ∑ _j : Fin n, o.transactionCount := by
    rw [Finset.sum_const, Finset.card_univ, Fintype.card_fin, smul_eq_mul, Nat.mul_comm]
  rw [hall, finished, Finset.sum_eq_sum_iff_of_le fun j _ => Nat.sub_le _ _]
  constructor
  · intro hzero j
    obtain ⟨l, hl⟩ := hknown j
    have hsub := hzero j (Finset.mem_univ j)
    have hle := hl.lives.le
    have hstate := hl.lives.left.mp (by omega)
    have hplaced := hs.placed j
    simp only [Placed, hstate] at hplaced
    refine ⟨hstate, hplaced.1, ?_⟩
    rw [hl.conns]
    exact hl.lives.done hstate
  · intro hdone j _
    obtain ⟨l, hl⟩ := hknown j
    rw [hl.lives.left.mpr (hdone j).1, Nat.sub_zero]

/-- In a run in which the number of all transactions fits in `size_t`, a worker counts all
of them, and leaves its loop after the last one. -/
theorem counted {tr : List (Input × Output n)} {s : Worker n}
    (h : (worker n o).Reaches tr s) (hdying : s.dying = false) (hpc : s.pc = .loop)
    (hb : 1 ≤ o.batchSize) (ht : 1 ≤ o.transactionCount)
    (hfit : o.transactionCount * n < 2 ^ 64) : s.Counted o tr := by
  have hknown := reaches_known h hdying hb ht
  have hs := (reaches_inv h hdying).1
  have hcomplete := reaches_complete h hdying hb ht hfit
  rw [hpc] at hcomplete
  have hcount : s.complete = s.finished o := hcomplete
  have hdone : s.complete = o.transactionCount * n ↔ s.AllDone tr := by
    rw [hcount]
    exact finished_eq_iff hs hknown
  refine ⟨hcount, ?_, ?_, ?_, ?_, hdone, ?_⟩
  · intro j
    obtain ⟨l, hl⟩ := hknown j
    rw [hl.conns, l.sum_conns_eq, Nat.add_comm]
    exact hl.lives.txn
  · intro j pre c hconns hopen
    obtain ⟨l, hl⟩ := hknown j
    exact hl.batch hconns hopen
  · intro j hstate
    obtain ⟨l, hl⟩ := hknown j
    exact hl.noWrap hstate
  · intro j pre c post hconns
    obtain ⟨l, hl⟩ := hknown j
    rw [hl.conns] at hconns
    exact l.carried hl.ok hconns
  · have hle := finished_le (o := o) s
    rw [← hdone, goesOn, total, Nat.mod_eq_of_lt hfit, hdying]
    simp only [Bool.not_false, Bool.true_and, decide_eq_true_eq]
    omega

end Worker

/-! ## Runs -/

theorem sixTransactions_runs :
    ((worker 2 threeTxns).exec twoClients sixTransactions).isSome := by decide

theorem counted_sixTransactions :
    ∃ tr s, (worker 2 threeTxns).Reaches tr s ∧ s.complete = 6 ∧ s.goesOn threeTxns = false ∧
      s.Counted threeTxns tr := by
  have hreach := Machine.reaches_exec_get twoClients_start sixTransactions_runs
  exact ⟨_, _, hreach, rfl, rfl,
    Worker.counted hreach rfl rfl (by decide) (by decide) (by decide)⟩

/-- As many transactions for each of four clients that `size_t` holds their number as zero. -/
def manyTxns : Options := ⟨1, 1, 2 ^ 62, one_lt_size, quarter_lt_size⟩

def fourClients : Worker 4 where
  index := 0
  clients _ := ⟨0, [7], 0, .init, 1, 2 ^ 62, 1⟩
  interest _ := none
  opened _ := false
  log := ⟨[], 100, false⟩
  dying := false
  complete := 0
  todo := List.finRange 4
  pc := .loop

theorem fourClients_start : (worker 4 manyTxns).Init fourClients :=
  ⟨fun _ => ⟨[7], rfl, rfl⟩, fun _ => rfl, ⟨rfl, rfl⟩, rfl, rfl, rfl, rfl⟩

def connectAll : List Input :=
  [.run, .connect (.inProgress 5 true), .run, .connect (.inProgress 6 true),
    .run, .connect (.inProgress 7 true), .run, .connect (.inProgress 8 true)]

theorem connectAll_runs : ((worker 4 manyTxns).exec fourClients connectAll).isSome := by decide

/-- The loop is left while all clients connect. -/
theorem not_counted :
    ¬ ∀ (n : ℕ) (o : Options) (tr : List (Input × Output n)) (s : Worker n), 1 ≤ n →
      1 ≤ o.batchSize → 1 ≤ o.transactionCount → (worker n o).Reaches tr s →
      s.dying = false → s.pc = .loop → s.Counted o tr := by
  intro h
  have hreach := Machine.reaches_exec_get fourClients_start connectAll_runs
  have hcounted := h 4 manyTxns _ _ (by decide) (by decide) (by decide) hreach rfl rfl
  have hgoes := hcounted.goesOn.mpr ?_
  · revert hgoes
    decide
  · intro hdone
    cases (hdone 0).1

end Upcalls.TcpClient
