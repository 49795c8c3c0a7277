import Upcalls.Library.Tables
import Upcalls.Model.ErrorLink
import Upcalls.Verification.ClientMain.Outcome
import Upcalls.Verification.TcpClient.Failures

/-! # The clients in the error report

The list that `do_error_report` prints of its own clients can be read back. It has those that
are in a connection, each with a socket that is open and not that of another client.
-/

namespace Upcalls.ErrorLink

open Library TcpClient ClientMain

variable {m n : ℕ} {o : Options}

/-! ## Workers that have freed their clients -/

/-- A worker frees its clients when all of them are through, and then it has returned. -/
def Freed (o : Options) (s₀ : Fin m → Worker n) (s : Program m n) : Prop :=
  s.main ≠ .killed → ∀ w, s.freed w = true →
    s.stage w = .returned ∧ Through o (s₀ w).opened (s.workers w)

section Freed

variable {s₀ : Fin m → Worker n} {tr : List (ClientMain.Input m × ClientMain.Output n)}
  {s t : Program m n} {out : ClientMain.Output n} {w : Fin m}

theorem Freed.loop (h : Freed o s₀ s) {a : TcpClient.Input} (hstep : s.loop o w a = some (t, out)) :
    Freed o s₀ t := by
  simp only [Program.loop] at hstep
  split at hstep
  · rename_i hguard
    obtain ⟨⟨workers, x⟩, hprocess, hpair⟩ := Option.map_eq_some_iff.mp hstep
    cases hpair
    intro _ v hv
    obtain ⟨hreturned, hthrough⟩ := h hguard.1 v hv
    have hvw : v ≠ w := by
      rintro rfl
      cases hreturned.symm.trans hguard.2
    refine ⟨?_, through_other (m := m) (o := o) hprocess hvw hthrough⟩
    dsimp only
    split
    · rw [Function.update_of_ne hvw]
      exact hreturned
    · exact hreturned
  · cases hstep

theorem Freed.leave (h : Freed o s₀ s) (hstep : s.leave w = some t) : Freed o s₀ t := by
  simp only [Program.leave] at hstep
  split at hstep
  · rename_i hguard
    cases hstep
    intro hkilled v hv
    obtain ⟨hreturned, hthrough⟩ := h hkilled v hv
    have hvw : v ≠ w := by
      rintro rfl
      cases hreturned.symm.trans hguard.2
    exact ⟨(Function.update_of_ne hvw _ _).trans hreturned, hthrough⟩
  · cases hstep

theorem Freed.clean (h : Freed o s₀ s) (hinv : ClientMain.Inv o s₀ tr s)
    (hstep : s.clean w = some t) : Freed o s₀ t := by
  simp only [Program.clean] at hstep
  split at hstep
  · rename_i hguard
    obtain ⟨hkilled, hcleaning⟩ := hguard
    cases hstep
    have hclean := hinv.cleaning hkilled w hcleaning
    have hsame : Function.update s.workers w (cleanup (s.workers w)) = s.workers := by
      rw [hclean.cleanup, Function.update_eq_self]
    intro _ v hv
    rw [hsame]
    by_cases hvw : v = w
    · rw [hvw]
      exact ⟨Function.update_self .., hclean⟩
    · simp only [Function.update_of_ne hvw] at hv ⊢
      exact h hkilled v hv
  · cases hstep

theorem Freed.main (h : Freed o s₀ s) (hstep : s.mainStep = some t) : Freed o s₀ t := by
  have hgoTo : ∀ pc, s.main ≠ .killed → Freed o s₀ (s.goTo pc) :=
    fun _ hkilled _ v hv => h hkilled v hv
  rw [Program.mainStep] at hstep
  split at hstep
  · rename_i hpc
    have hkilled : s.main ≠ .killed := by
      rw [hpc]
      exact MainPc.noConfusion
    split at hstep
    · split at hstep
      · cases hstep
        exact hgoTo _ hkilled
      · cases hstep
    · cases hstep
      exact hgoTo _ hkilled
  · rename_i hpc
    have hkilled : s.main ≠ .killed := by
      rw [hpc]
      exact MainPc.noConfusion
    split at hstep
    · split at hstep <;> cases hstep <;> exact hgoTo _ hkilled
    · cases hstep
      exact hgoTo _ hkilled
  · cases hstep
  · cases hstep
  · cases hstep

theorem run_freed (hb : 1 ≤ o.batchSize) (ht : 1 ≤ o.transactionCount)
    (hfit : o.transactionCount * n < 2 ^ 64) {p : Program m n} (hstart : (program m n o).Init p)
    (hrun : (program m n o).Run p tr s) : Freed o p.workers s := by
  induction hrun with
  | nil =>
      intro _ w hw
      rw [hstart.freed w] at hw
      cases hw
  | @snoc s t tr a out hrun hlast ih =>
      have hinv := run_inv hb ht hfit hstart hrun
      cases a with
      | worker w a => exact ih.loop hlast
      | leave w =>
          obtain ⟨u, hu, hpair⟩ := Option.map_eq_some_iff.mp hlast
          cases hpair
          exact ih.leave hu
      | cleanup w =>
          obtain ⟨u, hu, hpair⟩ := Option.map_eq_some_iff.mp hlast
          cases hpair
          exact ih.clean hinv hu
      | main =>
          obtain ⟨u, hu, hpair⟩ := Option.map_eq_some_iff.mp hlast
          cases hpair
          exact ih.main hu

end Freed

/-! ## Reading the list -/

structure LocalRow where
  thread : ℕ
  client : ℕ
  port : ℕ
  state : State
  cursor : ℕ
  txnRemaining : ℕ
  batchRemaining : ℕ
  deriving DecidableEq, Repr

def stateName : State → List UInt8
  | .connecting => ascii "CONNECTING"
  | .new => ascii "NEW"
  | .ready => ascii "READY"
  | .sent => ascii "SENT"
  | .init | .done => []

def readState (field : List UInt8) : Option State :=
  [State.connecting, .new, .ready, .sent].find? fun state => stateName state = field

def readLocalRow : List (List UInt8) → Option LocalRow
  | [thread, client, port, state, cursor, txn, batch] =>
      match [thread, client, port, cursor, txn, batch].mapM ofDecimal, readState state with
      | some [thread, client, port, cursor, txn, batch], some state =>
          some ⟨thread, client, port, state, cursor, txn, batch⟩
      | _, _ => none
  | _ => none

def localFields : List (List UInt8) :=
  [ascii "THREAD", ascii "CLIENT", ascii "PORT", ascii "STATE", ascii "CURSOR",
    ascii "TXN_REMAIN", ascii "BATCH_REMAIN"]

/-- The rows behind the header. -/
def readLocal (text : List UInt8) : Option (List LocalRow) :=
  match readTable tab newline text with
  | header :: rows => if header = localFields then rows.mapM readLocalRow else none
  | [] => none

/-! ## Writing the list -/

def LocalRow.fields (r : LocalRow) : List (List UInt8) :=
  [decimal r.thread, decimal r.client, decimal r.port, stateName r.state, decimal r.cursor,
    decimal r.txnRemaining, decimal r.batchRemaining]

theorem localHeader_eq : localHeader = writeRow tab newline localFields := by decide

theorem localFields_readable : Readable tab newline localFields := ⟨by decide, by decide⟩

theorem LocalRow.fields_readable (r : LocalRow) : Readable tab newline r.fields := by
  have hfield : ∀ k, tab ∉ decimal k ∧ newline ∉ decimal k :=
    fun k => ⟨not_mem_decimal rfl, not_mem_decimal rfl⟩
  have hstate : ∀ state, tab ∉ stateName state ∧ newline ∉ stateName state := by
    intro state
    cases state <;> decide
  refine ⟨List.cons_ne_nil _ _, ?_⟩
  intro field hmem
  simp only [fields, List.mem_cons, List.not_mem_nil, or_false] at hmem
  rcases hmem with rfl | rfl | rfl | rfl | rfl | rfl | rfl
  · exact hfield _
  · exact hfield _
  · exact hfield _
  · exact hstate _
  · exact hfield _
  · exact hfield _
  · exact hfield _

theorem readState_stateName {state : State} (h : state.live = true) :
    readState (stateName state) = some state := by
  cases state with
  | init | done => cases h
  | _ => decide

theorem LocalRow.readLocalRow_fields {r : LocalRow} (h : r.state.live = true) :
    readLocalRow r.fields = some r := by
  simp [readLocalRow, fields, ofDecimal_decimal, readState_stateName h]

theorem readLocal_writeTable {rows : List LocalRow} (h : ∀ r ∈ rows, r.state.live = true) :
    readLocal (localHeader ++ writeTable tab newline (rows.map LocalRow.fields)) = some rows := by
  have hrows : (rows.map LocalRow.fields).mapM readLocalRow = some rows := by
    induction rows with
    | nil => rfl
    | cons r rows ih =>
        obtain ⟨hr, hrows⟩ := List.forall_mem_cons.mp h
        simp [List.map_cons, LocalRow.readLocalRow_fields hr, ih hrows]
  have hread : readTable tab newline (writeTable tab newline (rows.map LocalRow.fields)) =
      rows.map LocalRow.fields := by
    apply readTable_writeTable newline_ne_tab
    intro row hrow
    obtain ⟨r, -, rfl⟩ := List.mem_map.mp hrow
    exact r.fields_readable
  rw [readLocal, localHeader_eq, readTable_writeRow newline_ne_tab localFields_readable, hread]
  exact (if_pos rfl).trans hrows

/-! ## The clients that are listed -/

/-- The row of a client. -/
def rowOf (s : Program m n) (port : Fin m → ℤ → UInt16) (x : Fin m × Fin n) : LocalRow :=
  let c := (s.workers x.1).clients x.2
  ⟨x.1, x.2, (port x.1 c.sock).toNat, c.state, c.cursor, c.txnRemaining, c.batchRemaining⟩

/-- The clients that are in a connection, in the order of the loops. -/
def unfinished (s : Program m n) : List (Fin m × Fin n) :=
  (List.finRange m).flatMap fun i =>
    ((List.finRange n).filter fun j => ((s.workers i).clients j).state.live).map (i, ·)

theorem mem_unfinished {s : Program m n} {i : Fin m} {j : Fin n} :
    (i, j) ∈ unfinished s ↔ ((s.workers i).clients j).state.live = true := by
  simp [unfinished]

theorem localLine_eq {s : Program m n} {port : Fin m → ℤ → UInt16} {i : Fin m} {j : Fin n}
    (h : ((s.workers i).clients j).state.live = true) :
    localLine i j (port i ((s.workers i).clients j).sock) ((s.workers i).clients j) =
      writeRow tab newline (rowOf s port (i, j)).fields := by
  have htab : ascii "\t" = [tab] := rfl
  have hnewline : ascii "\n" = [newline] := rfl
  have hstate : stateText ((s.workers i).clients j).state =
      stateName ((s.workers i).clients j).state ++ [tab] := by
    cases hlive : ((s.workers i).clients j).state with
    | init | done =>
        rw [hlive] at h
        cases h
    | _ => rfl
  rw [localLine, LocalRow.fields, writeRow_cons, hstate, htab, hnewline]
  simp [rowOf]

/-- What the loops print. -/
theorem localReport_eq {s : Program m n} (port : Fin m → ℤ → UInt16)
    (hskips : ∀ i j, skips (s.freed i) ((s.workers i).clients j) =
      !((s.workers i).clients j).state.live) :
    localReport s port = localHeader ++
      writeTable tab newline (((unfinished s).map (rowOf s port)).map LocalRow.fields) := by
  rw [localReport, writeTable, unfinished, List.map_flatMap, List.map_flatMap, List.flatMap_assoc]
  congr 1
  apply List.flatMap_congr
  intro i _
  induction List.finRange n with
  | nil => rfl
  | cons j js ih =>
      rw [List.flatMap_cons, ih, List.filter_cons]
      dsimp only
      rw [hskips]
      cases hlive : ((s.workers i).clients j).state.live with
      | true =>
          rw [Bool.not_true, if_neg Bool.false_ne_true, if_pos rfl, localLine_eq hlive]
          rfl
      | false => rfl

/-- The rows are those of the clients that are in a connection. The socket of each, which the
port is taken from, is open, and no other client of its worker has it. -/
structure Lists (s : Program m n) (port : Fin m → ℤ → UInt16) (rows : List LocalRow) :
    Prop where
  rows : rows = (unfinished s).map (rowOf s port)
  sockets : ∀ i j, (i, j) ∈ unfinished s →
    (s.workers i).opened ((s.workers i).clients j).sock = true ∧
      ∀ k, ((s.workers i).clients k).Holds →
        ((s.workers i).clients k).sock = ((s.workers i).clients j).sock → k = j

/-- Whatever calls have failed, when `main` gets to the report its list is read back. -/
theorem clients_listed (hb : 1 ≤ o.batchSize) (ht : 1 ≤ o.transactionCount)
    (hfit : o.transactionCount * n < 2 ^ 64) {p s : Program m n}
    {tr : List (ClientMain.Input m × ClientMain.Output n)} (hstart : (program m n o).Init p)
    (hrun : (program m n o).Run p tr s) (hmain : s.main = .report)
    (port : Fin m → ℤ → UInt16) :
    ∃ rows, readLocal (localReport s port) = some rows ∧ Lists s port rows := by
  have hinv := run_inv hb ht hfit hstart hrun
  have hkept := process_kept ((Machine.Reaches.init hstart.workers).run hinv.run) ht
  have hkilled : s.main ≠ .killed := by
    rw [hmain]
    exact MainPc.noConfusion
  have hfreed := run_freed hb ht hfit hstart hrun hkilled
  have hskips : ∀ i j, skips (s.freed i) ((s.workers i).clients j) =
      !((s.workers i).clients j).state.live := by
    intro i j
    cases hstate : ((s.workers i).clients j).state with
    | init | done => simp [skips, hstate, State.live]
    | _ =>
        have htxn : ((s.workers i).clients j).txnRemaining ≠ 0 := by
          refine (hkept i).txn ?_
          rw [hstate]
          exact State.noConfusion
        have hnot : s.freed i = false := by
          by_contra hne
          have hdone := ((hfreed i (by simpa using hne)).2.done j).1
          rw [hstate] at hdone
          cases hdone
        simp [skips, hstate, State.live, htxn, hnot]
  refine ⟨_, ?_, rfl, ?_⟩
  · rw [localReport_eq port hskips]
    apply readLocal_writeTable
    intro r hr
    obtain ⟨⟨i, j⟩, hmem, rfl⟩ := List.mem_map.mp hr
    exact mem_unfinished.mp hmem
  · intro i j hmem
    have hholds := Client.holds_of_live (mem_unfinished.mp hmem)
    exact ⟨((hkept i).opened hholds).2, fun k hk hsock => (hkept i).apart hk hholds hsock⟩

/-- One client is in its first connection, and the other one begins its second, when a `recv`
fails. -/
def toReport (w : Fin 1) : List (ClientMain.Input 1) :=
  (twoConnections ++ [TcpClient.Input.wait [5], .run, .recv .error, .run]).map (.worker w) ++
    [.leave w, .main, .main, .main]

theorem toReport_runs : ((program 1 2 threeTxns).exec oneWorker (toReport 0)).isSome := by decide

theorem clients_listed_toReport :
    ∃ tr s, (program 1 2 threeTxns).Run oneWorker tr s ∧ s.main = .report ∧
      (unfinished s).length = 2 ∧ ∃ rows, readLocal (localReport s fun _ _ => 40000) = some rows ∧
        Lists s (fun _ _ => 40000) rows := by
  have hrun := Machine.run_of_exec (Option.some_get toReport_runs).symm
  exact ⟨_, _, hrun, rfl, rfl,
    clients_listed (by decide) (by decide) (by decide) oneWorker_start hrun rfl _⟩

end Upcalls.ErrorLink
