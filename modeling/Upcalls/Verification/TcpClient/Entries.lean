import Upcalls.Verification.TcpClient.Log
import Upcalls.Verification.TcpClient.Refusals

/-! # The entries of a worker, and the whole log of a client that is through -/

namespace Upcalls.TcpClient

open Library

variable {m n : ℕ} {o : Options}

/-! ## Entries that fit into the words of the log -/

/-- The values of an entry of worker `index`. -/
structure Entry.Fits (n index : ℕ) (e : Entry) : Prop where
  index : e.index = index
  client : e.client < n
  txn : e.txn < 2 ^ 64

namespace Worker

variable {s s' : Worker n} {a : Input} {out : Output n}

def Signed (s : Worker n) : Prop := ∀ e ∈ s.log.entries, e.Fits n s.index

theorem fits_tsclog4 {index : ℕ} {log : TscLog} {e : Entry}
    (h : ∀ e ∈ log.entries, e.Fits n index) (he : e.Fits n index) :
    ∀ e' ∈ (log.tsclog4 e).entries, e'.Fits n index := by
  rw [TscLog.tsclog4]
  split
  · exact h
  · intro e' hmem
    rcases List.mem_append.mp hmem with hmem | hmem
    · exact h e' hmem
    · rw [List.mem_singleton.mp hmem]
      exact he

theorem fits_entry (s : Worker n) (j : Fin n) (txnRemaining : ℕ) (event : LogEvent) :
    (s.entry o j txnRemaining event).Fits n s.index :=
  ⟨rfl, j.isLt, Nat.mod_lt _ (Nat.two_pow_pos 64)⟩

theorem Stepped.index (h : Stepped o s a s' out) : s'.index = s.index := by
  cases h with
  | enteredOther =>
      rw [enter]
      split <;> rfl
  | _ => rfl

theorem Stepped.signed (h : Stepped o s a s' out) (hs : s.Inv) (hsigned : s.Signed) :
    s'.Signed := by
  have hentry : ∀ {log : TscLog} {j : Fin n} {txnRemaining : ℕ} {event : LogEvent},
      (∀ e ∈ log.entries, e.Fits n s.index) →
      ∀ e ∈ (log.tsclog4 (s.entry o j txnRemaining event)).entries, e.Fits n s.index :=
    fun hlog => fits_tsclog4 hlog (fits_entry s _ _ _)
  rw [Signed, h.index]
  cases h with
  | enteredOther hpc htodo hstate =>
      exact (hs.not_other hpc (htodo ▸ List.mem_cons_self) hstate).elim
  | connectedAtOnce => exact hentry (hentry (hentry hsigned))
  | next => exact hentry (hentry hsigned)
  | enteredConnecting | enteredSent | began | added | sentAll | again | finished | batchEnded =>
      exact hentry hsigned
  | _ => exact hsigned

theorem reaches_signed {tr : List (Input × Output n)} (h : (worker n o).Reaches tr s)
    (hdying : s.dying = false) : s.Signed := by
  have hboth := reaches_induction (P := fun _ s => s.Inv ∧ s.Signed) ?_ ?_ h hdying
  · exact hboth.2
  · intro s hs
    refine ⟨inv_start hs, ?_⟩
    rw [Signed, hs.log.1]
    exact List.forall_mem_nil _
  · rintro tr s a out s' - ⟨hs, hsigned⟩ hstep
    exact ⟨(hstep.kept hs).1, hstep.signed hs hsigned⟩

end Worker

/-- The workers keep the numbers that `main` gives them. -/
theorem process_index {tr : List ((Fin m × Input) × Output n)} {s : Fin m → Worker n}
    (h : (process m n o).Reaches tr s) (hdying : ∀ w, (s w).dying = false) (w : Fin m) :
    (s w).index = w := by
  induction h with
  | init hs => exact (hs w).1
  | @step tr s t a out _ hlast ih =>
      obtain ⟨hstep, hother, hbefore⟩ := processStep_alive hlast hdying
      by_cases hw : w = a.1
      · subst hw
        rw [(Worker.step_spec hstep (hdying a.1)).index]
        exact ih hbefore
      · rw [hother w hw]
        exact ih hbefore

/-! ## A client that is through -/

/-- All connections of the life are closed. -/
theorem Life.wellFormed_past {b total : ℕ} {l : Life} (hl : l.work.Ok b total)
    (hreceived : l.Received) : WellFormed b l.work.past := by
  refine ⟨fun rs hrs => ⟨hl.pos rs hrs, hl.le_size hrs⟩, ?_, hreceived.1⟩
  intro rs hrs
  obtain ⟨pre, post, hsplit⟩ := List.append_of_mem hrs
  have hne : l.work.past ≠ [] := List.ne_nil_of_mem (List.mem_of_mem_dropLast hrs)
  have hpast : l.work.past = pre ++ rs :: (post ++ [l.work.past.getLast hne]) := by
    rw [← List.cons_append, ← List.append_assoc, ← hsplit, List.dropLast_append_getLast]
  exact hl.full hpast (.inl (by simp))

/-- The log of a client that is through is that of whole connections, with all its
transactions. -/
theorem Worker.Known.whole {tr : List (Input × Output n)} {s : Worker n} {j : Fin n} {l : Life}
    (h : Known o tr s j l) (hdone : (s.clients j).state = .done)
    (hnone : (s.clients j).txnRemaining = 0) (hroom : s.log.overflow = false) :
    ∃ cs, WellFormed o.batchSize cs ∧ cs.flatten.length = o.transactionCount ∧
      entriesOf j s.log = connections 0 cs := by
  obtain ⟨hstate, htxn, -, -⟩ := h.lives
  have hwell := l.wellFormed_past h.ok h.received
  have hlog := h.log hroom
  rw [hdone] at hstate
  cases hstate with
  | @done past =>
      refine ⟨past, hwell, ?_, ?_⟩
      · simpa [Batches.count, Batches.before, hnone] using htxn
      · rw [hlog, Life.log, List.append_nil]

end Upcalls.TcpClient
