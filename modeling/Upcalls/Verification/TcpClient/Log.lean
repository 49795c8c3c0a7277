import Upcalls.Verification.TcpClient.Life

/-! # What the log of a client looks like -/

namespace Upcalls.TcpClient

open Library

variable {n : ℕ} {o : Options}

/-- Connections of at most `b` transactions, all but the last of `b`, each transaction with
a receive at least. -/
structure WellFormed (b : ℕ) (cs : List (List ℕ)) : Prop where
  sizes : ∀ rs ∈ cs, 1 ≤ rs.length ∧ rs.length ≤ b
  full : ∀ rs ∈ cs.dropLast, rs.length = b
  receives : ∀ rs ∈ cs, ∀ r ∈ rs, 1 ≤ r

namespace Life

variable {b total : ℕ} {l : Life}

/-- How the open connection might go on: with one receive more for the transaction under
way. -/
def nextReceives : Phase → ℕ
  | .sent r | .receiving r => r + 1
  | _ => 1

theorem one_le_nextReceives (p : Phase) : 1 ≤ nextReceives p := by
  cases p with
  | sent r => exact Nat.le_add_left 1 r
  | receiving r => exact Nat.le_add_left 1 r
  | _ => exact Nat.le_refl 1

theorem tail_isPrefix (txn : ℕ) (rs : List ℕ) (p : Phase) :
    tail txn rs p <+: connection txn (rs ++ [nextReceives p]) := by
  rw [connection_snoc]
  cases p with
  | closed => exact List.nil_prefix
  | connecting => exact ⟨[(txn, .connectDone)] ++ transactions txn rs ++ _, rfl⟩
  | connected => exact List.prefix_append _ _
  | sending =>
      refine (List.prefix_append_right_inj _).mpr ?_
      exact ⟨_, rfl⟩
  | sent r =>
      rw [nextReceives, transaction_succ, ← List.append_assoc]
      exact List.prefix_append _ _
  | receiving r =>
      rw [nextReceives, transaction_succ, tail, List.append_assoc]
      refine (List.prefix_append_right_inj _).mpr ((List.prefix_append_right_inj _).mpr ?_)
      exact ⟨[_], rfl⟩

/-- The log of a life is that of whole connections, cut off somewhere. -/
theorem log_isPrefix (hl : l.work.Ok b total) (hreceived : l.Received) :
    ∃ cs, WellFormed b cs ∧ cs.flatten.length ≤ total ∧ l.log <+: connections 0 cs := by
  have hpast : ∀ rs ∈ l.work.past, 1 ≤ rs.length ∧ rs.length ≤ b :=
    fun rs hrs => ⟨hl.pos rs hrs, hl.le_size hrs⟩
  cases hcur : l.work.cur with
  | none =>
      refine ⟨l.work.past, ⟨hpast, ?_, hreceived.1⟩, hl.le, ?_⟩
      · intro rs hrs
        obtain ⟨pre, post, hsplit⟩ := List.append_of_mem hrs
        have hne : l.work.past ≠ [] := List.ne_nil_of_mem (List.mem_of_mem_dropLast hrs)
        have hpast : l.work.past = pre ++ rs :: (post ++ [l.work.past.getLast hne]) := by
          rw [← List.cons_append, ← List.append_assoc, ← hsplit, List.dropLast_append_getLast]
        exact hl.full hpast (.inl (by simp))
      · rw [log, hcur, List.append_nil]
  | some rs =>
      have hroom := hl.cur hcur
      refine ⟨l.work.past ++ [rs ++ [nextReceives l.phase]], ⟨?_, ?_, ?_⟩, ?_, ?_⟩
      · intro rs' hrs'
        rcases List.mem_append.mp hrs' with hrs' | hrs'
        · exact hpast rs' hrs'
        · rw [List.mem_singleton.mp hrs', List.length_append, List.length_singleton]
          omega
      · intro rs' hrs'
        rw [List.dropLast_concat] at hrs'
        obtain ⟨pre, post, hsplit⟩ := List.append_of_mem hrs'
        exact hl.full hsplit (.inr (by omega))
      · intro rs' hrs' r hr
        rcases List.mem_append.mp hrs' with hrs' | hrs'
        · exact hreceived.1 rs' hrs' r hr
        · rw [List.mem_singleton.mp hrs'] at hr
          rcases List.mem_append.mp hr with hr | hr
          · exact hreceived.2 rs hcur r hr
          · rw [List.mem_singleton.mp hr]
            exact one_le_nextReceives _
      · simp only [Batches.before] at hroom
        simp only [List.flatten_append, List.flatten_singleton, List.length_append,
          List.length_singleton]
        omega
      · rw [log, hcur, connections_snoc, Nat.zero_add]
        exact (List.prefix_append_right_inj _).mpr (tail_isPrefix _ _ _)

end Life

/-! ## No transactions to do -/

namespace Worker

/-- What a client has logged that is called once. -/
def opening : State → List (ℕ × LogEvent)
  | .connecting => [(0, .connectStart)]
  | .ready => connection 0 [] ++ [(0, .sendStart)]
  | .sent => connection 0 [] ++ transaction 0 0
  | _ => []

/-- With no transactions to do a client that waits for an event is not called again. -/
structure Once (s : Worker n) (j : Fin n) : Prop where
  txn : (s.clients j).txnRemaining = 0
  state : (s.clients j).state = .init ∨ (s.clients j).state = .ready ∨
    ((s.clients j).state = .connecting ∨ (s.clients j).state = .sent) ∧ ¬ s.Busy j
  log : s.log.overflow = false → entriesOf j s.log = opening (s.clients j).state

section Once

variable {s s' : Worker n} {a : Input} {out : Output n} {j : Fin n}

theorem once_start (hs : Start o s) (ht : o.transactionCount = 0) (j : Fin n) : s.Once j := by
  obtain ⟨buf, -, hj⟩ := hs.clients j
  refine ⟨?_, ?_, ?_⟩
  · rw [hj]
    exact ht
  · rw [hj]
    exact .inl rfl
  · intro _
    rw [hj, entriesOf, hs.log.1]
    rfl

theorem Once.idle (h : s.Once j) (hbusy : s.Busy j)
    (hstate : (s.clients j).state = .connecting ∨ (s.clients j).state = .sent) : False := by
  rcases h.state with hinit | hready | ⟨-, hnot⟩
  · rw [hinit] at hstate
    simp at hstate
  · rw [hready] at hstate
    simp at hstate
  · exact hnot hbusy

theorem Once.not_new (h : s.Once j) (hstate : (s.clients j).state = .new) : False := by
  have hpossible := h.state
  rw [hstate] at hpossible
  simp at hpossible

/-- A step that logs for client `j` takes what it has logged with it. -/
theorem Once.go {entries : List (ℕ × LogEvent)} {c : Client} (h : s.Once j)
    (hclient : s'.clients j = c) (htxn : c.txnRemaining = (s.clients j).txnRemaining)
    (hstate : c.state = .init ∨ c.state = .ready ∨
      (c.state = .connecting ∨ c.state = .sent) ∧ ¬ s'.Busy j)
    (hlogs : Logs j s.log entries s'.log)
    (hentries : opening (s.clients j).state ++ entries = opening c.state) : s'.Once j := by
  subst hclient
  refine ⟨htxn.trans h.txn, hstate, ?_⟩
  intro hroom
  obtain ⟨hbefore, hlog⟩ := hlogs hroom
  rw [hlog, h.log hbefore, hentries]

theorem goesOn_eq_false (s : Worker n) (ht : o.transactionCount = 0) : s.goesOn o = false := by
  simp [goesOn, total, ht]

theorem Stepped.mem_todo (h : Stepped o s a s' out) (hs : s.Inv) (ht : o.transactionCount = 0)
    (hj : j ∈ s'.todo) : j ∈ s.todo := by
  cases h with
  | waited hpc htodo hgoes =>
      rw [goesOn_eq_false s ht] at hgoes
      cases hgoes
  | enteredInit hpc htodo | enteredConnecting hpc htodo | enteredSent hpc htodo =>
      rw [htodo]
      exact List.mem_cons_of_mem _ hj
  | enteredOther hpc htodo hstate =>
      exact (hs.not_other hpc (htodo ▸ List.mem_cons_self) hstate).elim
  | _ => exact hj

theorem Stepped.once (h : Stepped o s a s' out) (hs : s.Inv) (ht : o.transactionCount = 0)
    (hj : s.Once j) : s'.Once j := by
  have htodo : j ∈ s'.todo → j ∈ s.todo := h.mem_todo hs ht
  have hlog := logs_nil j s.log
  have hcount : 0 + (s.clients j).txnRemaining = o.transactionCount := by rw [hj.txn, ht]
  by_cases hcall : s.pc.client = some j ∨ s'.pc.client = some j
  · have hentered : ∀ {i todo}, s.todo = i :: todo → i = j → s.Busy j := by
      rintro i todo hcons rfl
      exact .inl (hcons ▸ List.mem_cons_self)
    have hrunning : ∀ {i count cursor}, s.pc = .call i count cursor → i = j → s.Busy j := by
      rintro i count cursor hpc rfl
      exact .inr (by rw [hpc]; rfl)
    cases h with
    | waited hpc | timedOut hpc | exited hpc =>
        simp [hpc, disarm, goTo, Pc.client] at hcall
    | @enteredInit i todo hpc hcons hstate =>
        simp only [hpc, Pc.client, reduceCtorEq, false_or, Option.some.injEq] at hcall
        subst hcall
        exact hj.go (Function.update_self ..) rfl (.inl hstate) hlog (List.append_nil _)
    | @enteredConnecting i todo hpc hcons hstate =>
        simp only [hpc, Pc.client, reduceCtorEq, false_or, Option.some.injEq] at hcall
        subst hcall
        exact (hj.idle (hentered hcons rfl) (.inl hstate)).elim
    | @enteredSent i todo hpc hcons hstate =>
        simp only [hpc, Pc.client, reduceCtorEq, false_or, Option.some.injEq] at hcall
        subst hcall
        exact (hj.idle (hentered hcons rfl) (.inr hstate)).elim
    | enteredOther hpc hcons hstate =>
        exact (hs.not_other hpc (hcons ▸ List.mem_cons_self) hstate).elim
    | @connectedAtOnce i count cursor fd hpc hstate =>
        simp only [hpc, Pc.client, or_self, Option.some.injEq] at hcall
        subst hcall
        refine hj.go (Function.update_self ..) rfl (.inr (.inl rfl))
          (logs_entry s i (logs_entry s i (logs_entry s i hlog hcount _) hcount _) hcount _) ?_
        rw [hstate]
        rfl
    | @began i count cursor fd hpc hstate =>
        simp only [hpc, Pc.client, reduceCtorEq, or_false, Option.some.injEq] at hcall
        subst hcall
        refine hj.go (Function.update_self ..) rfl (.inr (.inr ⟨.inl rfl, ?_⟩))
          (logs_entry s i hlog hcount _) ?_
        · rintro (hmem | hclient)
          · exact hs.away (by rw [hpc]; rfl) hmem
          · cases hclient
        · rw [hstate]
          rfl
    | @sentPart i count cursor k hpc hstate =>
        simp only [hpc, Pc.client, or_self, Option.some.injEq] at hcall
        subst hcall
        exact hj.go rfl rfl (.inr (.inl hstate)) hlog (List.append_nil _)
    | @sentAll i count cursor k hpc hstate =>
        simp only [hpc, Pc.client, reduceCtorEq, or_false, Option.some.injEq] at hcall
        subst hcall
        refine hj.go (Function.update_self ..) rfl (.inr (.inr ⟨.inr rfl, ?_⟩))
          (logs_entry s i hlog hcount _) ?_
        · rintro (hmem | hclient)
          · exact hs.away (by rw [hpc]; rfl) hmem
          · cases hclient
        · rw [hstate]
          rfl
    | @connected i count cursor hpc hstate =>
        simp only [hpc, Pc.client, or_self, Option.some.injEq] at hcall
        subst hcall
        exact (hj.idle (hrunning hpc rfl) (.inl hstate)).elim
    | @added i count cursor hpc hstate =>
        simp only [hpc, Pc.client, or_self, Option.some.injEq] at hcall
        subst hcall
        exact (hj.not_new hstate).elim
    | @receivedPart i count cursor bytes hpc hstate | @again i count cursor hpc hstate
    | @finished i count cursor answer buf hpc hstate
    | @batchEnded i count cursor answer buf hpc hstate
    | @next i count cursor answer buf hpc hstate =>
        simp only [hpc, Pc.client, reduceCtorEq, or_false, or_self, Option.some.injEq] at hcall
        subst hcall
        exact (hj.idle (hrunning hpc rfl) (.inr hstate)).elim
  · rw [not_or] at hcall
    obtain ⟨hclients, -, hlogs⟩ := h.apart hs hcall.1 hcall.2
    refine hj.go rfl (by rw [hclients]) ?_ hlogs (by rw [hclients, List.append_nil])
    rw [hclients]
    refine hj.state.imp_right (Or.imp_right (And.imp_right fun hnot hbusy => hnot (.inl ?_)))
    exact htodo (hbusy.resolve_right hcall.2)

theorem reaches_once {tr : List (Input × Output n)} (h : (worker n o).Reaches tr s)
    (hdying : s.dying = false) (ht : o.transactionCount = 0) (j : Fin n) : s.Once j := by
  have honce := reaches_induction (P := fun _ s => s.Inv ∧ s.Once j) ?_ ?_ h hdying
  · exact honce.2
  · intro s hs
    exact ⟨inv_start hs, once_start hs ht j⟩
  · rintro tr s a out s' - ⟨hs, hj⟩ hstep
    exact ⟨(hstep.kept hs).1, hstep.once hs ht hj⟩

end Once

end Worker

/-- That is the beginning of a connection with one transaction. -/
theorem opening_isPrefix (state : State) : Worker.opening state <+: connections 0 [[1]] := by
  cases state with
  | connecting => exact ⟨_, rfl⟩
  | ready => exact ⟨_, rfl⟩
  | sent => exact ⟨_, rfl⟩
  | _ => exact List.nil_prefix

/-! ## The grammar -/

/-- As long as no entry is dropped, the log of a client is the one of some connections, cut
off somewhere. A client with nothing to do may begin a transaction all the same. -/
theorem Worker.log_grammar {tr : List (Input × Output n)} {s : Worker n}
    (h : (worker n o).Reaches tr s) (hdying : s.dying = false) (hb : 1 ≤ o.batchSize)
    (hroom : s.log.overflow = false) (j : Fin n) :
    ∃ cs, WellFormed o.batchSize cs ∧ cs.flatten.length ≤ max 1 o.transactionCount ∧
      entriesOf j s.log <+: connections 0 cs := by
  rcases Nat.eq_zero_or_pos o.transactionCount with ht | ht
  · refine ⟨[[1]], ⟨?_, ?_, ?_⟩, Nat.le_max_left _ _, ?_⟩
    · intro rs hrs
      rw [List.mem_singleton.mp hrs]
      exact ⟨Nat.le_refl 1, hb⟩
    · exact List.forall_mem_nil _
    · intro rs hrs r hr
      rw [List.mem_singleton.mp hrs] at hr
      exact (List.mem_singleton.mp hr).ge
    · rw [(reaches_once h hdying ht j).log hroom]
      exact opening_isPrefix _
  · obtain ⟨l, hl⟩ := reaches_known h hdying hb ht j
    obtain ⟨cs, hwell, hle, hprefix⟩ := l.log_isPrefix hl.ok hl.received
    rw [hl.log hroom]
    exact ⟨cs, hwell, hle.trans (Nat.le_max_right _ _), hprefix⟩

theorem log_grammar_twoConnections :
    ∃ tr s, (worker 2 threeTxns).Reaches tr s ∧ (entriesOf (1 : Fin 2) s.log).length = 13 ∧
      ∃ cs, WellFormed 2 cs ∧ cs.flatten.length ≤ 3 ∧
        entriesOf (1 : Fin 2) s.log <+: connections 0 cs := by
  have hreach := Machine.reaches_exec_get twoClients_start twoConnections_runs
  exact ⟨_, _, hreach, rfl,
    Worker.log_grammar hreach rfl (by decide) rfl (1 : Fin 2)⟩

end Upcalls.TcpClient
