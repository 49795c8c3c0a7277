import Upcalls.Library.Batches
import Upcalls.Verification.TcpClient.Registration

/-! # The life of a client

A client works on its transactions in batches, one for each connection. What it logs and
what it counts follow from where it is in this work.
-/

namespace Upcalls.TcpClient

open Library

/-! ## The log of a client -/

/-- The events of transaction `txn` when its response came in `r` receives. -/
def transaction (txn r : ℕ) : List (ℕ × LogEvent) :=
  [(txn, .sendStart), (txn, .sendDone)] ++
    (List.replicate r [(txn, .recvStart), (txn, .recvDone)]).flatten

def transactions (txn : ℕ) : List ℕ → List (ℕ × LogEvent)
  | [] => []
  | r :: rs => transaction txn r ++ transactions (txn + 1) rs

/-- A connection whose first transaction is `txn`. -/
def connection (txn : ℕ) (rs : List ℕ) : List (ℕ × LogEvent) :=
  [(txn, .connectStart), (txn, .connectDone)] ++ transactions txn rs

def connections (txn : ℕ) : List (List ℕ) → List (ℕ × LogEvent)
  | [] => []
  | rs :: rest => connection txn rs ++ connections (txn + rs.length) rest

theorem transaction_succ (txn r : ℕ) :
    transaction txn (r + 1) = transaction txn r ++ [(txn, .recvStart), (txn, .recvDone)] := by
  rw [transaction, transaction, List.replicate_succ', List.flatten_append,
    List.flatten_singleton, List.append_assoc]

theorem transactions_snoc (txn : ℕ) (rs : List ℕ) (r : ℕ) :
    transactions txn (rs ++ [r]) = transactions txn rs ++ transaction (txn + rs.length) r := by
  induction rs generalizing txn with
  | nil => simp [transactions]
  | cons r' rs ih =>
      rw [List.cons_append, transactions, transactions, ih, List.append_assoc,
        List.length_cons, Nat.add_assoc, Nat.add_comm 1]

theorem connection_snoc (txn : ℕ) (rs : List ℕ) (r : ℕ) :
    connection txn (rs ++ [r]) = connection txn rs ++ transaction (txn + rs.length) r := by
  rw [connection, connection, transactions_snoc, List.append_assoc]

theorem connections_append (txn : ℕ) (as bs : List (List ℕ)) :
    connections txn (as ++ bs) =
      connections txn as ++ connections (txn + as.flatten.length) bs := by
  induction as generalizing txn with
  | nil => rfl
  | cons rs as ih =>
      rw [List.cons_append, connections, connections, ih, List.append_assoc, List.flatten_cons,
        List.length_append, Nat.add_assoc]

theorem connections_snoc (txn : ℕ) (as : List (List ℕ)) (rs : List ℕ) :
    connections txn (as ++ [rs]) =
      connections txn as ++ connection (txn + as.flatten.length) rs := by
  rw [connections_append]
  simp [connections]

/-! ## Lives -/

/-- Where a client is in the work on its open connection: `r` are the receives of the
transaction under way. -/
inductive Phase
  | closed
  | connecting
  | connected
  | sending
  | sent (r : ℕ)
  | receiving (r : ℕ)

/-- The work is a list of connections, each a list of transactions: for each, the number of
receives of its response. -/
structure Life where
  work : Batches ℕ
  phase : Phase

/-- What the steps of a worker show of a client. -/
inductive Event
  | opened
  | completed (closed : Bool)
  deriving DecidableEq

namespace Life

/-- The steps of a life, with what is logged and what shows. -/
inductive Move (b total : ℕ) : Life → List (ℕ × LogEvent) → Option Event → Life → Prop
  | stay {l} : Move b total l [] none l
  | connectAtOnce {past} : past.flatten.length < total →
      Move b total ⟨⟨past, none⟩, .closed⟩
        [(past.flatten.length, .connectStart), (past.flatten.length, .connectDone),
          (past.flatten.length, .sendStart)]
        (some .opened) ⟨⟨past, some []⟩, .sending⟩
  | connect {past} : past.flatten.length < total →
      Move b total ⟨⟨past, none⟩, .closed⟩ [(past.flatten.length, .connectStart)]
        (some .opened) ⟨⟨past, some []⟩, .connecting⟩
  | connected {past} :
      Move b total ⟨⟨past, some []⟩, .connecting⟩ [(past.flatten.length, .connectDone)]
        none ⟨⟨past, some []⟩, .connected⟩
  | send {past} :
      Move b total ⟨⟨past, some []⟩, .connected⟩ [(past.flatten.length, .sendStart)]
        none ⟨⟨past, some []⟩, .sending⟩
  | sent {past rs} :
      Move b total ⟨⟨past, some rs⟩, .sending⟩
        [(past.flatten.length + rs.length, .sendDone)] none ⟨⟨past, some rs⟩, .sent 0⟩
  | receive {past rs r} :
      Move b total ⟨⟨past, some rs⟩, .sent r⟩
        [(past.flatten.length + rs.length, .recvStart)] none ⟨⟨past, some rs⟩, .receiving r⟩
  | again {past rs r} :
      Move b total ⟨⟨past, some rs⟩, .receiving r⟩
        [(past.flatten.length + rs.length, .recvDone)] none ⟨⟨past, some rs⟩, .sent (r + 1)⟩
  | next {past rs r} : rs.length + 1 ≠ b → past.flatten.length + rs.length + 1 ≠ total →
      Move b total ⟨⟨past, some rs⟩, .receiving r⟩
        [(past.flatten.length + rs.length, .recvDone),
          (past.flatten.length + rs.length + 1, .sendStart)]
        (some (.completed false)) ⟨⟨past, some (rs ++ [r + 1])⟩, .sending⟩
  | close {past rs r} :
      rs.length + 1 = b ∨ past.flatten.length + rs.length + 1 = total →
      Move b total ⟨⟨past, some rs⟩, .receiving r⟩
        [(past.flatten.length + rs.length, .recvDone)]
        (some (.completed true)) ⟨⟨past ++ [rs ++ [r + 1]], none⟩, .closed⟩

variable {b total : ℕ} {l l' : Life} {entries : List (ℕ × LogEvent)} {e : Option Event}

theorem Move.work (h : Move b total l entries e l') :
    l'.work = l.work ∨ Batches.Step b total l.work l'.work := by
  cases h with
  | connectAtOnce hlt => exact .inr (.start hlt)
  | connect hlt => exact .inr (.start hlt)
  | next hb htotal => exact .inr (.item _ hb htotal)
  | close hlast => exact .inr (.last _ hlast)
  | _ => exact .inl rfl

theorem Move.ok (h : Move b total l entries e l') (hb : 1 ≤ b) (hl : l.work.Ok b total) :
    l'.work.Ok b total := by
  rcases h.work with hsame | hstep
  · rw [hsame]
    exact hl
  · exact hstep.ok hb hl

/-- Each transaction that is complete took a receive at least. -/
def Received (l : Life) : Prop :=
  (∀ rs ∈ l.work.past, ∀ r ∈ rs, 1 ≤ r) ∧ ∀ rs, l.work.cur = some rs → ∀ r ∈ rs, 1 ≤ r

theorem Move.received (h : Move b total l entries e l') (hl : l.Received) : l'.Received := by
  obtain ⟨hpast, hcur⟩ := hl
  cases h with
  | stay => exact ⟨hpast, hcur⟩
  | connectAtOnce hlt => exact ⟨hpast, by simp⟩
  | connect hlt => exact ⟨hpast, by simp⟩
  | @next past rs r hb htotal =>
      refine ⟨hpast, ?_⟩
      intro rs' hrs' k hk
      cases hrs'
      rcases List.mem_append.mp hk with hk | hk
      · exact hcur rs rfl k hk
      · rw [List.mem_singleton.mp hk]
        omega
  | @close past rs r hlast =>
      refine ⟨?_, by simp⟩
      intro rs' hrs' k hk
      rcases List.mem_append.mp hrs' with hrs' | hrs'
      · exact hpast rs' hrs' k hk
      · rw [List.mem_singleton.mp hrs'] at hk
        rcases List.mem_append.mp hk with hk | hk
        · exact hcur rs rfl k hk
        · rw [List.mem_singleton.mp hk]
          omega
  | _ => exact ⟨hpast, hcur⟩

/-! ### The log -/

/-- What is logged of the open connection. -/
def tail (txn : ℕ) (rs : List ℕ) : Phase → List (ℕ × LogEvent)
  | .closed => []
  | .connecting => [(txn, .connectStart)]
  | .connected => connection txn rs
  | .sending => connection txn rs ++ [(txn + rs.length, .sendStart)]
  | .sent r => connection txn rs ++ transaction (txn + rs.length) r
  | .receiving r =>
      connection txn rs ++ transaction (txn + rs.length) r ++ [(txn + rs.length, .recvStart)]

def log (l : Life) : List (ℕ × LogEvent) :=
  connections 0 l.work.past ++
    match l.work.cur with
    | none => []
    | some rs => tail l.work.before rs l.phase

theorem Move.log (h : Move b total l entries e l') : l'.log = l.log ++ entries := by
  cases h with
  | stay => rw [List.append_nil]
  | next hb htotal =>
      simp only [Life.log, tail, Batches.before, connection_snoc, transaction_succ,
        List.append_assoc, List.length_append, List.length_singleton, List.cons_append,
        List.nil_append, Nat.add_assoc]
  | close hlast =>
      simp only [Life.log, tail, Batches.before, connections_snoc, connection_snoc,
        transaction_succ, List.append_assoc, Nat.zero_add, List.cons_append, List.nil_append,
        List.append_nil]
  | again =>
      simp only [Life.log, tail, transaction_succ, Batches.before, List.append_assoc,
        List.cons_append, List.nil_append]
  | _ => simp [Life.log, tail, Batches.before, connection, transactions, transaction]

/-! ### The connections -/

end Life

/-- A connection, with the transactions it has carried. -/
structure Conn where
  txns : ℕ
  closed : Bool
  deriving DecidableEq, Repr

def Conn.next (cs : List Conn) : Event → List Conn
  | .opened => cs ++ [⟨0, false⟩]
  | .completed closed =>
      match cs.getLast? with
      | some c => cs.dropLast ++ [⟨c.txns + 1, closed⟩]
      | none => cs

namespace Life

variable {b total : ℕ} {l l' : Life} {entries : List (ℕ × LogEvent)} {e : Option Event}

def conns (l : Life) : List Conn :=
  (l.work.past.map fun rs => ⟨rs.length, true⟩) ++
    (l.work.cur.map fun rs => (⟨rs.length, false⟩ : Conn)).toList

theorem Move.conns (h : Move b total l entries e l') :
    l'.conns = e.elim l.conns (Conn.next l.conns) := by
  cases h with
  | next hb htotal => simp [Life.conns, Conn.next]
  | close hlast => simp [Life.conns, Conn.next]
  | _ => simp [Life.conns, Conn.next]

theorem sum_conns (past : List (List ℕ)) :
    ((past.map fun rs => (⟨rs.length, true⟩ : Conn)).map Conn.txns).sum = past.flatten.length := by
  rw [List.map_map, List.length_flatten]
  rfl

theorem carried_past (hl : l.work.Ok b total) {pre post : List Conn} {c : Conn}
    (h : l.work.past.map (fun rs => (⟨rs.length, true⟩ : Conn)) = pre ++ c :: post) :
    c.closed = true ∧ c.txns = min b (total - (pre.map Conn.txns).sum) := by
  obtain ⟨before, rest, hpast, rfl, hrest⟩ := List.map_eq_append_iff.mp h
  obtain ⟨rs, after, rfl, rfl, -⟩ := List.map_eq_cons_iff.mp hrest
  refine ⟨rfl, ?_⟩
  rw [sum_conns]
  exact hl.sizes hpast

/-- A closed connection has carried as many transactions as fit in a batch or as were left
when it was opened, and an open one fewer. -/
theorem carried (hl : l.work.Ok b total) {pre post : List Conn} {c : Conn}
    (h : l.conns = pre ++ c :: post) :
    if c.closed then c.txns = min b (total - (pre.map Conn.txns).sum)
    else c.txns < min b (total - (pre.map Conn.txns).sum) := by
  rw [conns] at h
  cases hcur : l.work.cur with
  | none =>
      rw [hcur, Option.map_none, Option.toList_none, List.append_nil] at h
      obtain ⟨hclosed, htxns⟩ := carried_past hl h
      rw [if_pos hclosed]
      exact htxns
  | some rs =>
      rw [hcur, Option.map_some, Option.toList_some] at h
      rcases List.eq_nil_or_concat post with rfl | ⟨post, z, rfl⟩
      · obtain ⟨rfl, hc⟩ := List.append_inj' h rfl
        cases List.singleton_inj.mp hc
        rw [sum_conns]
        exact hl.cur hcur
      · rw [List.concat_eq_append, ← List.cons_append, ← List.append_assoc] at h
        obtain ⟨hpast, -⟩ := List.append_inj' h rfl
        obtain ⟨hclosed, htxns⟩ := carried_past hl hpast
        rw [if_pos hclosed]
        exact htxns

end Life

/-! ## Clients have lives -/

/-- Where a life is by the state of its client; `called` says that the client is inside of
`do_state_transition`. -/
inductive StateAt (called : Prop) : Life → State → Prop
  | init {past} : StateAt called ⟨⟨past, none⟩, .closed⟩ .init
  | connecting {past} : ¬ called → StateAt called ⟨⟨past, some []⟩, .connecting⟩ .connecting
  | connected {past} : called → StateAt called ⟨⟨past, some []⟩, .connected⟩ .connecting
  | new {past} : StateAt called ⟨⟨past, some []⟩, .connected⟩ .new
  | ready {past rs} : StateAt called ⟨⟨past, some rs⟩, .sending⟩ .ready
  | sent {past rs r} : ¬ called → StateAt called ⟨⟨past, some rs⟩, .sent r⟩ .sent
  | receiving {past rs r} : called → StateAt called ⟨⟨past, some rs⟩, .receiving r⟩ .sent
  | done {past} : StateAt called ⟨⟨past, none⟩, .closed⟩ .done

/-- The counters of a client count its life. -/
structure At (o : Options) (l : Life) (c : Client) (called : Prop) : Prop where
  state : StateAt called l c.state
  txn : l.work.count + c.txnRemaining = o.transactionCount
  left : c.txnRemaining = 0 ↔ c.state = .done
  batch : c.state ≠ .done → c.batchRemaining + (l.work.cur.getD []).length = o.batchSize

section At

variable {o : Options} {l : Life} {c : Client} {called : Prop}

theorem At.remaining (h : At o l c called) (hc : c.state ≠ .done) : c.txnRemaining ≠ 0 :=
  fun hzero => hc (h.left.mp hzero)

/-- A client without a connection has transactions left. -/
theorem At.unopened (h : At o l c called) (hc : c.state = .init) :
    ∃ past, l = ⟨⟨past, none⟩, .closed⟩ ∧ past.flatten.length < o.transactionCount := by
  have hne := h.remaining (by rw [hc]; exact State.noConfusion)
  obtain ⟨hstate, htxn, -, -⟩ := h
  rw [hc] at hstate
  cases hstate with
  | @init past =>
      refine ⟨past, rfl, ?_⟩
      simp only [Batches.count, Batches.before, Option.getD_none, List.length_nil] at htxn
      omega

/-- A client that is called for an answer has counted what its connections carried. -/
theorem At.receiving (h : At o l c called) (hc : c.state = .sent) (hcalled : called) :
    ∃ past rs r, l = ⟨⟨past, some rs⟩, .receiving r⟩ ∧
      past.flatten.length + rs.length + c.txnRemaining = o.transactionCount ∧
      c.batchRemaining + rs.length = o.batchSize := by
  obtain ⟨hstate, htxn, -, hbatch⟩ := h
  rw [hc] at hstate hbatch
  cases hstate with
  | sent hnot => exact (hnot hcalled).elim
  | @receiving past rs r hin => exact ⟨past, rs, r, rfl, htxn, hbatch State.noConfusion⟩

/-! ### What the steps of a client do to its life -/

variable {called' : Prop}

theorem At.opens_ready (h : At o l c called) (hc : c.state = .init) (fd : ℤ) :
    ∃ l', Life.Move o.batchSize o.transactionCount l
        [(l.work.count, .connectStart), (l.work.count, .connectDone), (l.work.count, .sendStart)]
        (some .opened) l' ∧
      At o l' { c with sock := fd, state := .ready } called' := by
  have hne := h.remaining (by rw [hc]; exact State.noConfusion)
  have hbatch := h.batch (by rw [hc]; exact State.noConfusion)
  obtain ⟨past, rfl, htotal⟩ := h.unopened hc
  refine ⟨_, .connectAtOnce htotal, .ready, h.txn, ?_, fun _ => hbatch⟩
  simp [hne]

theorem At.opens_connecting (h : At o l c called) (hc : c.state = .init) (fd : ℤ)
    (hnot : ¬ called') :
    ∃ l', Life.Move o.batchSize o.transactionCount l [(l.work.count, .connectStart)]
        (some .opened) l' ∧
      At o l' { c with sock := fd, state := .connecting } called' := by
  have hne := h.remaining (by rw [hc]; exact State.noConfusion)
  have hbatch := h.batch (by rw [hc]; exact State.noConfusion)
  obtain ⟨past, rfl, htotal⟩ := h.unopened hc
  refine ⟨_, .connect htotal, .connecting hnot, h.txn, ?_, fun _ => hbatch⟩
  simp [hne]

/-- A client that waits for its connection is called. -/
theorem At.enters_connecting (h : At o l c called) (hc : c.state = .connecting)
    (hnot : ¬ called) (hcalled : called') :
    ∃ l', Life.Move o.batchSize o.transactionCount l [(l.work.count, .connectDone)] none l' ∧
      At o l' c called' := by
  obtain ⟨hstate, htxn, hleft, hbatch⟩ := h
  rw [hc] at hstate
  cases hstate with
  | connecting _ =>
      refine ⟨_, .connected, ?_, htxn, hleft, hbatch⟩
      rw [hc]
      exact .connected hcalled
  | connected hcall => exact (hnot hcall).elim

theorem At.enters_sent (h : At o l c called) (hc : c.state = .sent) (hnot : ¬ called)
    (hcalled : called') :
    ∃ l', Life.Move o.batchSize o.transactionCount l [(l.work.count, .recvStart)] none l' ∧
      At o l' c called' := by
  obtain ⟨hstate, htxn, hleft, hbatch⟩ := h
  rw [hc] at hstate
  cases hstate with
  | sent _ =>
      refine ⟨_, .receive, ?_, htxn, hleft, hbatch⟩
      rw [hc]
      exact .receiving hcalled
  | receiving hcall => exact (hnot hcall).elim

theorem At.connects (h : At o l c called) (hc : c.state = .connecting) (hcalled : called) :
    At o l { c with state := .new } called' := by
  have hne := h.remaining (by rw [hc]; exact State.noConfusion)
  have hbatch := h.batch (by rw [hc]; exact State.noConfusion)
  obtain ⟨hstate, htxn, -, -⟩ := h
  rw [hc] at hstate
  cases hstate with
  | connecting hnot => exact (hnot hcalled).elim
  | connected _ =>
      refine ⟨.new, htxn, ?_, fun _ => hbatch⟩
      simp [hne]

theorem At.adds (h : At o l c called) (hc : c.state = .new) :
    ∃ l', Life.Move o.batchSize o.transactionCount l [(l.work.count, .sendStart)] none l' ∧
      At o l' { c with state := .ready } called' := by
  have hne := h.remaining (by rw [hc]; exact State.noConfusion)
  have hbatch := h.batch (by rw [hc]; exact State.noConfusion)
  obtain ⟨hstate, htxn, -, -⟩ := h
  rw [hc] at hstate
  cases hstate with
  | new =>
      refine ⟨_, .send, .ready, htxn, ?_, fun _ => hbatch⟩
      simp [hne]

theorem At.sends (h : At o l c called) (hc : c.state = .ready) (hnot : ¬ called') :
    ∃ l', Life.Move o.batchSize o.transactionCount l [(l.work.count, .sendDone)] none l' ∧
      At o l' { c with state := .sent } called' := by
  have hne := h.remaining (by rw [hc]; exact State.noConfusion)
  have hbatch := h.batch (by rw [hc]; exact State.noConfusion)
  obtain ⟨hstate, htxn, -, -⟩ := h
  rw [hc] at hstate
  cases hstate with
  | ready =>
      refine ⟨_, .sent, .sent hnot, htxn, ?_, fun _ => hbatch⟩
      simp [hne]

/-- A client in the middle of `send` or `recv` goes on with it. -/
theorem At.stays (h : At o l c called) (hc : c.state = .ready ∨ c.state = .sent)
    (hcalled : called) (hcalled' : called') (buf : List UInt8) :
    At o l { c with buf := buf } called' := by
  obtain ⟨hstate, htxn, hleft, hbatch⟩ := h
  refine ⟨?_, htxn, hleft, hbatch⟩
  rcases hc with hc | hc
  · rw [hc] at hstate ⊢
    cases hstate
    exact .ready
  · rw [hc] at hstate ⊢
    cases hstate with
    | sent hnot => exact (hnot hcalled).elim
    | receiving _ => exact .receiving hcalled'

theorem At.again (h : At o l c called) (hc : c.state = .sent) (hcalled : called)
    (hnot : ¬ called') (cursor : ℕ) :
    ∃ l', Life.Move o.batchSize o.transactionCount l [(l.work.count, .recvDone)] none l' ∧
      At o l' { c with cursor := cursor } called' := by
  obtain ⟨past, rs, r, rfl, -, -⟩ := h.receiving hc hcalled
  refine ⟨_, .again, ?_, h.txn, h.left, h.batch⟩
  rw [hc]
  exact .sent hnot

/-- The last transaction of the client is complete. -/
theorem At.finishes (h : At o l c called) (hc : c.state = .sent) (hcalled : called)
    (hzero : sub64 c.txnRemaining 1 = 0) (buf : List UInt8) :
    ∃ l', Life.Move o.batchSize o.transactionCount l [(l.work.count, .recvDone)]
        (some (.completed true)) l' ∧
      At o l' { c with
        sock := -1
        buf := buf
        cursor := 0
        state := .done
        txnRemaining := sub64 c.txnRemaining 1 } called' := by
  have hne := h.remaining (by rw [hc]; exact State.noConfusion)
  obtain ⟨past, rs, r, rfl, hcount, -⟩ := h.receiving hc hcalled
  have hlt := o.transactionCount_lt
  have hone : c.txnRemaining = 1 := by
    rw [sub64] at hzero
    omega
  have htotal : past.flatten.length + rs.length + 1 = o.transactionCount := by omega
  refine ⟨_, .close (.inr htotal), .done, ?_, ?_, fun hdone => (hdone rfl).elim⟩
  · simp only [hzero, Batches.count, Batches.before, List.flatten_append,
      List.flatten_singleton, List.length_append, List.length_singleton,
      Option.getD_none, List.length_nil]
    omega
  · simp [hzero]

/-- The last transaction of a batch is complete. -/
theorem At.ends (h : At o l c called) (hc : c.state = .sent) (hcalled : called)
    (hok : l.work.Ok o.batchSize o.transactionCount) (hmore : sub64 c.txnRemaining 1 ≠ 0)
    (hzero : sub64 c.batchRemaining 1 = 0) (buf : List UInt8) :
    ∃ l', Life.Move o.batchSize o.transactionCount l [(l.work.count, .recvDone)]
        (some (.completed true)) l' ∧
      At o l' { c with
        buf := buf
        cursor := 0
        state := .init
        txnRemaining := sub64 c.txnRemaining 1
        batchRemaining := o.batchSize } called' := by
  have hne := h.remaining (by rw [hc]; exact State.noConfusion)
  obtain ⟨past, rs, r, rfl, hcount, hsize⟩ := h.receiving hc hcalled
  have hroom := hok.cur rfl
  have hlt := o.transactionCount_lt
  have hfits := o.batchSize_lt
  have hdone : rs.length + 1 = o.batchSize := by
    rw [sub64] at hzero
    omega
  refine ⟨_, .close (.inl hdone), .init, ?_, ?_, fun _ => rfl⟩
  · rw [sub64]
    simp only [Batches.count, Batches.before, List.flatten_append,
      List.flatten_singleton, List.length_append, List.length_singleton,
      Option.getD_none, List.length_nil]
    omega
  · simp [hmore]

/-- A transaction is complete that is not the last one of its batch. -/
theorem At.next (h : At o l c called) (hc : c.state = .sent) (hcalled : called)
    (hok : l.work.Ok o.batchSize o.transactionCount) (hmore : sub64 c.txnRemaining 1 ≠ 0)
    (hbatch : sub64 c.batchRemaining 1 ≠ 0) (buf : List UInt8) :
    l.work.count + 1 + sub64 c.txnRemaining 1 = o.transactionCount ∧
    ∃ l', Life.Move o.batchSize o.transactionCount l
        [(l.work.count, .recvDone), (l.work.count + 1, .sendStart)]
        (some (.completed false)) l' ∧
      At o l' { c with
        buf := buf
        cursor := 0
        state := .ready
        txnRemaining := sub64 c.txnRemaining 1
        batchRemaining := sub64 c.batchRemaining 1 } called' := by
  have hne := h.remaining (by rw [hc]; exact State.noConfusion)
  obtain ⟨past, rs, r, rfl, hcount, hsize⟩ := h.receiving hc hcalled
  have hroom := hok.cur rfl
  have hlt := o.transactionCount_lt
  have hfits := o.batchSize_lt
  have hsub : sub64 c.batchRemaining 1 + (rs.length + 1) = o.batchSize := by
    rw [sub64]
    omega
  have htxns : past.flatten.length + rs.length + 1 + sub64 c.txnRemaining 1 =
      o.transactionCount := by
    rw [sub64]
    omega
  refine ⟨htxns, _, .next ?_ ?_, .ready, ?_, ?_, ?_⟩
  · omega
  · omega
  · simp only [Batches.count, Batches.before, Option.getD_some, List.length_append,
      List.length_singleton]
    omega
  · simp [hmore]
  · intro _
    simp only [Option.getD_some, List.length_append, List.length_singleton]
    exact hsub

end At

variable {n : ℕ} {o : Options}

/-- What is logged of client `j`. -/
def entriesOf (j : Fin n) (log : TscLog) : List (ℕ × LogEvent) :=
  (log.entries.filter fun e => e.client = (j : ℕ)).map fun e => (e.txn, e.event)

def Output.event (j : Fin n) : Output n → Option Event
  | .silent => none
  | .opened i => if i = j then some .opened else none
  | .completed i closed => if i = j then some (.completed closed) else none

/-- No entry is dropped, and `entries` are added for client `j`. -/
def Logs (j : Fin n) (log : TscLog) (entries : List (ℕ × LogEvent)) (log' : TscLog) : Prop :=
  log'.overflow = false →
    log.overflow = false ∧ entriesOf j log' = entriesOf j log ++ entries

theorem logs_nil (j : Fin n) (log : TscLog) : Logs j log [] log := by
  intro hroom
  exact ⟨hroom, (List.append_nil _).symm⟩

theorem Logs.tsclog4 {j : Fin n} {log log' : TscLog} {entries : List (ℕ × LogEvent)}
    (h : Logs j log entries log') (e : Entry) :
    Logs j log (entries ++ if e.client = (j : ℕ) then [(e.txn, e.event)] else [])
      (log'.tsclog4 e) := by
  intro hroom
  rw [TscLog.tsclog4] at hroom ⊢
  split at hroom
  · cases hroom
  · rename_i hne
    obtain ⟨hbefore, hentries⟩ := h hroom
    refine ⟨hbefore, ?_⟩
    rw [if_neg hne, ← List.append_assoc, ← hentries]
    simp only [entriesOf, List.filter_append, List.map_append]
    congr 1
    by_cases he : e.client = (j : ℕ)
    · simp [he]
    · simp [he]

namespace Worker

/-- A step that leaves client `i` alone. -/
structure Apart (s s' : Worker n) (out : Output n) (i : Fin n) : Prop where
  clients : s'.clients i = s.clients i
  event : out.event i = none
  log : Logs i s.log [] s'.log

theorem logs_other (s : Worker n) {i j : Fin n} (h : j ≠ i) {log : TscLog}
    (hlog : Logs i s.log [] log) (txnRemaining : ℕ) (event : LogEvent) :
    Logs i s.log [] (log.tsclog4 (s.entry o j txnRemaining event)) := by
  have hne : ((s.entry o j txnRemaining event).client : ℕ) ≠ i := fun heq => h (Fin.ext heq)
  have hlogs := hlog.tsclog4 (s.entry o j txnRemaining event)
  rw [if_neg hne, List.append_nil] at hlogs
  exact hlogs

/-- A client that is not called before or after a step is left alone. -/
theorem Stepped.apart {s s' : Worker n} {a : Input} {out : Output n} (h : Stepped o s a s' out)
    (hs : s.Inv) {i : Fin n} (hbefore : s.pc.client ≠ some i) (hafter : s'.pc.client ≠ some i) :
    Apart s s' out i := by
  have hne : ∀ {j count cursor}, s.pc = .call j count cursor → j ≠ i := by
    rintro j count cursor hpc rfl
    rw [hpc] at hbefore
    exact hbefore rfl
  have hlog := logs_nil i s.log
  cases h with
  | waited hpc htodo hgoes hnodup hle hready => exact ⟨rfl, rfl, hlog⟩
  | timedOut hpc htodo => exact ⟨rfl, rfl, hlog⟩
  | exited hpc htodo hgoes => exact ⟨rfl, rfl, hlog⟩
  | @enteredInit j todo hpc htodo hstate =>
      have hj : j ≠ i := fun heq => hafter (congrArg some heq)
      exact ⟨Function.update_of_ne hj.symm _ _, rfl, hlog⟩
  | @enteredConnecting j todo hpc htodo hstate =>
      have hj : j ≠ i := fun heq => hafter (congrArg some heq)
      exact ⟨rfl, rfl, logs_other s hj hlog _ _⟩
  | @enteredSent j todo hpc htodo hstate =>
      have hj : j ≠ i := fun heq => hafter (congrArg some heq)
      exact ⟨rfl, rfl, logs_other s hj hlog _ _⟩
  | enteredOther hpc htodo hstate =>
      exact (hs.not_other hpc (htodo ▸ List.mem_cons_self) hstate).elim
  | connectedAtOnce hpc hstate hpos hfd =>
      have hj := hne hpc
      exact ⟨Function.update_of_ne hj.symm _ _, if_neg hj,
        logs_other s hj (logs_other s hj (logs_other s hj hlog _ _) _ _) _ _⟩
  | began hpc hstate hpos hfd =>
      have hj := hne hpc
      exact ⟨Function.update_of_ne hj.symm _ _, if_neg hj, logs_other s hj hlog _ _⟩
  | connected hpc hstate => exact ⟨Function.update_of_ne (hne hpc).symm _ _, rfl, hlog⟩
  | added hpc hstate =>
      have hj := hne hpc
      exact ⟨Function.update_of_ne hj.symm _ _, rfl, logs_other s hj hlog _ _⟩
  | sentPart hpc hstate hlt => exact ⟨rfl, rfl, hlog⟩
  | sentAll hpc hstate hfull =>
      have hj := hne hpc
      exact ⟨Function.update_of_ne hj.symm _ _, rfl, logs_other s hj hlog _ _⟩
  | receivedPart hpc hstate hlt => exact ⟨Function.update_of_ne (hne hpc).symm _ _, rfl, hlog⟩
  | again hpc hstate hlt =>
      have hj := hne hpc
      exact ⟨Function.update_of_ne hj.symm _ _, rfl, logs_other s hj hlog _ _⟩
  | finished hpc hstate hfull hzero =>
      have hj := hne hpc
      exact ⟨Function.update_of_ne hj.symm _ _, if_neg hj, logs_other s hj hlog _ _⟩
  | batchEnded hpc hstate hfull hmore hzero =>
      have hj := hne hpc
      exact ⟨Function.update_of_ne hj.symm _ _, if_neg hj, logs_other s hj hlog _ _⟩
  | next hpc hstate hfull hmore hbatch =>
      have hj := hne hpc
      exact ⟨Function.update_of_ne hj.symm _ _, if_neg hj,
        logs_other s hj (logs_other s hj hlog _ _) _ _⟩

/-- An entry of client `j` carries the number of transactions it has finished. -/
theorem logs_entry (s : Worker n) (j : Fin n) {log log' : TscLog}
    {entries : List (ℕ × LogEvent)} (hlog : Logs j log entries log') {txnRemaining k : ℕ}
    (hk : k + txnRemaining = o.transactionCount) (event : LogEvent) :
    Logs j log (entries ++ [(k, event)])
      (log'.tsclog4 (s.entry o j txnRemaining event)) := by
  have hentry : s.entry o j txnRemaining event = ⟨s.index, j, k, event⟩ := by
    rw [entry, sub64_eq_of_add hk o.transactionCount_lt]
  have hlogs := hlog.tsclog4 ⟨s.index, j, k, event⟩
  rw [if_pos rfl] at hlogs
  rw [hentry]
  exact hlogs

/-- A client of a worker with its life. -/
def Lives (o : Options) (s : Worker n) (i : Fin n) (l : Life) : Prop :=
  At o l (s.clients i) (s.pc.client = some i)

/-- What is left to do of a step that concerns client `i`. -/
def Goes (o : Options) (s s' : Worker n) (out : Output n) (i : Fin n) (l : Life) : Prop :=
  ∃ l' entries, Life.Move o.batchSize o.transactionCount l entries (out.event i) l' ∧
    s'.Lives o i l' ∧ Logs i s.log entries s'.log

theorem goes {s s' : Worker n} {out : Output n} {i : Fin n} {l l' : Life} {c : Client}
    {e : Option Event} {entries : List (ℕ × LogEvent)} (hevent : out.event i = e)
    (hmove : Life.Move o.batchSize o.transactionCount l entries e l') (hclient : s'.clients i = c)
    (hat : At o l' c (s'.pc.client = some i)) (hlogs : Logs i s.log entries s'.log) :
    Goes o s s' out i l := by
  subst hclient hevent
  exact ⟨l', entries, hmove, hat, hlogs⟩

theorem Stepped.life {s s' : Worker n} {a : Input} {out : Output n} (h : Stepped o s a s' out)
    (hs : s.Inv) {i : Fin n} {l : Life} (hl : s.Lives o i l)
    (hok : l.work.Ok o.batchSize o.transactionCount) : Goes o s s' out i l := by
  by_cases hcall : s.pc.client = some i ∨ s'.pc.client = some i
  · have hlog := logs_nil i s.log
    have hat : At o l (s.clients i) (s.pc.client = some i) := hl
    have htxn := hat.txn
    cases h with
    | waited hpc htodo hgoes hnodup hle hready =>
        simp [hpc, disarm, Pc.client] at hcall
    | timedOut hpc htodo =>
        simp [hpc, goTo, Pc.client] at hcall
    | exited hpc htodo hgoes =>
        simp [hpc, goTo, Pc.client] at hcall
    | @enteredInit j todo hpc htodo hj =>
        simp only [hpc, Pc.client, reduceCtorEq, false_or, Option.some.injEq] at hcall
        subst hcall
        obtain ⟨hstate, -, hleft, -⟩ := hat
        rw [hj] at hstate
        cases hstate
        refine goes rfl .stay (Function.update_self ..) ⟨?_, htxn, hleft, fun _ => rfl⟩ hlog
        rw [hj]
        exact .init
    | @enteredConnecting j todo hpc htodo hj =>
        simp only [hpc, Pc.client, reduceCtorEq, false_or, Option.some.injEq] at hcall
        subst hcall
        obtain ⟨l', hmove, hat'⟩ := hat.enters_connecting hj (by simp [hpc, Pc.client]) rfl
        exact goes rfl hmove rfl hat' (logs_entry s j hlog htxn _)
    | @enteredSent j todo hpc htodo hj =>
        simp only [hpc, Pc.client, reduceCtorEq, false_or, Option.some.injEq] at hcall
        subst hcall
        obtain ⟨l', hmove, hat'⟩ := hat.enters_sent hj (by simp [hpc, Pc.client]) rfl
        exact goes rfl hmove rfl hat' (logs_entry s j hlog htxn _)
    | enteredOther hpc htodo hj =>
        exact (hs.not_other hpc (htodo ▸ List.mem_cons_self) hj).elim
    | @connectedAtOnce j count cursor fd hpc hj hpos hfd =>
        simp only [hpc, Pc.client, or_self, Option.some.injEq] at hcall
        subst hcall
        obtain ⟨l', hmove, hat'⟩ := hat.opens_ready hj fd
        exact goes (if_pos rfl) hmove (Function.update_self ..) hat'
          (logs_entry s j (logs_entry s j (logs_entry s j hlog htxn _) htxn _) htxn _)
    | @began j count cursor fd hpc hj hpos hfd =>
        simp only [hpc, Pc.client, reduceCtorEq, or_false, Option.some.injEq] at hcall
        subst hcall
        obtain ⟨l', hmove, hat'⟩ := hat.opens_connecting hj fd (Option.some_ne_none j).symm
        exact goes (if_pos rfl) hmove (Function.update_self ..) hat' (logs_entry s j hlog htxn _)
    | @connected j count cursor hpc hj =>
        simp only [hpc, Pc.client, or_self, Option.some.injEq] at hcall
        subst hcall
        exact goes rfl .stay (Function.update_self ..) (hat.connects hj (by rw [hpc]; rfl)) hlog
    | @added j count cursor hpc hj =>
        simp only [hpc, Pc.client, or_self, Option.some.injEq] at hcall
        subst hcall
        obtain ⟨l', hmove, hat'⟩ := hat.adds hj
        exact goes rfl hmove (Function.update_self ..) hat' (logs_entry s j hlog htxn _)
    | @sentPart j count cursor k hpc hj hlt =>
        simp only [hpc, Pc.client, or_self, Option.some.injEq] at hcall
        subst hcall
        exact goes rfl .stay rfl (hat.stays (.inl hj) (by rw [hpc]; rfl) rfl _) hlog
    | @sentAll j count cursor k hpc hj hfull =>
        simp only [hpc, Pc.client, reduceCtorEq, or_false, Option.some.injEq] at hcall
        subst hcall
        obtain ⟨l', hmove, hat'⟩ := hat.sends hj (Option.some_ne_none j).symm
        exact goes rfl hmove (Function.update_self ..) hat' (logs_entry s j hlog htxn _)
    | @receivedPart j count cursor bytes hpc hj hlt =>
        simp only [hpc, Pc.client, or_self, Option.some.injEq] at hcall
        subst hcall
        exact goes rfl .stay (Function.update_self ..)
          (hat.stays (.inr hj) (by rw [hpc]; rfl) rfl _) hlog
    | @again j count cursor hpc hj hlt =>
        simp only [hpc, Pc.client, reduceCtorEq, or_false, Option.some.injEq] at hcall
        subst hcall
        obtain ⟨l', hmove, hat'⟩ := hat.again hj (by rw [hpc]; rfl) (Option.some_ne_none j).symm _
        exact goes rfl hmove (Function.update_self ..) hat' (logs_entry s j hlog htxn _)
    | @finished j count cursor answer buf hpc hj hfull hzero =>
        simp only [hpc, Pc.client, reduceCtorEq, or_false, Option.some.injEq] at hcall
        subst hcall
        obtain ⟨l', hmove, hat'⟩ := hat.finishes hj (by rw [hpc]; rfl) hzero buf
        exact goes (if_pos rfl) hmove (Function.update_self ..) hat' (logs_entry s j hlog htxn _)
    | @batchEnded j count cursor answer buf hpc hj hfull hmore hzero =>
        simp only [hpc, Pc.client, or_self, Option.some.injEq] at hcall
        subst hcall
        obtain ⟨l', hmove, hat'⟩ := hat.ends hj (by rw [hpc]; rfl) hok hmore hzero buf
        exact goes (if_pos rfl) hmove (Function.update_self ..) hat' (logs_entry s j hlog htxn _)
    | @next j count cursor answer buf hpc hj hfull hmore hbatch =>
        simp only [hpc, Pc.client, or_self, Option.some.injEq] at hcall
        subst hcall
        obtain ⟨htxns, l', hmove, hat'⟩ := hat.next hj (by rw [hpc]; rfl) hok hmore hbatch buf
        exact goes (if_pos rfl) hmove (Function.update_self ..) hat'
          (logs_entry s j (logs_entry s j hlog htxn _) htxns _)
  · rw [not_or] at hcall
    obtain ⟨hclients, hevent, hlogs⟩ := h.apart hs hcall.1 hcall.2
    refine ⟨l, [], ?_, ?_, hlogs⟩
    · rw [hevent]
      exact .stay
    · rw [Lives, hclients]
      simp only [hcall.2]
      rw [Lives] at hl
      simp only [hcall.1] at hl
      exact hl

/-! ## Runs -/

/-- The connections of client `j`, the latest last. -/
def conns (j : Fin n) (tr : List (Input × Output n)) : List Conn :=
  (tr.filterMap fun x => x.2.event j).foldl Conn.next []

theorem conns_snoc (j : Fin n) (tr : List (Input × Output n)) (x : Input × Output n) :
    conns j (tr ++ [x]) = (x.2.event j).elim (conns j tr) (Conn.next (conns j tr)) := by
  rw [conns, List.filterMap_append, List.foldl_append, ← conns, List.filterMap_cons]
  cases x.2.event j <;> rfl

/-- The life of client `j` tells all that is known of it. -/
structure Known (o : Options) (tr : List (Input × Output n)) (s : Worker n) (j : Fin n)
    (l : Life) : Prop where
  lives : s.Lives o j l
  ok : l.work.Ok o.batchSize o.transactionCount
  received : l.Received
  conns : conns j tr = l.conns
  log : s.log.overflow = false → entriesOf j s.log = l.log

theorem Known.step {tr : List (Input × Output n)} {s s' : Worker n} {a : Input} {out : Output n}
    {j : Fin n} {l : Life} (hl : Known o tr s j l) (hb : 1 ≤ o.batchSize) (hs : s.Inv)
    (h : Stepped o s a s' out) : ∃ l', Known o (tr ++ [(a, out)]) s' j l' := by
  obtain ⟨l', entries, hmove, hlives, hlogs⟩ := h.life hs hl.lives hl.ok
  refine ⟨l', hlives, hmove.ok hb hl.ok, hmove.received hl.received, ?_, ?_⟩
  · rw [conns_snoc, hmove.conns, hl.conns]
  · intro hroom
    obtain ⟨hbefore, hentries⟩ := hlogs hroom
    rw [hentries, hl.log hbefore, hmove.log]

theorem known_start {s : Worker n} (hs : Start o s) (ht : 1 ≤ o.transactionCount) (j : Fin n) :
    Known o [] s j ⟨⟨[], none⟩, .closed⟩ := by
  obtain ⟨buf, -, hj⟩ := hs.clients j
  have hne : o.transactionCount ≠ 0 := by omega
  refine ⟨⟨?_, ?_, ?_, ?_⟩, Batches.ok_start, ⟨by simp, by simp⟩, rfl, ?_⟩
  · rw [hj]
    exact .init
  · rw [hj]
    exact Nat.zero_add _
  · rw [hj]
    simp [hne]
  · intro _
    rw [hj]
    rfl
  · intro _
    rw [entriesOf, hs.log.1]
    rfl

theorem reaches_known {tr : List (Input × Output n)} {s : Worker n}
    (h : (worker n o).Reaches tr s) (hdying : s.dying = false) (hb : 1 ≤ o.batchSize)
    (ht : 1 ≤ o.transactionCount) (j : Fin n) : ∃ l, Known o tr s j l := by
  have hknown := reaches_induction (P := fun tr s => s.Inv ∧ ∃ l, Known o tr s j l) ?_ ?_ h hdying
  · exact hknown.2
  · intro s hs
    exact ⟨inv_start hs, _, known_start hs ht j⟩
  · rintro tr s a out s' - ⟨hs, l, hl⟩ hstep
    exact ⟨(hstep.kept hs).1, hl.step hb hs hstep⟩

end Worker

end Upcalls.TcpClient
