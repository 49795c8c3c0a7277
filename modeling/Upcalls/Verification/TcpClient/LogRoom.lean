import Mathlib.Algebra.Order.BigOperators.Ring.Finset
import Upcalls.Library.Team
import Upcalls.Verification.TcpClient.Dispatch
import Upcalls.Verification.TcpClient.Sizing
import Upcalls.Verification.TscLogger.RoundTrip

/-! # The log of a worker has room for all its events -/

namespace Upcalls.TcpClient

open Library

variable {n : ℕ} {o : Options}

/-! ## A log of limited room -/

/-- The log after the calls for `es`: what does not fit is dropped. -/
def TscLog.after (room : ℕ) (es : List Entry) : TscLog :=
  ⟨es.take room, room - es.length, room < es.length⟩

theorem TscLog.tsclog4_after (room : ℕ) (es : List Entry) (e : Entry) :
    (TscLog.after room es).tsclog4 e = TscLog.after room (es ++ [e]) := by
  by_cases hroom : es.length < room
  · have hsome : ¬ room - es.length = 0 := by omega
    have hfit : ¬ room < es.length := by omega
    have hfit' : ¬ room < es.length + 1 := by omega
    simp [TscLog.after, tsclog4, hsome, hfit, hfit', List.take_of_length_le,
      Nat.le_of_lt hroom, Nat.succ_le_of_lt hroom, Nat.sub_sub]
  · have hnone : room - es.length = 0 := by omega
    have hover : room < es.length + 1 := by omega
    have hzero : room - (es.length + 1) = 0 := by omega
    simp [TscLog.after, tsclog4, hnone, hover, hzero, List.take_append_of_le_length,
      Nat.le_of_not_lt hroom]

theorem Worker.logAll_after (room : ℕ) (log es : List Entry) :
    Worker.logAll es (TscLog.after room log) = TscLog.after room (log ++ es) := by
  induction es generalizing log with
  | nil => simp [Worker.logAll]
  | cons e es ih =>
      have hrest := ih (log ++ [e])
      simp only [Worker.logAll, List.foldl_cons, TscLog.tsclog4_after] at hrest ⊢
      simpa using hrest

/-- The log in memory, with `room` entries from `base` on, has what `log` says. -/
def TscLog.InMemory (base room : ℕ) (mem : TscLogger.TscLog) (log : TscLog) : Prop :=
  ∃ (es : List Entry) (stamps : List (UInt64 × UInt32)),
    TscLogger.Logged base room (List.zipWith (fun e t => e.call t.1 t.2) es stamps) mem ∧
      stamps.length = es.length ∧ log = TscLog.after room es

theorem TscLog.InMemory.tsclog4 {base room : ℕ} {mem : TscLogger.TscLog} {log : TscLog}
    (h : TscLog.InMemory base room mem log) (tsc : UInt64) (cpu : UInt32) (e : Entry)
    (hwrap : base + TscLogger.TscLogEntrySize 4 * room + TscLogger.TscLogEntrySize 4 < 2 ^ 64) :
    TscLog.InMemory base room (TscLogger.call (e.call tsc cpu) mem) (log.tsclog4 e) := by
  obtain ⟨es, stamps, hlogged, hlength, rfl⟩ := h
  refine ⟨es ++ [e], stamps ++ [(tsc, cpu)], ?_, by simp [hlength], tsclog4_after room es e⟩
  rw [List.zipWith_append hlength.symm]
  exact hlogged.call hwrap

theorem TscLog.InMemory.overflow_eq {base room : ℕ} {mem : TscLogger.TscLog} {log : TscLog}
    (h : TscLog.InMemory base room mem log) : mem.overflow = log.overflow := by
  obtain ⟨es, stamps, hlogged, hlength, rfl⟩ := h
  have hoverflow := hlogged.overflow
  rw [List.length_zipWith, hlength, Nat.min_self] at hoverflow
  rw [Bool.eq_iff_iff, hoverflow, TscLog.after, decide_eq_true_eq]

/-- What `worker_func` sets up in its block is a log with room for `room` entries. -/
theorem TscLog.InMemory.start (pid : UInt32) {raw room : ℕ} (hwrap : raw + TscLogger.hdrSize +
    TscLogger.TscLogEntrySize 4 * room + TscLogger.L1_CACHE_BYTES + TscLogger.TscLogEntrySize 4 ≤
      2 ^ 64) :
    TscLog.InMemory (TscLogger.entriesOf (TscLogger.alignLog raw)) room
      (TscLogger.workerLog pid raw (TscLogger.TscLogEntrySize 4 * room)) ⟨[], room, false⟩ :=
  ⟨[], [], (TscLogger.logged_workerLog pid hwrap).2, rfl, by simp [TscLog.after]⟩

/-! ## What a client has logged -/

def State.weight : State → ℕ
  | .ready => 1
  | .sent => 2
  | _ => 0

/-- A receive that is begun is not logged as done yet. -/
def View.pending (v : View) : ℕ := if v.busy = true ∧ v.state = .sent then 1 else 0

/-- A client that is not done: the connections that are closed have a whole batch each. -/
structure Live (o : Options) (starts : ℕ) (st : State) (r b : ℕ) : Prop where
  pos : 1 ≤ r
  batch : 1 ≤ b
  le : b ≤ o.batchSize
  whole : st = .init → b = o.batchSize
  closed : ∃ closed, closed * o.batchSize + o.batchSize = o.transactionCount - r + b ∧
    starts = closed + if st = .init then 0 else 1

/-- How many connections a client has begun. -/
def Paced (o : Options) (starts : ℕ) (st : State) (r b : ℕ) : Prop :=
  if st = .done then starts ≤ 1 + o.transactionCount / o.batchSize else Live o starts st r b

/-- What the events that a client has logged add up to. -/
structure Spent (o : Options) (es : List LogEvent) (v : View) : Prop where
  total : es.length + v.pending = es.count .connectStart + es.count .connectDone +
    2 * es.count .recvStart + (2 * (o.transactionCount - v.txnRemaining) + v.state.weight)
  le : v.txnRemaining ≤ o.transactionCount
  ready : v.state = .ready → v.busy = true
  paced : Paced o (es.count .connectStart) v.state v.txnRemaining v.batchRemaining

section Live

variable {starts r b : ℕ} {st st' : State}

theorem Paced.live (h : Paced o starts st r b) (hst : st ≠ .done) : Live o starts st r b := by
  rw [Paced, if_neg hst] at h
  exact h

theorem Live.paced (h : Live o starts st r b) (hst : st ≠ .done) : Paced o starts st r b := by
  rw [Paced, if_neg hst]
  exact h

theorem Live.same (h : Live o starts st r b) (hst : st ≠ .init) (hst' : st' ≠ .init) :
    Live o starts st' r b := by
  obtain ⟨closed, hclosed, hstarts⟩ := h.closed
  rw [if_neg hst] at hstarts
  refine ⟨h.pos, h.batch, h.le, fun h => (hst' h).elim, closed, hclosed, ?_⟩
  rw [if_neg hst', hstarts]

theorem Live.start (h : Live o starts .init r b) (hst : st ≠ .init) :
    Live o (starts + 1) st r b := by
  obtain ⟨closed, hclosed, hstarts⟩ := h.closed
  rw [if_pos rfl] at hstarts
  exact ⟨h.pos, h.batch, h.le, fun h => (hst h).elim, closed, hclosed, by rw [if_neg hst, hstarts]⟩

/-- The connections fit in what the transactions leave room for. -/
theorem Live.starts_le (hb : 1 ≤ o.batchSize) (h : Live o starts st r b) :
    starts ≤ 1 + o.transactionCount / o.batchSize := by
  have hle := h.le
  obtain ⟨closed, hclosed, hstarts⟩ := h.closed
  have hquot : closed ≤ o.transactionCount / o.batchSize := by
    rw [Nat.le_div_iff_mul_le hb]
    omega
  rw [hstarts]
  split <;> omega

/-- The last step of a batch. -/
theorem Live.close (h : Live o starts .sent r b) (hr : r ≤ o.transactionCount)
    (hmore : sub64 r 1 ≠ 0) (hzero : sub64 b 1 = 0) :
    Live o starts .init (sub64 r 1) o.batchSize := by
  have hB := o.batchSize_lt
  have hT := o.transactionCount_lt
  have hpos := h.pos
  have hle := h.le
  rw [sub64_eq hpos (by omega)] at hmore ⊢
  rw [sub64_eq h.batch (by omega)] at hzero
  have hbatch := h.batch
  obtain ⟨closed, hclosed, hstarts⟩ := h.closed
  refine ⟨by omega, by omega, Nat.le_refl _, fun _ => rfl, closed + 1, ?_, by simpa using hstarts⟩
  rw [Nat.succ_mul]
  omega

theorem Live.next (h : Live o starts .sent r b) (hr : r ≤ o.transactionCount)
    (hmore : sub64 r 1 ≠ 0) (hbatch : sub64 b 1 ≠ 0) :
    Live o starts .ready (sub64 r 1) (sub64 b 1) := by
  have hB := o.batchSize_lt
  have hT := o.transactionCount_lt
  have hpos := h.pos
  have hle := h.le
  rw [sub64_eq hpos (by omega)] at hmore ⊢
  rw [sub64_eq h.batch (by omega)] at hbatch ⊢
  obtain ⟨closed, hclosed, hstarts⟩ := h.closed
  refine ⟨by omega, by omega, by omega, nofun, closed, by omega, by simpa using hstarts⟩

end Live

section Spent

variable {es new : List LogEvent} {v v' : View}

theorem Spent.total_step (h : Spent o es v) (hstep : View.Step o v new v') :
    (es ++ new).length + v'.pending = (es ++ new).count .connectStart +
      (es ++ new).count .connectDone + 2 * (es ++ new).count .recvStart +
      (2 * (o.transactionCount - v'.txnRemaining) + v'.state.weight) := by
  have htotal := h.total
  have hT := o.transactionCount_lt
  have hcount : ∀ {r b : ℕ}, v = ⟨.sent, r, b, true⟩ →
      2 * (o.transactionCount - sub64 r 1) = 2 * (o.transactionCount - r) + 2 := by
    intro r b hv
    subst hv
    have hpos := (h.paced.live (by simp)).pos
    have hle : r ≤ o.transactionCount := h.le
    change 1 ≤ r at hpos
    rw [sub64_eq hpos (by omega)]
    omega
  cases hstep with
  | enterReady => cases h.ready rfl
  | finished hzero =>
      simp [View.pending, State.weight, hcount rfl] at htotal ⊢
      omega
  | batchEnded hmore hzero =>
      simp [View.pending, State.weight, hcount rfl] at htotal ⊢
      omega
  | next hmore hbatch =>
      simp [View.pending, State.weight, hcount rfl] at htotal ⊢
      omega
  | _ =>
      simp [View.pending, State.weight] at htotal ⊢
      omega

theorem Spent.paced_step (hb : 1 ≤ o.batchSize) (h : Spent o es v)
    (hstep : View.Step o v new v') :
    Paced o ((es ++ new).count .connectStart) v'.state v'.txnRemaining v'.batchRemaining := by
  have hpaced := h.paced
  have hle := h.le
  rw [List.count_append]
  cases hstep with
  | @enterInit r b =>
      have hlive : Live o (es.count .connectStart) .init r b := hpaced.live (by simp)
      rw [hlive.whole rfl] at hlive
      exact hlive.paced (by simp)
  | connectedAtOnce => exact ((hpaced.live (by simp)).start (by simp)).paced (by simp)
  | began => exact ((hpaced.live (by simp)).start (by simp)).paced (by simp)
  | @failed r b =>
      have hlive : Live o (es.count .connectStart + 1) .sent r b :=
        (hpaced.live (by simp)).start (by simp)
      exact hlive.starts_le hb
  | finished hzero => exact (hpaced.live (by simp)).starts_le hb
  | batchEnded hmore hzero => exact ((hpaced.live (by simp)).close hle hmore hzero).paced (by simp)
  | next hmore hbatch => exact ((hpaced.live (by simp)).next hle hmore hbatch).paced (by simp)
  | connected => exact ((hpaced.live (by simp)).same (by simp) (by simp)).paced (by simp)
  | added => exact ((hpaced.live (by simp)).same (by simp) (by simp)).paced (by simp)
  | sentAll => exact ((hpaced.live (by simp)).same (by simp) (by simp)).paced (by simp)
  | _ => exact hpaced

theorem Spent.step (hb : 1 ≤ o.batchSize) (h : Spent o es v) (hstep : View.Step o v new v') :
    Spent o (es ++ new) v' := by
  refine ⟨h.total_step hstep, ?_, ?_, h.paced_step hb hstep⟩
  · have hle := h.le
    have hless : ∀ {r : ℕ}, v.txnRemaining = r → v.state = .sent →
        sub64 r 1 ≤ o.transactionCount := by
      intro r hr hsent
      have hpos := (h.paced.live (by simp [hsent])).pos
      have hT := o.transactionCount_lt
      rw [sub64_eq (by omega) (by omega)]
      omega
    cases hstep with
    | finished hzero => exact hless rfl rfl
    | batchEnded hmore hzero => exact hless rfl rfl
    | next hmore hbatch => exact hless rfl rfl
    | _ => exact hle
  · cases hstep with
    | _ => simp

/-- A client logs two events for each connection, for each dispatch in `SENT` and for each
transaction that it sends. -/
theorem Spent.length_le (h : Spent o es v) :
    es.length ≤ es.count .connectStart + es.count .connectDone + 2 * es.count .recvStart +
      2 * o.transactionCount := by
  have htotal := h.total
  have hle := h.le
  cases hst : v.state with
  | ready =>
      have hpos := (h.paced.live (by simp [hst])).pos
      rw [hst, State.weight] at htotal
      omega
  | sent =>
      have hpos := (h.paced.live (by simp [hst])).pos
      rw [hst, State.weight] at htotal
      omega
  | _ =>
      simp only [hst, State.weight] at htotal
      omega

theorem Spent.starts_le (hb : 1 ≤ o.batchSize) (h : Spent o es v) :
    es.count .connectStart ≤ 1 + o.transactionCount / o.batchSize := by
  have hpaced := h.paced
  rw [Paced] at hpaced
  split at hpaced
  · exact hpaced
  · exact hpaced.starts_le hb

end Spent

/-! ## Connections that are begun and connections that are there -/

section Matched

variable {es new : List LogEvent} {v v' : View}

/-- Each connection that is logged as there is logged as begun ahead of it. -/
def Matched (es : List LogEvent) (v : View) : Prop :=
  es.count .connectDone ≤ es.count .connectStart ∧
    (v.state = .connecting → v.busy = true ∨ es.count .connectDone < es.count .connectStart)

theorem Matched.step (h : Matched es v) (hstep : View.Step o v new v')
    (hrefused : v.state = .connecting → v.busy = true → v'.state ≠ .connecting) :
    Matched (es ++ new) v' := by
  cases hstep with
  | refused => cases hrefused rfl rfl rfl
  | _ =>
      simp [Matched] at h ⊢
      try omega

/-- A step of a client that logs a connection begins it, or comes from the loop. -/
theorem View.Step.count_connectDone (hstep : View.Step o v new v') :
    new.count .connectDone + (if v.busy = true then 1 else 0) ≤ new.count .connectStart + 1 := by
  cases hstep with
  | _ => simp

theorem View.Step.count_recvStart (hstep : View.Step o v new v') :
    new.count .recvStart = if .recvStart ∈ new then 1 else 0 := by
  cases hstep with
  | _ => simp

end Matched

/-! ## The log of a worker -/

/-- The events of client `j`. -/
def eventsOf (j : Fin n) (log : List Entry) : List LogEvent :=
  (log.filter fun e => e.client = (j : ℕ)).map Entry.event

theorem eventsOf_append (j : Fin n) (log es : List Entry) :
    eventsOf j (log ++ es) = eventsOf j log ++ eventsOf j es := by
  simp only [eventsOf, List.filter_append, List.map_append]

theorem eventsOf_self {j : Fin n} {es : List Entry} (h : ∀ e ∈ es, e.client = j) :
    eventsOf j es = es.map Entry.event := by
  rw [eventsOf, List.filter_eq_self.mpr (by simpa using h)]

theorem eventsOf_other {i j : Fin n} {es : List Entry} (h : ∀ e ∈ es, e.client = j)
    (hij : i ≠ j) : eventsOf i es = [] := by
  rw [eventsOf, List.filter_eq_nil_iff.mpr, List.map_nil]
  intro e he hi
  rw [h e he, decide_eq_true_eq] at hi
  exact hij (Fin.ext hi.symm)

/-- The entries are shared out among the clients. -/
theorem sum_countP_eventsOf (p : LogEvent → Bool) {log : List Entry}
    (h : ∀ e ∈ log, e.client < n) :
    ∑ j : Fin n, (eventsOf j log).countP p = (log.map Entry.event).countP p := by
  induction log with
  | nil => simp [eventsOf]
  | cons e log ih =>
      have hone : ∀ j : Fin n, (eventsOf j (e :: log)).countP p = (eventsOf j log).countP p +
          if (⟨e.client, h e (by simp)⟩ : Fin n) = j then (if p e.event then 1 else 0) else 0 := by
        intro j
        by_cases hj : e.client = (j : ℕ)
        · simp [eventsOf, hj, List.countP_cons]
        · simp [eventsOf, hj, Fin.ext_iff]
      simp only [hone, Finset.sum_add_distrib, ih fun e he => h e (List.mem_cons_of_mem _ he)]
      simp [List.countP_cons]

namespace Worker

/-- Where `all` is what the worker has logged, with what did not fit. -/
structure Accounted (o : Options) (room : ℕ) (s : Worker n) (all : List Entry) : Prop where
  log : s.log = TscLog.after room all
  client : ∀ e ∈ all, e.client < n
  spent : ∀ j, Spent o (eventsOf j all) (s.view j)
  paired : s.dying = false → ∀ j, Matched (eventsOf j all) (s.view j)
  balance : (all.map Entry.event).count .connectDone + s.todo.length ≤
    (all.map Entry.event).count .connectStart + n

/-- Each registered descriptor is the socket of its client. -/
def Sockets (s : Worker n) : Prop :=
  ∀ fd x, s.interest fd = some x →
    (s.clients x.data).sock = fd ∧ (s.clients x.data).state.live = true

variable {s s' : Worker n} {a : Input} {out : Output n} {room : ℕ} {log es : List Entry}

section Step

variable {j : Fin n}

theorem Affected.view_other (h : Affected o s a s' j es) {i : Fin n} (hi : i ≠ j) :
    s'.view i = s.view i := by
  have hsame := h.others hi
  have hbefore : s.pc.client ≠ some i := by
    rcases h.todo with htodo | htodo
    · rw [htodo.1]
      simpa using hi.symm
    · rw [htodo.1]
      nofun
  have hafter : s'.pc.client ≠ some i := by
    rcases h.behind with hpc | hpc
    · rw [hpc]
      simpa using hi.symm
    · rw [hpc]
      nofun
  simp [view, hsame, hbefore, hafter]

theorem Accounted.affected (hb : 1 ≤ o.batchSize) (hs : Accounted o room s log)
    (h : Affected o s a s' j es) : Accounted o room s' (log ++ es) := by
  refine ⟨?_, ?_, ?_, ?_, ?_⟩
  · rw [h.log, hs.log, logAll_after]
  · intro e he
    rcases List.mem_append.mp he with he | he
    · exact hs.client e he
    · rw [h.client e he]
      exact j.isLt
  · intro i
    rw [eventsOf_append]
    by_cases hi : i = j
    · subst hi
      rw [eventsOf_self h.client]
      exact (hs.spent i).step hb h.step
    · rw [eventsOf_other h.client hi, List.append_nil, h.view_other hi]
      exact hs.spent i
  · intro hdying i
    have hbefore : s.dying = false := by
      cases hs : s.dying with
      | false => rfl
      | true => rw [h.dying hs] at hdying; cases hdying
    have hmatched := hs.paired hbefore i
    rw [eventsOf_append]
    by_cases hi : i = j
    · subst hi
      rw [eventsOf_self h.client]
      refine hmatched.step h.step ?_
      intro hconnecting hbusy hstill
      rw [h.refused hconnecting hstill (by simpa [view] using hbusy)] at hdying
      cases hdying
    · rw [eventsOf_other h.client hi, List.append_nil, h.view_other hi]
      exact hmatched
  · have hcount := h.step.count_connectDone
    have hbalance := hs.balance
    rw [List.map_append, List.count_append, List.count_append]
    rcases h.todo with ⟨hpc, htodo⟩ | ⟨hpc, htodo⟩
    · simp [view, hpc] at hcount
      rw [htodo]
      omega
    · simp [view, hpc] at hcount
      rw [htodo, List.length_cons] at hbalance
      omega

theorem Accounted.rested (hs : Accounted o room s log) (h : Rested s a s')
    (htodo : s'.todo = s.todo ∨ s.dying = false ∧ s'.todo.length ≤ n) :
    Accounted o room s' log := by
  have hview : ∀ i, s'.view i = s.view i := by
    intro i
    rw [view, h.clients, h.pc, ← view]
  have hlater : s'.dying = false → s.dying = false := by
    intro hdying
    cases hs : s.dying with
    | false => rfl
    | true => rw [h.dying hs] at hdying; cases hdying
  refine ⟨h.log.trans hs.log, hs.client, ?_, ?_, ?_⟩
  · intro j
    rw [hview]
    exact hs.spent j
  · intro hdying j
    rw [hview]
    exact hs.paired (hlater hdying) j
  · rcases htodo with htodo | ⟨hdying, hle⟩
    · rw [htodo]
      exact hs.balance
    · have hsum : (log.map Entry.event).count .connectDone ≤
          (log.map Entry.event).count .connectStart := by
        rw [List.count, List.count, ← sum_countP_eventsOf _ hs.client,
          ← sum_countP_eventsOf _ hs.client]
        exact Finset.sum_le_sum fun j _ => (hs.paired hdying j).1
      omega

end Step

/-! ## The clients that the loop goes on to -/

section Sockets

variable {j : Fin n} {c : Client}

theorem sockets_of (hs : s.Sockets) (hclients : s'.clients = Function.update s.clients j c)
    (hold : ∀ {fd x}, s'.interest fd = some x → x.data ≠ j → s.interest fd = some x)
    (hself : ∀ {fd x}, s'.interest fd = some x → x.data = j → c.sock = fd ∧ c.state.live = true) :
    s'.Sockets := by
  intro fd x hx
  rw [hclients]
  by_cases hj : x.data = j
  · rw [hj, Function.update_self]
    exact hself hx hj
  · rw [Function.update_of_ne hj]
    exact hs fd x (hold hx hj)

theorem sockets_same (hs : s.Sockets) (hclients : s'.clients = Function.update s.clients j c)
    (hinterest : s'.interest = s.interest)
    (hsock : (s.clients j).state.live = true →
      c.sock = (s.clients j).sock ∧ c.state.live = true) : s'.Sockets := by
  refine sockets_of hs hclients ?_ ?_
  · intro fd x hx _
    rwa [hinterest] at hx
  · intro fd x hx hj
    rw [hinterest] at hx
    subst hj
    rw [(hsock (hs fd x hx).2).1]
    exact ⟨(hs fd x hx).1, (hsock (hs fd x hx).2).2⟩

theorem sockets_closed (hs : s.Sockets) (hclients : s'.clients = Function.update s.clients j c)
    (hinterest : s'.interest = Function.update s.interest (s.clients j).sock none) :
    s'.Sockets := by
  refine sockets_of hs hclients ?_ ?_
  · intro fd x hx _
    rw [hinterest, Function.update_apply] at hx
    split at hx
    · cases hx
    · exact hx
  · intro fd x hx hj
    rw [hinterest, Function.update_apply] at hx
    split at hx
    · cases hx
    · rename_i hne
      subst hj
      exact (hne (hs fd x hx).1.symm).elim

theorem sockets_added {sock : ℤ} {events : Events} (hs : s.Sockets)
    (hclients : s'.clients = Function.update s.clients j c)
    (hinterest : s'.interest = Function.update s.interest sock (some ⟨events, j, true⟩))
    (hsock : c.sock = sock) (hlive : c.state.live = true)
    (hsame : (s.clients j).state.live = true → (s.clients j).sock = sock) : s'.Sockets := by
  refine sockets_of hs hclients ?_ ?_
  · intro fd x hx hj
    rw [hinterest, Function.update_apply] at hx
    split at hx
    · cases hx
      exact (hj rfl).elim
    · exact hx
  · intro fd x hx hj
    rw [hinterest, Function.update_apply] at hx
    split at hx
    · rename_i hfd
      exact ⟨hsock.trans hfd.symm, hlive⟩
    · subst hj
      rw [hsock, ← hsame (hs fd x hx).2]
      exact ⟨(hs fd x hx).1, hlive⟩

theorem sockets_step (hs : s.dying = false → s.Sockets) (h : s.step o a = some (s', out))
    (hdying : s'.dying = false) : s'.Sockets := by
  have hstepped := step_spec h hdying
  have hkeep := hs (hstepped.dying.symm.trans hdying)
  cases hstepped with
  | waited hpc htodo hgoes hnodup hle hready =>
      intro fd x hx
      obtain ⟨armed, hbefore, -⟩ := disarm_eq hx
      exact hkeep fd { x with armed := armed } hbefore
  | timedOut => exact hkeep
  | exited => exact hkeep
  | enteredConnecting => exact hkeep
  | enteredSent => exact hkeep
  | sentPart => exact hkeep
  | enteredInit hpc htodo hstate => exact sockets_same hkeep rfl rfl fun hlive => ⟨rfl, hlive⟩
  | @enteredOther j todo hpc htodo hstate =>
      rcases hstate with hstate | hstate | hstate
      · simp only [enter, hstate]
        exact hkeep
      · simp only [enter, hstate]
        exact hkeep
      · simp only [enter, hstate]
        exact sockets_closed (j := j) hkeep rfl rfl
  | connectedAtOnce hpc hstate =>
      exact sockets_same hkeep rfl rfl fun hlive => by rw [hstate] at hlive; cases hlive
  | began hpc hstate =>
      exact sockets_added hkeep rfl rfl rfl rfl fun hlive => by rw [hstate] at hlive; cases hlive
  | connected => exact sockets_closed hkeep rfl rfl
  | added hpc hstate => exact sockets_added hkeep rfl rfl rfl rfl fun _ => rfl
  | sentAll hpc hstate => exact sockets_same hkeep rfl rfl fun _ => ⟨rfl, rfl⟩
  | receivedPart hpc hstate => exact sockets_same hkeep rfl rfl fun hlive => ⟨rfl, hlive⟩
  | again hpc hstate => exact sockets_same hkeep rfl rfl fun hlive => ⟨rfl, hlive⟩
  | finished => exact sockets_closed hkeep rfl rfl
  | batchEnded => exact sockets_closed hkeep rfl rfl
  | next hpc hstate => exact sockets_same hkeep rfl rfl fun _ => ⟨rfl, rfl⟩

/-- The loop goes on to each client once at most. -/
theorem todo_le (hs : s.dying = false → s.Sockets) {fds : List ℤ}
    (h : s.step o (.wait fds) = some (s', out)) :
    s.dying = false ∧ s'.todo.length ≤ n := by
  obtain ⟨t, ht, hpair⟩ := Option.map_eq_some_iff.mp h
  cases hpair
  cases epollWait_spec ht with
  | @waited fds todo hpc htodo hgoes hnodup hle hready =>
      have hdying : s.dying = false := by
        rw [goesOn, Bool.and_eq_true] at hgoes
        simpa using hgoes.1
      have hsocks := map_sock (fun hx => (hs hdying _ _ hx).1) hready
      have htodo : todo.Nodup := by
        rw [← hsocks] at hnodup
        exact hnodup.of_map
      have hcard := htodo.length_le_card
      rw [Fintype.card_fin] at hcard
      exact ⟨hdying, hcard⟩

end Sockets

/-! ## Whole runs -/

theorem accounted_start (hb : 1 ≤ o.batchSize) (ht : 1 ≤ o.transactionCount)
    (h : Started o room s) : Accounted o room s [] := by
  have hclient : s.pc.client = none := by rw [h.pc]; rfl
  refine ⟨?_, List.forall_mem_nil _, ?_, ?_, ?_⟩
  · rw [h.log, TscLog.after]
    simp
  · intro j
    obtain ⟨buf, -, hj⟩ := h.clients j
    rw [view, hj, hclient]
    refine ⟨?_, Nat.le_refl _, by simp, ?_⟩
    · simp [eventsOf, View.pending, State.weight]
    · refine Live.paced ⟨ht, hb, Nat.le_refl _, fun _ => rfl, 0, ?_, ?_⟩ (by simp)
      · simp
      · simp [eventsOf]
  · intro _ j
    obtain ⟨buf, -, hj⟩ := h.clients j
    rw [view, hj]
    exact ⟨Nat.le_refl _, by simp⟩
  · rw [h.todo]
    simp

theorem sockets_start (h : Started o room s) : s.Sockets := by
  intro fd x hx
  rw [h.interest] at hx
  cases hx

theorem index32_eq (hn : n ≤ 2 ^ 32) (j : Fin n) : index32 j = j :=
  Fin.ext (Nat.mod_eq_of_lt (Nat.lt_of_lt_of_le j.isLt hn))

/-- With no more clients than a 32-bit index tells apart, the loop starts with each once. -/
theorem Started.start (hn : n ≤ 2 ^ 32) (h : Started o room s) : Start o s := by
  refine ⟨h.clients, h.interest, ?_, h.dying, h.complete, ?_, h.pc⟩
  · rw [h.log]
    exact ⟨rfl, rfl⟩
  · rw [h.todo, List.map_congr_left fun j _ => index32_eq hn j, List.map_id']

/-- The log of a worker, and that each client is dispatched in `SENT` as often as it logs. -/
theorem reaches_accounted (hb : 1 ≤ o.batchSize) (ht : 1 ≤ o.transactionCount)
    {tr : List (Input × Output n)} {s : Worker n × List (Fin n)}
    (h : ((loggingWorker n room o).record sentDispatch).Reaches tr s) :
    (s.1.dying = false → s.1.Sockets) ∧ ∃ all, Accounted o room s.1 all ∧
      ∀ j, s.2.count j = (eventsOf j all).count .recvStart := by
  induction h with
  | init hinit =>
      refine ⟨fun _ => sockets_start hinit.1, [], accounted_start hb ht hinit.1, ?_⟩
      rw [hinit.2]
      exact fun _ => rfl
  | @step tr s s' a out hreach hlast ih =>
      obtain ⟨hsockets, all, hs, hcount⟩ := ih
      obtain ⟨hstep, hrecord⟩ := Machine.record_step.mp hlast
      refine ⟨sockets_step hsockets hstep, ?_⟩
      rcases step_affected hstep with ⟨j, es, haffected⟩ | hrested
      · refine ⟨all ++ es, hs.affected hb haffected, ?_⟩
        intro i
        rw [hrecord, List.count_append, eventsOf_append, List.count_append, hcount,
          haffected.sent]
        congr 1
        by_cases hi : i = j
        · subst hi
          rw [eventsOf_self haffected.client, haffected.step.count_recvStart]
          split <;> simp
        · rw [eventsOf_other haffected.client hi]
          split
          · simp [Ne.symm hi]
          · rfl
      · refine ⟨all, hs.rested hrested ?_, ?_⟩
        · rcases hrested.todo with htodo | ⟨fds, rfl⟩
          · exact .inl htodo
          · exact .inr (todo_le hsockets hstep)
        · intro i
          rw [hrecord, hrested.sent, List.append_nil, hcount]

/-- Two events for each connection and each dispatch in `SENT`, and two for what is sent of
each transaction: one connection of each client may be refused. -/
theorem Accounted.length_le (hb : 1 ≤ o.batchSize) {all : List Entry}
    (h : Accounted o room s all) {k : ℕ} (hk : ∀ j : Fin n, (eventsOf j all).count .recvStart ≤ k) :
    all.length ≤ n * (2 * (1 + o.transactionCount / o.batchSize) + 1 + 2 * k +
      2 * o.transactionCount) := by
  have hdone : (all.map Entry.event).count .connectDone ≤
      (all.map Entry.event).count .connectStart + n :=
    Nat.le_of_add_right_le h.balance
  have hstarts : (all.map Entry.event).count .connectStart ≤
      n * (1 + o.transactionCount / o.batchSize) := by
    rw [List.count, ← sum_countP_eventsOf _ h.client]
    calc ∑ j : Fin n, (eventsOf j all).countP (· == .connectStart)
        ≤ ∑ _j : Fin n, (1 + o.transactionCount / o.batchSize) :=
          Finset.sum_le_sum fun j _ => (h.spent j).starts_le hb
      _ = n * (1 + o.transactionCount / o.batchSize) := by simp
  have hlength : all.length ≤ (all.map Entry.event).count .connectStart +
      (all.map Entry.event).count .connectDone + n * (2 * k + 2 * o.transactionCount) := by
    calc all.length = (all.map Entry.event).countP fun _ => true := by simp
      _ = ∑ j : Fin n, (eventsOf j all).length := by
          rw [← sum_countP_eventsOf _ h.client]
          simp
      _ ≤ ∑ j : Fin n, ((eventsOf j all).count .connectStart +
            (eventsOf j all).count .connectDone + (2 * k + 2 * o.transactionCount)) := by
          refine Finset.sum_le_sum fun j _ => ?_
          have hspent := (h.spent j).length_le
          have hj := hk j
          omega
      _ = _ := by
          rw [Finset.sum_add_distrib, Finset.sum_add_distrib]
          simp only [List.count, sum_countP_eventsOf _ h.client]
          simp
  calc all.length ≤ 2 * (n * (1 + o.transactionCount / o.batchSize)) + n +
        n * (2 * k + 2 * o.transactionCount) := by omega
    _ = _ := by ring

end Worker

/-! ## The room that `main` computes -/

theorem SizedRight.sizes {s : Settings} (h : SizedRight s) {z : Sizing UInt64}
    (hz : logSizing s = some z) : z.map UInt64.toNat = intendedSizing s := by
  rw [SizedRight, hz] at h
  exact Option.some.inj h

/-- As long as each client is dispatched in `SENT` no more often than expected, every event
finds room. A log with more room has no more than `max_events` entries either: that is how
often `tsclog_4` is called. -/
theorem log_has_room {s : Settings} {z : Sizing UInt64} (hbatch : 1 ≤ s.batchSize.toNat)
    (htxn : 1 ≤ s.transactionCount.toNat) (hright : SizedRight s) (hz : logSizing s = some z)
    {room : ℕ} (hroom : z.maxEvents.toNat ≤ room)
    {tr : List (Input × Output s.clientsPerThread.toNat)}
    {w : Worker s.clientsPerThread.toNat × List (Fin s.clientsPerThread.toNat)}
    (h : ((loggingWorker s.clientsPerThread.toNat room s.options).record
      sentDispatch).Reaches tr w)
    (hfew : ∀ j, w.2.count j ≤ 15 * z.minIo.toNat * s.transactionCount.toNat) :
    z.entrySize.toNat = TscLogger.TscLogEntrySize 4 * z.maxEvents.toNat ∧
      w.1.log.overflow = false ∧ w.1.log.entries.length ≤ z.maxEvents.toNat := by
  have hsizes := hright.sizes hz
  have hminIo : z.minIo.toNat = 1 + s.msgSize.toNat / 1380 := congrArg Sizing.minIo hsizes
  have hmax : z.maxEvents.toNat = (4 * (1 + s.msgSize.toNat / 1380) * s.transactionCount.toNat +
      2 * (1 + s.transactionCount.toNat / s.batchSize.toNat)) * s.clientsPerThread.toNat * 8 :=
    congrArg Sizing.maxEvents hsizes
  have hentry : z.entrySize.toNat = TscLogger.TscLogEntrySize 4 * (intendedSizing s).maxEvents :=
    congrArg Sizing.entrySize hsizes
  obtain ⟨-, all, haccounted, hcount⟩ := Worker.reaches_accounted hbatch htxn h
  have hlength := haccounted.length_le hbatch fun j => hcount j ▸ hfew j
  have hle : all.length ≤ z.maxEvents.toNat := by
    have htxns : s.transactionCount.toNat ≤ z.minIo.toNat * s.transactionCount.toNat :=
      Nat.le_mul_of_pos_left _ (by omega)
    calc all.length ≤ _ := hlength
      _ ≤ s.clientsPerThread.toNat * ((4 * (z.minIo.toNat * s.transactionCount.toNat) +
            2 * (1 + s.transactionCount.toNat / s.batchSize.toNat)) * 8) := by
          refine Nat.mul_le_mul_left _ ?_
          rw [Nat.mul_assoc 15]
          simp only [Settings.options]
          generalize s.transactionCount.toNat / s.batchSize.toNat = batches
          omega
      _ = z.maxEvents.toNat := by rw [hmax, hminIo]; ring
  rw [haccounted.log]
  refine ⟨hentry.trans (congrArg _ (congrArg Sizing.maxEvents hsizes).symm), ?_, ?_⟩
  · simpa [TscLog.after] using hle.trans hroom
  · exact (List.length_take_le' _ _).trans hle

/-! ## A run of two clients -/

def threeTxnSettings : Settings :=
  { Settings.default with
    msgSize := 2
    clientsPerThread := 2
    batchSize := 2
    transactionCount := 3
    nrThreads := 1 }

def twoClientLog : Worker 2 := { twoClients with log := ⟨[], 256, false⟩ }

theorem twoClientLog_start :
    ((loggingWorker 2 256 threeTxnSettings.options).record sentDispatch).Init
      (twoClientLog, []) :=
  ⟨⟨fun _ => ⟨[7, 8], rfl, rfl⟩, fun _ => rfl, rfl, rfl, rfl, rfl, rfl⟩, rfl⟩

theorem sixTransactions_dispatched :
    (((loggingWorker 2 256 threeTxnSettings.options).record sentDispatch).exec
      (twoClientLog, []) (sixTransactions ++ [.run])).isSome := by decide

theorem sixTransactions_logged :
    ∃ tr w, ((loggingWorker 2 256 threeTxnSettings.options).record sentDispatch).Reaches tr w ∧
      w.1.pc = .exited ∧ w.1.log.entries.length = 34 ∧ w.2 = [1, 1, 1, 0, 0, 0, 1] :=
  ⟨_, _, Machine.reaches_exec_get twoClientLog_start sixTransactions_dispatched,
    by decide +kernel⟩

theorem log_has_room_sixTransactions :
    ∃ w : Worker 2 × List (Fin 2), w.1.pc = .exited ∧ w.1.log.entries.length = 34 ∧
      w.1.log.overflow = false ∧ w.1.log.entries.length ≤ 256 := by
  obtain ⟨tr, w, hreach, hpc, hlength, hsent⟩ := sixTransactions_logged
  have hroom := log_has_room (s := threeTxnSettings) (z := ⟨1, 12, 4, 16, 32, 256, 12288, 12416⟩)
    (by decide) (by decide) (by rfl) (by rfl) (by decide) hreach (by rw [hsent]; decide)
  exact ⟨w, hpc, hlength, hroom.2⟩

end Upcalls.TcpClient
