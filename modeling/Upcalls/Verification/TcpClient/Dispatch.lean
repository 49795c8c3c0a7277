import Upcalls.Model.LogSizing
import Upcalls.Verification.TcpClient.Registration

/-! # What a step does to a client, whether or not something fails -/

namespace Upcalls.TcpClient

open Library

variable {n : ℕ} {o : Options}

/-! ## Steps of a client -/

/-- What the log of a client depends on; `busy` is whether it is inside of
`do_state_transition`. -/
structure View where
  state : State
  txnRemaining : ℕ
  batchRemaining : ℕ
  busy : Bool

/-- The steps of a client with what they log. -/
inductive View.Step (o : Options) : View → List LogEvent → View → Prop
  | enterInit {r b} : Step o ⟨.init, r, b, false⟩ [] ⟨.init, r, o.batchSize, true⟩
  | enterConnecting {r b} :
      Step o ⟨.connecting, r, b, false⟩ [.connectDone] ⟨.connecting, r, b, true⟩
  | enterNew {r b} : Step o ⟨.new, r, b, false⟩ [] ⟨.new, r, b, true⟩
  | enterReady {r b} : Step o ⟨.ready, r, b, false⟩ [.sendStart] ⟨.ready, r, b, true⟩
  | enterSent {r b} : Step o ⟨.sent, r, b, false⟩ [.recvStart] ⟨.sent, r, b, true⟩
  | enterDone {r b} : Step o ⟨.done, r, b, false⟩ [] ⟨.done, r, b, false⟩
  | noSocket {r b} : Step o ⟨.init, r, b, true⟩ [] ⟨.init, r, b, false⟩
  | connectedAtOnce {r b} : Step o ⟨.init, r, b, true⟩
      [.connectStart, .connectDone, .sendStart] ⟨.ready, r, b, true⟩
  | began {r b} : Step o ⟨.init, r, b, true⟩ [.connectStart] ⟨.connecting, r, b, false⟩
  | failed {r b} : Step o ⟨.init, r, b, true⟩ [.connectStart] ⟨.done, r, b, false⟩
  | refused {r b} : Step o ⟨.connecting, r, b, true⟩ [] ⟨.connecting, r, b, false⟩
  | connected {r b} : Step o ⟨.connecting, r, b, true⟩ [] ⟨.new, r, b, true⟩
  | notAdded {r b} : Step o ⟨.new, r, b, true⟩ [] ⟨.new, r, b, false⟩
  | added {r b} : Step o ⟨.new, r, b, true⟩ [.sendStart] ⟨.ready, r, b, true⟩
  | sentPart {r b} : Step o ⟨.ready, r, b, true⟩ [] ⟨.ready, r, b, true⟩
  | sentAll {r b} : Step o ⟨.ready, r, b, true⟩ [.sendDone] ⟨.sent, r, b, false⟩
  | receivedPart {r b} : Step o ⟨.sent, r, b, true⟩ [] ⟨.sent, r, b, true⟩
  | again {r b} : Step o ⟨.sent, r, b, true⟩ [.recvDone] ⟨.sent, r, b, false⟩
  | finished {r b} : sub64 r 1 = 0 →
      Step o ⟨.sent, r, b, true⟩ [.recvDone] ⟨.done, sub64 r 1, b, false⟩
  | batchEnded {r b} : sub64 r 1 ≠ 0 → sub64 b 1 = 0 →
      Step o ⟨.sent, r, b, true⟩ [.recvDone] ⟨.init, sub64 r 1, o.batchSize, true⟩
  | next {r b} : sub64 r 1 ≠ 0 → sub64 b 1 ≠ 0 →
      Step o ⟨.sent, r, b, true⟩ [.recvDone, .sendStart] ⟨.ready, sub64 r 1, sub64 b 1, true⟩

namespace Worker

def view (s : Worker n) (j : Fin n) : View :=
  ⟨(s.clients j).state, (s.clients j).txnRemaining, (s.clients j).batchRemaining,
    s.pc.client = some j⟩

@[simp] theorem entry_client (s : Worker n) (j : Fin n) (r : ℕ) (event : LogEvent) :
    (s.entry o j r event).client = j := rfl

@[simp] theorem entry_event (s : Worker n) (j : Fin n) (r : ℕ) (event : LogEvent) :
    (s.entry o j r event).event = event := rfl

def logAll (es : List Entry) (log : TscLog) : TscLog := es.foldl (fun log e => log.tsclog4 e) log

/-- A step of the worker that is a step of client `j`, with the entries it logs. -/
structure Affected (o : Options) (s : Worker n) (a : Input) (s' : Worker n) (j : Fin n)
    (es : List Entry) : Prop where
  step : View.Step o (s.view j) (es.map Entry.event) (s'.view j)
  client : ∀ e ∈ es, e.client = j
  log : s'.log = logAll es s.log
  others : ∀ {i}, i ≠ j → s'.clients i = s.clients i
  todo : s.pc.client = some j ∧ s'.todo = s.todo ∨ s.pc.client = none ∧ s.todo = j :: s'.todo
  behind : s'.pc.client = some j ∨ s'.pc.client = none
  sent : sentDispatch s a = if .recvStart ∈ es.map Entry.event then [j] else []
  dying : s.dying = true → s'.dying = true
  refused : (s.clients j).state = .connecting → (s'.clients j).state = .connecting →
    s.pc.client = some j → s'.dying = true

/-- A step between calls of `do_state_transition` that dispatches nobody. -/
structure Rested (s : Worker n) (a : Input) (s' : Worker n) : Prop where
  clients : s'.clients = s.clients
  log : s'.log = s.log
  pc : s'.pc.client = s.pc.client
  todo : s'.todo = s.todo ∨ ∃ fds, a = .wait fds
  sent : sentDispatch s a = []
  dying : s.dying = true → s'.dying = true

section Moves

variable {s s' : Worker n} {j : Fin n} {a : Input} {es : List Entry} {c : Client}

theorem affected_of (hclients : s'.clients = Function.update s.clients j c)
    (hstep : View.Step o (s.view j) (es.map Entry.event)
      ⟨c.state, c.txnRemaining, c.batchRemaining, s'.pc.client = some j⟩)
    (hclient : ∀ e ∈ es, e.client = j) (hlog : s'.log = logAll es s.log)
    (htodo : s.pc.client = some j ∧ s'.todo = s.todo ∨
      s.pc.client = none ∧ s.todo = j :: s'.todo)
    (hbehind : s'.pc.client = some j ∨ s'.pc.client = none)
    (hsent : sentDispatch s a = if .recvStart ∈ es.map Entry.event then [j] else [])
    (hdying : s.dying = true → s'.dying = true)
    (hrefused : (s.clients j).state = .connecting → c.state = .connecting →
      s.pc.client = some j → s'.dying = true) : Affected o s a s' j es := by
  have hj : s'.clients j = c := by rw [hclients, Function.update_self]
  refine ⟨?_, hclient, hlog, ?_, htodo, hbehind, hsent, hdying, ?_⟩
  · rw [view, view, hj]
    exact hstep
  · intro i hi
    rw [hclients, Function.update_of_ne hi]
  · rw [hj]
    exact hrefused

/-! ## The entry into a call -/

/-- A client that logs `event` on its way into the call. -/
theorem entered_affected {todo : List (Fin n)} (event : LogEvent) (hpc : s.pc = .loop)
    (htodo : s.todo = j :: todo)
    (henter : { s with todo := todo }.enter o j 0 =
      (tsclog o j event { s with todo := todo }).goTo (.call j 0 0))
    (hstep : ∀ r b, View.Step o ⟨(s.clients j).state, r, b, false⟩ [event]
      ⟨(s.clients j).state, r, b, true⟩)
    (hsent : (s.clients j).state = .sent ↔ .recvStart = event) :
    ∃ es, Affected o s .run ({ s with todo := todo }.enter o j 0) j es := by
  have hnone : s.pc.client = none := by rw [hpc]; rfl
  have hview : s.view j = ⟨(s.clients j).state, (s.clients j).txnRemaining,
      (s.clients j).batchRemaining, false⟩ := by
    simp [view, hnone]
  rw [henter]
  refine ⟨[s.entry o j (s.clients j).txnRemaining event], affected_of (c := s.clients j)
    (Function.update_eq_self j s.clients).symm ?_ (by simp) rfl (.inr ⟨hnone, htodo⟩) (.inl rfl)
    ?_ id (by simp [hnone])⟩
  · rw [hview]
    simpa [goTo, Pc.client] using hstep _ _
  · simp [sentDispatch, hpc, htodo, hsent]

theorem run_affected {todo : List (Fin n)} (hpc : s.pc = .loop) (htodo : s.todo = j :: todo) :
    ∃ es, Affected o s .run ({ s with todo := todo }.enter o j 0) j es := by
  have hnone : s.pc.client = none := by rw [hpc]; rfl
  have hview : s.view j = ⟨(s.clients j).state, (s.clients j).txnRemaining,
      (s.clients j).batchRemaining, false⟩ := by
    simp [view, hnone]
  cases hstate : (s.clients j).state with
  | init =>
      refine ⟨[], affected_of (c := { s.clients j with batchRemaining := o.batchSize })
        ?_ ?_ (List.forall_mem_nil _) ?_ (.inr ⟨hnone, ?_⟩) (.inl ?_) ?_ ?_ (by simp [hnone])⟩
      · simp [enter, hstate, setClient, goTo]
      · rw [hview, hstate]
        simpa [enter, hstate, goTo, Pc.client] using View.Step.enterInit
      · simp [enter, hstate, setClient, goTo, logAll]
      · simp [enter, hstate, setClient, goTo, htodo]
      · simp [enter, hstate, setClient, goTo, Pc.client]
      · simp [sentDispatch, hpc, htodo, hstate]
      · simp [enter, hstate, setClient, goTo]
  | connecting =>
      refine entered_affected .connectDone hpc htodo ?_ ?_ (by simp [hstate])
      · simp [enter, hstate]
      · rw [hstate]
        exact fun _ _ => .enterConnecting
  | new =>
      refine ⟨[], affected_of (c := s.clients j) ?_ ?_ (List.forall_mem_nil _) ?_ (.inr ⟨hnone, ?_⟩) (.inl ?_) ?_ ?_
        (by simp [hnone])⟩
      · simp [enter, hstate, goTo]
      · rw [hview, hstate]
        simpa [enter, hstate, goTo, Pc.client] using View.Step.enterNew
      · simp [enter, hstate, goTo, logAll]
      · simp [enter, hstate, goTo, htodo]
      · simp [enter, hstate, goTo, Pc.client]
      · simp [sentDispatch, hpc, htodo, hstate]
      · simp [enter, hstate, goTo]
  | ready =>
      refine entered_affected .sendStart hpc htodo ?_ ?_ (by simp [hstate])
      · simp [enter, hstate]
      · rw [hstate]
        exact fun _ _ => .enterReady
  | sent =>
      refine entered_affected .recvStart hpc htodo ?_ ?_ (by simp [hstate])
      · simp [enter, hstate]
      · rw [hstate]
        exact fun _ _ => .enterSent
  | done =>
      refine ⟨[], affected_of (c := { s.clients j with sock := -1 }) ?_ ?_ (List.forall_mem_nil _) ?_
        (.inr ⟨hnone, ?_⟩) (.inr ?_) ?_ ?_ (by simp [hnone])⟩
      · simp [enter, hstate, done, setClient, del, close, ret]
      · rw [hview, hstate]
        simpa [enter, hstate, done, ret, Pc.client] using View.Step.enterDone
      · simp [enter, hstate, done, setClient, del, close, ret, logAll]
      · simp [enter, hstate, done, setClient, del, close, ret, htodo]
      · simp [enter, hstate, done, setClient, del, close, ret, Pc.client]
      · simp [sentDispatch, hpc, htodo, hstate]
      · simp [enter, hstate, done, setClient, del, close, ret]

/-! ## Inside of a call -/

section Call

variable {count cursor : ℕ} {out : Output n}

theorem affected_call (hpc : s.pc = .call j count cursor)
    (hclients : s'.clients = Function.update s.clients j c)
    (hstep : View.Step o
      ⟨(s.clients j).state, (s.clients j).txnRemaining, (s.clients j).batchRemaining, true⟩
      (es.map Entry.event)
      ⟨c.state, c.txnRemaining, c.batchRemaining, s'.pc.client = some j⟩)
    (hclient : ∀ e ∈ es, e.client = j) (hlog : s'.log = logAll es s.log)
    (htodo : s'.todo = s.todo) (hbehind : s'.pc.client = some j ∨ s'.pc.client = none)
    (hrecv : .recvStart ∉ es.map Entry.event) (hdying : s.dying = true → s'.dying = true)
    (hrefused : (s.clients j).state = .connecting → c.state = .connecting →
      s'.dying = true) : Affected o s a s' j es := by
  have hin : s.pc.client = some j := by rw [hpc]; rfl
  refine affected_of hclients ?_ hclient hlog (.inl ⟨hin, htodo⟩) hbehind ?_ hdying
    (fun hold hnew _ => hrefused hold hnew)
  · simpa [view, hin] using hstep
  · rw [if_neg hrecv]
    cases a with
    | run => simp [sentDispatch, hpc]
    | _ => rfl

/-- A client that goes on without logging. -/
theorem affected_quiet (hpc : s.pc = .call j count cursor)
    (hclients : s'.clients = Function.update s.clients j c)
    (hstep : View.Step o
      ⟨(s.clients j).state, (s.clients j).txnRemaining, (s.clients j).batchRemaining, true⟩ []
      ⟨c.state, c.txnRemaining, c.batchRemaining, s'.pc.client = some j⟩)
    (hlog : s'.log = s.log) (htodo : s'.todo = s.todo)
    (hbehind : s'.pc.client = some j ∨ s'.pc.client = none)
    (hdying : s.dying = true → s'.dying = true)
    (hrefused : (s.clients j).state = .connecting → c.state = .connecting →
      s'.dying = true) : ∃ es, Affected o s a s' j es :=
  ⟨[], affected_call hpc hclients hstep (List.forall_mem_nil _) hlog htodo hbehind
    List.not_mem_nil hdying hrefused⟩

theorem init_affected {answer : Opened} (hpc : s.pc = .call j count cursor)
    (hstate : (s.clients j).state = .init) (h : s.init o j count answer = some (s', out)) :
    ∃ es, Affected o s a s' j es := by
  cases answer with
  | noSocket =>
      cases h
      refine affected_quiet (c := { s.clients j with sock := -1 }) hpc rfl ?_ rfl rfl
        (.inr rfl) (fun _ => rfl) (by simp [hstate])
      rw [hstate]
      exact .noSocket
  | noOption fd =>
      simp only [init] at h
      split at h
      · cases h
        refine affected_quiet (c := { s.clients j with sock := fd }) hpc rfl ?_ rfl rfl
          (.inr rfl) (fun _ => rfl) (by simp [hstate])
        rw [hstate]
        exact .noSocket
      · cases h
  | ready fd =>
      simp only [init] at h
      split at h
      · cases h
        refine ⟨[s.entry o j (s.clients j).txnRemaining .connectStart,
          s.entry o j (s.clients j).txnRemaining .connectDone,
          s.entry o j (s.clients j).txnRemaining .sendStart],
          affected_call (c := { s.clients j with sock := fd, state := .ready }) hpc ?_ ?_
            (by simp) ?_ ?_ (.inl ?_) (by simp) ?_ (by simp [hstate])⟩
        · simp [enter, tsclog, setClient, openSock, goTo]
        · rw [hstate]
          simpa [enter, tsclog, setClient, openSock, goTo, entry, Pc.client] using
            View.Step.connectedAtOnce
        · simp [enter, tsclog, setClient, openSock, goTo, entry, logAll]
        · simp [enter, tsclog, setClient, openSock, goTo]
        · simp [enter, tsclog, setClient, openSock, goTo, Pc.client]
        · simp [enter, tsclog, setClient, openSock, goTo]
      · cases h
  | inProgress fd added =>
      simp only [init] at h
      split at h
      · cases h
        refine ⟨[s.entry o j (s.clients j).txnRemaining .connectStart],
          affected_call (c := { s.clients j with sock := fd, state := .connecting }) hpc ?_ ?_
            (by simp) ?_ ?_ (.inr rfl) (by simp) ?_ (by simp [hstate])⟩
        · cases added <;> rfl
        · rw [hstate]
          exact .began
        · cases added <;> rfl
        · cases added <;> rfl
        · intro hdying
          cases added with
          | true => exact hdying
          | false => rfl
      · cases h
  | failed fd added =>
      simp only [init] at h
      split at h
      · cases h
        refine ⟨[s.entry o j (s.clients j).txnRemaining .connectStart],
          affected_call (c := { s.clients j with sock := fd, state := .done }) hpc ?_ ?_
            (by simp) ?_ ?_ (.inr rfl) (by simp) ?_ (by simp [hstate])⟩
        · cases added <;> rfl
        · rw [hstate]
          exact .failed
        · cases added <;> rfl
        · cases added <;> rfl
        · intro hdying
          cases added <;> rfl
      · cases h

theorem connecting_affected {answer : Connected} (hpc : s.pc = .call j count cursor)
    (hstate : (s.clients j).state = .connecting) :
    ∃ es, Affected o s a (s.connecting o j count answer) j es := by
  have hsame : s.clients = Function.update s.clients j (s.clients j) :=
    (Function.update_eq_self j s.clients).symm
  cases answer with
  | ok =>
      refine affected_quiet (c := { s.clients j with state := .new }) hpc ?_ ?_ ?_ ?_
        (.inl ?_) ?_ (by simp)
      · simp [connecting, enter, setClient, del, goTo]
      · rw [hstate]
        simpa [connecting, enter, setClient, del, goTo, Pc.client] using View.Step.connected
      · simp [connecting, enter, setClient, del, goTo]
      · simp [connecting, enter, setClient, del, goTo]
      · simp [connecting, enter, setClient, del, goTo, Pc.client]
      · simp [connecting, enter, setClient, del, goTo]
  | _ =>
      refine affected_quiet (c := s.clients j) hpc hsame ?_ rfl rfl (.inr rfl)
        (fun _ => rfl) (fun _ _ => rfl)
      rw [hstate]
      exact .refused

theorem new_affected {added : Bool} (hpc : s.pc = .call j count cursor)
    (hstate : (s.clients j).state = .new) :
    ∃ es, Affected o s a (s.new o j count added) j es := by
  have hsame : s.clients = Function.update s.clients j (s.clients j) :=
    (Function.update_eq_self j s.clients).symm
  cases added with
  | true =>
      refine ⟨[s.entry o j (s.clients j).txnRemaining .sendStart],
        affected_call (c := { s.clients j with state := .ready }) hpc ?_ ?_ (by simp) ?_ ?_
          (.inl ?_) (by simp) ?_ (by simp)⟩
      · simp [new, enter, tsclog, setClient, add, goTo]
      · rw [hstate]
        simpa [new, enter, tsclog, setClient, add, goTo, entry, Pc.client] using View.Step.added
      · simp [new, enter, tsclog, setClient, add, goTo, entry, logAll]
      · simp [new, enter, tsclog, setClient, add, goTo]
      · simp [new, enter, tsclog, setClient, add, goTo, Pc.client]
      · simp [new, enter, tsclog, setClient, add, goTo]
  | false =>
      refine affected_quiet (c := s.clients j) hpc hsame ?_ rfl rfl (.inr rfl)
        (fun _ => rfl) (by simp [hstate])
      rw [hstate]
      exact .notAdded

theorem ready_affected {answer : Option ℕ} (hpc : s.pc = .call j count cursor)
    (hstate : (s.clients j).state = .ready) (h : s.ready o j count cursor answer = some s') :
    ∃ es, Affected o s a s' j es := by
  have hsame : s.clients = Function.update s.clients j (s.clients j) :=
    (Function.update_eq_self j s.clients).symm
  have hsent : ∀ t : Worker n, t.clients = s.clients → t.log = s.log → t.todo = s.todo →
      t.index = s.index → (s.dying = true → t.dying = true) →
      ∃ es, Affected o s a (((t.tsclog o j .sendDone).setClient j
        { s.clients j with state := .sent }).ret count) j es := by
    intro t hclients hlog htodo hindex hdying
    refine ⟨[s.entry o j (s.clients j).txnRemaining .sendDone],
      affected_call (c := { s.clients j with state := .sent }) hpc ?_ ?_ (by simp) ?_ ?_
        (.inr rfl) (by simp) hdying (by simp)⟩
    · simp [tsclog, setClient, ret, hclients]
    · rw [hstate]
      exact .sentAll
    · simp [tsclog, setClient, ret, entry, logAll, hclients, hlog, hindex]
    · simp [tsclog, setClient, ret, htodo]
  cases answer with
  | none =>
      cases h
      exact hsent _ rfl rfl rfl rfl (fun _ => rfl)
  | some k =>
      simp only [ready] at h
      split at h
      · cases h
        refine affected_quiet (c := s.clients j) hpc hsame ?_ rfl rfl (.inl rfl) id
          (by simp [hstate])
        rw [hstate]
        simpa [goTo, Pc.client] using View.Step.sentPart
      · split at h
        · cases h
          exact hsent _ rfl rfl rfl rfl id
        · cases h

/-- What follows a whole response, with `t` the worker behind `RECV_DONE`. -/
theorem completeTxn_affected (hpc : s.pc = .call j count cursor)
    (hstate : (s.clients j).state = .sent) {t : Worker n} {c : Client} {e : Entry}
    (hclients : t.clients = Function.update s.clients j c)
    (htxn : c.txnRemaining = (s.clients j).txnRemaining)
    (hbatch : c.batchRemaining = (s.clients j).batchRemaining) (hclient : e.client = j)
    (hevent : e.event = .recvDone) (hlog : t.log = s.log.tsclog4 e) (htodo : t.todo = s.todo)
    (hdying : s.dying = true → t.dying = true) :
    ∃ es, Affected o s a (t.completeTxn o j count).1 j es := by
  have hj : t.clients j = c := by rw [hclients, Function.update_self]
  rw [completeTxn, hj]
  simp only
  split
  · rename_i hzero
    rw [enter_done rfl]
    refine ⟨[e], affected_call (c := { c with
        sock := -1, cursor := 0, state := .done, txnRemaining := sub64 c.txnRemaining 1 })
      hpc ?_ ?_ (by simpa using hclient) ?_ ?_ (.inr rfl) (by simp [hevent]) ?_ (by simp)⟩
    · simp [setClient, del, close, ret, hclients]
    · rw [hstate, List.map_singleton, hevent]
      rw [htxn] at hzero
      simpa [htxn, hbatch, ret, Pc.client] using View.Step.finished hzero
    · simpa [setClient, del, close, ret, logAll] using hlog
    · simpa [setClient, del, close, ret] using htodo
    · simpa [setClient, del, close, ret] using hdying
  · rename_i hmore
    rw [htxn] at hmore
    split
    · rename_i hzero
      rw [hbatch] at hzero
      rw [enter_init rfl]
      refine ⟨[e], affected_call (c := { c with
          cursor := 0, state := .init, txnRemaining := sub64 c.txnRemaining 1
          batchRemaining := o.batchSize })
        hpc ?_ ?_ (by simpa using hclient) ?_ ?_ (.inl rfl) (by simp [hevent]) ?_ (by simp)⟩
      · simp [setClient, del, close, goTo, hclients]
      · rw [hstate, List.map_singleton, hevent]
        simpa [htxn, goTo, Pc.client] using View.Step.batchEnded hmore hzero
      · simpa [setClient, del, close, goTo, logAll] using hlog
      · simpa [setClient, del, close, goTo] using htodo
      · simpa [setClient, del, close, goTo] using hdying
    · rename_i hbatch'
      rw [hbatch] at hbatch'
      rw [enter_ready rfl]
      refine ⟨[e, t.entry o j (sub64 c.txnRemaining 1) .sendStart], affected_call (c := { c with
          cursor := 0, state := .ready, txnRemaining := sub64 c.txnRemaining 1
          batchRemaining := sub64 c.batchRemaining 1 })
        hpc ?_ ?_ (by simpa using hclient) ?_ ?_ (.inl rfl) (by simp [hevent]) ?_ (by simp)⟩
      · simp [tsclog, setClient, goTo, hclients]
      · rw [hstate, List.map_cons, hevent]
        simpa [htxn, hbatch, goTo, Pc.client] using View.Step.next hmore hbatch'
      · simp [tsclog, setClient, goTo, logAll, entry, hlog]
      · simpa [tsclog, setClient, goTo] using htodo
      · simpa [tsclog, setClient, goTo] using hdying

theorem received_affected (hpc : s.pc = .call j count cursor)
    (hstate : (s.clients j).state = .sent) {t : Worker n} {c : Client} (k : ℕ)
    (hclients : t.clients = Function.update s.clients j c) (hsent : c.state = .sent)
    (htxn : c.txnRemaining = (s.clients j).txnRemaining)
    (hbatch : c.batchRemaining = (s.clients j).batchRemaining) (hlog : t.log = s.log)
    (htodo : t.todo = s.todo) (hdying : s.dying = true → t.dying = true) :
    ∃ es, Affected o s a (t.received o j count k).1 j es := by
  have hj : t.clients j = c := by rw [hclients, Function.update_self]
  simp only [received, hj]
  split
  · refine ⟨[t.entry o j c.txnRemaining .recvDone], affected_call (c := { c with
        cursor := c.cursor + k }) hpc ?_ ?_ (by simp) ?_ ?_ (.inr rfl) (by simp) ?_
        (by simp [hstate])⟩
    · simp [tsclog, setClient, ret, hclients]
    · rw [hstate, hsent, htxn, hbatch]
      exact .again
    · simp [tsclog, setClient, ret, entry, logAll, hlog]
    · simpa [tsclog, setClient, ret] using htodo
    · simpa [tsclog, setClient, ret] using hdying
  · refine completeTxn_affected (c := { c with cursor := c.cursor + k })
      (e := t.entry o j c.txnRemaining .recvDone) hpc hstate ?_ htxn hbatch rfl rfl ?_ htodo hdying
    · simp [tsclog, setClient, hclients]
    · simp [tsclog, setClient, entry, hlog]

theorem sent_affected {answer : Received} (hpc : s.pc = .call j count cursor)
    (hstate : (s.clients j).state = .sent) (h : s.sent o j count cursor answer = some (s', out)) :
    ∃ es, Affected o s a s' j es := by
  have hsame : s.clients = Function.update s.clients j (s.clients j) :=
    (Function.update_eq_self j s.clients).symm
  cases answer with
  | again =>
      have hpair := Option.some.inj h
      have haffected := received_affected (o := o) (a := a) hpc hstate cursor hsame hstate rfl rfl
        rfl rfl id
      rwa [hpair] at haffected
  | error =>
      have hpair := Option.some.inj h
      have haffected := received_affected (o := o) (a := a) (t := s.setDying) hpc hstate 0 hsame
        hstate rfl rfl rfl rfl (fun _ => rfl)
      rwa [hpair] at haffected
  | data bytes =>
      simp only [sent] at h
      split at h
      · cases h
        refine affected_quiet hpc (by simp only [setClient, goTo]; rfl) ?_ rfl rfl
          (.inl rfl) id (by simp [hstate])
        rw [hstate]
        simpa [goTo, Pc.client] using View.Step.receivedPart
      · split at h
        · have hpair := Option.some.inj h
          have haffected := received_affected (o := o) (a := a)
            (t := s.setClient j { s.clients j with
              buf := (s.clients j).buf.take ((s.clients j).cursor + cursor) ++ bytes ++
                (s.clients j).buf.drop ((s.clients j).cursor + cursor + bytes.length) })
            hpc hstate (cursor + bytes.length) rfl hstate rfl rfl rfl rfl id
          rwa [hpair] at haffected
        · cases h

theorem doStateTransition_affected (h : s.doStateTransition o a = some (s', out)) :
    ∃ j es, Affected o s a s' j es := by
  rw [doStateTransition] at h
  split at h
  · rename_i j count cursor hpc
    refine ⟨j, ?_⟩
    split at h
    · rename_i hstate
      exact init_affected hpc hstate h
    · rename_i hstate
      cases h
      exact connecting_affected hpc hstate
    · rename_i hstate
      cases h
      exact new_affected hpc hstate
    · rename_i hstate
      obtain ⟨t, ht, hpair⟩ := Option.map_eq_some_iff.mp h
      cases hpair
      exact ready_affected hpc hstate ht
    · rename_i hstate
      exact sent_affected hpc hstate h
    · cases h
  · cases h

end Call

end Moves

/-! ## Any step -/

theorem epollWaitEnds_rested {s s' : Worker n} {a : Input} {failed : Bool}
    (h : s.epollWaitEnds o failed = some s') (ha : sentDispatch s a = []) : Rested s a s' := by
  rw [epollWaitEnds] at h
  split at h
  · rename_i hpc htodo
    split at h
    · cases h
      have hnone : Pc.client Pc.exited = s.pc.client := by
        rw [hpc]
        rfl
      cases failed with
      | true => exact ⟨rfl, rfl, hnone, .inl rfl, ha, fun _ => rfl⟩
      | false => exact ⟨rfl, rfl, hnone, .inl rfl, ha, id⟩
    · cases h
  · cases h

theorem step_affected {s s' : Worker n} {a : Input} {out : Output n}
    (h : s.step o a = some (s', out)) : (∃ j es, Affected o s a s' j es) ∨ Rested s a s' := by
  cases a with
  | run =>
      obtain ⟨t, ht, hpair⟩ := Option.map_eq_some_iff.mp h
      cases hpair
      rw [run] at ht
      split at ht
      · rename_i j todo hpc htodo
        cases ht
        exact .inl ⟨j, run_affected hpc htodo⟩
      · rename_i hpc htodo
        split at ht
        · cases ht
        · cases ht
          right
          refine ⟨rfl, rfl, ?_, .inl rfl, ?_, id⟩
          · rw [hpc]
            rfl
          · simp [sentDispatch, hpc, htodo]
      · cases ht
  | wait fds =>
      obtain ⟨t, ht, hpair⟩ := Option.map_eq_some_iff.mp h
      cases hpair
      rw [epollWait] at ht
      split at ht
      · split at ht
        · cases ht
          exact .inr ⟨rfl, rfl, rfl, .inr ⟨fds, rfl⟩, rfl, id⟩
        · cases ht
      · cases ht
  | timeout =>
      obtain ⟨t, ht, hpair⟩ := Option.map_eq_some_iff.mp h
      cases hpair
      exact .inr (epollWaitEnds_rested ht rfl)
  | waitFailed =>
      obtain ⟨t, ht, hpair⟩ := Option.map_eq_some_iff.mp h
      cases hpair
      exact .inr (epollWaitEnds_rested ht rfl)
  | setDying =>
      cases h
      exact .inr ⟨rfl, rfl, rfl, .inl rfl, rfl, fun _ => rfl⟩
  | _ => exact .inl (doStateTransition_affected h)

end Worker

end Upcalls.TcpClient
