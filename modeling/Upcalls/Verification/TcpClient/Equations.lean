import Upcalls.Model.TcpClient

/-! # What a worker of the load generator does while nothing fails -/

namespace Upcalls.TcpClient

open Library

variable {n : ℕ} {o : Options}

namespace Worker

/-! ## Steps -/

/-- An entry of client `j` while it has `txnRemaining` transactions to go. -/
def entry (o : Options) (s : Worker n) (j : Fin n) (txnRemaining : ℕ) (event : LogEvent) :
    Entry :=
  ⟨s.index, j, sub64 o.transactionCount txnRemaining, event⟩

/-- An answer of `recv` that leaves `client_recv` with the whole response in `buf`. -/
inductive Full (c : Client) (cursor : ℕ) : Received → List UInt8 → Prop
  | data {bytes} : c.cursor + cursor + bytes.length = c.bufSize →
      Full c cursor (.data bytes) (c.buf.take (c.cursor + cursor) ++ bytes ++
        c.buf.drop (c.cursor + cursor + bytes.length))
  | again : c.bufSize ≤ c.cursor + cursor → Full c cursor .again c.buf

/-- The steps that leave a worker not dying. -/
inductive Stepped (o : Options) (s : Worker n) : Input → Worker n → Output n → Prop
  | waited {fds todo} : s.pc = .loop → s.todo = [] → s.goesOn o = true → fds.Nodup →
      1 ≤ fds.length → fds.mapM s.ready? = some todo →
      Stepped o s (.wait fds) { s.disarm fds with todo := todo } .silent
  | timedOut : s.pc = .loop → s.todo = [] → Stepped o s .timeout (s.goTo .exited) .silent
  | exited : s.pc = .loop → s.todo = [] → s.goesOn o = false →
      Stepped o s .run (s.goTo .exited) .silent
  | enteredInit {j todo} : s.pc = .loop → s.todo = j :: todo → (s.clients j).state = .init →
      Stepped o s .run { s with
        clients := Function.update s.clients j
          { s.clients j with batchRemaining := o.batchSize }
        todo := todo
        pc := .call j 0 0 } .silent
  | enteredConnecting {j todo} : s.pc = .loop → s.todo = j :: todo →
      (s.clients j).state = .connecting →
      Stepped o s .run { s with
        log := s.log.tsclog4 (s.entry o j (s.clients j).txnRemaining .connectDone)
        todo := todo
        pc := .call j 0 0 } .silent
  | enteredSent {j todo} : s.pc = .loop → s.todo = j :: todo → (s.clients j).state = .sent →
      Stepped o s .run { s with
        log := s.log.tsclog4 (s.entry o j (s.clients j).txnRemaining .recvStart)
        todo := todo
        pc := .call j 0 0 } .silent
  | enteredOther {j todo} : s.pc = .loop → s.todo = j :: todo →
      (s.clients j).state = .new ∨ (s.clients j).state = .ready ∨ (s.clients j).state = .done →
      Stepped o s .run ({ s with todo := todo }.enter o j 0) .silent
  | connectedAtOnce {j count cursor fd} : s.pc = .call j count cursor →
      (s.clients j).state = .init → 0 ≤ fd → s.opened fd = false →
      Stepped o s (.connect (.ready fd)) { s with
        clients := Function.update s.clients j
          { s.clients j with sock := fd, state := .ready }
        opened := Function.update s.opened fd true
        log := ((s.log.tsclog4 (s.entry o j (s.clients j).txnRemaining .connectStart)).tsclog4
          (s.entry o j (s.clients j).txnRemaining .connectDone)).tsclog4
          (s.entry o j (s.clients j).txnRemaining .sendStart)
        pc := .call j count 0 } (.opened j)
  | began {j count cursor fd} : s.pc = .call j count cursor → (s.clients j).state = .init →
      0 ≤ fd → s.opened fd = false →
      Stepped o s (.connect (.inProgress fd true)) { s with
        clients := Function.update s.clients j
          { s.clients j with sock := fd, state := .connecting }
        interest := Function.update s.interest fd (some ⟨.epollOut, j, true⟩)
        opened := Function.update s.opened fd true
        log := s.log.tsclog4 (s.entry o j (s.clients j).txnRemaining .connectStart)
        complete := (s.complete + count) % 2 ^ 64
        pc := .loop } (.opened j)
  | connected {j count cursor} : s.pc = .call j count cursor →
      (s.clients j).state = .connecting →
      Stepped o s (.connected .ok) { s with
        clients := Function.update s.clients j { s.clients j with state := .new }
        interest := Function.update s.interest (s.clients j).sock none
        pc := .call j count 0 } .silent
  | added {j count cursor} : s.pc = .call j count cursor → (s.clients j).state = .new →
      Stepped o s (.add true) { s with
        clients := Function.update s.clients j { s.clients j with state := .ready }
        interest := Function.update s.interest (s.clients j).sock (some ⟨.epollIn, j, true⟩)
        log := s.log.tsclog4 (s.entry o j (s.clients j).txnRemaining .sendStart)
        pc := .call j count 0 } .silent
  | sentPart {j count cursor k} : s.pc = .call j count cursor → (s.clients j).state = .ready →
      cursor + k < (s.clients j).bufSize →
      Stepped o s (.send (some k)) { s with pc := .call j count (cursor + k) } .silent
  | sentAll {j count cursor k} : s.pc = .call j count cursor → (s.clients j).state = .ready →
      cursor + k = (s.clients j).bufSize →
      Stepped o s (.send (some k)) { s with
        clients := Function.update s.clients j { s.clients j with state := .sent }
        log := s.log.tsclog4 (s.entry o j (s.clients j).txnRemaining .sendDone)
        complete := (s.complete + count) % 2 ^ 64
        pc := .loop } .silent
  | receivedPart {j count cursor bytes} : s.pc = .call j count cursor →
      (s.clients j).state = .sent →
      (s.clients j).cursor + cursor + bytes.length < (s.clients j).bufSize →
      Stepped o s (.recv (.data bytes)) { s with
        clients := Function.update s.clients j { s.clients j with
          buf := (s.clients j).buf.take ((s.clients j).cursor + cursor) ++ bytes ++
            (s.clients j).buf.drop ((s.clients j).cursor + cursor + bytes.length) }
        pc := .call j count (cursor + bytes.length) } .silent
  | again {j count cursor} : s.pc = .call j count cursor → (s.clients j).state = .sent →
      (s.clients j).cursor + cursor < (s.clients j).bufSize →
      Stepped o s (.recv .again) { s with
        clients := Function.update s.clients j
          { s.clients j with cursor := (s.clients j).cursor + cursor }
        log := s.log.tsclog4 (s.entry o j (s.clients j).txnRemaining .recvDone)
        complete := (s.complete + count) % 2 ^ 64
        pc := .loop } .silent
  | finished {j count cursor ret buf} : s.pc = .call j count cursor →
      (s.clients j).state = .sent → Full (s.clients j) cursor ret buf →
      sub64 (s.clients j).txnRemaining 1 = 0 →
      Stepped o s (.recv ret) { s with
        clients := Function.update s.clients j { s.clients j with
          sock := -1
          buf := buf
          cursor := 0
          state := .done
          txnRemaining := sub64 (s.clients j).txnRemaining 1 }
        interest := Function.update s.interest (s.clients j).sock none
        opened := Function.update s.opened (s.clients j).sock false
        log := s.log.tsclog4 (s.entry o j (s.clients j).txnRemaining .recvDone)
        complete := (s.complete + (count + 1)) % 2 ^ 64
        pc := .loop } (.completed j true)
  | batchEnded {j count cursor ret buf} : s.pc = .call j count cursor →
      (s.clients j).state = .sent → Full (s.clients j) cursor ret buf →
      sub64 (s.clients j).txnRemaining 1 ≠ 0 → sub64 (s.clients j).batchRemaining 1 = 0 →
      Stepped o s (.recv ret) { s with
        clients := Function.update s.clients j { s.clients j with
          buf := buf
          cursor := 0
          state := .init
          txnRemaining := sub64 (s.clients j).txnRemaining 1
          batchRemaining := o.batchSize }
        interest := Function.update s.interest (s.clients j).sock none
        opened := Function.update s.opened (s.clients j).sock false
        log := s.log.tsclog4 (s.entry o j (s.clients j).txnRemaining .recvDone)
        pc := .call j (count + 1) 0 } (.completed j true)
  | next {j count cursor ret buf} : s.pc = .call j count cursor →
      (s.clients j).state = .sent → Full (s.clients j) cursor ret buf →
      sub64 (s.clients j).txnRemaining 1 ≠ 0 → sub64 (s.clients j).batchRemaining 1 ≠ 0 →
      Stepped o s (.recv ret) { s with
        clients := Function.update s.clients j { s.clients j with
          buf := buf
          cursor := 0
          state := .ready
          txnRemaining := sub64 (s.clients j).txnRemaining 1
          batchRemaining := sub64 (s.clients j).batchRemaining 1 }
        log := (s.log.tsclog4 (s.entry o j (s.clients j).txnRemaining .recvDone)).tsclog4
          (s.entry o j (sub64 (s.clients j).txnRemaining 1) .sendStart)
        pc := .call j (count + 1) 0 } (.completed j false)

/-! ## Equations of the parts -/

@[simp] theorem setClient_self (s : Worker n) (j : Fin n) (c : Client) :
    (s.setClient j c).clients j = c := Function.update_self ..

theorem setClient_setClient (s : Worker n) (j : Fin n) (c d : Client) :
    (s.setClient j c).setClient j d = s.setClient j d := by
  rw [setClient, setClient, setClient, Function.update_idem]

section Enter

variable {s : Worker n} {j : Fin n} {count : ℕ} {c : Client}

theorem enter_init (h : c.state = .init) :
    (s.setClient j c).enter o j count =
      (s.setClient j { c with batchRemaining := o.batchSize }).goTo (.call j count 0) := by
  simp only [enter, setClient_self, h, setClient_setClient]

theorem enter_ready (h : c.state = .ready) :
    (s.setClient j c).enter o j count =
      ((s.setClient j c).tsclog o j .sendStart).goTo (.call j count 0) := by
  rw [enter, setClient_self, h]

theorem enter_new (h : c.state = .new) :
    (s.setClient j c).enter o j count = (s.setClient j c).goTo (.call j count 0) := by
  rw [enter, setClient_self, h]

theorem enter_done (h : c.state = .done) :
    (s.setClient j c).enter o j count =
      (((s.del c.sock).close c.sock).setClient j { c with sock := -1 }).ret count := by
  simp only [enter, done, setClient_self, h]
  exact congrArg (ret count) (setClient_setClient ((s.del c.sock).close c.sock) j c _)

theorem enter_dying (s : Worker n) (j : Fin n) (count : ℕ) :
    (s.enter o j count).dying = s.dying := by
  simp only [enter]
  split <;> rfl

end Enter

theorem completeTxn_dying (s : Worker n) (j : Fin n) (count : ℕ) :
    (s.completeTxn o j count).1.dying = s.dying := by
  simp only [completeTxn]
  split
  · exact enter_dying _ j (count + 1)
  · split
    · exact enter_dying _ j (count + 1)
    · exact enter_dying _ j (count + 1)

theorem received_dying (s : Worker n) (j : Fin n) (count cursor : ℕ) :
    (s.received o j count cursor).1.dying = s.dying := by
  simp only [received]
  split
  · rfl
  · exact completeTxn_dying _ j count

/-! ## Inversion -/

section Inversion

variable {s s' : Worker n} {out : Output n}

theorem run_spec (h : s.run o = some s') : Stepped o s .run s' .silent := by
  rw [run] at h
  split at h
  · rename_i j todo hpc htodo
    cases h
    cases hstate : (s.clients j).state with
    | init =>
        have hentered := Stepped.enteredInit (o := o) hpc htodo hstate
        simp only [enter, hstate] at hentered ⊢
        exact hentered
    | connecting =>
        have hentered := Stepped.enteredConnecting (o := o) hpc htodo hstate
        simp only [enter, hstate] at hentered ⊢
        exact hentered
    | sent =>
        have hentered := Stepped.enteredSent (o := o) hpc htodo hstate
        simp only [enter, hstate] at hentered ⊢
        exact hentered
    | new => exact .enteredOther hpc htodo (.inl hstate)
    | ready => exact .enteredOther hpc htodo (.inr (.inl hstate))
    | done => exact .enteredOther hpc htodo (.inr (.inr hstate))
  · rename_i hpc htodo
    split at h
    · cases h
    · rename_i hgoes
      cases h
      exact .exited hpc htodo (by simpa using hgoes)
  · cases h

theorem epollWait_spec {fds : List ℤ} (h : s.epollWait o fds = some s') :
    Stepped o s (.wait fds) s' .silent := by
  rw [epollWait] at h
  split at h
  · rename_i todo hpc htodo hready
    split at h
    · rename_i hguard
      cases h
      exact .waited hpc htodo hguard.1 hguard.2.1 hguard.2.2.1 hready
    · cases h
  · cases h

theorem timeout_spec (h : s.epollWaitEnds o false = some s') :
    Stepped o s .timeout s' .silent := by
  rw [epollWaitEnds] at h
  split at h
  · rename_i hpc htodo
    split at h
    · cases h
      exact .timedOut hpc htodo
    · cases h
  · cases h

theorem waitFailed_dying (h : s.epollWaitEnds o true = some s') : s'.dying = true := by
  rw [epollWaitEnds] at h
  split at h
  · split at h
    · cases h
      rfl
    · cases h
  · cases h

section Call

variable {j : Fin n} {count cursor : ℕ}

theorem init_spec {a : Opened} (hpc : s.pc = .call j count cursor)
    (hstate : (s.clients j).state = .init) (h : s.init o j count a = some (s', out))
    (hdying : s'.dying = false) : Stepped o s (.connect a) s' out := by
  cases a with
  | noSocket =>
      cases h
      cases hdying
  | noOption fd =>
      simp only [init] at h
      split at h
      · cases h
        cases hdying
      · cases h
  | ready fd =>
      simp only [init, decide_eq_true_eq] at h
      split at h
      · rename_i hfresh
        cases h
        have hstep := Stepped.connectedAtOnce (o := o) hpc hstate hfresh.1 hfresh.2
        simp only [tsclog, setClient_self, entry, enter] at hstep ⊢
        exact hstep
      · cases h
  | inProgress fd added =>
      simp only [init, decide_eq_true_eq] at h
      split at h
      · rename_i hfresh
        cases h
        cases added with
        | false => cases hdying
        | true => exact .began hpc hstate hfresh.1 hfresh.2
      · cases h
  | failed fd added =>
      simp only [init] at h
      split at h
      · cases h
        cases added <;> cases hdying
      · cases h

theorem connecting_spec {a : Connected} (hpc : s.pc = .call j count cursor)
    (hstate : (s.clients j).state = .connecting) (hdying : (s.connecting o j count a).dying = false) :
    Stepped o s (.connected a) (s.connecting o j count a) .silent := by
  cases a with
  | ok =>
      have hstep := Stepped.connected (o := o) hpc hstate
      simp only [connecting]
      rw [enter_new rfl]
      exact hstep
  | _ => cases hdying

theorem new_spec {added : Bool} (hpc : s.pc = .call j count cursor)
    (hstate : (s.clients j).state = .new) (hdying : (s.new o j count added).dying = false) :
    Stepped o s (.add added) (s.new o j count added) .silent := by
  cases added with
  | true =>
      have hstep := Stepped.added (o := o) hpc hstate
      simp only [new, if_true]
      rw [enter_ready rfl]
      simp only [tsclog, setClient_self, entry] at hstep ⊢
      exact hstep
  | false => cases hdying

theorem ready_spec {ret : Option ℕ} (hpc : s.pc = .call j count cursor)
    (hstate : (s.clients j).state = .ready) (h : s.ready o j count cursor ret = some s')
    (hdying : s'.dying = false) : Stepped o s (.send ret) s' .silent := by
  cases ret with
  | none =>
      cases h
      cases hdying
  | some k =>
      simp only [ready] at h
      split at h
      · rename_i hlt
        cases h
        exact .sentPart hpc hstate hlt
      · split at h
        · rename_i hfull
          cases h
          exact .sentAll hpc hstate hfull
        · cases h

/-- What follows a whole response, with `t` the worker behind `RECV_DONE`. -/
theorem completeTxn_spec {answer : Received} {buf : List UInt8} {cur : ℕ} {t : Worker n}
    (hpc : s.pc = .call j count cursor) (hstate : (s.clients j).state = .sent)
    (hfull : Full (s.clients j) cursor answer buf)
    (ht : t = (s.setClient j { s.clients j with buf := buf, cursor := cur }).tsclog o j .recvDone) :
    Stepped o s (.recv answer) (t.completeTxn o j count).1 (t.completeTxn o j count).2 := by
  have hclient : t.clients j = { s.clients j with buf := buf, cursor := cur } := by
    rw [ht]
    exact setClient_self ..
  rw [completeTxn, hclient]
  simp only
  subst ht
  split
  · rename_i hzero
    have hstep := Stepped.finished (o := o) hpc hstate hfull hzero
    rw [enter_done rfl]
    simp only [tsclog, entry, setClient, del, close, ret, Function.update_self,
      Function.update_idem] at hstep ⊢
    exact hstep
  · rename_i hmore
    split
    · rename_i hzero
      have hstep := Stepped.batchEnded (o := o) hpc hstate hfull hmore hzero
      rw [enter_init rfl]
      simp only [tsclog, entry, setClient, del, close, goTo, Function.update_self,
        Function.update_idem] at hstep ⊢
      exact hstep
    · rename_i hbatch
      have hstep := Stepped.next (o := o) hpc hstate hfull hmore hbatch
      rw [enter_ready rfl]
      simp only [tsclog, entry, setClient, goTo, Function.update_self,
        Function.update_idem] at hstep ⊢
      exact hstep

/-- `client_recv` has returned with the whole response in `buf`. -/
theorem received_spec {answer : Received} {buf : List UInt8} {k : ℕ}
    (hpc : s.pc = .call j count cursor) (hstate : (s.clients j).state = .sent)
    (hfull : Full (s.clients j) cursor answer buf)
    (hk : (s.clients j).bufSize ≤ (s.clients j).cursor + k) :
    Stepped o s (.recv answer)
      ((s.setClient j { s.clients j with buf := buf }).received o j count k).1
      ((s.setClient j { s.clients j with buf := buf }).received o j count k).2 := by
  simp only [received, setClient_self]
  rw [if_neg (Nat.not_lt.mpr hk), setClient_setClient]
  exact completeTxn_spec hpc hstate hfull rfl

theorem sent_spec {answer : Received} (hpc : s.pc = .call j count cursor)
    (hstate : (s.clients j).state = .sent) (h : s.sent o j count cursor answer = some (s', out))
    (hdying : s'.dying = false) : Stepped o s (.recv answer) s' out := by
  cases answer with
  | data bytes =>
      simp only [sent] at h
      split at h
      · rename_i hlt
        cases h
        exact .receivedPart hpc hstate hlt
      · split at h
        · rename_i hfull
          have hstep := received_spec (o := o) hpc hstate (.data hfull)
            (k := cursor + bytes.length) (by omega)
          rw [Option.some.inj h] at hstep
          exact hstep
        · cases h
  | again =>
      simp only [sent] at h
      by_cases hlt : (s.clients j).cursor + cursor < (s.clients j).bufSize
      · simp only [received, if_pos hlt] at h
        cases h
        have hstep := Stepped.again (o := o) hpc hstate hlt
        simp only [tsclog, setClient_self, entry] at hstep ⊢
        exact hstep
      · have hle := Nat.le_of_not_lt hlt
        have hstep := received_spec (o := o) hpc hstate (.again hle) hle
        have hself : s.setClient j { s.clients j with buf := (s.clients j).buf } = s := by
          rw [setClient, Function.update_eq_self]
        rw [hself, Option.some.inj h] at hstep
        exact hstep
  | error =>
      have hpair := Option.some.inj h
      have hsame := received_dying (o := o) s.setDying j count 0
      rw [hpair, hdying] at hsame
      cases hsame

end Call

theorem doStateTransition_spec {a : Input} (h : s.doStateTransition o a = some (s', out))
    (hdying : s'.dying = false) : Stepped o s a s' out := by
  rw [doStateTransition] at h
  split at h
  · rename_i j count cursor hpc
    split at h
    · rename_i hstate
      exact init_spec hpc hstate h hdying
    · rename_i hstate
      cases h
      exact connecting_spec hpc hstate hdying
    · rename_i hstate
      cases h
      exact new_spec hpc hstate hdying
    · rename_i hstate
      obtain ⟨t, ht, hpair⟩ := Option.map_eq_some_iff.mp h
      cases hpair
      exact ready_spec hpc hstate ht hdying
    · rename_i hstate
      exact sent_spec hpc hstate h hdying
    · cases h
  · cases h

theorem step_spec {a : Input} (h : s.step o a = some (s', out)) (hdying : s'.dying = false) :
    Stepped o s a s' out := by
  cases a with
  | run =>
      obtain ⟨t, ht, hpair⟩ := Option.map_eq_some_iff.mp h
      cases hpair
      exact run_spec ht
  | wait fds =>
      obtain ⟨t, ht, hpair⟩ := Option.map_eq_some_iff.mp h
      cases hpair
      exact epollWait_spec ht
  | timeout =>
      obtain ⟨t, ht, hpair⟩ := Option.map_eq_some_iff.mp h
      cases hpair
      exact timeout_spec ht
  | waitFailed =>
      obtain ⟨t, ht, hpair⟩ := Option.map_eq_some_iff.mp h
      cases hpair
      rw [waitFailed_dying ht] at hdying
      cases hdying
  | setDying =>
      cases h
      cases hdying
  | _ => exact doStateTransition_spec h hdying

theorem Stepped.dying {a : Input} (h : Stepped o s a s' out) : s'.dying = s.dying := by
  cases h with
  | enteredOther hpc htodo hstate => exact enter_dying _ _ 0
  | _ => rfl

/-- What holds at the start and is kept by the steps of a worker that is not dying holds of
every worker that is not dying. -/
theorem reaches_induction {P : List (Input × Output n) → Worker n → Prop}
    (hstart : ∀ s, Start o s → P [] s)
    (hstep : ∀ tr s a out s', s.dying = false → P tr s → Stepped o s a s' out →
      P (tr ++ [(a, out)]) s')
    {tr : List (Input × Output n)} (h : (worker n o).Reaches tr s) (hdying : s.dying = false) :
    P tr s := by
  induction h with
  | init hs => exact hstart _ hs
  | @step tr s s' a out hr hlast ih =>
      have hstepped := step_spec hlast hdying
      have hbefore : s.dying = false := hstepped.dying.symm.trans hdying
      exact hstep tr s a out s' hbefore (ih hbefore) hstepped

end Inversion

end Worker

/-! ## Numbers of transactions in the runs below -/

theorem one_lt_size : 1 < 2 ^ 64 := by decide

theorem two_lt_size : 2 < 2 ^ 64 := by decide

theorem three_lt_size : 3 < 2 ^ 64 := by decide

theorem quarter_lt_size : 2 ^ 62 < 2 ^ 64 := by decide

end Upcalls.TcpClient
