import Upcalls.Verification.EchoPair.Server
import Upcalls.Verification.TcpClient.Equations

/-! # The client exchanges one message at a time -/

namespace Upcalls.EchoPair

open Library TcpClient

variable {o : Options} {M : List UInt8} {s s' : Worker 1} {out : TcpClient.Output 1}
  {c r : ℕ}

/-! ## Calls that succeed -/

/-- An answer is for the state of the client whose call waits for it. -/
theorem doStateTransition_cases {a : TcpClient.Input}
    (h : s.doStateTransition o a = some (s', out)) :
    ∃ j count cursor, match a with
      | .connect x => s.init o j count x = some (s', out)
      | .connected x => s' = s.connecting o j count x
      | .add ok => s' = s.new o j count ok
      | .send x => s.ready o j count cursor x = some s'
      | .recv x => s.sent o j count cursor x = some (s', out)
      | _ => False := by
  rw [Worker.doStateTransition] at h
  split at h
  · rename_i j count cursor _
    refine ⟨j, count, cursor, ?_⟩
    split at h
    · exact h
    · cases h
      rfl
    · cases h
      rfl
    · obtain ⟨t, ht, hpair⟩ := Option.map_eq_some_iff.mp h
      cases hpair
      exact ht
    · exact h
    · cases h
  · cases h

/-- `connect` succeeds or is in progress. -/
def joins (x : Opened) : Bool :=
  match x with
  | .ready _ | .inProgress _ true => true
  | _ => false

theorem init_dying {j : Fin 1} {count : ℕ} {x : Opened} (hx : joins x = true)
    (h : s.init o j count x = some (s', out)) : s'.dying = s.dying := by
  cases x with
  | ready fd =>
      simp only [Worker.init] at h
      split at h
      · cases h
        exact Worker.enter_dying ..
      · cases h
  | inProgress fd added =>
      cases added with
      | true =>
          simp only [Worker.init] at h
          split at h
          · cases h
            rfl
          · cases h
      | false => cases hx
  | _ => cases hx

theorem ready_dying {j : Fin 1} {count cursor k : ℕ}
    (h : s.ready o j count cursor (some k) = some s') : s'.dying = s.dying := by
  simp only [Worker.ready] at h
  split at h
  · cases h
    rfl
  · split at h
    · cases h
      rfl
    · cases h

theorem sent_dying {j : Fin 1} {count cursor : ℕ} {x : Received} (hx : x ≠ .error)
    (h : s.sent o j count cursor x = some (s', out)) : s'.dying = s.dying := by
  cases x with
  | data bytes =>
      simp only [Worker.sent] at h
      split at h
      · cases h
        rfl
      · split at h
        · rename_i buf hfull
          have hdying := Worker.received_dying (o := o) (s.setClient j { s.clients j with
            buf := (s.clients j).buf.take ((s.clients j).cursor + cursor) ++ bytes ++
              (s.clients j).buf.drop ((s.clients j).cursor + cursor + bytes.length) })
            j count (cursor + bytes.length)
          rw [Option.some.inj h] at hdying
          exact hdying
        · cases h
  | again =>
      have hdying := Worker.received_dying (o := o) s j count cursor
      rw [Option.some.inj h] at hdying
      exact hdying
  | error => exact (hx rfl).elim

/-- A step that `transfer` allows does not make the worker dying. -/
theorem dying_of_transfer {a : TcpClient.Input} {l : Option Link} {x : Option Link × Output}
    (hx : Pair.transfer a ⟨s, l⟩ = some x) (h : s.step o a = some (s', out)) :
    s'.dying = s.dying := by
  cases a with
  | run =>
      obtain ⟨t, ht, hpair⟩ := Option.map_eq_some_iff.mp h
      cases hpair
      exact (Worker.run_spec ht).dying
  | wait fds =>
      obtain ⟨t, ht, hpair⟩ := Option.map_eq_some_iff.mp h
      cases hpair
      exact (Worker.epollWait_spec ht).dying
  | timeout =>
      obtain ⟨t, ht, hpair⟩ := Option.map_eq_some_iff.mp h
      cases hpair
      exact (Worker.timeout_spec ht).dying
  | waitFailed | setDying | connect => cases hx
  | connected answer =>
      obtain ⟨j, count, cursor, rfl⟩ := doStateTransition_cases h
      cases answer with
      | ok => exact Worker.enter_dying _ j count
      | _ => cases hx
  | add added =>
      obtain ⟨j, count, cursor, rfl⟩ := doStateTransition_cases h
      cases added with
      | true => exact Worker.enter_dying _ j count
      | false => cases hx
  | send answer =>
      obtain ⟨j, count, cursor, hready⟩ := doStateTransition_cases h
      cases answer with
      | some k => exact ready_dying hready
      | none => cases hx
  | recv answer =>
      obtain ⟨j, count, cursor, hsent⟩ := doStateTransition_cases h
      cases answer with
      | error => cases hx
      | _ => exact sent_dying (by simp) hsent

/-! ## The place in the exchange -/

/-- The message of the client. -/
structure Keeps (M : List UInt8) (s : Worker 1) : Prop where
  buf : (s.clients 0).buf = M
  bufSize : (s.clients 0).bufSize = M.length

/-- The client is connected, has sent `c` bytes of its message and has `r` bytes of the
response. -/
inductive At (M : List UInt8) (s : Worker 1) : ℕ → ℕ → Prop
  | opening : (s.clients 0).state = .connecting ∨ (s.clients 0).state = .new →
      (s.clients 0).cursor = 0 → At M s 0 0
  | sending {count c : ℕ} : (s.clients 0).state = .ready → s.pc = .call 0 count c →
      (s.clients 0).cursor = 0 → c < M.length → At M s c 0
  | waiting {c r : ℕ} : (s.clients 0).state = .sent → (∀ j count cursor, s.pc ≠ .call j count cursor) →
      c = M.length → (s.clients 0).cursor = r → r < M.length → At M s c r
  | receiving {count cursor c r : ℕ} : (s.clients 0).state = .sent → s.pc = .call 0 count cursor →
      c = M.length → (s.clients 0).cursor + cursor = r → r < M.length → At M s c r

/-- The client has no connection. -/
structure Apart (s : Worker 1) : Prop where
  state : (s.clients 0).state = .init ∨ (s.clients 0).state = .done
  cursor : (s.clients 0).cursor = 0

namespace At

variable {j : Fin 1} {count cursor : ℕ}

theorem connected (h : At M s c r) :
    (s.clients 0).state ≠ .init ∧ (s.clients 0).state ≠ .done := by
  cases h with
  | opening hstate => rcases hstate with hstate | hstate <;> simp [hstate]
  | sending hstate | waiting hstate | receiving hstate => simp [hstate]

theorem opening_inv (h : At M s c r)
    (hopening : (s.clients 0).state = .connecting ∨ (s.clients 0).state = .new) :
    c = 0 ∧ r = 0 ∧ (s.clients 0).cursor = 0 := by
  cases h with
  | opening _ hcursor => exact ⟨rfl, rfl, hcursor⟩
  | sending hstate | waiting hstate | receiving hstate =>
      rw [hstate] at hopening
      simp at hopening

theorem sending_inv (h : At M s c r) (hready : (s.clients 0).state = .ready) :
    r = 0 ∧ c < M.length ∧ (s.clients 0).cursor = 0 ∧ ∃ count, s.pc = .call 0 count c := by
  cases h with
  | opening hstate =>
      rw [hready] at hstate
      simp at hstate
  | sending _ hpc hcursor hlt => exact ⟨rfl, hlt, hcursor, _, hpc⟩
  | waiting hstate | receiving hstate =>
      rw [hready] at hstate
      cases hstate

theorem sent_inv (h : At M s c r) (hsent : (s.clients 0).state = .sent) :
    c = M.length ∧ r < M.length := by
  cases h with
  | opening hstate =>
      rw [hsent] at hstate
      simp at hstate
  | sending hstate =>
      rw [hsent] at hstate
      cases hstate
  | waiting _ _ hc _ hlt | receiving _ _ hc _ hlt => exact ⟨hc, hlt⟩

theorem waiting_inv (h : At M s c r) (hsent : (s.clients 0).state = .sent)
    (hpc : s.pc = .loop) : r = (s.clients 0).cursor := by
  cases h with
  | opening hstate =>
      rw [hsent] at hstate
      simp at hstate
  | sending _ hcall | receiving _ hcall =>
      rw [hpc] at hcall
      cases hcall
  | waiting _ _ _ hr => exact hr.symm

theorem receiving_inv (h : At M s c r) (hsent : (s.clients 0).state = .sent)
    (hpc : s.pc = .call j count cursor) : r = (s.clients 0).cursor + cursor := by
  cases h with
  | opening hstate =>
      rw [hsent] at hstate
      simp at hstate
  | sending hstate =>
      rw [hsent] at hstate
      cases hstate
  | waiting _ hcall => exact (hcall _ _ _ hpc).elim
  | receiving _ hcall _ hr =>
      rw [hpc] at hcall
      cases hcall
      exact hr.symm

/-- In the loop the client has no call under way. -/
theorem loop (h : At M s c r) (hpc : s.pc = .loop) (hclient : s'.clients 0 = s.clients 0)
    (hcall : ∀ j count cursor, s'.pc ≠ .call j count cursor) : At M s' c r := by
  cases h with
  | opening hstate hcursor => exact .opening (hclient ▸ hstate) (hclient ▸ hcursor)
  | sending _ hsend | receiving _ hsend =>
      rw [hpc] at hsend
      cases hsend
  | waiting hstate _ hc hr hlt =>
      rw [← hclient] at hstate hr
      exact .waiting hstate hcall hc hr hlt

end At

/-! ## Steps that move no bytes -/

def movesBytes (a : TcpClient.Input) : Bool :=
  match a with
  | .connect _ | .send _ | .recv (.data _) => true
  | _ => false

theorem enter_client (j : Fin 1) (count : ℕ) :
    ((s.enter o j count).clients 0).buf = (s.clients 0).buf ∧
      ((s.enter o j count).clients 0).bufSize = (s.clients 0).bufSize ∧
      ((s.enter o j count).clients 0).cursor = (s.clients 0).cursor ∧
      ((s.enter o j count).clients 0).state = (s.clients 0).state := by
  obtain rfl := Subsingleton.elim j 0
  simp only [Worker.enter]
  split <;> exact ⟨rfl, rfl, rfl, rfl⟩

theorem Keeps.hidden {a : TcpClient.Input} (h : Keeps M s)
    (hstep : Worker.Stepped o s a s' out) (ha : movesBytes a = false) : Keeps M s' := by
  cases hstep with
  | waited | timedOut | exited | enteredConnecting | enteredSent => exact ⟨h.buf, h.bufSize⟩
  | @enteredInit j | @connected j | @added j | @again j =>
      obtain rfl := Subsingleton.elim j 0
      exact ⟨h.buf, h.bufSize⟩
  | connectedAtOnce | began | sentPart | sentAll | receivedPart => cases ha
  | @enteredOther j todo =>
      obtain ⟨hbuf, hsize, -⟩ := enter_client (o := o) (s := { s with todo := todo }) j 0
      exact ⟨hbuf.trans h.buf, hsize.trans h.bufSize⟩
  | @finished j _ _ _ _ _ _ hfull | @batchEnded j _ _ _ _ _ _ hfull | @next j _ _ _ _ _ _ hfull =>
      obtain rfl := Subsingleton.elim j 0
      cases hfull with
      | data => cases ha
      | again => exact ⟨h.buf, h.bufSize⟩

theorem Apart.hidden {a : TcpClient.Input} (h : Apart s)
    (hstep : Worker.Stepped o s a s' out) (ha : movesBytes a = false) :
    Apart s' ∧ out = .silent := by
  have hstate := h.state
  cases hstep with
  | waited | timedOut | exited => exact ⟨⟨h.state, h.cursor⟩, rfl⟩
  | @enteredInit j =>
      obtain rfl := Subsingleton.elim j 0
      exact ⟨⟨h.state, h.cursor⟩, rfl⟩
  | @enteredOther j todo =>
      obtain ⟨-, -, hcursor, hsame⟩ := enter_client (o := o) (s := { s with todo := todo }) j 0
      exact ⟨⟨hsame.symm ▸ h.state, hcursor.trans h.cursor⟩, rfl⟩
  | connectedAtOnce | began | sentPart | sentAll | receivedPart => cases ha
  | @enteredConnecting j _ _ _ hother | @enteredSent j _ _ _ hother
  | @connected j _ _ _ hother | @added j _ _ _ hother | @again j _ _ _ hother
  | @finished j _ _ _ _ _ hother | @batchEnded j _ _ _ _ _ hother
  | @next j _ _ _ _ _ hother =>
      obtain rfl := Subsingleton.elim j 0
      rw [hother] at hstate
      simp at hstate

theorem At.hidden {a : TcpClient.Input} (hM : 1 ≤ M.length) (h : At M s c r)
    (hkeeps : Keeps M s) (hstep : Worker.Stepped o s a s' out) (ha : movesBytes a = false) :
    At M s' c r ∧ out = .silent := by
  cases hstep with
  | waited hpc => exact ⟨h.loop hpc rfl (by simp [Worker.disarm, hpc]), rfl⟩
  | timedOut hpc | exited hpc => exact ⟨h.loop hpc rfl (by simp [Worker.goTo]), rfl⟩
  | connectedAtOnce | began | sentPart | sentAll | receivedPart => cases ha
  | @enteredInit j _ hpc _ hstate =>
      obtain rfl := Subsingleton.elim j 0
      exact (h.connected.1 hstate).elim
  | @enteredConnecting j _ hpc _ hstate =>
      obtain rfl := Subsingleton.elim j 0
      obtain ⟨rfl, rfl, hcursor⟩ := h.opening_inv (.inl hstate)
      exact ⟨.opening (.inl hstate) hcursor, rfl⟩
  | @enteredSent j _ hpc _ hstate =>
      obtain rfl := Subsingleton.elim j 0
      obtain ⟨rfl, hlt⟩ := h.sent_inv hstate
      obtain rfl := h.waiting_inv hstate hpc
      exact ⟨.receiving hstate rfl rfl rfl hlt, rfl⟩
  | @enteredOther j todo hpc _ hstate =>
      obtain rfl := Subsingleton.elim j 0
      obtain ⟨-, -, hcursor, hsame⟩ := enter_client (o := o) (s := { s with todo := todo }) 0 0
      rcases hstate with hstate | hstate | hstate
      · obtain ⟨rfl, rfl, hzero⟩ := h.opening_inv (.inr hstate)
        exact ⟨.opening (.inr (hsame.trans hstate)) (hcursor.trans hzero), rfl⟩
      · obtain ⟨-, -, -, count, hcall⟩ := h.sending_inv hstate
        rw [hpc] at hcall
        cases hcall
      · exact (h.connected.2 hstate).elim
  | @connected j count cursor hpc hstate =>
      obtain rfl := Subsingleton.elim j 0
      obtain ⟨rfl, rfl, hcursor⟩ := h.opening_inv (.inl hstate)
      exact ⟨.opening (.inr rfl) hcursor, rfl⟩
  | @added j count cursor hpc hstate =>
      obtain rfl := Subsingleton.elim j 0
      obtain ⟨rfl, rfl, hcursor⟩ := h.opening_inv (.inr hstate)
      exact ⟨.sending rfl rfl hcursor hM, rfl⟩
  | @again j count cursor hpc hstate =>
      obtain rfl := Subsingleton.elim j 0
      obtain ⟨rfl, hlt⟩ := h.sent_inv hstate
      obtain rfl := h.receiving_inv hstate hpc
      exact ⟨.waiting hstate (by simp) rfl rfl hlt, rfl⟩
  | @finished j _ _ _ _ hpc hstate hfull | @batchEnded j _ _ _ _ hpc hstate hfull
  | @next j _ _ _ _ hpc hstate hfull =>
      obtain rfl := Subsingleton.elim j 0
      cases hfull with
      | data => cases ha
      | again hle =>
          obtain ⟨rfl, hlt⟩ := h.sent_inv hstate
          obtain rfl := h.receiving_inv hstate hpc
          rw [hkeeps.bufSize] at hle
          omega

/-! ## Steps that move bytes -/

theorem At.send {k : ℕ} (h : At M s c r) (hkeeps : Keeps M s)
    (hstep : Worker.Stepped o s (.send (some k)) s' out) :
    c < M.length ∧ c + k ≤ M.length ∧ (∃ count, s.pc = .call 0 count c) ∧ Keeps M s' ∧
      At M s' (c + k) r ∧ out = .silent := by
  cases hstep with
  | @sentPart j count cursor _ hpc hstate hlt =>
      obtain rfl := Subsingleton.elim j 0
      obtain ⟨rfl, hc, hcursor, count', hcall⟩ := h.sending_inv hstate
      cases hpc.symm.trans hcall
      rw [hkeeps.bufSize] at hlt
      exact ⟨hc, Nat.le_of_lt hlt, ⟨_, hcall⟩, ⟨hkeeps.buf, hkeeps.bufSize⟩,
        .sending hstate rfl hcursor hlt, rfl⟩
  | @sentAll j count cursor _ hpc hstate hall =>
      obtain rfl := Subsingleton.elim j 0
      obtain ⟨rfl, hc, hcursor, count', hcall⟩ := h.sending_inv hstate
      cases hpc.symm.trans hcall
      rw [hkeeps.bufSize] at hall
      exact ⟨hc, Nat.le_of_eq hall, ⟨_, hcall⟩, ⟨hkeeps.buf, hkeeps.bufSize⟩,
        .waiting rfl (by simp) hall hcursor (by omega), rfl⟩

theorem recv_state {x : Received} (hstep : Worker.Stepped o s (.recv x) s' out) :
    (s.clients 0).state = .sent := by
  cases hstep with
  | @receivedPart j _ _ _ _ hstate | @again j _ _ _ hstate | @finished j _ _ _ _ _ hstate
  | @batchEnded j _ _ _ _ _ hstate | @next j _ _ _ _ _ hstate =>
      obtain rfl := Subsingleton.elim j 0
      exact hstate

/-- Bytes of the message itself, received where they stand in it, leave it as it is. -/
theorem take_append_drop {bytes : List UInt8} (hbytes : bytes = slice r (r + bytes.length) M) :
    M.take r ++ bytes ++ M.drop (r + bytes.length) = M := by
  have hsplice := splice_slice (Nat.le_add_right r bytes.length) M
  rw [← hbytes] at hsplice
  exact hsplice

/-- The receive that fills the buffer has the end of the message. -/
theorem At.filled {count cursor : ℕ} {bytes buf : List UInt8} (h : At M s c r)
    (hkeeps : Keeps M s) (hbytes : bytes = slice r (r + bytes.length) M)
    (hpc : s.pc = .call 0 count cursor) (hstate : (s.clients 0).state = .sent)
    (hfull : Worker.Full (s.clients 0) cursor (.data bytes) buf) :
    r + bytes.length = M.length ∧ buf = M := by
  obtain rfl := h.receiving_inv hstate hpc
  cases hfull with
  | data hall =>
      rw [hkeeps.bufSize] at hall
      rw [hkeeps.buf]
      exact ⟨hall, take_append_drop hbytes⟩

theorem At.receive {bytes : List UInt8} (hM : 1 ≤ M.length) (h : At M s c r)
    (hkeeps : Keeps M s) (hstep : Worker.Stepped o s (.recv (.data bytes)) s' out)
    (hbytes : bytes = slice r (r + bytes.length) M) :
    Keeps M s' ∧
      (r + bytes.length < M.length ∧ At M s' c (r + bytes.length) ∧ out = .silent ∨
        r + bytes.length = M.length ∧ Apart s' ∧ out = .completed 0 true ∨
        r + bytes.length = M.length ∧ At M s' 0 0 ∧ out = .completed 0 false) := by
  cases hstep with
  | @receivedPart j count cursor _ hpc hstate hlt =>
      obtain rfl := Subsingleton.elim j 0
      obtain ⟨hc, -⟩ := h.sent_inv hstate
      obtain rfl := h.receiving_inv hstate hpc
      have hbuf := take_append_drop hbytes
      rw [← hkeeps.buf] at hbuf
      rw [hkeeps.bufSize] at hlt
      exact ⟨⟨hbuf.trans hkeeps.buf, hkeeps.bufSize⟩,
        .inl ⟨hlt, .receiving hstate rfl hc (Nat.add_assoc _ _ _).symm hlt, rfl⟩⟩
  | @finished j count cursor _ _ hpc hstate hfull =>
      obtain rfl := Subsingleton.elim j 0
      obtain ⟨hall, hbuf⟩ := h.filled hkeeps hbytes hpc hstate hfull
      exact ⟨⟨hbuf, hkeeps.bufSize⟩, .inr (.inl ⟨hall, ⟨.inr rfl, rfl⟩, rfl⟩)⟩
  | @batchEnded j count cursor _ _ hpc hstate hfull =>
      obtain rfl := Subsingleton.elim j 0
      obtain ⟨hall, hbuf⟩ := h.filled hkeeps hbytes hpc hstate hfull
      exact ⟨⟨hbuf, hkeeps.bufSize⟩, .inr (.inl ⟨hall, ⟨.inl rfl, rfl⟩, rfl⟩)⟩
  | @next j count cursor _ _ hpc hstate hfull =>
      obtain rfl := Subsingleton.elim j 0
      obtain ⟨hall, hbuf⟩ := h.filled hkeeps hbytes hpc hstate hfull
      exact ⟨⟨hbuf, hkeeps.bufSize⟩, .inr (.inr ⟨hall, .sending rfl rfl rfl hM, rfl⟩)⟩

/-- A client that begins to connect is `Apart` before. -/
theorem Apart.connect {x : Opened} (h : Apart s) (hkeeps : Keeps M s)
    (hM : 1 ≤ M.length) (hstep : Worker.Stepped o s (.connect x) s' out) :
    Keeps M s' ∧ At M s' 0 0 := by
  cases hstep with
  | @connectedAtOnce j count cursor fd hpc hstate =>
      obtain rfl := Subsingleton.elim j 0
      exact ⟨⟨hkeeps.buf, hkeeps.bufSize⟩, .sending rfl rfl h.cursor hM⟩
  | @began j count cursor fd hpc hstate =>
      obtain rfl := Subsingleton.elim j 0
      exact ⟨⟨hkeeps.buf, hkeeps.bufSize⟩, .opening (.inl rfl) h.cursor⟩

theorem At.not_connect {x : Opened} (h : At M s c r)
    (hstep : Worker.Stepped o s (.connect x) s' out) : False := by
  cases hstep with
  | @connectedAtOnce j count cursor fd hpc hstate =>
      obtain rfl := Subsingleton.elim j 0
      exact h.connected.1 hstate
  | @began j count cursor fd hpc hstate =>
      obtain rfl := Subsingleton.elim j 0
      exact h.connected.1 hstate

end Upcalls.EchoPair
