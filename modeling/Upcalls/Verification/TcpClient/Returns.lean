import Upcalls.Library.Calls
import Upcalls.Verification.TcpClient.Equations

/-! # When a call of `do_state_transition` returns

`client_recv` goes on after an answer of no bytes, so it never returns once the server has
closed the connection. Each other answer brings the call closer to its end.
-/

namespace Upcalls.TcpClient

open Library

variable {n : ℕ} {o : Options}

/-! ## End-of-file -/

/-- How many bytes an answer brings in. -/
def Input.size : Input → ℕ
  | .recv (.data bytes) => bytes.length
  | _ => 0

def arrived (f : ℕ → Input) : ℕ → ℕ
  | 0 => 0
  | k + 1 => arrived f k + (f k).size

/-- End-of-file comes while fewer than `len` bytes have arrived. -/
def EofFirst (len : ℕ) (f : ℕ → Input) : Prop :=
  ∃ k, f k = .recv (.data []) ∧ (∀ i < k, ∃ bytes, f i = .recv (.data bytes)) ∧ arrived f k < len

theorem clientRecv_inl {len cursor next : ℕ} {ret : Received}
    (h : clientRecv len cursor ret = .inl next) :
    ∃ bytes, ret = .data bytes ∧ next = cursor + bytes.length ∧ next < len := by
  cases ret with
  | again => cases h
  | error => cases h
  | data bytes =>
      rw [clientRecv] at h
      split at h
      · rename_i hlt
        cases h
        exact ⟨bytes, rfl, rfl, hlt⟩
      · cases h

/-- What `client_recv` has received. -/
theorem after_clientRecv {len : ℕ} (hlen : 1 ≤ len) {f : ℕ → Received} {k cursor : ℕ}
    (h : after (clientRecv len) f 0 k = .inl cursor) :
    cursor = arrived (fun k => .recv (f k)) k ∧ cursor < len ∧
      ∀ i < k, ∃ bytes, f i = .data bytes := by
  refine after_invariant (P := fun k cursor => cursor = arrived (fun k => .recv (f k)) k ∧
    cursor < len ∧ ∀ i < k, ∃ bytes, f i = .data bytes) ?_ ?_ h
  · exact ⟨rfl, hlen, fun i hi => absurd hi (Nat.not_lt_zero i)⟩
  · intro k t u _ ht hturn
    obtain ⟨htotal, -, hdata⟩ := ht
    obtain ⟨bytes, hbytes, hu, hlt⟩ := clientRecv_inl hturn
    refine ⟨?_, hlt, ?_⟩
    · rw [arrived, ← htotal, hbytes, hu]
      rfl
    · intro i hi
      rcases Nat.lt_succ_iff_lt_or_eq.mp hi with hi | rfl
      · exact hdata i hi
      · exact ⟨bytes, hbytes⟩

/-- As long as all data is short of `len`, `client_recv` goes on. -/
theorem after_clientRecv_of_data {len : ℕ} {f : ℕ → Received} {k : ℕ}
    (hdata : ∀ i < k, ∃ bytes, f i = .data bytes)
    (htotal : arrived (fun k => .recv (f k)) k < len) :
    after (clientRecv len) f 0 k = .inl (arrived (fun k => .recv (f k)) k) := by
  induction k with
  | zero => rfl
  | succ k ih =>
      obtain ⟨bytes, hbytes⟩ := hdata k (Nat.lt_succ_self k)
      have hsize : arrived (fun k => .recv (f k)) (k + 1) =
          arrived (fun k => .recv (f k)) k + bytes.length := by
        rw [arrived, hbytes]
        rfl
      rw [hsize] at htotal ⊢
      rw [after_succ (ih (fun i hi => hdata i (Nat.lt_succ_of_lt hi)) (by omega)), hbytes,
        clientRecv, if_pos htotal]

theorem eof_forever {α : Type*} {f : ℕ → α} {eof : α} (heof : ∀ k, f k = eof → f (k + 1) = eof)
    {k j : ℕ} (hk : f k = eof) (hj : k ≤ j) : f j = eof := by
  induction j, hj using Nat.le_induction with
  | base => exact hk
  | succ j _ ih => exact heof j ih

theorem clientRecv_returns {len : ℕ} (hlen : 1 ≤ len) {f : ℕ → Received}
    (heof : ∀ k, f k = .data [] → f (k + 1) = .data []) :
    Returns (clientRecv len) f 0 ↔ ¬ EofFirst len fun k => .recv (f k) := by
  constructor
  · rintro hreturns ⟨k, hk, hdata, htotal⟩
    have hk : f k = .data [] := Input.recv.inj hk
    have hdata : ∀ i < k, ∃ bytes, f i = .data bytes := by
      intro i hi
      obtain ⟨bytes, hbytes⟩ := hdata i hi
      exact ⟨bytes, Input.recv.inj hbytes⟩
    have hnow := after_clientRecv_of_data hdata htotal
    refine not_returns_of_stuck (P := fun cursor => cursor < len) hnow htotal ?_ hreturns
    intro j cursor hj hcursor
    refine ⟨cursor, ?_, hcursor⟩
    rw [eof_forever heof hk hj, clientRecv, List.length_nil, Nat.add_zero, if_pos hcursor]
  · intro hfirst
    refine returns_of_measure (fun cursor => len - cursor) ?_
    intro k cursor next hk hturn
    obtain ⟨hcursor, hlt, hdata⟩ := after_clientRecv hlen hk
    obtain ⟨bytes, hbytes, hnext, hshort⟩ := clientRecv_inl hturn
    have hne : bytes ≠ [] := by
      rintro rfl
      refine hfirst ⟨k, congrArg Input.recv hbytes, ?_, by omega⟩
      intro i hi
      obtain ⟨bytes, hbytes⟩ := hdata i hi
      exact ⟨bytes, congrArg Input.recv hbytes⟩
    have hpos := List.length_pos_iff.mpr hne
    omega

/-! ## The states of a call -/

/-- How many states the client may still pass. -/
def State.rank : State → ℕ
  | .connecting => 5
  | .new => 4
  | .sent => 3
  | .init => 2
  | .ready => 1
  | .done => 0

theorem rank_lt_sent {state : State} (h : state = .init ∨ state = .ready ∨ state = .done) :
    state.rank < State.sent.rank := by
  rcases h with rfl | rfl | rfl <;> decide

theorem rank_ready_lt : State.ready.rank < State.init.rank := by decide

theorem rank_new_lt : State.new.rank < State.connecting.rank := by decide

theorem rank_ready_lt_new : State.ready.rank < State.new.rank := by decide

/-- How much of its buffer the client still has to send or to receive. -/
def Client.left (cursor : ℕ) (c : Client) : ℕ :=
  if c.state = .sent then c.bufSize - (c.cursor + cursor) else c.bufSize - cursor

theorem Client.left_le (cursor : ℕ) (c : Client) : c.left cursor ≤ c.bufSize := by
  rw [left]
  split <;> omega

namespace Worker

/-- The call that is under way is for client `j`, which is now `c`. -/
structure Inside (s : Worker n) (j : Fin n) (cursor : ℕ) (c : Client) : Prop where
  pc : ∃ count, s.pc = .call j count cursor
  client : s.clients j = c

/-- What the call still has to do. -/
def work (s : Worker n) : ℕ :=
  match s.pc with
  | .call j _ cursor =>
      (s.clients j).state.rank * ((s.clients j).bufSize + 1) + (s.clients j).left cursor
  | _ => 0

theorem Inside.work {s : Worker n} {j : Fin n} {cursor : ℕ} {c : Client}
    (h : s.Inside j cursor c) : s.work = c.state.rank * (c.bufSize + 1) + c.left cursor := by
  obtain ⟨⟨count, hpc⟩, hc⟩ := h
  rw [Worker.work, hpc]
  simp only [hc]

/-- `enter` begins the next state, or returns. -/
theorem enter_cases (o : Options) (j : Fin n) (count : ℕ) (s : Worker n) :
    (s.enter o j count).pc = .loop ∨
      ∃ c, (s.enter o j count).Inside j 0 c ∧ c.state = (s.clients j).state ∧
        c.bufSize = (s.clients j).bufSize := by
  simp only [enter]
  cases hstate : (s.clients j).state with
  | init => exact .inr ⟨_, ⟨⟨count, rfl⟩, setClient_self s j _⟩, rfl, rfl⟩
  | done => exact .inl rfl
  | _ => exact .inr ⟨_, ⟨⟨count, rfl⟩, rfl⟩, hstate, rfl⟩

/-- What an answer leads to, when the call does not return. -/
inductive Moved (s : Worker n) (j : Fin n) (cursor : ℕ) : Input → ℕ → Client → Prop
  | received {bytes c} : (s.clients j).state = .sent →
      (s.clients j).cursor + cursor + bytes.length < (s.clients j).bufSize →
      c.state = .sent → c.cursor = (s.clients j).cursor →
      c.bufSize = (s.clients j).bufSize →
      Moved s j cursor (.recv (.data bytes)) (cursor + bytes.length) c
  | sent {k} : (s.clients j).state = .ready → cursor + k < (s.clients j).bufSize →
      Moved s j cursor (.send (some k)) (cursor + k) (s.clients j)
  | next {a c} : (∀ ret, a = .recv ret → (s.clients j).state = .sent) →
      c.state.rank < (s.clients j).state.rank → c.state ≠ .sent →
      c.bufSize = (s.clients j).bufSize → Moved s j cursor a 0 c

section Moved

variable {s t : Worker n} {j : Fin n} {count cursor : ℕ}

/-- The answer leads to `t`, where the call returns or goes on. -/
def Onward (s t : Worker n) (j : Fin n) (cursor : ℕ) (a : Input) : Prop :=
  t.pc = .loop ∨ ∃ cursor' c, t.Inside j cursor' c ∧ Moved s j cursor a cursor' c

theorem onward_enter {a : Input} {c : Client} (hclient : t.clients j = c)
    (ha : ∀ ret, a = .recv ret → (s.clients j).state = .sent)
    (hrank : c.state.rank < (s.clients j).state.rank) (hstate : c.state ≠ .sent)
    (hsize : c.bufSize = (s.clients j).bufSize) : Onward s (t.enter o j count) j cursor a := by
  subst hclient
  rcases enter_cases o j count t with hpc | ⟨c, hinside, hc, hbuf⟩
  · exact .inl hpc
  · refine .inr ⟨0, c, hinside, .next ha ?_ ?_ ?_⟩
    · rw [hc]
      exact hrank
    · rw [hc]
      exact hstate
    · rw [hbuf, hsize]

theorem init_onward {a : Opened} {x : Output n} (hstate : (s.clients j).state = .init)
    (h : s.init o j count a = some (t, x)) : Onward s t j cursor (.connect a) := by
  have ha : ∀ ret, Input.connect a = .recv ret → (s.clients j).state = .sent := by
    intro ret hret
    cases hret
  simp only [init] at h
  split at h
  · cases Option.some.inj h
    exact .inl rfl
  · split at h
    · cases Option.some.inj h
      exact .inl rfl
    · cases h
  · split at h
    · cases Option.some.inj h
      refine onward_enter (setClient_self _ j _) ha ?_ (by simp) rfl
      rw [hstate]
      exact rank_ready_lt
    · cases h
  · split at h
    · cases Option.some.inj h
      exact .inl rfl
    · cases h
  · split at h
    · cases Option.some.inj h
      exact .inl rfl
    · cases h

theorem connecting_onward (hstate : (s.clients j).state = .connecting) (a : Connected) :
    Onward s (s.connecting o j count a) j cursor (.connected a) := by
  cases a with
  | ok =>
      refine onward_enter (setClient_self _ j _) ?_ ?_ (by simp) rfl
      · intro ret hret
        cases hret
      · rw [hstate]
        exact rank_new_lt
  | _ => exact .inl rfl

theorem new_onward (hstate : (s.clients j).state = .new) (added : Bool) :
    Onward s (s.new o j count added) j cursor (.add added) := by
  cases added with
  | true =>
      refine onward_enter (setClient_self _ j _) ?_ ?_ (by simp) rfl
      · intro ret hret
        cases hret
      · rw [hstate]
        exact rank_ready_lt_new
  | false => exact .inl rfl

theorem ready_onward {ret : Option ℕ} (hstate : (s.clients j).state = .ready)
    (h : s.ready o j count cursor ret = some t) : Onward s t j cursor (.send ret) := by
  simp only [ready] at h
  split at h
  · cases Option.some.inj h
    exact .inl rfl
  · split at h
    · rename_i hlt
      cases Option.some.inj h
      exact .inr ⟨_, _, ⟨⟨count, rfl⟩, rfl⟩, .sent hstate hlt⟩
    · split at h
      · cases Option.some.inj h
        exact .inl rfl
      · cases h

/-- The response is there, or there is nothing more to read for now. -/
theorem received_onward {u : Worker n} {x : Output n} {ret : Received} {k : ℕ}
    (hstate : (s.clients j).state = .sent)
    (hsize : (u.clients j).bufSize = (s.clients j).bufSize)
    (h : u.received o j count k = (t, x)) : Onward s t j cursor (.recv ret) := by
  have ha : ∀ ret', Input.recv ret = .recv ret' → (s.clients j).state = .sent :=
    fun _ _ => hstate
  have hself : ∀ c : Client, ((u.setClient j c).tsclog o j .recvDone).clients j = c :=
    fun c => setClient_self u j c
  simp only [received, completeTxn, hself] at h
  split at h
  · cases h
    exact .inl rfl
  · split at h
    · cases h
      refine onward_enter (setClient_self _ j _) ha ?_ (by simp) hsize
      rw [hstate]
      exact rank_lt_sent (.inr (.inr rfl))
    · split at h
      · cases h
        refine onward_enter (setClient_self _ j _) ha ?_ (by simp) hsize
        rw [hstate]
        exact rank_lt_sent (.inl rfl)
      · cases h
        refine onward_enter (setClient_self _ j _) ha ?_ (by simp) hsize
        rw [hstate]
        exact rank_lt_sent (.inr (.inl rfl))

theorem sent_onward {ret : Received} {x : Output n} (hstate : (s.clients j).state = .sent)
    (h : s.sent o j count cursor ret = some (t, x)) : Onward s t j cursor (.recv ret) := by
  simp only [sent] at h
  split at h
  · exact received_onward hstate rfl (Option.some.inj h)
  · exact received_onward hstate (by rfl) (Option.some.inj h)
  · rename_i bytes
    split at h
    · rename_i hlt
      cases Option.some.inj h
      exact .inr ⟨_, _, ⟨⟨count, rfl⟩, setClient_self s j _⟩, .received hstate hlt hstate rfl rfl⟩
    · split at h
      · refine received_onward hstate ?_ (Option.some.inj h)
        rw [setClient_self]
      · cases h

/-- `SENT` makes the turns of `client_recv`, for what is left of the response. -/
theorem sent_clientRecv {ret : Received} {next : ℕ}
    (h : clientRecv ((s.clients j).bufSize - (s.clients j).cursor) cursor ret = .inl next) :
    ∃ t, s.sent o j count cursor ret = some (t, .silent) ∧ t.pc = .call j count next := by
  obtain ⟨bytes, rfl, rfl, hlt⟩ := clientRecv_inl h
  have hshort : (s.clients j).cursor + cursor + bytes.length < (s.clients j).bufSize := by
    omega
  rw [sent]
  simp only [if_pos hshort]
  exact ⟨_, rfl, rfl⟩

/-- `SENT` goes on with what `client_recv` returns. -/
theorem sent_clientRecv_returns {ret : Received} {r : ℕ} {x : Worker n × Output n}
    (h : clientRecv ((s.clients j).bufSize - (s.clients j).cursor) cursor ret = .inr r)
    (hsent : s.sent o j count cursor ret = some x) : ∃ u : Worker n, x = u.received o j count r := by
  cases ret with
  | again =>
      cases h
      exact ⟨s, (Option.some.inj hsent).symm⟩
  | error =>
      cases h
      exact ⟨s.setDying, (Option.some.inj hsent).symm⟩
  | data bytes =>
      rw [clientRecv] at h
      split at h
      · cases h
      · rename_i hlt
        cases h
        have hlong : ¬ (s.clients j).cursor + cursor + bytes.length < (s.clients j).bufSize := by
          omega
        simp only [sent, if_neg hlong] at hsent
        split at hsent
        · exact ⟨_, (Option.some.inj hsent).symm⟩
        · cases hsent

/-- The spec of one answer. -/
theorem doStateTransition_onward {a : Input} {x : Output n} {c : Client}
    (hin : s.Inside j cursor c) (h : s.doStateTransition o a = some (t, x)) :
    Onward s t j cursor a := by
  obtain ⟨⟨count, hpc⟩, -⟩ := hin
  rw [doStateTransition, hpc] at h
  simp only at h
  split at h
  · rename_i hstate
    exact init_onward hstate h
  · rename_i hstate
    cases Option.some.inj h
    exact connecting_onward hstate _
  · rename_i hstate
    cases Option.some.inj h
    exact new_onward hstate _
  · rename_i hstate
    obtain ⟨u, hu, hpair⟩ := Option.map_eq_some_iff.mp h
    cases hpair
    exact ready_onward hstate hu
  · rename_i hstate
    exact sent_onward hstate h
  · cases h

end Moved

/-! ## Whole calls -/

/-- Each answer is one to the call that is made then. -/
def Answers (o : Options) (f : ℕ → Input) (s : Worker n) : Prop :=
  ∀ k t, after (turn o) f s k = .inl t → (t.doStateTransition o (f k)).isSome

/-- The first of the answers: the call is still in `client_recv`, with all they brought. -/
structure Receiving (j : Fin n) (f : ℕ → Input) (c₀ : Client) (k : ℕ) (t : Worker n) : Prop where
  pc : ∃ count, t.pc = .call j count (arrived f k)
  state : (t.clients j).state = .sent
  cursor : (t.clients j).cursor = c₀.cursor
  bufSize : (t.clients j).bufSize = c₀.bufSize
  data : ∀ i < k, ∃ bytes, f i = .recv (.data bytes)

/-- What holds after `k` answers. -/
def Under (j : Fin n) (f : ℕ → Input) (c₀ : Client) (k : ℕ) (t : Worker n) : Prop :=
  Receiving j f c₀ k t ∨ ∃ cursor c, t.Inside j cursor c ∧ c.state ≠ .sent

theorem Under.inside {j : Fin n} {f : ℕ → Input} {c₀ : Client} {k : ℕ} {t : Worker n}
    (h : Under j f c₀ k t) : ∃ cursor c, t.Inside j cursor c := by
  rcases h with h | ⟨cursor, c, h, -⟩
  · exact ⟨arrived f k, t.clients j, h.pc, rfl⟩
  · exact ⟨cursor, c, h⟩

section Call

variable {s t u : Worker n} {j : Fin n} {f : ℕ → Input} {c₀ : Client} {k : ℕ}

/-- A turn that goes on. -/
theorem turn_inl (ha : (t.doStateTransition o (f k)).isSome) (h : turn o t (f k) = .inl u) :
    ∃ x, t.doStateTransition o (f k) = some (u, x) ∧ u.pc ≠ .loop := by
  obtain ⟨⟨v, x⟩, hv⟩ := Option.isSome_iff_exists.mp ha
  rw [turn, hv] at h
  simp only at h
  split at h
  · cases h
  · rename_i hpc
    cases h
    exact ⟨x, hv, hpc⟩

theorem turn_moved {cursor : ℕ} {c : Client} (hin : t.Inside j cursor c)
    (ha : (t.doStateTransition o (f k)).isSome) (h : turn o t (f k) = .inl u) :
    ∃ cursor' c', u.Inside j cursor' c' ∧ Moved t j cursor (f k) cursor' c' := by
  obtain ⟨x, hstep, hpc⟩ := turn_inl ha h
  exact (doStateTransition_onward hin hstep).resolve_left hpc

theorem Under.turn (ht : Under j f c₀ k t) (ha : (t.doStateTransition o (f k)).isSome)
    (h : turn o t (f k) = .inl u) : Under j f c₀ (k + 1) u := by
  rcases ht with ht | ⟨cursor, c, hin, hstate⟩
  · obtain ⟨cursor', c', hu, hmoved⟩ := turn_moved ⟨ht.pc, rfl⟩ ha h
    obtain ⟨hpc, hclient⟩ := hu
    generalize hx : f k = x at hmoved
    cases hmoved with
    | received hsent hlt hstate hcursor hsize =>
        rename_i bytes
        refine .inl ⟨?_, ?_, ?_, ?_, ?_⟩
        · rw [arrived, hx]
          exact hpc
        · rw [hclient, hstate]
        · rw [hclient, hcursor, ht.cursor]
        · rw [hclient, hsize, ht.bufSize]
        · intro i hi
          rcases Nat.lt_succ_iff_lt_or_eq.mp hi with hi | rfl
          · exact ht.data i hi
          · exact ⟨bytes, hx⟩
    | sent hready _ =>
        rw [ht.state] at hready
        cases hready
    | next _ _ hstate _ => exact .inr ⟨0, c', ⟨hpc, hclient⟩, hstate⟩
  · obtain ⟨cursor', c', hu, hmoved⟩ := turn_moved hin ha h
    have hnot : (t.clients j).state ≠ .sent := by
      rw [hin.client]
      exact hstate
    generalize f k = x at hmoved
    cases hmoved with
    | received hsent => exact absurd hsent hnot
    | sent hready _ => exact .inr ⟨_, _, hu, hnot⟩
    | next _ _ hstate _ => exact .inr ⟨0, c', hu, hstate⟩

theorem after_under (ha : Answers o f s) (hs : Under j f c₀ 0 s)
    (h : after (turn o) f s k = .inl t) : Under j f c₀ k t :=
  after_invariant hs (fun k t _ hk ht hturn => ht.turn (ha k t hk) hturn) h

/-- An answer brings the call closer to its end unless it has no bytes. -/
theorem work_lt {cursor : ℕ} {c : Client} (hin : t.Inside j cursor c)
    (ha : (t.doStateTransition o (f k)).isSome) (h : turn o t (f k) = .inl u)
    (hrecv : (t.clients j).state = .sent →
      (t.clients j).cursor + cursor < (t.clients j).bufSize → f k ≠ .recv (.data []))
    (hsend : f k ≠ .send (some 0)) : u.work < t.work := by
  obtain ⟨cursor', c', hu, hmoved⟩ := turn_moved hin ha h
  obtain ⟨hpc, hclient⟩ := hin
  subst hclient
  have ht : t.work = _ := Inside.work ⟨hpc, rfl⟩
  rw [hu.work, ht]
  generalize f k = x at hmoved hrecv hsend
  cases hmoved with
  | received hsent hlt hstate hcursor hsize =>
      rename_i bytes
      have hne : bytes ≠ [] := by
        rintro rfl
        rw [List.length_nil, Nat.add_zero] at hlt
        exact hrecv hsent hlt rfl
      have hpos := List.length_pos_iff.mpr hne
      rw [Client.left, Client.left, if_pos hstate, if_pos hsent, hstate, hsent, hsize, hcursor]
      omega
  | sent hready hlt =>
      rename_i k
      have hne : k ≠ 0 := by
        rintro rfl
        exact hsend rfl
      have hnot : (t.clients j).state ≠ .sent := by
        rw [hready]
        exact State.noConfusion
      rw [Client.left, Client.left, if_neg hnot, if_neg hnot]
      omega
  | next _ hrank _ hsize =>
      have hleft := c'.left_le 0
      have hmul := Nat.mul_le_mul_right ((t.clients j).bufSize + 1) (Nat.succ_le_of_lt hrank)
      rw [Nat.succ_mul] at hmul
      rw [hsize] at hleft ⊢
      omega

/-- Data that is not the rest of the response leaves the call in `client_recv`. -/
theorem turn_data {count cursor : ℕ} {bytes : List UInt8} (hpc : t.pc = .call j count cursor)
    (hstate : (t.clients j).state = .sent)
    (hlt : (t.clients j).cursor + cursor + bytes.length < (t.clients j).bufSize) :
    ∃ u, turn o t (.recv (.data bytes)) = .inl u ∧
      u.pc = .call j count (cursor + bytes.length) ∧ (u.clients j).state = .sent ∧
      (u.clients j).cursor = (t.clients j).cursor ∧
      (u.clients j).bufSize = (t.clients j).bufSize := by
  have hstep : t.doStateTransition o (.recv (.data bytes)) =
      t.sent o j count cursor (.data bytes) := by
    rw [doStateTransition, hpc]
    simp only [hstate]
  rw [turn, hstep]
  simp only [sent, if_pos hlt]
  refine ⟨_, if_neg (by simp [goTo]), rfl, ?_, ?_, ?_⟩
  all_goals simp only [goTo, setClient_self]
  exact hstate

/-- The call is in `client_recv` as long as all data is short of the response. -/
theorem receiving_of_data (hs : Receiving j f c₀ 0 s)
    (hdata : ∀ i < k, ∃ bytes, f i = .recv (.data bytes))
    (hlt : c₀.cursor + arrived f k < c₀.bufSize) :
    ∃ t, after (turn o) f s k = .inl t ∧ Receiving j f c₀ k t := by
  induction k with
  | zero => exact ⟨s, rfl, hs⟩
  | succ k ih =>
      obtain ⟨bytes, hbytes⟩ := hdata k (Nat.lt_succ_self k)
      have hsize : arrived f (k + 1) = arrived f k + bytes.length := by
        rw [arrived, hbytes]
        rfl
      rw [hsize] at hlt
      obtain ⟨t, hk, ht⟩ := ih (fun i hi => hdata i (Nat.lt_succ_of_lt hi)) (by omega)
      obtain ⟨count, hpc⟩ := ht.pc
      have hshort : (t.clients j).cursor + arrived f k + bytes.length <
          (t.clients j).bufSize := by
        rw [ht.cursor, ht.bufSize]
        omega
      obtain ⟨u, hu, hupc, hstate, hcursor, hbuf⟩ := turn_data (o := o) hpc ht.state hshort
      refine ⟨u, ?_, ⟨count, ?_⟩, hstate, ?_, ?_, hdata⟩
      · rw [after_succ hk, hbytes, hu]
      · rw [hsize]
        exact hupc
      · rw [hcursor, ht.cursor]
      · rw [hbuf, ht.bufSize]

/-- A call that is in `client_recv` at end-of-file never returns. -/
theorem not_returns_of_eof (hs : Receiving j f c₀ 0 s)
    (hsticky : ∀ k, f k = .recv (.data []) → f (k + 1) = .recv (.data []))
    (heof : EofFirst (c₀.bufSize - c₀.cursor) f) : ¬ Returns (turn o) f s := by
  obtain ⟨k, hk, hdata, hlt⟩ := heof
  have hshort : c₀.cursor + arrived f k < c₀.bufSize := by omega
  obtain ⟨t, hafter, ht⟩ := receiving_of_data (o := o) hs hdata hshort
  obtain ⟨count, hpc⟩ := ht.pc
  refine not_returns_of_stuck (P := fun u => u.pc = .call j count (arrived f k) ∧
    (u.clients j).state = .sent ∧ (u.clients j).cursor = c₀.cursor ∧
    (u.clients j).bufSize = c₀.bufSize) hafter ⟨hpc, ht.state, ht.cursor, ht.bufSize⟩ ?_
  rintro i u hi ⟨hupc, hstate, hcursor, hbuf⟩
  have hlen : (u.clients j).cursor + arrived f k + ([] : List UInt8).length <
      (u.clients j).bufSize := by
    rw [hcursor, hbuf]
    exact hshort
  obtain ⟨v, hv, hvpc, hvstate, hvcursor, hvbuf⟩ := turn_data (o := o) hupc hstate hlen
  refine ⟨v, ?_, hvpc, hvstate, ?_, ?_⟩
  · rw [eof_forever hsticky hk hi]
    exact hv
  · rw [hvcursor, hcursor]
  · rw [hvbuf, hbuf]

theorem returns_of_not_eof (hs : Receiving j f c₀ 0 s) (ha : Answers o f s)
    (hsend : ∀ k, f k ≠ .send (some 0))
    (heof : ¬ EofFirst (c₀.bufSize - c₀.cursor) f) : Returns (turn o) f s := by
  refine returns_of_measure work ?_
  intro k t u hk hturn
  rcases after_under ha (.inl hs) hk with ht | ⟨cursor, c, hin, hstate⟩
  · refine work_lt ⟨ht.pc, rfl⟩ (ha k t hk) hturn ?_ (hsend k)
    intro _ hlt hrecv
    rw [ht.cursor, ht.bufSize] at hlt
    exact heof ⟨k, hrecv, ht.data, by omega⟩
  · refine work_lt hin (ha k t hk) hturn ?_ (hsend k)
    intro hsent
    rw [hin.client] at hsent
    exact absurd hsent hstate

/-- What a call for a client in `SENT` begins with. -/
theorem receiving_enter {todo : List (Fin n)} (hpc : s.pc = .loop) (htodo : s.todo = j :: todo)
    (hstate : (s.clients j).state = .sent) (hrun : s.run o = some t) :
    Receiving j f (s.clients j) 0 t := by
  rw [run, hpc, htodo] at hrun
  cases Option.some.inj hrun
  have henter : ∀ u : Worker n, u.clients = s.clients →
      u.enter o j 0 = (u.tsclog o j .recvStart).goTo (.call j 0 0) := by
    intro u hu
    rw [enter]
    simp only [hu, hstate]
  rw [henter { s with todo := todo, pc := .loop } rfl]
  exact ⟨⟨0, rfl⟩, hstate, rfl, rfl, fun i hi => absurd hi (Nat.not_lt_zero i)⟩

end Call

/-- `client_recv` returns unless end-of-file comes first, and so does a call for a client in
`SENT`, which goes on to calls that all bring it closer to its end. -/
theorem returns_iff {n : ℕ} (o : Options) (s t : Worker n) (j : Fin n) (todo : List (Fin n))
    (len : ℕ) (g : ℕ → Received) (f : ℕ → Input) :
    (1 ≤ len → (∀ k, g k = .data [] → g (k + 1) = .data []) →
      (Returns (clientRecv len) g 0 ↔ ¬ EofFirst len fun k => .recv (g k))) ∧
    (s.pc = .loop → s.todo = j :: todo → (s.clients j).state = .sent → s.run o = some t →
      Answers o f t → (∀ k, f k ≠ .send (some 0)) →
      (∀ k, f k = .recv (.data []) → f (k + 1) = .recv (.data [])) →
      (Returns (turn o) f t ↔ ¬ EofFirst ((s.clients j).bufSize - (s.clients j).cursor) f)) := by
  refine ⟨fun hlen heof => clientRecv_returns hlen heof, ?_⟩
  intro hpc htodo hstate hrun ha hsend hsticky
  have hs : Receiving j f (s.clients j) 0 t := receiving_enter hpc htodo hstate hrun
  constructor
  · intro hreturns heof
    exact not_returns_of_eof hs hsticky heof hreturns
  · exact returns_of_not_eof hs ha hsend

end Worker

/-! ## Answers to two bytes -/

/-- One transaction of two bytes. -/
def twoBytes : Options := ⟨2, 1, 1, one_lt_size, one_lt_size⟩

def twoByteClient : Worker 1 where
  index := 0
  clients _ := ⟨0, [7, 8], 0, .init, 2, 1, 1⟩
  interest _ := none
  opened _ := false
  log := ⟨[], 100, false⟩
  dying := false
  complete := 0
  todo := List.finRange 1
  pc := .loop

theorem twoByteClient_start : (worker 1 twoBytes).Init twoByteClient :=
  ⟨fun _ => ⟨[7, 8], rfl, rfl⟩, fun _ => rfl, ⟨rfl, rfl⟩, rfl, rfl, rfl, rfl⟩

/-- The request is sent, and `epoll_wait` reports the client. -/
def reported : List Input :=
  [.run, .connect (.inProgress 5 true), .wait [5], .run, .connected .ok, .add true,
    .send (some 2), .wait [5]]

theorem reported_runs : ((worker 1 twoBytes).exec twoByteClient reported).isSome := by decide

def asked : Worker 1 := (((worker 1 twoBytes).exec twoByteClient reported).get reported_runs).1

/-- The two bytes come one by one. -/
def byteByByte (k : ℕ) : Received := if k = 0 then .data [7] else .data [8]

theorem byteByByte_ne (k : ℕ) : byteByByte k ≠ .data [] := by
  rw [byteByByte]
  split <;> simp

/-- Both bytes are there. -/
theorem answers_byteByByte {s t : Worker 1} {r : Worker 1}
    (hfirst : (t.doStateTransition twoBytes (.recv (.data [7]))).isSome)
    (hthen : t.turn twoBytes (.recv (.data [7])) = .inl s)
    (hsecond : (s.doStateTransition twoBytes (.recv (.data [8]))).isSome)
    (hend : s.turn twoBytes (.recv (.data [8])) = .inr r) :
    Worker.Answers twoBytes (fun k => .recv (byteByByte k)) t := by
  have hone : after (Worker.turn twoBytes) (fun k => .recv (byteByByte k)) t 1 = .inl s := hthen
  have htwo : after (Worker.turn twoBytes) (fun k => .recv (byteByByte k)) t 2 = .inr r := by
    rw [after_succ hone]
    exact hend
  intro k u hk
  match k with
  | 0 =>
      cases hk
      exact hfirst
  | 1 =>
      cases hone.symm.trans hk
      exact hsecond
  | k + 2 =>
      obtain ⟨v, hv⟩ := after_inl_le hk (Nat.le_add_left 2 k)
      rw [htwo] at hv
      cases hv

theorem returns_iff_twoBytes :
    ∃ tr s t, (worker 1 twoBytes).Reaches tr s ∧ s.run twoBytes = some t ∧
      Returns (clientRecv 2) byteByByte 0 ∧
      Returns (Worker.turn twoBytes) (fun k => .recv (byteByByte k)) t := by
  have hreach := Machine.reaches_exec_get twoByteClient_start reported_runs
  have hnot : ∀ len, ¬ EofFirst len fun k => .recv (byteByByte k) := by
    rintro len ⟨k, hk, -⟩
    exact byteByByte_ne k (Input.recv.inj hk)
  have hiff := fun t => Worker.returns_iff twoBytes asked t 0 [] 2 byteByByte
    fun k => .recv (byteByByte k)
  refine ⟨_, asked, _, hreach, rfl, ?_, ?_⟩
  · refine ((hiff asked).1 (by decide) ?_).mpr (hnot 2)
    intro k hk
    exact absurd hk (byteByByte_ne k)
  · refine ((hiff _).2 rfl rfl rfl rfl ?_ ?_ ?_).mpr (hnot _)
    · exact answers_byteByByte rfl rfl rfl rfl
    · exact fun k => Input.noConfusion
    · intro k hk
      exact absurd (Input.recv.inj hk) (byteByByte_ne k)

/-- The server closes the connection after the first of two bytes. -/
def halfResponse (k : ℕ) : Received := if k = 0 then .data [7] else .data []

theorem halfResponse_eof (len : ℕ) (hlen : 1 < len) :
    EofFirst len fun k => .recv (halfResponse k) := by
  refine ⟨1, rfl, ?_, hlen⟩
  intro i hi
  exact ⟨[7], by rw [Nat.lt_one_iff.mp hi]; rfl⟩

theorem not_returns :
    (∀ k, halfResponse k = .data [] → halfResponse (k + 1) = .data []) ∧
    ¬ Returns (clientRecv 2) halfResponse 0 ∧
    ∃ tr s t, (worker 1 twoBytes).Reaches tr s ∧ (s.clients 0).state = .sent ∧
      s.run twoBytes = some t ∧
      ¬ Returns (Worker.turn twoBytes) (fun k => .recv (halfResponse k)) t := by
  have hsticky : ∀ k, halfResponse k = .data [] → halfResponse (k + 1) = .data [] :=
    fun k _ => if_neg (Nat.succ_ne_zero k)
  have hreach := Machine.reaches_exec_get twoByteClient_start reported_runs
  refine ⟨hsticky, ?_, _, asked, _, hreach, rfl, rfl, ?_⟩
  · intro hreturns
    exact (clientRecv_returns (by decide) hsticky).mp hreturns (halfResponse_eof 2 (by decide))
  · refine Worker.not_returns_of_eof (j := 0) (Worker.receiving_enter (s := asked) rfl rfl rfl rfl) ?_ ?_
    · intro k hk
      exact congrArg Input.recv (hsticky k (Input.recv.inj hk))
    · exact halfResponse_eof _ (by decide)

end Upcalls.TcpClient
