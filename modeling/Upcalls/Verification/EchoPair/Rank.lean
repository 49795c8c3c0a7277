import Upcalls.Library.Progress
import Upcalls.Verification.EchoPair.Echo
import Upcalls.Verification.TcpClient.Counts

/-! # How much a client and its server have left to do

A byte of the message costs less the further it has come: from the client's buffer to the
stream, to the pool buffer, to the server's message buffer, and back. A step of either side
moves bytes on or leaves a state for one that costs less.
-/

namespace Upcalls.EchoPair

open Library TcpClient UpcallEcho

variable {o : Options} {M : List UInt8} {c r : ℕ}

/-! ## The server -/

namespace Link

variable {m : ℕ} {l l' : Link} {p : LockStep.Phase UInt8}

/-- What the handlers have to do for the bytes that they have. -/
def load (m : ℕ) (l : Link) : ℕ :=
  (l.requests.map fun
    | .read _ _ => 6 * l.conn.cursor
    | .write _ _ len _ => 6 * len
    | _ => 0).sum +
  (l.completions.map fun (e, data) =>
    match e.workFn with
    | some .myRead => 6 * l.conn.cursor + 7 * data.length
    | some .myWrite => 6 * (m - (l.conn.cursor + e.result.toNat)) + 1
    | _ => 0).sum

def rank (m : ℕ) (l : Link) : ℕ :=
  8 * l.toServer.length + l.load m + 4 * l.toClient.length

def phaseLoad (m : ℕ) : LockStep.Phase UInt8 → ℕ
  | .reading f => 6 * f
  | .read f data => 6 * f + 7 * data.length
  | .writing d => 6 * (m - d)
  | .wrote d k => 6 * (m - (d + k)) + 1

theorem Serves.load (h : l.Serves m p) : l.load m = phaseLoad m p := by
  cases p with
  | reading f =>
      obtain ⟨rfl, hrequests, hcompletions⟩ := h
      simp [Link.load, hrequests, hcompletions, phaseLoad]
  | read f data =>
      obtain ⟨rfl, hrequests, buf, len, hcompletions⟩ := h
      simp [Link.load, hrequests, hcompletions, completion, phaseLoad]
  | writing d =>
      obtain ⟨rfl, hcompletions, hrequests⟩ := h
      simp [Link.load, hrequests, hcompletions, phaseLoad]
  | wrote d k =>
      obtain ⟨rfl, hrequests, src, size, buf, len, hcompletions⟩ := h
      simp [Link.load, hrequests, hcompletions, completion, phaseLoad]

theorem kernel_rank {i k : ℕ} {buf : Ptr} {len : ℕ} (h : l.Carries M c r)
    (hk : l.kernel i k buf len = some l') : l'.rank M.length < l.rank M.length := by
  obtain ⟨-, p, hserves, -⟩ := h
  have hload := hserves.load
  cases p with
  | reading f =>
      obtain ⟨hcursor, hrequests, hcompletions⟩ := hserves
      rw [kernel, hrequests] at hk
      cases i with
      | zero =>
          simp only [List.getElem?_cons_zero] at hk
          split at hk
          · rename_i hfit
            cases hk
            rw [rank, rank, hload, Link.load]
            simp only [phaseLoad, hcompletions, completion, hcursor, List.length_take,
              List.length_drop, List.eraseIdx_cons_zero, List.map_nil, List.sum_nil,
              List.nil_append, List.map_cons, List.sum_cons]
            omega
          · cases hk
      | succ i => simp at hk
  | writing d =>
      obtain ⟨hcursor, hcompletions, hrequests⟩ := hserves
      rw [kernel, hrequests] at hk
      cases i with
      | zero =>
          simp only [List.getElem?_cons_zero] at hk
          split at hk
          · rename_i hfit
            cases hk
            rw [rank, rank, hload, Link.load]
            simp only [phaseLoad, hcompletions, completion, hcursor, List.length_append,
              List.length_take, List.eraseIdx_cons_zero, List.map_nil,
              List.sum_nil, List.nil_append, List.map_cons, List.sum_cons, Int.toNat_natCast]
            omega
          · cases hk
      | succ i => simp at hk
  | read f data =>
      rw [kernel, hserves.2.1] at hk
      cases hk
  | wrote d k =>
      rw [kernel, hserves.2.1] at hk
      cases hk

/-- A handler moves bytes between the buffers, and not on the streams. -/
theorem dispatch_loads (h : l.Carries M c r) (hd : l.dispatch M.length = some l') :
    l'.toServer = l.toServer ∧ l'.toClient = l.toClient ∧ l'.load M.length < l.load M.length := by
  obtain ⟨hfd, p, hserves, hcarries⟩ := h
  cases p with
  | read f data =>
      have hpos : 0 < data.length := List.length_pos_of_ne_nil hcarries.data_ne_nil
      obtain ⟨-, hnext, hloop⟩ := dispatch_read hfd hserves hcarries.data_ne_nil hd
      refine ⟨congrArg LockStep.Loop.up hloop, congrArg LockStep.Loop.down hloop, ?_⟩
      rw [hserves.load, hnext.load]
      split
      · simp only [phaseLoad]
        omega
      · simp only [phaseLoad]
        omega
  | wrote d k =>
      obtain ⟨-, hnext, hloop⟩ := dispatch_write hserves hcarries.one_le hd
      refine ⟨congrArg LockStep.Loop.up hloop, congrArg LockStep.Loop.down hloop, ?_⟩
      rw [hserves.load, hnext.load]
      split
      · simp only [phaseLoad]
        omega
      · simp only [phaseLoad]
        omega
  | reading f =>
      rw [dispatch, hserves.2.2] at hd
      cases hd
  | writing d =>
      rw [dispatch, hserves.2.1] at hd
      cases hd

theorem dispatch_rank (h : l.Carries M c r) (hd : l.dispatch M.length = some l') :
    l'.rank M.length < l.rank M.length := by
  obtain ⟨hup, hdown, hload⟩ := dispatch_loads h hd
  rw [rank, rank, hup, hdown]
  omega

/-- The kernel takes nothing away from the client. -/
theorem kernel_toClient {i k : ℕ} {buf : Ptr} {len : ℕ} (hk : l.kernel i k buf len = some l') :
    l.toClient <+: l'.toClient := by
  rw [kernel] at hk
  split at hk
  · split at hk
    · cases hk
      exact List.prefix_rfl
    · cases hk
  · split at hk
    · cases hk
      exact List.prefix_append _ _
    · cases hk
  · cases hk

end Link

/-! ## The client -/

/-- What the client has to do in the transaction that it is in. -/
def clientRank (s : Worker 1) : ℕ :=
  let size := (only s).bufSize
  match (only s).state, s.pc with
  | .init, .call _ _ _ => 9 * size + 8
  | .init, _ => 9 * size + 9
  | .connecting, .call _ _ _ => 9 * size + 5
  | .connecting, _ => 9 * size + if s.todo = [] then 7 else 6
  | .new, _ => 9 * size + 4
  | .ready, .call _ _ cursor => 9 * (size - cursor) + 3
  | .ready, _ => 3
  | .sent, .call _ _ cursor => if cursor = 0 then 0 else 3
  | .sent, _ => if s.todo = [] then 2 else 1
  | .done, .exited => 0
  | .done, _ => 1

def workRank (s : Worker 1) : ℕ :=
  9 * ((only s).bufSize + 1) * (only s).txnRemaining + clientRank s

/-- What is known of a client that is in step with its server. -/
structure Steady (o : Options) (s : Worker 1) : Prop where
  inv : s.Inv
  left : s.pc = .loop → (s.goesOn o = false ↔ (s.clients 0).state = .done)
  remaining : (s.clients 0).state = .sent → (s.clients 0).txnRemaining ≠ 0
  bounded : (s.clients 0).txnRemaining < 2 ^ 64
  room : ∀ {j count cursor}, (s.clients 0).state = .sent → s.pc = .call j count cursor →
    (s.clients 0).cursor + cursor < (s.clients 0).bufSize

/-- The answers of calls that have something to say: no connection is there at once, no
`epoll_wait` times out or reports a client that can do nothing, `send` takes a byte, and `recv`
has one unless it is called again. -/
structure Answers (s : Worker 1) (a : TcpClient.Input) : Prop where
  inTime : a ≠ .timeout
  later : a.atOnce = false
  wait : ∀ fds, a = .wait fds →
    (s.clients 0).state = .connecting ∨ (s.clients 0).state = .sent
  send : a ≠ .send (some 0)
  data : a ≠ .recv (.data [])
  again : a = .recv .again → ∀ j count cursor, s.pc = .call j count cursor → cursor ≠ 0

def sentBytes : TcpClient.Input → ℕ
  | .send (some k) => k
  | _ => 0

def receivedBytes : TcpClient.Input → ℕ
  | .recv (.data bytes) => bytes.length
  | _ => 0

/-- A transaction that ends pays for the next one. -/
theorem workRank_next {size t x : ℕ} (ht : t ≠ 0) (hlt : t < 2 ^ 64) (hx : x < 9 * (size + 1)) :
    9 * (size + 1) * sub64 t 1 + x < 9 * (size + 1) * t := by
  obtain ⟨t, rfl⟩ := Nat.exists_eq_succ_of_ne_zero ht
  have hsub : sub64 (t + 1) 1 = t := sub64_eq_of_add rfl hlt
  rw [Nat.succ_eq_add_one, hsub, Nat.mul_add_one (9 * (size + 1)) t]
  omega

section Client

variable {s s' : Worker 1} {a : TcpClient.Input} {out : TcpClient.Output 1}

/-- A step of the client costs it something, apart from the bytes that come back. -/
theorem stepped_rank (h : Worker.Stepped o s a s' out) (hs : Steady o s) (ha : Answers s a) :
    workRank s' + 8 * sentBytes a < workRank s + 4 * receivedBytes a := by
  cases h with
  | @waited fds todo hpc htodo hgoes hnodup hle hready =>
      have hne : todo ≠ [] := by
        have hsock := Worker.map_sock (fun hx => (hs.inv.owned hx).1) hready
        rintro rfl
        rw [← hsock] at hle
        cases hle
      rcases ha.wait fds rfl with hstate | hstate
      · simp [workRank, clientRank, only, Worker.disarm, hstate, hpc, htodo, hne, sentBytes,
          receivedBytes]
      · simp [workRank, clientRank, only, Worker.disarm, hstate, hpc, htodo, hne, sentBytes,
          receivedBytes]
  | timedOut => exact (ha.inTime rfl).elim
  | exited hpc htodo hgoes =>
      have hdone := (hs.left hpc).mp hgoes
      simp [workRank, clientRank, only, Worker.goTo, hdone, hpc, sentBytes, receivedBytes]
  | @enteredInit j todo hpc htodo hstate =>
      obtain rfl := Subsingleton.elim j 0
      simp [workRank, clientRank, only, hstate, hpc, sentBytes, receivedBytes]
  | connectedAtOnce => cases ha.later
  | @began j count cursor fd hpc hstate =>
      obtain rfl := Subsingleton.elim j 0
      simp only [workRank, clientRank, only, hstate, hpc, sentBytes, receivedBytes,
        Function.update_self]
      split <;> omega
  | @enteredConnecting j todo hpc htodo hstate =>
      obtain rfl := Subsingleton.elim j 0
      simp [workRank, clientRank, only, hstate, hpc, htodo, sentBytes, receivedBytes]
  | @enteredSent j todo hpc htodo hstate =>
      obtain rfl := Subsingleton.elim j 0
      simp [workRank, clientRank, only, hstate, hpc, htodo, sentBytes, receivedBytes]
  | @enteredOther j todo hpc htodo hstate =>
      exact (hs.inv.not_other hpc (htodo ▸ List.mem_cons_self) hstate).elim
  | @connected j count cursor hpc hstate =>
      obtain rfl := Subsingleton.elim j 0
      simp [workRank, clientRank, only, hstate, hpc, sentBytes, receivedBytes]
  | @added j count cursor hpc hstate =>
      obtain rfl := Subsingleton.elim j 0
      simp [workRank, clientRank, only, hstate, hpc, sentBytes, receivedBytes]
  | @sentPart j count cursor k hpc hstate hlt =>
      obtain rfl := Subsingleton.elim j 0
      have hk : k ≠ 0 := by
        rintro rfl
        exact ha.send rfl
      simp only [workRank, clientRank, only, hstate, hpc, sentBytes, receivedBytes]
      omega
  | @sentAll j count cursor k hpc hstate hall =>
      obtain rfl := Subsingleton.elim j 0
      simp only [workRank, clientRank, only, hstate, hpc, sentBytes, receivedBytes,
        Function.update_self]
      split <;> omega
  | @receivedPart j count cursor bytes hpc hstate hlt =>
      obtain rfl := Subsingleton.elim j 0
      have hlength : bytes.length ≠ 0 := by
        intro hzero
        exact ha.data (by rw [List.length_eq_zero_iff.mp hzero])
      simp only [workRank, clientRank, only, hstate, hpc, sentBytes, receivedBytes,
        Function.update_self]
      split <;> split <;> omega
  | @again j count cursor hpc hstate hlt =>
      obtain rfl := Subsingleton.elim j 0
      have hcursor := ha.again rfl _ _ _ hpc
      simp only [workRank, clientRank, only, hstate, hpc, hcursor, sentBytes, receivedBytes,
        Function.update_self, if_false]
      split <;> omega
  | @finished j count cursor ret buf hpc hstate hfull hzero =>
      obtain rfl := Subsingleton.elim j 0
      have hnext := workRank_next (x := 1) (hs.remaining hstate) hs.bounded
        (show 1 < 9 * ((s.clients 0).bufSize + 1) by omega)
      simp only [workRank, clientRank, only, hstate, hpc, Function.update_self]
      have hsent : sentBytes (.recv ret) = 0 := rfl
      omega
  | @batchEnded j count cursor ret buf hpc hstate hfull hmore hzero =>
      obtain rfl := Subsingleton.elim j 0
      have hnext := workRank_next (x := 9 * (s.clients 0).bufSize + 8) (hs.remaining hstate)
        hs.bounded (show _ < 9 * ((s.clients 0).bufSize + 1) by omega)
      simp only [workRank, clientRank, only, hstate, hpc, Function.update_self]
      have hsent : sentBytes (.recv ret) = 0 := rfl
      omega
  | @next j count cursor ret buf hpc hstate hfull hmore hbatch =>
      obtain rfl := Subsingleton.elim j 0
      have hnext := workRank_next (x := 9 * (s.clients 0).bufSize + 3) (hs.remaining hstate)
        hs.bounded (show _ < 9 * ((s.clients 0).bufSize + 1) by omega)
      simp only [workRank, clientRank, only, hstate, hpc, Function.update_self]
      have hsent : sentBytes (.recv ret) = 0 := rfl
      omega

/-! ## What a step leaves of the client -/

/-- A client has left its loop only when it is done, and has a descriptor to open unless it has
one open. -/
structure Poised (s : Worker 1) : Prop where
  exited : s.pc = .exited → (s.clients 0).state = .done
  sock : (s.clients 0).state.live = true → 0 ≤ (s.clients 0).sock
  free : (s.clients 0).state.live = false → ∃ fd, 0 ≤ fd ∧ s.opened fd = false

theorem stepped_poised (h : Worker.Stepped o s a s' out) (hs : Steady o s) (ha : a ≠ .timeout)
    (hp : Poised s) : Poised s' := by
  obtain ⟨-, hsock, hfree⟩ := hp
  have hcall : ∀ {P : Prop} {j : Fin 1} {count cursor : ℕ},
      Pc.call j count cursor = .exited → P := by
    intro P j count cursor h
    cases h
  have hloop : ∀ {P : Prop}, (Pc.loop : Pc 1) = .exited → P := by
    intro P h
    cases h
  cases h with
  | @waited fds todo hpc =>
      exact ⟨fun hexited => hloop (hpc.symm.trans hexited), hsock, hfree⟩
  | timedOut => exact (ha rfl).elim
  | exited hpc htodo hgoes => exact ⟨fun _ => (hs.left hpc).mp hgoes, hsock, hfree⟩
  | @enteredInit j | @receivedPart j =>
      obtain rfl := Subsingleton.elim j 0
      exact ⟨hcall, hsock, hfree⟩
  | @again j =>
      obtain rfl := Subsingleton.elim j 0
      exact ⟨hloop, hsock, hfree⟩
  | @connectedAtOnce j _ _ fd _ _ hpos =>
      obtain rfl := Subsingleton.elim j 0
      refine ⟨hcall, fun _ => hpos, ?_⟩
      intro hlive
      cases hlive
  | @began j _ _ fd _ _ hpos =>
      obtain rfl := Subsingleton.elim j 0
      refine ⟨hloop, fun _ => hpos, ?_⟩
      intro hlive
      cases hlive
  | enteredConnecting | enteredSent | sentPart => exact ⟨hcall, hsock, hfree⟩
  | @enteredOther j todo hpc htodo hstate =>
      exact (hs.inv.not_other hpc (htodo ▸ List.mem_cons_self) hstate).elim
  | @connected j _ _ _ hstate | @added j _ _ _ hstate | @next j _ _ _ _ _ hstate =>
      obtain rfl := Subsingleton.elim j 0
      rw [hstate] at hsock
      refine ⟨hcall, fun _ => hsock rfl, ?_⟩
      intro hlive
      cases hlive
  | @sentAll j _ _ _ _ hstate =>
      obtain rfl := Subsingleton.elim j 0
      rw [hstate] at hsock
      refine ⟨hloop, fun _ => hsock rfl, ?_⟩
      intro hlive
      cases hlive
  | @finished j _ _ _ _ _ hstate =>
      obtain rfl := Subsingleton.elim j 0
      rw [hstate] at hsock
      refine ⟨hloop, ?_, fun _ => ⟨(s.clients 0).sock, hsock rfl, Function.update_self ..⟩⟩
      intro hlive
      cases hlive
  | @batchEnded j _ _ _ _ _ hstate =>
      obtain rfl := Subsingleton.elim j 0
      rw [hstate] at hsock
      refine ⟨hcall, ?_, fun _ => ⟨(s.clients 0).sock, hsock rfl, Function.update_self ..⟩⟩
      intro hlive
      cases hlive

/-- The client has been told of bytes that it has not asked for yet. -/
structure Told (s : Worker 1) : Prop where
  sent : (s.clients 0).state = .sent
  place : s.pc = .loop ∧ s.todo ≠ [] ∨ ∃ j count, s.pc = .call j count 0

theorem todo_eq_nil (hs : s.Inv) {j : Fin 1} {count cursor : ℕ}
    (hpc : s.pc = .call j count cursor) : s.todo = [] := by
  have haway : j ∉ s.todo := hs.away (by rw [hpc]; rfl)
  refine List.eq_nil_iff_forall_not_mem.mpr ?_
  intro i hi
  obtain rfl := Subsingleton.elim i j
  exact haway hi

/-- Only `epoll_wait` tells a client of bytes. -/
theorem stepped_told (h : Worker.Stepped o s a s' out) (hs : Steady o s) (ha : Answers s a)
    (htold : Told s') :
    Told s ∧ a = .run ∨ (s.clients 0).state = .sent ∧ ∃ fds, a = .wait fds := by
  obtain ⟨hsent, hplace⟩ := htold
  have hreturned : s'.pc = .loop → s'.todo = s.todo → ∀ {j count cursor},
      s.pc = .call j count cursor → False := by
    intro hloop htodo j count cursor hpc
    rcases hplace with ⟨-, hne⟩ | ⟨i, k, hcall⟩
    · rw [htodo, todo_eq_nil hs.inv hpc] at hne
      exact hne rfl
    · rw [hloop] at hcall
      cases hcall
  cases h with
  | waited => exact .inr ⟨hsent, _, rfl⟩
  | timedOut => exact (ha.inTime rfl).elim
  | exited =>
      rcases hplace with ⟨hpc, -⟩ | ⟨j, count, hpc⟩
      · cases hpc
      · cases hpc
  | @enteredInit j _ _ _ hstate =>
      obtain rfl := Subsingleton.elim j 0
      simp only [Function.update_self, hstate] at hsent
      cases hsent
  | @connectedAtOnce j | @began j | @connected j | @added j | @finished j | @batchEnded j
  | @next j =>
      obtain rfl := Subsingleton.elim j 0
      simp only [Function.update_self] at hsent
      cases hsent
  | @enteredConnecting j _ _ _ hstate =>
      obtain rfl := Subsingleton.elim j 0
      rw [hstate] at hsent
      cases hsent
  | @enteredSent j todo hpc htodo hstate =>
      exact .inl ⟨⟨hsent, .inl ⟨hpc, htodo ▸ List.cons_ne_nil j todo⟩⟩, rfl⟩
  | @enteredOther j todo hpc htodo hstate =>
      exact (hs.inv.not_other hpc (htodo ▸ List.mem_cons_self) hstate).elim
  | @sentPart j _ _ _ _ hstate =>
      obtain rfl := Subsingleton.elim j 0
      rw [hstate] at hsent
      cases hsent
  | sentAll hpc | again hpc => exact (hreturned rfl rfl hpc).elim
  | @receivedPart j count cursor bytes hpc =>
      rcases hplace with ⟨hloop, -⟩ | ⟨i, k, hcall⟩
      · cases hloop
      · have hzero : cursor + bytes.length = 0 := by
          injection hcall
        have hnil : bytes = [] := List.length_eq_zero_iff.mp (Nat.eq_zero_of_add_eq_zero hzero).2
        exact (ha.data (by rw [hnil])).elim

end Client

end Upcalls.EchoPair
