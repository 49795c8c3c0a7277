import Upcalls.Verification.EchoPair.Client
import Upcalls.Verification.UpcallEcho.Equations

/-! # Every response equals its request

A client keeps its message, since all that it receives are its own bytes. One message is
under way at a time, and some party has something to do until the client is done.
-/

namespace Upcalls.EchoPair

open Library TcpClient UpcallEcho

variable {o : Options} {M : List UInt8} {s s' : Pair} {seen : Output} {c r : ℕ}

/-! ## What is seen of a run -/

/-- The bytes of the transaction under way, and the requests and responses of those that
are completed. -/
structure Transcript where
  request : List UInt8
  response : List UInt8
  completed : List (List UInt8 × List UInt8)

def Transcript.add (t : Transcript) (seen : Output) : Transcript :=
  let request := t.request ++ seen.sent
  let response := t.response ++ seen.received
  if seen.completed then ⟨[], [], t.completed ++ [(request, response)]⟩
  else { t with request := request, response := response }

def transcript (tr : List (EchoPair.Input × Output)) : Transcript :=
  tr.foldl (fun t x => t.add x.2) ⟨[], [], []⟩

theorem transcript_snoc (tr : List (EchoPair.Input × Output)) (x : EchoPair.Input × Output) :
    transcript (tr ++ [x]) = (transcript tr).add x.2 := by
  simp [transcript, List.foldl_append]

/-! ## Where the bytes of a message are -/

def unsent (s : Worker 1) : ℕ :=
  match (s.clients 0).state, s.pc with
  | .ready, .call _ _ cursor => (s.clients 0).bufSize - cursor
  | .sent, _ => 0
  | _, _ => (s.clients 0).bufSize

def received (s : Worker 1) : ℕ :=
  match (s.clients 0).state, s.pc with
  | .sent, .call _ _ cursor => (s.clients 0).cursor + cursor
  | _, _ => (s.clients 0).cursor

/-- The client of a worker that has one. -/
def only (s : Worker 1) : Client := s.clients 0

namespace Link

/-- The requests and completions of a handler. -/
def jobs (h : Handler) (l : Link) : ℕ :=
  l.requests.countP (requestFn · = some h) + l.completions.countP (fun x => x.1.workFn = some h)

/-- The bytes of the message that the server has and has not written. -/
def buffered (msgSize : ℕ) (l : Link) : ℕ :=
  (l.requests.map fun
    | .read _ _ => l.conn.cursor
    | .write _ _ len _ => len
    | _ => 0).sum +
  (l.completions.map fun (e, data) =>
    match e.workFn with
    | some .myRead => l.conn.cursor + data.length
    | some .myWrite => msgSize - (l.conn.cursor + e.result.toNat)
    | _ => 0).sum

end Link

/-- The client has no request to make or bytes to receive, and the server has no bytes to
read or write and no completion to handle. -/
structure Quiet (msgSize : ℕ) (s : Pair) : Prop where
  client : (s.client.clients 0).state = .sent ∨ (s.client.clients 0).state = .done
  received : ∀ l, s.link = some l → l.toClient = []
  kernel : ∀ l, s.link = some l → ∀ i k buf len, l.kernel i k buf len = none
  dispatch : ∀ l, s.link = some l → l.dispatch msgSize = none

/-! ## One step -/

/-- The connection as both sides see it: `c` bytes of the message are sent and `r` bytes are
back. -/
inductive Exchange (M : List UInt8) (s : Pair) : ℕ → ℕ → Prop
  | apart : s.link = none → Apart s.client → Exchange M s 0 0
  | joined {l : Link} {c r : ℕ} : s.link = some l → At M s.client c r → l.Carries M c r →
      Exchange M s c r

/-- What a step adds to what is sent and received. -/
inductive Moves (M : List UInt8) (c r : ℕ) : Output → ℕ → ℕ → Prop
  | silent : Moves M c r silent c r
  | sent {k : ℕ} : c + k ≤ M.length → Moves M c r ⟨slice c (c + k) M, [], false⟩ (c + k) r
  | received {k : ℕ} : r + k ≤ M.length → Moves M c r ⟨[], slice r (r + k) M, false⟩ c (r + k)
  | completed : c = M.length → r ≤ M.length →
      Moves M c r ⟨[], slice r M.length M, true⟩ 0 0

structure Holds (M : List UInt8) (s : Pair) (c r : ℕ) : Prop where
  alive : s.client.dying = false
  keeps : Keeps M s.client
  exchange : Exchange M s c r

/-! ## The transcript -/

structure Records (M : List UInt8) (t : Transcript) (c r : ℕ) : Prop where
  request : t.request = M.take c
  response : t.response = M.take r
  completed : ∀ x ∈ t.completed, x = (M, M)

theorem Moves.records {t : Transcript} {c' r' : ℕ} (h : Moves M c r seen c' r')
    (ht : Records M t c r) : Records M (t.add seen) c' r' := by
  obtain ⟨request, response, completed⟩ := t
  obtain ⟨rfl, rfl, hcompleted⟩ := ht
  cases h with
  | silent =>
      exact ⟨List.append_nil _, List.append_nil _, hcompleted⟩
  | sent hfit =>
      refine ⟨?_, List.append_nil _, hcompleted⟩
      simp only [Transcript.add]
      rw [← slice_zero c]
      exact slice_append (Nat.zero_le c) (Nat.le_add_right c _)
  | received hfit =>
      refine ⟨List.append_nil _, ?_, hcompleted⟩
      simp only [Transcript.add]
      rw [← slice_zero r]
      exact slice_append (Nat.zero_le r) (Nat.le_add_right r _)
  | completed hc hr =>
      have hresponse : M.take r ++ slice r M.length M = M := by
        rw [← slice_zero r, slice_append (Nat.zero_le r) hr, slice_zero, List.take_length]
      refine ⟨rfl, rfl, ?_⟩
      intro x hx
      rcases List.mem_append.mp hx with hx | hx
      · exact hcompleted x hx
      · rw [List.mem_singleton.mp hx]
        simp only [hc, List.append_nil, List.take_length, hresponse]

/-! ## Steps -/

theorem Exchange.server {l l' : Link} (h : Exchange M s c r) (hl : s.link = some l)
    (hserver : l.Carries M c r → l'.Carries M c r) :
    Exchange M { s with link := some l' } c r := by
  cases h with
  | apart hnone =>
      rw [hl] at hnone
      cases hnone
  | joined hsome hat hcarries =>
      cases hl.symm.trans hsome
      exact .joined rfl hat (hserver hcarries)

theorem transfer_hidden {a : TcpClient.Input} {link : Option Link} (ha : movesBytes a = false)
    (h : s.transfer a = some (link, seen)) : link = s.link ∧ seen = silent := by
  unfold Pair.transfer at h
  split at h
  case h_7 | h_8 => cases ha
  case h_9 => cases h
  all_goals
    cases h
    exact ⟨rfl, rfl⟩

section Call

variable {client : Worker 1} {out : TcpClient.Output 1} {link : Option Link}

theorem hidden_moves {a : TcpClient.Input} (hM : 1 ≤ M.length) (h : Holds M s c r)
    (ha : movesBytes a = false) (hstep : Worker.Stepped o s.client a client out)
    (hlink : link = s.link) : Holds M ⟨client, link⟩ c r ∧ out = .silent := by
  have halive := hstep.dying.trans h.alive
  have hkeeps := h.keeps.hidden hstep ha
  cases h.exchange with
  | apart hl happart =>
      obtain ⟨hnext, rfl⟩ := happart.hidden hstep ha
      exact ⟨⟨halive, hkeeps, .apart (hlink.trans hl) hnext⟩, rfl⟩
  | joined hl hat hcarries =>
      obtain ⟨hnext, rfl⟩ := hat.hidden hM h.keeps hstep ha
      exact ⟨⟨halive, hkeeps, .joined (hlink.trans hl) hnext hcarries⟩, rfl⟩

theorem send_moves {k : ℕ} (h : Holds M s c r)
    (hstep : Worker.Stepped o s.client (.send (some k)) client out)
    (htransfer : s.transfer (.send (some k)) = some (link, seen)) :
    c + k ≤ M.length ∧ seen = ⟨slice c (c + k) M, [], false⟩ ∧ out = .silent ∧
      Holds M ⟨client, link⟩ (c + k) r := by
  simp only [Pair.transfer] at htransfer
  split at htransfer
  · rename_i j count cursor l hpc hl
    cases h.exchange with
    | apart hnone =>
        rw [hl] at hnone
        cases hnone
    | joined hsome hat hcarries =>
        cases hl.symm.trans hsome
        obtain rfl := Subsingleton.elim j 0
        obtain ⟨hlt, hfit, ⟨count', hcall⟩, hkeeps, hnext, rfl⟩ := hat.send h.keeps hstep
        cases hpc.symm.trans hcall
        rw [h.keeps.buf] at htransfer
        cases htransfer
        refine ⟨hfit, by rw [take_drop_eq_slice], rfl, hstep.dying.trans h.alive, hkeeps, ?_⟩
        exact .joined rfl hnext (hcarries.send hlt hfit)
  · cases htransfer

theorem recv_moves {bytes : List UInt8} (hM : 1 ≤ M.length) (h : Holds M s c r)
    (hstep : Worker.Stepped o s.client (.recv (.data bytes)) client out)
    (htransfer : s.transfer (.recv (.data bytes)) = some (link, seen)) :
    ∃ c' r', Moves M c r { seen with completed := Pair.completes out } c' r' ∧
      Holds M ⟨client, if Pair.closes out then none else link⟩ c' r' := by
  simp only [Pair.transfer] at htransfer
  split at htransfer
  · rename_i l hl
    split at htransfer
    · rename_i hbytes
      cases htransfer
      cases h.exchange with
      | apart hnone =>
          rw [hl] at hnone
          cases hnone
      | joined hsome hat hcarries =>
          cases hl.symm.trans hsome
          obtain rfl := (hat.sent_inv (recv_state hstep)).1
          obtain ⟨hfit, hslice, hmore, hall⟩ := hcarries.receive hbytes.1 hbytes.2
          have halive := hstep.dying.trans h.alive
          obtain ⟨hkeeps, hnext⟩ := hat.receive hM h.keeps hstep hslice
          have hlast : r + bytes.length = M.length → Moves M M.length r ⟨[], bytes, true⟩ 0 0 := by
            intro hend
            have hmoves := Moves.completed rfl ((Nat.le_add_right r _).trans hfit)
            rw [← hend, ← hslice, hend] at hmoves
            exact hmoves
          rcases hnext with ⟨hlt, hnext, rfl⟩ | ⟨hend, hnext, rfl⟩ | ⟨hend, hnext, rfl⟩
          · refine ⟨M.length, r + bytes.length, ?_, halive, hkeeps, .joined rfl hnext (hmore hlt)⟩
            have hmoves : Moves M M.length r ⟨[], slice r (r + bytes.length) M, false⟩ _ _ :=
              .received hfit
            rw [← hslice] at hmoves
            exact hmoves
          · exact ⟨0, 0, hlast hend, halive, hkeeps, .apart rfl hnext⟩
          · exact ⟨0, 0, hlast hend, halive, hkeeps, .joined rfl hnext (hall hend)⟩
    · cases htransfer
  · cases htransfer

end Call

theorem call_moves {a : TcpClient.Input} (hM : 1 ≤ M.length) (h : Holds M s c r)
    (hcall : s.call o a = some (s', seen)) :
    ∃ c' r', Moves M c r seen c' r' ∧ Holds M s' c' r' := by
  simp only [Pair.call, Option.bind_eq_bind, Option.bind_eq_some_iff] at hcall
  obtain ⟨⟨client, out⟩, hclient, ⟨link, shown⟩, htransfer, hpair⟩ := hcall
  cases hpair
  have halive : client.dying = false := (dying_of_transfer htransfer hclient).trans h.alive
  have hstep := Worker.step_spec hclient halive
  cases ha : movesBytes a with
  | false =>
      obtain ⟨hlink, rfl⟩ := transfer_hidden ha htransfer
      obtain ⟨hnext, rfl⟩ := hidden_moves hM h ha hstep hlink
      exact ⟨c, r, .silent, hnext⟩
  | true =>
      cases a with
      | send x =>
          cases x with
          | none => cases htransfer
          | some k =>
              obtain ⟨hfit, rfl, rfl, hnext⟩ := send_moves h hstep htransfer
              exact ⟨c + k, r, .sent hfit, hnext⟩
      | recv x =>
          cases x with
          | data bytes => exact recv_moves hM h hstep htransfer
          | _ => cases ha
      | connect => cases htransfer
      | _ => cases ha

theorem connect_inv {a : Opened} {fd : ℤ} {block : ℕ} {buffer : List UInt8}
    (h : s.connect o a fd block buffer = some (s', seen)) :
    ∃ client out, s.client.step o (.connect a) = some (client, out) ∧ joins a = true ∧
      0 ≤ fd ∧ buffer.length = o.msgSize ∧ seen = silent ∧
      s' = ⟨client, some (.accepted fd block buffer)⟩ := by
  simp only [Pair.connect, Option.bind_eq_bind, Option.bind_eq_some_iff] at h
  obtain ⟨⟨client, out⟩, hclient, hanswer⟩ := h
  refine ⟨client, out, hclient, ?_⟩
  split at hanswer
  case h_3 => cases hanswer
  all_goals
    split at hanswer
    · rename_i hserver
      cases hanswer
      exact ⟨rfl, hserver.1, hserver.2, rfl, rfl⟩
    · cases hanswer

theorem connect_moves {a : Opened} {fd : ℤ} {block : ℕ} {buffer : List UInt8}
    (hM : 1 ≤ M.length) (hsize : M.length = o.msgSize) (h : Holds M s c r)
    (hconnect : s.connect o a fd block buffer = some (s', seen)) :
    Moves M c r seen 0 0 ∧ Holds M s' 0 0 := by
  obtain ⟨client, out, hclient, hjoins, hfd, hbuffer, rfl, rfl⟩ := connect_inv hconnect
  obtain ⟨j, count, cursor, hinit⟩ := doStateTransition_cases hclient
  have halive : client.dying = false := (init_dying hjoins hinit).trans h.alive
  have hstep := Worker.step_spec hclient halive
  cases h.exchange with
  | apart hnone happart =>
      obtain ⟨hkeeps, hat⟩ := happart.connect h.keeps hM hstep
      exact ⟨.silent, halive, hkeeps,
        .joined rfl hat (Link.accepted_carries hM hfd (hbuffer.trans hsize.symm))⟩
  | joined _ hat => exact (hat.not_connect hstep).elim

theorem step_moves {a : EchoPair.Input} (hM : 1 ≤ M.length) (hsize : M.length = o.msgSize)
    (h : Holds M s c r) (hstep : s.step o a = some (s', seen)) :
    ∃ c' r', Moves M c r seen c' r' ∧ Holds M s' c' r' := by
  cases a with
  | client a => exact call_moves hM h hstep
  | connect a fd block buffer => exact ⟨0, 0, connect_moves hM hsize h hstep⟩
  | kernel i k buf len =>
      simp only [Pair.step, Option.bind_eq_bind, Option.bind_eq_some_iff] at hstep
      obtain ⟨l, hl, l', hl', hpair⟩ := hstep
      cases hpair
      exact ⟨c, r, .silent, h.alive, h.keeps,
        h.exchange.server hl fun hcarries => Link.kernel_carries hcarries hl'⟩
  | dispatch =>
      simp only [Pair.step, Option.bind_eq_bind, Option.bind_eq_some_iff] at hstep
      obtain ⟨l, hl, l', hl', hpair⟩ := hstep
      cases hpair
      rw [← hsize] at hl'
      exact ⟨c, r, .silent, h.alive, h.keeps,
        h.exchange.server hl fun hcarries => Link.dispatch_carries hcarries hl'⟩

/-! ## Runs -/

theorem holds_start (h : s.client.Start o ∧ s.link = none) :
    (s.client.clients 0).buf.length = o.msgSize ∧ Holds (s.client.clients 0).buf s 0 0 := by
  obtain ⟨hstart, hlink⟩ := h
  obtain ⟨buf, hsize, hclient⟩ := hstart.clients 0
  have hstate : (s.client.clients 0).state = .init := by rw [hclient]
  have hcursor : (s.client.clients 0).cursor = 0 := by rw [hclient]
  have hbufSize : (s.client.clients 0).bufSize = (s.client.clients 0).buf.length := by
    rw [hclient, hsize]
  refine ⟨by rw [hclient, hsize], hstart.dying, ⟨rfl, hbufSize⟩, .apart hlink ⟨.inl hstate, hcursor⟩⟩

theorem run_holds {s₀ : Pair} {tr : List (EchoPair.Input × Output)}
    (hM : 1 ≤ M.length) (hsize : M.length = o.msgSize) (hstart : Holds M s₀ 0 0)
    (hrun : (echoPair o).Run s₀ tr s) :
    ∃ c r, Holds M s c r ∧ Records M (transcript tr) c r := by
  induction hrun with
  | nil => exact ⟨0, 0, hstart, rfl, rfl, by simp [transcript]⟩
  | snoc _ hlast ih =>
      obtain ⟨c, r, hholds, hrecords⟩ := ih
      obtain ⟨c', r', hmoves, hnext⟩ := step_moves hM hsize hholds hlast
      refine ⟨c', r', hnext, ?_⟩
      rw [transcript_snoc]
      exact hmoves.records hrecords

/-! ## What holds of every state -/

theorem At.unsent (h : At M s.client c r) (hkeeps : Keeps M s.client) :
    unsent s.client = M.length - c := by
  have hsize := hkeeps.bufSize
  cases h with
  | opening hstate =>
      rcases hstate with hstate | hstate <;> simp [EchoPair.unsent, hstate, hsize]
  | sending hstate hpc => simp [EchoPair.unsent, hstate, hpc, hsize]
  | waiting hstate _ hc | receiving hstate _ hc => simp [EchoPair.unsent, hstate, hc]

theorem At.received (h : At M s.client c r) : received s.client = r := by
  cases h with
  | opening hstate hcursor =>
      rcases hstate with hstate | hstate <;> simp [EchoPair.received, hstate, hcursor]
  | sending hstate hpc hcursor => simp [EchoPair.received, hstate, hcursor]
  | waiting hstate hpc _ hr =>
      simp only [EchoPair.received, hstate]
      split
      · rename_i hcall
        exact (hpc _ _ _ hcall).elim
      · exact hr
  | receiving hstate hpc _ hr => simp [EchoPair.received, hstate, hpc, hr]

namespace Link

variable {l : Link}

theorem Serves.jobs {m : ℕ} {p : LockStep.Phase UInt8} (h : l.Serves m p) :
    l.jobs .myRead + l.jobs .myWrite = 1 := by
  cases p with
  | reading f =>
      obtain ⟨-, hrequests, hcompletions⟩ := h
      simp [Link.jobs, hrequests, hcompletions, requestFn]
  | read f data =>
      obtain ⟨-, hrequests, buf, len, hcompletions⟩ := h
      simp [Link.jobs, hrequests, hcompletions, completion]
  | writing d =>
      obtain ⟨-, hcompletions, hrequests⟩ := h
      simp [Link.jobs, hrequests, hcompletions, requestFn]
  | wrote d k =>
      obtain ⟨-, hrequests, src, size, buf, len, hcompletions⟩ := h
      simp [Link.jobs, hrequests, hcompletions, completion]

theorem Serves.buffered {p : LockStep.Phase UInt8} (h : l.Serves M.length p) :
    l.buffered M.length = LockStep.Carries.held M p := by
  cases p with
  | reading f =>
      obtain ⟨rfl, hrequests, hcompletions⟩ := h
      simp [Link.buffered, hrequests, hcompletions, LockStep.Carries.held]
  | read f data =>
      obtain ⟨rfl, hrequests, buf, len, hcompletions⟩ := h
      simp [Link.buffered, hrequests, hcompletions, completion, LockStep.Carries.held]
  | writing d =>
      obtain ⟨rfl, hcompletions, hrequests⟩ := h
      simp [Link.buffered, hrequests, hcompletions, LockStep.Carries.held]
  | wrote d k =>
      obtain ⟨rfl, hrequests, src, size, buf, len, hcompletions⟩ := h
      simp [Link.buffered, hrequests, hcompletions, completion, LockStep.Carries.held]

/-- While the client waits for bytes, they are on their way or the server can go on. -/
theorem Carries.goes_on {l : Link} (h : l.Carries M M.length r) (hreceived : l.toClient = []) :
    (∃ i k buf len, l.kernel i k buf len ≠ none) ∨ l.dispatch M.length ≠ none := by
  obtain ⟨-, p, hserves, hcarries⟩ := h
  cases p with
  | reading f =>
      left
      refine ⟨0, 1, ⟨0, 0⟩, 0, ?_⟩
      have hup : l.toServer ≠ [] := hcarries.not_idle.resolve_right fun h => h hreceived
      have hlength : 1 ≤ l.toServer.length := List.length_pos_of_ne_nil hup
      simp [kernel, hserves.2.1, hlength]
  | writing d =>
      left
      refine ⟨0, 1, ⟨0, 0⟩, 0, ?_⟩
      have hrest : 1 ≤ M.length - d := by
        have hd := hcarries.writing_lt
        omega
      simp [kernel, hserves.2.2, hrest]
  | read f data =>
      obtain ⟨-, -, buf, len, hcompletions⟩ := hserves
      right
      simp [Link.dispatch, hcompletions, completion]
  | wrote d k =>
      obtain ⟨-, -, src, size, buf, len, hcompletions⟩ := hserves
      right
      simp [Link.dispatch, hcompletions, completion]

end Link

/-- A pair in lock step: responses equal their requests and the client has kept its message,
the server either reads or writes, every byte of the message is in one place, and the pair
stops only when the client is done. -/
structure Echoed (msgSize : ℕ) (M : List UInt8) (t : Transcript) (s : Pair) : Prop where
  completed : ∀ x ∈ t.completed, x.1 = M ∧ x.2 = x.1
  message : (s.client.clients 0).buf = M
  phases : ∀ l, s.link = some l → l.jobs .myRead + l.jobs .myWrite = 1
  account : ∀ l, s.link = some l →
    unsent s.client + l.toServer.length + l.buffered msgSize + l.toClient.length +
      received s.client = msgSize
  quiet : Quiet msgSize s → (s.client.clients 0).state = .done

theorem Holds.quiet (h : Holds M s c r) (hquiet : Quiet M.length s) :
    (s.client.clients 0).state = .done := by
  have hclient := hquiet.client
  cases h.exchange with
  | apart _ happart =>
      rcases happart.state with hstate | hstate
      · rw [hstate] at hclient
        simp at hclient
      · exact hstate
  | @joined l c r hl hat hcarries =>
      have hsent := hclient.resolve_right hat.connected.2
      obtain ⟨rfl, -⟩ := hat.sent_inv hsent
      rcases hcarries.goes_on (hquiet.received l hl) with ⟨i, k, buf, len, hkernel⟩ | hdispatch
      · exact (hkernel (hquiet.kernel l hl i k buf len)).elim
      · exact (hdispatch (hquiet.dispatch l hl)).elim

theorem echoed {s₀ s : Pair} {tr : List (EchoPair.Input × Output)} (hm : 1 ≤ o.msgSize)
    (hstart : (echoPair o).Init s₀) (hrun : (echoPair o).Run s₀ tr s) :
    Echoed o.msgSize (s₀.client.clients 0).buf (transcript tr) s := by
  obtain ⟨hsize, hholds⟩ := holds_start hstart
  generalize (s₀.client.clients 0).buf = M at hsize hholds
  obtain ⟨c, r, h, hrecords⟩ := run_holds (by omega) hsize hholds hrun
  rw [← hsize]
  refine ⟨?_, h.keeps.buf, ?_, ?_, h.quiet⟩
  · intro x hx
    rw [hrecords.completed x hx]
    exact ⟨rfl, rfl⟩
  · intro l hl
    cases h.exchange with
    | apart hnone =>
        rw [hl] at hnone
        cases hnone
    | joined hsome _ hcarries =>
        cases hl.symm.trans hsome
        obtain ⟨-, p, hserves, -⟩ := hcarries
        exact hserves.jobs
  · intro l hl
    cases h.exchange with
    | apart hnone =>
        rw [hl] at hnone
        cases hnone
    | joined hsome hat hcarries =>
        cases hl.symm.trans hsome
        obtain ⟨-, p, hserves, hloop⟩ := hcarries
        rw [hat.unsent h.keeps, hat.received, hserves.buffered]
        exact hloop.account

/-- Two transactions of two bytes. -/
def twoBytes : Options := ⟨2, 2, 2, two_lt_size, two_lt_size⟩

def onePair : Pair where
  client :=
    { index := 0
      clients := fun _ => ⟨0, [5, 6], 0, .init, 2, 2, 2⟩
      interest := fun _ => none
      opened := fun _ => false
      log := ⟨[], 100, false⟩
      dying := false
      complete := 0
      todo := List.finRange 1
      pc := .loop }
  link := none

/-- The second request is sent ahead of the completion of the last write. -/
def exchanges : List EchoPair.Input :=
  [.client .run, .connect (.inProgress 5 true) 9 1 [0, 0], .client (.wait [5]), .client .run,
    .client (.connected .ok), .client (.add true), .client (.send (some 1)),
    .kernel 0 1 ⟨7, 0⟩ 4096, .dispatch, .client (.send (some 1)), .kernel 0 1 ⟨7, 0⟩ 4096,
    .dispatch, .kernel 0 1 ⟨0, 0⟩ 0, .dispatch, .client (.wait [5]), .client .run,
    .client (.recv (.data [5])), .kernel 0 1 ⟨0, 0⟩ 0, .client (.recv .again),
    .client (.wait [5]), .client .run, .client (.recv (.data [6])), .client (.send (some 2)),
    .dispatch, .kernel 0 2 ⟨7, 0⟩ 4096, .dispatch, .kernel 0 2 ⟨0, 0⟩ 0, .client (.wait [5]),
    .client .run, .client (.recv (.data [5, 6]))]

theorem exchanges_runs : ((echoPair twoBytes).exec onePair exchanges).isSome := by decide

theorem echoed_exchanges :
    ∃ tr s, (echoPair twoBytes).Run onePair tr s ∧
      (transcript tr).completed = [([5, 6], [5, 6]), ([5, 6], [5, 6])] ∧
      (s.client.clients 0).state = .done ∧ Echoed 2 [5, 6] (transcript tr) s := by
  have hrun := Machine.run_of_exec (Option.some_get exchanges_runs).symm
  have hstart : (echoPair twoBytes).Init onePair :=
    ⟨⟨fun _ => ⟨[5, 6], rfl, rfl⟩, fun _ => rfl, ⟨rfl, rfl⟩, rfl, rfl, rfl, rfl⟩, rfl⟩
  exact ⟨_, _, hrun, by decide, by decide, echoed (by decide) hstart hrun⟩

end Upcalls.EchoPair
