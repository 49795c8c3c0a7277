import Upcalls.Model.ReqInfo
import Upcalls.Verification.IoUring.Depth

/-! # What a step does to requests, connections and message buffers

A step that is about a connection handles one of its completions, and queues its next request
or closes it, or it installs the connection. All other steps leave the connections alone.
-/

namespace Upcalls.IoUring

open Library TcpEcho

variable {n msgSize : ℕ}

namespace Req

/-- The request is on connection `fd`. -/
def on (fd : ℤ) : Req n → Bool
  | .sockRead g _ _ | .sockWrite g _ _ => g = fd
  | _ => false

/-- The most that a transfer moves. -/
def len : Req n → ℕ
  | .sockRead _ _ len | .sockWrite _ _ len => len
  | _ => 0

/-- The request is for the rest of the message of a connection. -/
def Rest (msgSize : ℕ) (conn : Connection) (r : Req n) : Prop :=
  r = .sockRead conn.fd ⟨conn.buffer, conn.cursor⟩ (msgSize - conn.cursor) ∨
    r = .sockWrite conn.fd ⟨conn.buffer, conn.cursor⟩ (msgSize - conn.cursor)

theorem on_eq_false {r : Req n} (h : ¬ r.Sock) (fd : ℤ) : r.on fd = false := by
  cases r with
  | sockRead g buf len => exact absurd trivial h
  | sockWrite g buf len => exact absurd trivial h
  | _ => rfl

theorem sock_of_on {r : Req n} {fd : ℤ} (h : r.on fd = true) : r.Sock := by
  by_contra hnone
  rw [on_eq_false hnone] at h
  cases h

theorem on_inj {r : Req n} {fd g : ℤ} (h : r.on fd = true) (hg : r.on g = true) : fd = g := by
  cases r with
  | sockRead f buf len => exact (of_decide_eq_true h).symm.trans (of_decide_eq_true hg)
  | sockWrite f buf len => exact (of_decide_eq_true h).symm.trans (of_decide_eq_true hg)
  | _ => cases h

theorem on_congr {r r' : Req n} {fd : ℤ} (h : r.on fd = true) (h' : r'.on fd = true) (g : ℤ) :
    r.on g = r'.on g := by
  rw [Bool.eq_iff_iff]
  constructor
  · intro hg
    rw [← on_inj h hg]
    exact h'
  · intro hg
    rw [← on_inj h' hg]
    exact h

theorem Rest.on {r : Req n} {conn : Connection} (h : r.Rest msgSize conn) :
    r.on conn.fd = true := by
  rcases h with rfl | rfl
  · exact decide_eq_true rfl
  · exact decide_eq_true rfl

theorem Rest.len {r : Req n} {conn : Connection} (h : r.Rest msgSize conn) :
    r.len = msgSize - conn.cursor := by
  rcases h with rfl | rfl <;> rfl

end Req

/-- What is queued, submitted, or completed and not handled. -/
def Worker.requests (me : Worker n) : List (Req n) :=
  me.sq ++ me.kernel ++ me.cq.map fun c => c.info

/-- The accept that is to be queued before the handling of an `ACCEPT` completion ends. -/
def Pc.accepting : Pc n → ℕ
  | .adopt _ | .push _ _ | .notify _ => 1
  | _ => 0

theorem Pc.Between.accepting {pc : Pc n} (h : pc.Between) : pc.accepting = 0 := by
  rcases h with rfl | rfl <;> rfl

namespace Worker

theorem requests_answer {me : Worker n} {i : ℕ} {info : Req n}
    (h : me.kernel[i]? = some info) (res : ℤ) :
    (Server.answer me i info res).requests.Perm me.requests := by
  rw [List.perm_iff_count]
  intro r
  have hcount := countP_eraseIdx (· == r) h
  simp only [requests, Server.answer, List.count_append, List.map_append, List.map_cons,
    List.map_nil, List.count_singleton]
  simp only [List.count_eq_countP]
  omega

theorem requests_pop {me : Worker n} {c : Cqe n} {cq : List (Cqe n)} (h : me.cq = c :: cq) :
    (c.info :: (me.sq ++ me.kernel ++ cq.map fun c => c.info)).Perm me.requests := by
  rw [requests, h, List.map_cons]
  exact List.perm_middle.symm

theorem requests_queue (sq kernel cq new : List (Req n)) :
    (sq ++ new ++ kernel ++ cq).Perm (sq ++ kernel ++ cq ++ new) := by
  rw [List.perm_iff_count]
  intro r
  simp only [List.count_append]
  omega

end Worker

/-! ## The worker that takes the step -/

/-- Worker `w` handles the completions of `gone` and queues `new`. -/
structure Exchange (w : Fin n) (gone new : List (Req n)) (s s' : Server n) : Prop where
  others : ∀ v, v ≠ w → (s.worker v).Still (s'.worker v)
  requests : (gone ++ (s'.worker w).requests).Perm ((s.worker w).requests ++ new)
  accepting : (s'.worker w).pc.accepting + new.count .accept =
    (s.worker w).pc.accepting + gone.count .accept
  answered : ∀ c ∈ (s'.worker w).cq, c ∈ (s.worker w).cq ∨ (c.info.Sock → c.res ≤ c.info.len)

namespace Exchange

open Team

variable {s : Server n} {w : Fin n} {me : Worker n} {gone new : List (Req n)}

theorem set (hrequests : (gone ++ me.requests).Perm ((s.worker w).requests ++ new))
    (haccepting : me.pc.accepting + new.count .accept =
      (s.worker w).pc.accepting + gone.count .accept)
    (hanswered : ∀ c ∈ me.cq, c ∈ (s.worker w).cq ∨ (c.info.Sock → c.res ≤ c.info.len))
    (t : Table) : Exchange w gone new s ((s.set w me).share t) := by
  refine ⟨?_, ?_, ?_, ?_⟩
  · intro v hv
    rw [share_worker, set_worker_ne s me hv]
    exact .refl _
  · rw [share_worker, set_worker_self]
    exact hrequests
  · rw [share_worker, set_worker_self]
    exact haccepting
  · rw [share_worker, set_worker_self]
    exact hanswered

/-- What is delivered to another worker is no request. -/
theorem deliver {s' : Server n} (h : Exchange w gone new s s') (owner : Fin n) (items : List ℤ)
    (k : ℕ) : Exchange w gone new s (s'.modify owner (Server.deliver items k)) := by
  have hstill : ∀ v,
      (s'.worker v).Still ((s'.modify owner (Server.deliver items k)).worker v) := by
    intro v
    rw [Team.modify, set_worker]
    split
    · rename_i hv
      subst hv
      exact ⟨rfl, rfl, rfl, rfl⟩
    · exact .refl _
  have hw := hstill w
  refine ⟨?_, ?_, ?_, ?_⟩
  · intro v hv
    have hold := h.others v hv
    have hnew := hstill v
    exact ⟨hnew.sq.trans hold.sq, hnew.kernel.trans hold.kernel, hnew.cq.trans hold.cq,
      hnew.pc.trans hold.pc⟩
  · rw [Worker.requests, hw.sq, hw.kernel, hw.cq]
    exact h.requests
  · rw [hw.pc]
    exact h.accepting
  · rw [hw.cq]
    exact h.answered

/-- The kernel answers a request. -/
theorem answer {i : ℕ} {info : Req n} {res : ℤ} (h : (s.worker w).kernel[i]? = some info)
    (hres : info.Sock → res ≤ info.len) (counter : ℕ) (t : Table) :
    Exchange w [] [] s ((s.set w { Server.answer (s.worker w) i info res with
      counter := counter }).share t) := by
  refine .set ?_ (by rfl) ?_ t
  · rw [List.nil_append, List.append_nil]
    exact Worker.requests_answer h res
  · intro c hc
    rcases List.mem_append.mp hc with hold | hnew
    · exact .inl hold
    · cases List.mem_singleton.mp hnew
      exact .inr hres

/-- The worker goes on without a completion. -/
theorem move (hrequests : me.requests.Perm (s.worker w).requests) (hcq : me.cq = (s.worker w).cq)
    (haccepting : me.pc.accepting = (s.worker w).pc.accepting) :
    Exchange w [] [] s (s.set w me) := by
  refine .set (t := s.shared) ?_ ?_ ?_
  · rw [List.nil_append, List.append_nil]
    exact hrequests
  · exact congrArg (· + 0) haccepting
  · intro c hc
    exact .inl (hcq ▸ hc)

/-- The worker queues requests. -/
theorem queue (hsq : me.sq = (s.worker w).sq ++ new) (hkernel : me.kernel = (s.worker w).kernel)
    (hcq : me.cq = (s.worker w).cq)
    (haccepting : me.pc.accepting + new.count .accept = (s.worker w).pc.accepting) (t : Table) :
    Exchange w [] new s ((s.set w me).share t) := by
  refine .set ?_ ?_ ?_ t
  · rw [List.nil_append, Worker.requests, hsq, hkernel, hcq]
    exact Worker.requests_queue _ _ _ new
  · exact haccepting
  · intro c hc
    exact .inl (hcq ▸ hc)

end Exchange

def Attempt.worker : Attempt n → Fin n
  | .act a => a.worker
  | .fail w _ _ => w

/-! ## Connections and buffers -/

namespace Output

/-- The worker that owns `fd` afterwards, if that was `before`. -/
def owner (fd : ℤ) (before : Option (Fin n)) : Output n → Option (Fin n)
  | .installed g w => if g = fd then some w else before
  | _ => before

end Output

/-- What worker `w` does to the connections and their buffers when it handles `gone` and queues
`new`. -/
inductive Deed (msgSize : ℕ) (w : Fin n) (gone new : List (Req n)) (s s' : Server n) :
    Output n → Prop
  | plain {o} : (∀ r ∈ gone ++ new, ¬ r.Sock) → s'.shared.conns = s.shared.conns →
      s'.shared.conn = s.shared.conn → s'.shared.next = s.shared.next →
      s'.msgFree = s.msgFree → (∀ fd before, o.owner fd before = before) →
      Deed msgSize w gone new s s' o
  | rearmed {info fd p c r} {res : ℤ} : gone = [info] → new = [r] → ⟨info, res⟩ ∈ (s.worker w).cq →
      info.on fd = true → s.shared.conns fd = some p → c.fd = (s.shared.conn p).fd →
      c.buffer = (s.shared.conn p).buffer → r.Rest msgSize c →
      (((s.shared.conn p).cursor : ℤ) + res ≤ msgSize → c.cursor ≤ msgSize) →
      s'.shared = s.shared.setConn p c → s'.msgFree = s.msgFree →
      Deed msgSize w gone new s s' .silent
  | closed {info fd p} : gone = [info] → new = [] → info.on fd = true →
      s.shared.conns fd = some p → s'.shared = s.shared.close (s.shared.conn p).fd →
      (∀ b, s'.msgFree b = s.msgFree b + if b = (s.shared.conn p).buffer then 1 else 0) →
      Deed msgSize w gone new s s' .silent
  | installed {fd p after mid} {buf : Alloc} : gone = [] →
      new = [.sockRead fd ⟨buf.entry, 0⟩ msgSize, after] → ¬ after.Sock →
      (s.worker w).pc.holds fd = 1 → s.shared.next ≤ mid →
      buf = cacheAlloc (s.worker w).msgCache mid →
      s'.shared = s.shared.install fd p { newConn fd with buffer := buf.entry } buf.next →
      (∀ b, s'.msgFree b + (s.worker w).msgCache.count b = s.msgFree b + buf.cache.count b) →
      Deed msgSize w gone new s s' (.installed fd w)

/-! ### The request that follows a transfer -/

/-- What comes next is the rest of the message. -/
structure Follows (msgSize : ℕ) (conn : Connection) (ret : ℤ) (after : Connection × Next) :
    Prop where
  fd : after.1.fd = conn.fd
  buffer : after.1.buffer = conn.buffer
  read : ∀ {off len}, after.2 = .read off len →
    off = after.1.cursor ∧ len = msgSize - after.1.cursor
  write : ∀ {off len}, after.2 = .write off len →
    off = after.1.cursor ∧ len = msgSize - after.1.cursor
  cursor : after.2 ≠ .close → conn.cursor + ret ≤ msgSize → after.1.cursor ≤ msgSize

theorem sockRead_follows (conn : Connection) (ret : ℤ) :
    Follows msgSize conn ret (sockRead msgSize conn ret) := by
  rw [sockRead]
  split
  · exact ⟨rfl, rfl, by simp, by simp, fun h => absurd rfl h⟩
  · split
    · refine ⟨rfl, rfl, by simp, ?_, fun _ _ => Nat.zero_le _⟩
      intro off len h
      obtain ⟨rfl, rfl⟩ := Next.write.inj h
      exact ⟨rfl, rfl⟩
    · refine ⟨rfl, rfl, ?_, by simp, ?_⟩
      · intro off len h
        obtain ⟨rfl, rfl⟩ := Next.read.inj h
        exact ⟨rfl, rfl⟩
      · intro _ h
        change conn.cursor + ret.toNat ≤ msgSize
        omega

theorem sockWrite_follows (conn : Connection) (ret : ℤ) :
    Follows msgSize conn ret (sockWrite msgSize conn ret) := by
  rw [sockWrite]
  split
  · exact ⟨rfl, rfl, by simp, by simp, fun h => absurd rfl h⟩
  · split
    · refine ⟨rfl, rfl, ?_, by simp, fun _ _ => Nat.zero_le _⟩
      intro off len h
      obtain ⟨rfl, rfl⟩ := Next.read.inj h
      exact ⟨rfl, rfl⟩
    · refine ⟨rfl, rfl, by simp, ?_, ?_⟩
      · intro off len h
        obtain ⟨rfl, rfl⟩ := Next.write.inj h
        exact ⟨rfl, rfl⟩
      · intro _ h
        change conn.cursor + ret.toNat ≤ msgSize
        omega

/-! ## Steps -/

namespace Server

open Team

variable {s s' : Server n} {w : Fin n} {o : Output n}

theorem msgFree_set (s : Server n) (w : Fin n) (me : Worker n) (t : Table) (b : ℕ) :
    Server.msgFree ((s.set w me).share t) b + (s.worker w).msgCache.count b =
      s.msgFree b + me.msgCache.count b :=
  tally_set (fun me => me.msgCache.count b) s w me

theorem msgFree_same {me : Worker n} (h : me.msgCache = (s.worker w).msgCache) (t : Table) :
    Server.msgFree ((s.set w me).share t) = s.msgFree := by
  funext b
  have hset := msgFree_set s w me t b
  rw [h] at hset
  omega

theorem msgFree_deliver (s : Server n) (owner : Fin n) (items : List ℤ) (k : ℕ) :
    Server.msgFree (s.modify owner (deliver items k)) = s.msgFree := by
  funext b
  exact tally_modify_eq (g := fun me => me.msgCache.count b) (f := deliver items k)
    (fun me => rfl) s owner

/-- A step of `w` with the completions and requests that are about it. -/
def Turn (msgSize : ℕ) (w : Fin n) (s s' : Server n) (o : Output n) : Prop :=
  ∃ gone new, Exchange w gone new s s' ∧ Deed msgSize w gone new s s' o

theorem complete_turn {i : ℕ} {res : ℤ} (h : s.complete w i res = some (s', o)) :
    Turn msgSize w s s' o := by
  rw [complete] at h
  obtain ⟨info, hinfo, h⟩ := Option.bind_eq_some_iff.mp h
  cases info with
  | accept =>
      obtain ⟨table, htable, h⟩ := Option.bind_eq_some_iff.mp h
      rw [Table.accept] at htable
      split at htable
      · cases Option.some.inj htable
        cases Option.some.inj h
        exact ⟨[], [], .answer hinfo (fun h => h.elim) _ _,
          .plain (List.forall_mem_nil _) rfl rfl rfl (msgFree_same (by rfl) _) fun _ _ => rfl⟩
      · cases htable
  | evRead =>
      simp only at h
      split at h
      · cases Option.some.inj h
        exact ⟨[], [], .answer hinfo (fun h => h.elim) 0 s.shared,
          .plain (List.forall_mem_nil _) rfl rfl rfl (msgFree_same (by rfl) s.shared) fun _ _ => rfl⟩
      · cases h
  | evWrite owner =>
      simp only at h
      split at h
      · cases Option.some.inj h
        refine ⟨[], [], (Exchange.answer hinfo (fun h => h.elim) _ s.shared).deliver owner [] 1,
          .plain (List.forall_mem_nil _) rfl rfl rfl ?_ fun _ _ => rfl⟩
        exact (msgFree_deliver _ owner [] 1).trans (msgFree_same (by rfl) s.shared)
      · cases h
  | sockRead fd buf len =>
      simp only at h
      split at h
      · rename_i hle
        cases Option.some.inj h
        exact ⟨[], [], .answer hinfo (fun _ => hle) _ s.shared,
          .plain (List.forall_mem_nil _) rfl rfl rfl (msgFree_same (by rfl) s.shared) fun _ _ => rfl⟩
      · cases h
  | sockWrite fd buf len =>
      simp only at h
      split at h
      · rename_i hle
        cases Option.some.inj h
        exact ⟨[], [], .answer hinfo (fun _ => hle) _ s.shared,
          .plain (List.forall_mem_nil _) rfl rfl rfl (msgFree_same (by rfl) s.shared) fun _ _ => rfl⟩
      · cases h

theorem fail_turn {i : ℕ} {res : ℤ} (h : s.fail w i res = some (s', o)) :
    Turn msgSize w s s' o := by
  rw [fail] at h
  obtain ⟨info, hinfo, h⟩ := Option.bind_eq_some_iff.mp h
  split at h
  · rename_i hneg
    cases Option.some.inj h
    refine ⟨[], [], .answer hinfo (fun _ => ?_) _ s.shared,
      .plain (List.forall_mem_nil _) rfl rfl rfl (msgFree_same (by rfl) s.shared) fun _ _ => rfl⟩
    omega
  · cases h

/-- The worker handles a completion that is not about a connection. -/
theorem handled_turn {c : Cqe n} {cq : List (Cqe n)} {me : Worker n}
    (hcq : (s.worker w).cq = c :: cq) (hsq : me.sq = (s.worker w).sq)
    (hkernel : me.kernel = (s.worker w).kernel) (hcq' : me.cq = cq) (hinfo : ¬ c.info.Sock)
    (haccepting : me.pc.accepting = (s.worker w).pc.accepting + [c.info].count .accept)
    (hcache : me.msgCache = (s.worker w).msgCache)
    (howner : ∀ fd before, o.owner fd before = before) : Turn msgSize w s (s.set w me) o := by
  refine ⟨[c.info], [], .set ?_ ?_ ?_ s.shared,
    .plain ?_ rfl rfl rfl (msgFree_same hcache s.shared) howner⟩
  · rw [List.append_nil, Worker.requests, hsq, hkernel, hcq']
    exact Worker.requests_pop hcq
  · exact haccepting
  · intro d hd
    rw [hcq'] at hd
    rw [hcq]
    exact .inl (List.mem_cons_of_mem c hd)
  · intro r hr
    cases List.mem_singleton.mp hr
    exact hinfo

theorem accept_turn {cpu : Fin n} (h : s.accept w cpu = some (s', o)) :
    Turn msgSize w s s' o := by
  cases accept_spec h with
  | assigned hpc hcq hnext =>
      refine handled_turn hcq (by rfl) (by rfl) (by rfl) (fun h => h.elim) ?_ (by rfl)
        fun _ _ => rfl
      rw [hpc]
      rcases hnext with ⟨-, rfl⟩ | ⟨-, rfl⟩
      · rfl
      · rfl

/-- The worker goes on to something else, and leaves the connections alone. -/
theorem moved_turn {me : Worker n} (hrequests : me.requests.Perm (s.worker w).requests)
    (hcq : me.cq = (s.worker w).cq) (haccepting : me.pc.accepting = (s.worker w).pc.accepting)
    (hcache : me.msgCache = (s.worker w).msgCache) : Turn msgSize w s (s.set w me) .silent :=
  ⟨[], [], .move hrequests hcq haccepting,
    .plain (List.forall_mem_nil _) rfl rfl rfl (msgFree_same hcache s.shared) fun _ _ => rfl⟩

theorem resume_turn {p : ℕ} {c : Cqe n} {cq : List (Cqe n)} {count : ℕ}
    {after : Connection × Next} {fd : ℤ} (hcq : (s.worker w).cq = c :: cq)
    (hfd : c.info.on fd = true) (hp : s.shared.conns fd = some p)
    (hfollows : Follows msgSize (s.shared.conn p) c.res after)
    (h : s.resume w p cq count after = some s') : Turn msgSize w s s' .silent := by
  have hsock := Req.sock_of_on hfd
  have hnone : [c.info].count .accept = 0 := by
    rw [List.count_singleton, if_neg]
    intro heq
    rw [eq_of_beq heq] at hsock
    exact hsock
  have hmem : ⟨c.info, c.res⟩ ∈ (s.worker w).cq := by
    rw [hcq]
    exact List.mem_cons_self
  have hkept : ∀ d ∈ cq, d ∈ (s.worker w).cq := by
    intro d hd
    rw [hcq]
    exact List.mem_cons_of_mem c hd
  have hqueue : ∀ r : Req n, ([c.info] ++ ((s.worker w).sq ++ [r] ++ (s.worker w).kernel ++
      cq.map fun c => c.info)).Perm ((s.worker w).requests ++ [r]) := by
    intro r
    have hpop := (Worker.requests_pop hcq).append_right [r]
    refine (List.Perm.append_left [c.info] (Worker.requests_queue _ _ _ [r])).trans ?_
    exact hpop
  simp only [resume] at h
  split at h
  · cases Option.some.inj h
    rw [hfollows.fd, hfollows.buffer]
    refine ⟨[c.info], [], .set ?_ ?_ (fun d hd => .inl (hkept d hd)) _,
      .closed rfl rfl hfd hp rfl ?_⟩
    · rw [List.append_nil]
      exact Worker.requests_pop hcq
    · exact congrArg ((s.worker w).pc.accepting + ·) hnone.symm
    · intro b
      have hset := msgFree_set s w { s.worker w with
        cq := cq
        connCount := (s.worker w).connCount + 1
        msgCache := cacheFree (s.worker w).msgCache (s.shared.conn p).buffer
        connCache := cacheFree (s.worker w).connCache p }
        (s.shared.close (s.shared.conn p).fd) b
      simp only [cacheFree, List.count_append, List.count_singleton, beq_iff_eq,
        eq_comm (b := b)] at hset ⊢
      omega
  · rename_i off len hread
    obtain ⟨me, hme, h⟩ := Option.bind_eq_some_iff.mp h
    cases Worker.addRequests_spec hme
    cases Option.some.inj h
    obtain ⟨rfl, rfl⟩ := hfollows.read hread
    refine ⟨[c.info], [_], .set (hqueue _) ?_ (fun d hd => .inl (hkept d hd)) _,
      .rearmed rfl rfl hmem hfd hp hfollows.fd hfollows.buffer (.inl rfl)
        (hfollows.cursor (by rw [hread]; simp)) rfl (msgFree_same (by rfl) _)⟩
    exact congrArg ((s.worker w).pc.accepting + ·) hnone.symm
  · rename_i off len hwrite
    obtain ⟨me, hme, h⟩ := Option.bind_eq_some_iff.mp h
    cases Worker.addRequests_spec hme
    cases Option.some.inj h
    obtain ⟨rfl, rfl⟩ := hfollows.write hwrite
    refine ⟨[c.info], [_], .set (hqueue _) ?_ (fun d hd => .inl (hkept d hd)) _,
      .rearmed rfl rfl hmem hfd hp hfollows.fd hfollows.buffer (.inr rfl)
        (hfollows.cursor (by rw [hwrite]; simp)) rfl (msgFree_same (by rfl) _)⟩
    exact congrArg ((s.worker w).pc.accepting + ·) hnone.symm

theorem loop_turn (hpc : (s.worker w).pc = .loop) (h : s.loop msgSize w = some s') :
    Turn msgSize w s s' .silent := by
  simp only [loop] at h
  split at h
  · rename_i hcq
    cases Option.some.inj h
    refine moved_turn ?_ rfl ?_ rfl
    · rw [Worker.requests, Worker.requests, List.nil_append]
      exact List.Perm.append_right _ List.perm_append_comm
    · rw [hpc]
      rfl
  · cases h
  · rename_i fd buf len res cq hcq
    obtain ⟨p, hp, h⟩ := Option.bind_eq_some_iff.mp h
    exact resume_turn hcq (decide_eq_true rfl) hp (sockRead_follows _ _) h
  · rename_i res cq hcq
    cases Option.some.inj h
    refine handled_turn hcq rfl rfl rfl (fun h => h.elim) ?_ rfl fun _ _ => rfl
    rw [hpc]
    rfl
  · rename_i fd buf len res cq hcq
    obtain ⟨p, hp, h⟩ := Option.bind_eq_some_iff.mp h
    exact resume_turn hcq (decide_eq_true rfl) hp (sockWrite_follows _ _) h
  · rename_i owner res cq hcq
    cases Option.some.inj h
    exact handled_turn hcq rfl rfl rfl (fun h => h.elim) rfl rfl fun _ _ => rfl

theorem install_turn {fd : ℤ} {after : Req n} {pc : Pc n} (hholds : (s.worker w).pc.holds fd = 1)
    (hafter : ¬ after.Sock)
    (haccepting : pc.accepting + [after].count .accept = (s.worker w).pc.accepting)
    (h : s.install msgSize w fd after pc = some s') :
    Turn msgSize w s s' (.installed fd w) := by
  rw [install] at h
  obtain ⟨me, hme, h⟩ := Option.bind_eq_some_iff.mp h
  cases Worker.addRequests_spec hme
  cases Option.some.inj h
  refine ⟨[], _, .queue (by rfl) (by rfl) (by rfl) ?_ _,
    .installed rfl rfl hafter hholds (cacheAlloc_next_le _ _) rfl rfl (msgFree_set s w _ _)⟩
  rw [List.count_cons, if_neg (by simp)]
  exact haccepting

theorem run_turn (h : s.run msgSize w = some (s', o)) : Turn msgSize w s s' o := by
  rw [run] at h
  split at h
  · rename_i hpc
    split at h
    · cases h
    · cases Option.some.inj h
      refine moved_turn (.refl _) rfl ?_ rfl
      rw [hpc]
      rfl
  · rename_i hpc
    obtain ⟨t, ht, hpair⟩ := Option.map_eq_some_iff.mp h
    cases hpair
    exact loop_turn hpc ht
  · rename_i fd hpc
    obtain ⟨t, ht, hpair⟩ := Option.map_eq_some_iff.mp h
    cases hpair
    refine install_turn ?_ (by exact fun h => h) ?_ ht
    · rw [hpc]
      exact if_pos rfl
    · rw [hpc]
      rfl
  · rename_i fd owner hpc
    cases Option.some.inj h
    have hmove : Exchange w [] [] s (s.set w { s.worker w with pc := .notify owner }) :=
      .move (.refl _) rfl (by rw [hpc]; rfl)
    refine ⟨[], [], hmove.deliver owner [fd] 0, .plain (List.forall_mem_nil _) rfl rfl rfl ?_ fun _ _ => rfl⟩
    exact (msgFree_deliver _ owner [fd] 0).trans (msgFree_same (by rfl) s.shared)
  · rename_i owner hpc
    obtain ⟨t, ht, hpair⟩ := Option.map_eq_some_iff.mp h
    cases hpair
    rw [notify] at ht
    obtain ⟨me, hme, ht⟩ := Option.bind_eq_some_iff.mp ht
    cases Worker.addRequests_spec hme
    cases Option.some.inj ht
    refine ⟨[], [.evWrite owner, .accept], .queue (by rfl) (by rfl) (by rfl) ?_ s.shared,
      .plain ?_ rfl rfl rfl (msgFree_same (by rfl) s.shared) fun _ _ => rfl⟩
    · rw [hpc]
      rfl
    · intro r hr
      rcases List.mem_pair.mp hr with rfl | rfl
      · exact fun h => h
      · exact fun h => h
  · rename_i hpc
    cases Option.some.inj h
    simp only [drain]
    split
    · refine moved_turn (.refl _) rfl ?_ rfl
      rw [hpc]
      rfl
    · refine moved_turn (.refl _) rfl ?_ rfl
      rw [hpc]
      rfl
  · rename_i fd hpc
    obtain ⟨t, ht, hpair⟩ := Option.map_eq_some_iff.mp h
    cases hpair
    refine install_turn ?_ (by exact fun h => h) ?_ ht
    · rw [hpc]
      exact if_pos rfl
    · rw [hpc]
      rfl

theorem attempt_turn {a : Attempt n} (h : s.attempt msgSize a = some (s', o)) :
    Turn msgSize a.worker s s' o := by
  cases a with
  | act a =>
      cases a with
      | complete w i res => exact complete_turn h
      | accept w cpu => exact accept_turn h
      | run w => exact run_turn h
  | fail w i res => exact fail_turn h

end Server

end Upcalls.IoUring
