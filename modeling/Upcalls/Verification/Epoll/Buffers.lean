import Upcalls.Verification.Epoll.Links

/-! # Message buffers of connections

`on_read` takes a message buffer when a connection has none, and `on_close` frees what the
connection has. That is a buffer as long as no connection is closed for an error or hang-up
before `on_read` was called for it.
-/

namespace Upcalls.Epoll

open Library TcpEcho

variable {n msgSize : ℕ}

/-! ## Calls of the message cache -/

/-- `newConn` is the call of `new_conn` that gives block `p` to a connection. The others are
the calls of `cache_alloc` and `cache_free` for `msg_cache`, for the connection at `p`. -/
inductive BufferCall
  | newConn (p : ℕ)
  | alloc (p b : ℕ)
  | free (p b : ℕ)
  deriving DecidableEq, Repr

namespace Server

/-- The calls that a step makes. -/
def bufferCalls (s : Server n) : Input n → List BufferCall
  | .run w =>
      let me := s.worker w
      match me.pc with
      | .install fd =>
          if fd ∈ me.interest then [] else [.newConn (cacheAlloc me.connCache s.shared.next).entry]
      | .onRead (some p) =>
          if (s.shared.conn p).fd < 0 then []
          else if (s.shared.conn p).buffer = 0 then
            [.alloc p (cacheAlloc me.msgCache s.shared.next).entry]
          else []
      | .onClose (some p) _ =>
          if (s.shared.conn p).fd ∈ me.interest then [.free p (s.shared.conn p).buffer] else []
      | _ => []
  | _ => []

/-- How often block `b` is in a message cache. -/
def msgFree (s : Server n) (b : ℕ) : ℕ := s.tally fun me => me.msgCache.count b

/-- `init_cache` fills the message caches with blocks of their own. -/
structure Stocked (s : Server n) : Prop where
  cached : ∀ b, s.msgFree b ≤ 1
  fresh : ∀ b, s.shared.next ≤ b → s.msgFree b = 0
  null : s.msgFree 0 = 0

/-- An error or hang-up of a connection finds that `on_read` was called for it. -/
def heard (s : Server n) : Input n → Bool
  | .run w =>
      match (s.worker w).pc, (s.worker w).events with
      | .loop, e :: _ => !(e.epollErr || e.epollHup) || e.fd = (s.worker w).listenSock ||
          e.fd = (s.worker w).eventFd ||
          (s.shared.conns e.fd).all fun p => 0 < (s.shared.conn p).eventCount
      | _, _ => true
  | _ => true

end Server

/-- `cache_alloc` has returned `b` for the connection at `p`, and it was not freed since. -/
def AllocatedFor (log : List BufferCall) (p b : ℕ) : Prop :=
  ∃ before after, log = before ++ .alloc p b :: after ∧ .newConn p ∉ after ∧
    ∀ q, .free q b ∉ after

/-- What `on_close` is about to free was allocated for its connection, and the message caches
have no block twice. -/
structure Server.Matched (s : Server n) (log : List BufferCall) : Prop where
  freed : ∀ w p rest, (s.worker w).pc = .onClose (some p) rest →
    (s.shared.conn p).fd ∈ (s.worker w).interest → AllocatedFor log p (s.shared.conn p).buffer
  listed : ∀ b, s.msgFree b ≤ 1
  null : s.msgFree 0 = 0

/-- The server from its setup on, with the calls of the message cache. -/
def recordedServer (n msgSize : ℕ) :
    Machine (Server n × List BufferCall) (Input n) (Output n) where
  Init s := s.1.Start ∧ s.1.Stocked ∧ s.2 = []
  step := ((echoServer n msgSize).record Server.bufferCalls).step

namespace AllocatedFor

variable {log : List BufferCall} {p b : ℕ}

theorem snoc (h : AllocatedFor log p b) {c : BufferCall} (hnew : c ≠ .newConn p)
    (hfree : ∀ q, c ≠ .free q b) : AllocatedFor (log ++ [c]) p b := by
  obtain ⟨before, after, rfl, hnone, hkept⟩ := h
  refine ⟨before, after ++ [c], ?_, ?_, ?_⟩
  · rw [List.append_assoc, List.cons_append]
  · intro hmem
    rcases List.mem_append.mp hmem with hmem | hmem
    · exact hnone hmem
    · exact hnew (List.mem_singleton.mp hmem).symm
  · intro q hmem
    rcases List.mem_append.mp hmem with hmem | hmem
    · exact hkept q hmem
    · exact hfree q (List.mem_singleton.mp hmem).symm

theorem alloc (log : List BufferCall) (p b : ℕ) : AllocatedFor (log ++ [.alloc p b]) p b :=
  ⟨log, [], rfl, List.not_mem_nil, fun _ => List.not_mem_nil⟩

end AllocatedFor

/-! ## The invariant -/

/-- The worker is at work on the buffer of connection `p`. -/
def Pc.uses (p : ℕ) : Pc n → Prop
  | .read q _ | .write q _ => q = p
  | .onClose conn _ => conn = some p
  | _ => False

theorem Next.uses (next : Next) (p : ℕ) : ∀ q, (next.pc p : Pc n).uses q → q = p := by
  intro q hq
  cases next with
  | read cursor => exact Eq.symm hq
  | write cursor => exact Eq.symm hq
  | close => exact (Option.some.inj hq).symm
  | done => exact hq.elim

/-- `p` is the record of an open connection. -/
def Live (t : Table) (p : ℕ) : Prop := t.conns (t.conn p).fd = some p

/-- The open connection at `p` has buffer `b`. -/
def Owns (t : Table) (p b : ℕ) : Prop := Live t p ∧ (t.conn p).buffer = b ∧ b ≠ 0

namespace Server

open Team

structure Buffers (s : Server n) (log : List BufferCall) : Prop where
  separated : Separated s.msgFree (Owns s.shared) s.shared.next
  null : s.msgFree 0 = 0
  next : 0 < s.shared.next
  counted : ∀ p, Live s.shared p →
    (0 < (s.shared.conn p).eventCount ↔ (s.shared.conn p).buffer ≠ 0)
  allocated : ∀ p, Live s.shared p → (s.shared.conn p).buffer ≠ 0 →
    AllocatedFor log p (s.shared.conn p).buffer
  filled : ∀ w p, (s.worker w).pc.uses p → (s.shared.conn p).fd ∈ (s.worker w).interest →
    (s.shared.conn p).buffer ≠ 0
  logged : ∀ p b, .alloc p b ∈ log → b ≠ 0

theorem msgFree_set (s : Server n) (w : Fin n) (me : Worker n) (t : Table) (b : ℕ) :
    Server.msgFree ((s.set w me).share t) b + (s.worker w).msgCache.count b =
      s.msgFree b + me.msgCache.count b :=
  tally_set (fun me => me.msgCache.count b) s w me

theorem msgFree_same {s : Server n} {w : Fin n} {me : Worker n}
    (h : me.msgCache = (s.worker w).msgCache) (t : Table) :
    Server.msgFree ((s.set w me).share t) = s.msgFree := by
  funext b
  have hset := msgFree_set s w me t b
  rw [h] at hset
  omega

/-- A step that leaves every connection its buffer. -/
theorem Buffers.kept {s : Server n} {log : List BufferCall} (hs : s.Buffers log) {w : Fin n}
    {me : Worker n} {t : Table} (hcache : me.msgCache = (s.worker w).msgCache)
    (hinterest : me.interest = (s.worker w).interest) (hconns : t.conns = s.shared.conns)
    (hfd : ∀ p, (t.conn p).fd = (s.shared.conn p).fd)
    (hbuffer : ∀ p, (t.conn p).buffer = (s.shared.conn p).buffer)
    (hcounted : ∀ p, Live s.shared p → (0 < (t.conn p).eventCount ↔ (t.conn p).buffer ≠ 0))
    (hnext : t.next = s.shared.next)
    (huses : ∀ p, me.pc.uses p → (s.shared.conn p).fd ∈ (s.worker w).interest →
      (s.shared.conn p).buffer ≠ 0) : Buffers ((s.set w me).share t) log := by
  have hlive : Live t = Live s.shared := by
    funext p
    rw [Live, Live, hconns, hfd]
  have howns : Owns t = Owns s.shared := by
    funext p b
    rw [Owns, Owns, hlive, hbuffer]
  refine ⟨?_, ?_, ?_, ?_, ?_, ?_, hs.logged⟩
  · rw [msgFree_same hcache, share_shared, howns, hnext]
    exact hs.separated
  · rw [msgFree_same hcache]
    exact hs.null
  · rw [share_shared, hnext]
    exact hs.next
  · rw [share_shared, hlive]
    exact hcounted
  · intro p hp hne
    rw [share_shared, hlive] at hp
    rw [share_shared, hbuffer] at hne ⊢
    exact hs.allocated p hp hne
  · intro v p hp hmem
    rw [share_shared, hfd] at hmem
    rw [share_shared, hbuffer]
    rw [share_worker, set_worker] at hp hmem
    split at hp
    · rename_i hv
      rw [if_pos hv, hinterest] at hmem
      exact huses p hp hmem
    · rename_i hv
      rw [if_neg hv] at hmem
      exact hs.filled v p hp hmem

/-- A step that leaves the records and the message caches alone. -/
theorem Buffers.quiet {s : Server n} {log : List BufferCall} (hs : s.Buffers log) {w : Fin n}
    {me : Worker n} {t : Table} (hcache : me.msgCache = (s.worker w).msgCache)
    (hinterest : me.interest = (s.worker w).interest) (hconns : t.conns = s.shared.conns)
    (hconn : t.conn = s.shared.conn) (hnext : t.next = s.shared.next)
    (huses : ∀ p, me.pc.uses p → (s.shared.conn p).fd ∈ (s.worker w).interest →
      (s.shared.conn p).buffer ≠ 0) : Buffers ((s.set w me).share t) log := by
  apply hs.kept hcache hinterest hconns
  · intro p
    rw [hconn]
  · intro p
    rw [hconn]
  · rw [hconn]
    exact hs.counted
  · exact hnext
  · exact huses

theorem Buffers.moved {s : Server n} {log : List BufferCall} (hs : s.Buffers log) {w : Fin n}
    {me : Worker n} (hcache : me.msgCache = (s.worker w).msgCache)
    (hinterest : me.interest = (s.worker w).interest) (huses : ∀ p, ¬ me.pc.uses p) :
    Buffers (s.set w me) log :=
  hs.quiet (t := s.shared) hcache hinterest rfl rfl rfl fun p hp => absurd hp (huses p)

theorem setConn_apply (t : Table) (p : ℕ) (c : Connection) (q : ℕ) :
    (t.setConn p c).conn q = if q = p then c else t.conn q := Function.update_apply ..

/-- The record at `p` changes, but for its descriptor and its buffer. -/
theorem Buffers.answered {s : Server n} {log : List BufferCall} (hs : s.Buffers log)
    {w : Fin n} {p : ℕ} {pc : Pc n} {c : Connection} (hfd : c.fd = (s.shared.conn p).fd)
    (hbuffer : c.buffer = (s.shared.conn p).buffer)
    (hcounted : Live s.shared p → (0 < c.eventCount ↔ c.buffer ≠ 0))
    (huses : ∀ q, pc.uses q → q = p)
    (hused : (s.shared.conn p).fd ∈ (s.worker w).interest → (s.shared.conn p).buffer ≠ 0) :
    Buffers ((s.set w { s.worker w with pc := pc }).share (s.shared.setConn p c)) log := by
  apply hs.kept (by rfl) (by rfl) (by rfl)
  · intro q
    rw [setConn_apply]
    split
    · rename_i hq
      rw [hfd, hq]
    · rfl
  · intro q
    rw [setConn_apply]
    split
    · rename_i hq
      rw [hbuffer, hq]
    · rfl
  · intro q hq
    rw [setConn_apply]
    split
    · rename_i hqp
      exact hcounted (hqp ▸ hq)
    · exact hs.counted q hq
  · rfl
  · intro q hq
    rw [huses q hq]
    exact hused

/-- What `cache_alloc` returns is not `NULL`. -/
theorem Buffers.entry_ne_zero {s : Server n} {log : List BufferCall} (hs : s.Buffers log)
    {free' : ℕ → ℕ} {cache : List ℕ} (hcount : ∀ b, free' b + cache.count b =
      s.msgFree b + (cacheAlloc cache s.shared.next).cache.count b) :
    (cacheAlloc cache s.shared.next).entry ≠ 0 := by
  have hnull := hs.null
  have hnext := hs.next
  intro hzero
  rcases (cacheAlloc_available hs.separated hcount).1 with ⟨hpos, -⟩ | ⟨hentry, -⟩
  · rw [hzero] at hpos
    omega
  · omega

/-- `on_read` takes buffer `b` for the connection at `p`. -/
theorem Buffers.got {s : Server n} {log : List BufferCall} (hs : s.Buffers log) {w : Fin n}
    {me : Worker n} {t : Table} {p b : ℕ}
    (halloc : cacheAlloc (s.worker w).msgCache s.shared.next = ⟨b, me.msgCache, t.next⟩)
    (hconns : t.conns = s.shared.conns) (hfd : ∀ q, (t.conn q).fd = (s.shared.conn q).fd)
    (hself : (t.conn p).buffer = b)
    (hcounted : 0 < (t.conn p).eventCount) (hother : ∀ q, q ≠ p → t.conn q = s.shared.conn q)
    (huses : ∀ q, me.pc.uses q → q = p) :
    Buffers ((s.set w me).share t) (log ++ [.alloc p b]) := by
  have hcount : ∀ x, Server.msgFree ((s.set w me).share t) x + (s.worker w).msgCache.count x =
      s.msgFree x + (cacheAlloc (s.worker w).msgCache s.shared.next).cache.count x := by
    intro x
    rw [halloc]
    exact msgFree_set s w me t x
  have hne := hs.entry_ne_zero hcount
  have htake := (cacheAlloc_available hs.separated hcount).2
  have hnext := cacheAlloc_next_le (s.worker w).msgCache s.shared.next
  have hnexteq : t.next = (cacheAlloc (s.worker w).msgCache s.shared.next).next := by
    rw [halloc]
  have hentry : b = (cacheAlloc (s.worker w).msgCache s.shared.next).entry := by
    rw [halloc]
  rw [halloc] at hne htake hnext
  have hlive : Live t = Live s.shared := by
    funext q
    rw [Live, Live, hconns, hfd]
  refine ⟨?_, ?_, Nat.lt_of_lt_of_le hs.next hnext, ?_, ?_, ?_, ?_⟩
  · rw [share_shared, hnexteq]
    refine cacheAlloc_take hs.separated p hcount ?_
    rintro q x ⟨hq, hx, hxne⟩
    by_cases hqp : q = p
    · rw [hqp, hself] at hx
      exact .inr ⟨hqp, hx.symm.trans hentry⟩
    · rw [hlive] at hq
      rw [hother q hqp] at hx
      exact .inl ⟨hq, hx, hxne⟩
  · rw [htake, if_neg (Ne.symm hne)]
    exact hs.null
  · intro q hq
    rw [share_shared] at hq ⊢
    by_cases hqp : q = p
    · rw [hqp, hself]
      exact ⟨fun _ => hne, fun _ => hcounted⟩
    · rw [hlive] at hq
      rw [hother q hqp]
      exact hs.counted q hq
  · intro q hq hqne
    rw [share_shared] at hq hqne ⊢
    by_cases hqp : q = p
    · rw [hqp, hself]
      exact .alloc log p b
    · rw [hlive] at hq
      rw [hother q hqp] at hqne ⊢
      exact (hs.allocated q hq hqne).snoc (by simp) (by simp)
  · intro v q hv hvmem
    rw [share_shared] at hvmem ⊢
    by_cases hqp : q = p
    · rw [hqp, hself]
      exact hne
    · rw [hother q hqp] at hvmem ⊢
      rw [share_worker, set_worker] at hv hvmem
      split at hv
      · exact absurd (huses q hv) hqp
      · rename_i hvw
        rw [if_neg hvw] at hvmem
        exact hs.filled v q hv hvmem
  · intro q x hx
    rcases List.mem_append.mp hx with hx | hx
    · exact hs.logged q x hx
    · cases List.mem_singleton.mp hx
      exact hne

/-- A new connection gets record `p`, which no connection has. -/
theorem Buffers.installed {tr : List (Input n × Output n)} {s : Server n}
    {log : List BufferCall} (hi : s.Inv tr) (hs : s.Buffers log) {w : Fin n} {me : Worker n}
    {t : Table} {fd : ℤ} {p : ℕ} (hpc : (s.worker w).pc = .install fd)
    (hcache : me.msgCache = (s.worker w).msgCache) (huses : ∀ q, ¬ me.pc.uses q)
    (hconns : ∀ g, t.conns g = if g = fd then some p else s.shared.conns g)
    (hself : (t.conn p).fd = fd ∧ (t.conn p).buffer = 0 ∧ (t.conn p).eventCount = 0)
    (hother : ∀ q, q ≠ p → t.conn q = s.shared.conn q) (hnext : s.shared.next ≤ t.next) :
    Buffers ((s.set w me).share t) (log ++ [.newConn p]) := by
  obtain ⟨hfd, hzero, hcount⟩ := hself
  have hold : ∀ q, q ≠ p → Live t q → Live s.shared q := by
    intro q hqp hq
    rw [Live, hother q hqp, hconns] at hq
    split at hq
    · exact absurd (Option.some.inj hq).symm hqp
    · exact hq
  refine ⟨?_, ?_, Nat.lt_of_lt_of_le hs.next hnext, ?_, ?_, ?_, ?_⟩
  · rw [msgFree_same hcache]
    refine (hs.separated.mono (fun _ => rfl) ?_).grow hnext
    rintro q x ⟨hq, hx, hxne⟩
    by_cases hqp : q = p
    · rw [hqp] at hx
      exact absurd (hx.symm.trans hzero) hxne
    · rw [share_shared, hother q hqp] at hx
      exact ⟨hold q hqp hq, hx, hxne⟩
  · rw [msgFree_same hcache]
    exact hs.null
  · intro q hq
    rw [share_shared] at hq ⊢
    by_cases hqp : q = p
    · rw [hqp, hzero, hcount]
      decide
    · rw [hother q hqp]
      exact hs.counted q (hold q hqp hq)
  · intro q hq hqne
    rw [share_shared] at hq hqne ⊢
    by_cases hqp : q = p
    · rw [hqp] at hqne
      exact absurd hzero hqne
    · rw [hother q hqp] at hqne ⊢
      refine (hs.allocated q (hold q hqp hq) hqne).snoc ?_ (by simp)
      intro hnew
      exact hqp (BufferCall.newConn.inj hnew).symm
  · intro v q hv hvmem
    rw [share_shared] at hvmem ⊢
    rw [share_worker, set_worker] at hv hvmem
    split at hv
    · exact absurd hv (huses q)
    · rename_i hvw
      rw [if_neg hvw] at hvmem
      by_cases hqp : q = p
      · rw [hqp, hfd] at hvmem
        exact absurd hvmem (hi.unregistered hpc v)
      · rw [hother q hqp] at hvmem ⊢
        exact hs.filled v q hv hvmem
  · intro q x hx
    rcases List.mem_append.mp hx with hx | hx
    · exact hs.logged q x hx
    · cases List.mem_singleton.mp hx

/-- `on_close` frees the buffer of the connection at `p`. -/
theorem Buffers.closed {s : Server n} {log : List BufferCall} (hw : s.Wired)
    (hs : s.Buffers log) {w : Fin n} {p : ℕ} {rest : Option Event}
    (hpc : (s.worker w).pc = .onClose (some p) rest)
    (hmem : (s.shared.conn p).fd ∈ (s.worker w).interest)
    (hne : (s.shared.conn p).buffer ≠ 0) (connCache : List ℕ) (connCount : ℕ) :
    Buffers ((s.set w { s.worker w with
        interest := (s.worker w).interest.erase (s.shared.conn p).fd
        connCount := connCount
        msgCache := cacheFree (s.worker w).msgCache (s.shared.conn p).buffer
        connCache := connCache
        pc := rest.elim .loop .event }).share (s.shared.close (s.shared.conn p).fd))
      (log ++ [.free p (s.shared.conn p).buffer]) := by
  have hlive : Live s.shared p := by
    have hstands := (hw.workers w).stands
    rw [hpc] at hstands
    exact (hstands.1 p rfl hmem).1
  have hown : Owns s.shared p (s.shared.conn p).buffer := ⟨hlive, rfl, hne⟩
  have hold : ∀ q, Live (s.shared.close (s.shared.conn p).fd) q → Live s.shared q ∧ q ≠ p := by
    intro q hq
    simp only [Live, Table.close] at hq
    by_cases hfd : (s.shared.conn q).fd = (s.shared.conn p).fd
    · rw [hfd, Function.update_self] at hq
      cases hq
    · rw [Function.update_of_ne hfd] at hq
      refine ⟨hq, ?_⟩
      rintro rfl
      exact hfd rfl
  have hother : ∀ q, q ≠ p → Live s.shared q → (s.shared.conn q).buffer ≠ 0 →
      (s.shared.conn q).buffer ≠ (s.shared.conn p).buffer := by
    intro q hqp hq hqne hsame
    exact hqp (hs.separated.single ⟨hq, rfl, hqne⟩ (hsame ▸ hown))
  have hfree : ∀ x, Server.msgFree ((s.set w { s.worker w with
        interest := (s.worker w).interest.erase (s.shared.conn p).fd
        connCount := connCount
        msgCache := cacheFree (s.worker w).msgCache (s.shared.conn p).buffer
        connCache := connCache
        pc := rest.elim .loop .event }).share (s.shared.close (s.shared.conn p).fd)) x =
      s.msgFree x + if x = (s.shared.conn p).buffer then 1 else 0 := by
    intro x
    refine Nat.add_right_cancel ((msgFree_set s w _ _ x).trans ?_)
    rw [count_cacheFree]
    omega
  refine ⟨?_, ?_, hs.next, ?_, ?_, ?_, ?_⟩
  · refine hs.separated.give hown hfree ?_
    rintro q x ⟨hq, hx, hxne⟩
    obtain ⟨hq, hqp⟩ := hold q hq
    subst hx
    exact ⟨⟨hq, rfl, hxne⟩, hother q hqp hq hxne⟩
  · rw [hfree, hs.null, if_neg (Ne.symm hne)]
  · intro q hq
    exact hs.counted q (hold q hq).1
  · intro q hq hqne
    obtain ⟨hq, hqp⟩ := hold q hq
    refine (hs.allocated q hq hqne).snoc (by simp) ?_
    intro r hr
    exact hother q hqp hq hqne (BufferCall.free.inj hr).2.symm
  · intro v q hv hvmem
    rw [share_worker, set_worker] at hv hvmem
    split at hv
    · cases rest with
      | none => exact hv.elim
      | some e => exact hv.elim
    · rename_i hvw
      rw [if_neg hvw] at hvmem
      exact hs.filled v q hv hvmem
  · intro q x hx
    rcases List.mem_append.mp hx with hx | hx
    · exact hs.logged q x hx
    · cases List.mem_singleton.mp hx

/-! ### Steps -/

theorem afterRead_kept (conn : Connection) (cursor : ℕ) (ret : Ret) :
    (afterRead msgSize conn cursor ret).1.buffer = conn.buffer ∧
      (afterRead msgSize conn cursor ret).1.eventCount = conn.eventCount := by
  simp only [afterRead]
  cases ret with
  | error again => simp only; split <;> exact ⟨rfl, rfl⟩
  | count k =>
      simp only
      split
      · exact ⟨rfl, rfl⟩
      · split <;> exact ⟨rfl, rfl⟩

theorem afterWrite_kept (conn : Connection) (cursor : ℕ) (ret : Ret) :
    (afterWrite msgSize conn cursor ret).1.buffer = conn.buffer ∧
      (afterWrite msgSize conn cursor ret).1.eventCount = conn.eventCount := by
  simp only [afterWrite]
  cases ret with
  | error again => simp only; split <;> exact ⟨rfl, rfl⟩
  | count k =>
      simp only
      split
      · exact ⟨rfl, rfl⟩
      · split <;> exact ⟨rfl, rfl⟩

/-- Whatever a worker has to know of a hang-up when it calls `on_close`. -/
theorem Buffers.of_heard {s : Server n} {log : List BufferCall} (hw : s.Wired)
    (hs : s.Buffers log) {w : Fin n} {e : Event} {events : List Event} {p : ℕ}
    (hpc : (s.worker w).pc = .loop) (hevents : (s.worker w).events = e :: events)
    (herr : e.epollErr ∨ e.epollHup) (hlisten : e.fd ≠ (s.worker w).listenSock)
    (hevent : e.fd ≠ (s.worker w).eventFd) (hp : s.shared.conns e.fd = some p) :
    s.heard (.run w) = true ↔ (s.shared.conn p).buffer ≠ 0 := by
  have hlive : Live s.shared p := by
    rw [Live, hw.filed.live hp]
    exact hp
  have hbits : (!(e.epollErr || e.epollHup)) = false := by
    rcases herr with herr | herr
    · rw [herr]
      rfl
    · rw [herr, Bool.or_true]
      rfl
  rw [← hs.counted p hlive]
  simp only [heard, hpc, hevents, hbits, hlisten, hevent, hp, decide_false, Bool.or_false,
    Bool.false_or, Option.all_some, decide_eq_true_eq]

theorem Buffers.loop {s s' : Server n} {log : List BufferCall} (hw : s.Wired)
    (hs : s.Buffers log) {w : Fin n} (hpc : (s.worker w).pc = .loop)
    (hheard : s.heard (.run w) = true) (h : s.loop w = some s') : s'.Buffers log := by
  simp only [Server.loop] at h
  split at h
  · cases Option.some.inj h
    exact hs.moved (by rfl) (by rfl) fun _ => id
  · rename_i e events hevents
    split at h
    · rename_i herr
      split at h
      · cases h
      · rename_i hfd
        rw [not_or] at hfd
        cases Option.some.inj h
        apply hs.quiet (t := s.shared) (by rfl) (by rfl) rfl rfl rfl
        intro p hp _
        exact (hs.of_heard hw hpc hevents herr hfd.1 hfd.2 hp).mp hheard
    · cases Option.some.inj h
      exact hs.moved (by rfl) (by rfl) fun _ => id

theorem Buffers.event {s : Server n} {log : List BufferCall} (hs : s.Buffers log) (w : Fin n)
    (e : Event) : (s.event w e).Buffers log := by
  apply hs.moved (by rfl) (by rfl)
  intro p
  split
  · exact id
  · split <;> exact id

/-- What another worker gets does not concern the buffers. -/
theorem Buffers.delivered {s : Server n} {log : List BufferCall} (hs : s.Buffers log)
    (owner : Fin n) (items : List ℤ) (k : ℕ) :
    Buffers (s.modify owner (deliver items k)) log :=
  hs.quiet (w := owner) (t := s.shared) (by rfl) (by rfl) rfl rfl rfl (by exact hs.filled owner)

theorem Buffers.onRead {s : Server n} {log : List BufferCall} (hs : s.Buffers log) {w : Fin n}
    {p : ℕ} (hpc : (s.worker w).pc = .onRead (some p)) :
    (s.onRead w p).Buffers (log ++ s.bufferCalls (.run w)) := by
  have huses : ∀ q, (.read p (s.shared.conn p).cursor : Pc n).uses q → q = p :=
    fun q hq => Eq.symm hq
  simp only [Server.onRead, bufferCalls, hpc]
  split
  · rw [List.append_nil]
    exact hs.moved (by rfl) (by rfl) fun _ => id
  · split
    · refine hs.got (by rfl) (by rfl) ?_ ?_ ?_ ?_ huses
      · intro q
        refine (congrArg Connection.fd (setConn_apply _ p _ q)).trans ?_
        split
        · rename_i hq
          rw [hq]
        · rfl
      · simp only [Table.setConn, Function.update_self]
      · simp only [Table.setConn, Function.update_self]
        exact Nat.succ_pos _
      · intro q hq
        exact Function.update_of_ne hq ..
    · rename_i hne
      rw [List.append_nil]
      refine hs.answered (by rfl) (by rfl) ?_ huses fun _ => hne
      exact fun _ => ⟨fun _ => hne, fun _ => Nat.succ_pos _⟩

theorem Buffers.install {tr : List (Input n × Output n)} {s s' : Server n}
    {log : List BufferCall} (hi : s.Inv tr) (hs : s.Buffers log) {w : Fin n} {fd : ℤ}
    (hpc : (s.worker w).pc = .install fd) (h : s.install w fd = some s') :
    s'.Buffers (log ++ s.bufferCalls (.run w)) := by
  simp only [Server.install] at h
  split at h
  · cases h
  · rename_i hmem
    cases Option.some.inj h
    simp only [bufferCalls, hpc, if_neg hmem]
    refine hs.installed hi hpc (by rfl) (fun _ => id) ?_ ?_ ?_ (cacheAlloc_next_le _ _)
    · intro g
      exact Function.update_apply ..
    · simp only [Table.install, Function.update_self]
      exact ⟨rfl, rfl, rfl⟩
    · intro q hq
      exact Function.update_of_ne hq ..

theorem Buffers.onClose {s s' : Server n} {log : List BufferCall} (hw : s.Wired)
    (hs : s.Buffers log) {w : Fin n} {p : ℕ} {rest : Option Event}
    (hpc : (s.worker w).pc = .onClose (some p) rest) (h : s.onClose w p rest = some s') :
    s'.Buffers (log ++ s.bufferCalls (.run w)) := by
  simp only [Server.onClose] at h
  split at h
  · rename_i hguard
    cases Option.some.inj h
    simp only [bufferCalls, hpc, if_pos hguard.1]
    exact hs.closed hw hpc hguard.1 hguard.2 _ _
  · cases h

theorem Buffers.run {tr : List (Input n × Output n)} {s s' : Server n} {log : List BufferCall}
    (hi : s.Inv tr) (hw : s.Wired) (hs : s.Buffers log) {w : Fin n}
    (hheard : s.heard (.run w) = true) {o : Output n} (h : s.run w = some (s', o)) :
    s'.Buffers (log ++ s.bufferCalls (.run w)) := by
  have hquiet : s.bufferCalls (.run w) = [] → s'.Buffers log →
      s'.Buffers (log ++ s.bufferCalls (.run w)) := by
    intro hnone hs'
    rw [hnone, List.append_nil]
    exact hs'
  rw [Server.run] at h
  split at h
  · rename_i hpc
    obtain ⟨t, ht, hpair⟩ := Option.map_eq_some_iff.mp h
    cases hpair
    exact hquiet (by simp only [bufferCalls, hpc]) (hs.loop hw hpc hheard ht)
  · rename_i e hpc
    cases Option.some.inj h
    exact hquiet (by simp only [bufferCalls, hpc]) (hs.event w e)
  · rename_i fd owner hpc
    cases Option.some.inj h
    refine hquiet (by simp only [bufferCalls, hpc]) (Buffers.delivered ?_ owner [fd] 0)
    exact hs.moved (by rfl) (by rfl) fun _ => id
  · rename_i owner hpc
    obtain ⟨t, ht, hpair⟩ := Option.map_eq_some_iff.mp h
    cases hpair
    rw [notify] at ht
    split at ht
    · cases Option.some.inj ht
      refine hquiet (by simp only [bufferCalls, hpc]) (Buffers.delivered ?_ owner [] 1)
      exact hs.moved (by rfl) (by rfl) fun _ => id
    · cases ht
  · rename_i hpc
    cases Option.some.inj h
    apply hquiet (by simp only [bufferCalls, hpc])
    simp only [onEvent]
    split <;> exact hs.moved (by rfl) (by rfl) fun _ => id
  · rename_i hpc
    cases Option.some.inj h
    apply hquiet (by simp only [bufferCalls, hpc])
    simp only [drain]
    split <;> exact hs.moved (by rfl) (by rfl) fun _ => id
  · rename_i fd hpc
    obtain ⟨t, ht, hpair⟩ := Option.map_eq_some_iff.mp h
    cases hpair
    exact hs.install hi hpc ht
  · rename_i p hpc
    cases Option.some.inj h
    exact hs.onRead hpc
  · rename_i p rest hpc
    obtain ⟨t, ht, hpair⟩ := Option.map_eq_some_iff.mp h
    cases hpair
    exact hs.onClose hw hpc ht
  · cases h

theorem Buffers.io {s s' : Server n} {log : List BufferCall} (hs : s.Buffers log) {w : Fin n}
    {ret : Ret} (h : s.io msgSize w ret = some s') : s'.Buffers log := by
  have hanswer : ∀ {p : ℕ} {after : Connection × Next}, (s.worker w).pc.uses p →
      after.1.fd = (s.shared.conn p).fd →
      after.1.buffer = (s.shared.conn p).buffer ∧
        after.1.eventCount = (s.shared.conn p).eventCount →
      Buffers ((s.set w { s.worker w with pc := after.2.pc p }).share
        (s.shared.setConn p after.1)) log := by
    rintro p after huses hfd ⟨hbuffer, hcount⟩
    refine hs.answered hfd hbuffer ?_ (after.2.uses p) (hs.filled w p huses)
    intro hlive
    rw [hbuffer, hcount]
    exact hs.counted p hlive
  simp only [Server.io] at h
  split at h
  · rename_i p cursor hpc
    split at h
    · cases Option.some.inj h
      exact hanswer (by rw [hpc]; rfl) (afterRead_fd _ _ _) (afterRead_kept _ _ _)
    · cases h
  · rename_i p cursor hpc
    split at h
    · cases Option.some.inj h
      exact hanswer (by rw [hpc]; rfl) (afterWrite_fd _ _ _) (afterWrite_kept _ _ _)
    · cases h
  · cases h

theorem Buffers.step {tr : List (Input n × Output n)} {s s' : Server n} {log : List BufferCall}
    (hi : s.Inv tr) (hw : s.Wired) (hs : s.Buffers log) {a : Input n} {o : Output n}
    (hheard : s.heard a = true) (h : s.step msgSize a = some (s', o)) :
    s'.Buffers (log ++ s.bufferCalls a) := by
  cases a with
  | run w => exact hs.run hi hw hheard h
  | epollWait w events =>
      obtain ⟨t, ht, hpair⟩ := Option.map_eq_some_iff.mp h
      cases hpair
      simp only [bufferCalls, List.append_nil]
      simp only [epollWait] at ht
      split at ht
      · cases Option.some.inj ht
        exact hs.moved (by rfl) (by rfl) fun _ => id
      · cases ht
  | accept w fd cpu =>
      obtain ⟨t, ht, hpair⟩ := Option.map_eq_some_iff.mp h
      cases hpair
      simp only [bufferCalls, List.append_nil]
      simp only [accept, Table.accept] at ht
      split at ht
      · split at ht
        · cases Option.some.inj ht
          exact hs.quiet (by rfl) (by rfl) (by rfl) (by rfl) (by rfl) fun _ hp => hp.elim
        · cases ht
      · cases ht
  | acceptAgain w =>
      obtain ⟨t, ht, hpair⟩ := Option.map_eq_some_iff.mp h
      cases hpair
      simp only [bufferCalls, List.append_nil]
      simp only [acceptAgain] at ht
      split at ht
      · cases Option.some.inj ht
        exact hs.moved (by rfl) (by rfl) fun _ => id
      · cases ht
  | io w ret =>
      obtain ⟨t, ht, hpair⟩ := Option.map_eq_some_iff.mp h
      cases hpair
      simp only [bufferCalls, List.append_nil]
      exact hs.io ht

/-! ## Runs -/

theorem buffers_start {s : Server n} (h : s.Start) (hstocked : s.Stocked) :
    s.Buffers [] := by
  have hdead : ∀ p, ¬ Live s.shared p := by
    intro p hp
    rw [Live, h.conns] at hp
    cases hp
  refine ⟨?_, hstocked.null, h.next, ?_, ?_, ?_, nofun⟩
  · exact {
      once := hstocked.cached
      unowned := fun ho => (hdead _ ho.1).elim
      single := fun ho => (hdead _ ho.1).elim
      fresh := fun hb => ⟨hstocked.fresh _ hb, fun p ho => hdead p ho.1⟩ }
  · exact fun p hp => (hdead p hp).elim
  · exact fun p hp => (hdead p hp).elim
  · intro w p hp
    rw [h.pc] at hp
    exact hp.elim

section Runs

variable {tr : List (Input n × Output n)} {s : Server n × List BufferCall}

theorem reaches_recorded (h : (recordedServer n msgSize).Reaches tr s) :
    (echoServer n msgSize).Reaches tr s.1 := by
  induction h with
  | init hs => exact .init hs.1
  | step _ hlast ih => exact .step ih (Machine.record_step.mp hlast).1

theorem guard_buffers
    (h : ((recordedServer n msgSize).guard fun s a => s.1.heard a).Reaches tr s) :
    s.1.Buffers s.2 := by
  refine h.invariant (P := fun _ s => s.1.Buffers s.2) ?_ ?_
  · rintro s ⟨hstart, hstocked, hlog⟩
    rw [hlog]
    exact buffers_start hstart hstocked
  · intro tr s a o t hr hs hstep
    obtain ⟨hheard, hstep⟩ := Machine.guard_step.mp hstep
    obtain ⟨hstep, hlog⟩ := Machine.record_step.mp hstep
    have hreach := reaches_recorded hr.of_guard
    rw [hlog]
    exact hs.step (reaches_inv hreach) (reaches_wired hreach) hheard hstep

theorem Buffers.matched (hw : s.1.Wired) (hs : s.1.Buffers s.2) : s.1.Matched s.2 := by
  refine ⟨?_, hs.separated.once, hs.null⟩
  intro w p rest hpc hmem
  have hstands := (hw.workers w).stands
  rw [hpc] at hstands
  apply hs.allocated p (hstands.1 p rfl hmem).1
  apply hs.filled w p _ hmem
  rw [hpc]
  rfl

theorem heard_eq_false {s : Server n} {a : Input n} (h : s.heard a = false) :
    ∃ w e events p, a = .run w ∧ (s.worker w).pc = .loop ∧ (s.worker w).events = e :: events ∧
      (e.epollErr ∨ e.epollHup) ∧ e.fd ≠ (s.worker w).listenSock ∧
      e.fd ≠ (s.worker w).eventFd ∧ s.shared.conns e.fd = some p := by
  cases a with
  | run w =>
      simp only [heard] at h
      split at h
      · rename_i e events hpc hevents
        simp only [Bool.or_eq_false_iff, Bool.not_eq_false', Bool.or_eq_true,
          decide_eq_false_iff_not] at h
        obtain ⟨⟨⟨herr, hlisten⟩, hevent⟩, hcount⟩ := h
        cases hp : s.shared.conns e.fd with
        | none =>
            rw [hp] at hcount
            cases hcount
        | some p => exact ⟨w, e, events, p, rfl, hpc, hevents, herr, hlisten, hevent, hp⟩
      · cases h
  | _ => cases h

/-- An error or hang-up comes first: `on_close` frees what nobody has allocated. -/
theorem Buffers.not_matched (hw : s.1.Wired) (hs : s.1.Buffers s.2) {a : Input n}
    {t : Server n × List BufferCall} {o : Output n}
    (h : (recordedServer n msgSize).step s a = some (t, o)) (hheard : s.1.heard a = false) :
    ¬ t.1.Matched t.2 := by
  intro hmatched
  obtain ⟨hstep, hlog⟩ := Machine.record_step.mp h
  obtain ⟨w, e, events, p, rfl, hpc, hevents, herr, hlisten, hevent, hp⟩ := heard_eq_false hheard
  have hbuffer : (s.1.shared.conn p).buffer = 0 := by
    by_contra hne
    have htrue := (hs.of_heard hw hpc hevents herr hlisten hevent hp).mpr hne
    rw [htrue] at hheard
    cases hheard
  have hmem : (s.1.shared.conn p).fd ∈ (s.1.worker w).interest := by
    rw [hw.filed.live hp]
    apply (hw.workers w).registered
    rw [hevents]
    exact List.mem_cons_self
  have hnext : t.1 = s.1.set w { s.1.worker w with
      pc := .onClose (some p) (some e), events := events } := by
    change s.1.run w = _ at hstep
    simp only [Server.run, hpc, Server.loop, hevents, if_pos herr, hlisten,
      hevent, or_self, if_false, Option.map_some, Option.some.injEq, Prod.mk.injEq] at hstep
    rw [← hstep.1, hp]
  have hfreed := hmatched.freed w p (some e)
  rw [hnext, set_worker_self, set_shared, hbuffer] at hfreed
  obtain ⟨before, after, heq, -, -⟩ := hfreed rfl hmem
  have hcalls : s.1.bufferCalls (.run w) = [] := by
    simp only [bufferCalls, hpc]
  rw [hlog, hcalls, List.append_nil] at heq
  refine hs.logged p 0 ?_ rfl
  rw [heq]
  exact List.mem_append_right _ List.mem_cons_self

/-- In a run in which an error or hang-up of a connection comes after its first `on_read`,
what `on_close` frees was allocated for its connection, and the run stays so exactly as long
as that is the case. -/
theorem matched_iff
    (h : ((recordedServer n msgSize).guard fun s a => s.1.heard a).Reaches tr s) :
    s.1.Matched s.2 ∧ ∀ a t o, (recordedServer n msgSize).step s a = some (t, o) →
      (t.1.Matched t.2 ↔ s.1.heard a = true) := by
  have hreach := reaches_recorded h.of_guard
  have hw := reaches_wired hreach
  have hs := guard_buffers h
  refine ⟨hs.matched hw, ?_⟩
  intro a t o hstep
  constructor
  · intro hmatched
    by_contra hheard
    exact hs.not_matched hw hstep (Bool.eq_false_iff.mpr hheard) hmatched
  · intro hheard
    obtain ⟨hbase, hlog⟩ := Machine.record_step.mp hstep
    have hw' := reaches_wired (hreach.step hbase)
    have hs' := hs.step (reaches_inv hreach) hw hheard hbase
    rw [← hlog] at hs'
    exact hs'.matched hw'

end Runs

end Server

/-! ## A hang-up before and after the first message -/

theorem smallServer_stocked : smallServer.Stocked := by
  have hcount : ∀ b, smallServer.msgFree b = List.count b [1, 3] := by
    intro b
    rw [Server.msgFree, Team.tally, Fin.sum_univ_two, ← List.count_append]
    rfl
  refine ⟨?_, ?_, ?_⟩
  · intro b
    rw [hcount]
    exact List.nodup_iff_count_le_one.mp (by decide) b
  · intro b hb
    have hlt : 5 ≤ b := hb
    rw [hcount, List.count_eq_zero]
    simp
    omega
  · rw [hcount]
    rfl

theorem recordedServer_start : (recordedServer 2 1).Init (smallServer, []) :=
  ⟨smallServer_start, smallServer_stocked, rfl⟩

/-- The event that the peer of `fd` has closed both directions. -/
def hungUp (fd : ℤ) : Event := ⟨fd, true, false, true⟩

theorem readThenHungUp_runs : (((recordedServer 2 1).guard fun s a => s.1.heard a).exec
    (smallServer, []) (firstRead 0 1 ++ [.run 1, .epollWait 1 [hungUp 7], .run 1])).isSome := by
  decide

/-- Block 3 is allocated by the first `on_read`, and `on_close` is about to free it. -/
theorem matched_iff_readThenHungUp :
    ∃ tr s, ((recordedServer 2 1).guard fun s a => s.1.heard a).Reaches tr s ∧
      (s.1.worker 1).pc = .onClose (some 4) (some (hungUp 7)) ∧
      (s.1.shared.conn 4).buffer = 3 ∧ s.1.Matched s.2 := by
  have hreach := Machine.reaches_exec_get
    (M := (recordedServer 2 1).guard fun s a => s.1.heard a) recordedServer_start
    readThenHungUp_runs
  exact ⟨_, _, hreach, rfl, rfl, (Server.matched_iff hreach).1⟩

theorem hungUpFirst_runs : ((recordedServer 2 1).exec (smallServer, [])
    (handOver 0 1 ++ [.epollWait 1 [hungUp 7], .run 1])).isSome := by
  decide

/-- The peer goes before it has sent anything: `on_close` frees `NULL`. -/
theorem not_matched :
    ¬ ∀ (n msgSize : ℕ) (tr : List (Input n × Output n)) (s : Server n × List BufferCall),
      1 ≤ msgSize → (recordedServer n msgSize).Reaches tr s → s.1.Matched s.2 := by
  intro h
  have hreach := Machine.reaches_exec_get recordedServer_start hungUpFirst_runs
  have hfreed := (h 2 1 _ _ (Nat.le_refl 1) hreach).freed 1 4 (some (hungUp 7)) rfl (by decide)
  obtain ⟨before, after, hlog, -, -⟩ := hfreed
  have hmem : BufferCall.alloc 4 0 ∈ [BufferCall.newConn 4] := by
    rw [show [BufferCall.newConn 4] = _ from hlog]
    exact List.mem_append_right _ List.mem_cons_self
  exact absurd hmem (by decide)

end Upcalls.Epoll
