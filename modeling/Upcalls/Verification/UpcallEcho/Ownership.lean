import Upcalls.Verification.TcpEcho.Cache
import Upcalls.Verification.UpcallEcho.Invariant

/-! # Connections opened and closed

The two handler exits that change `conns[]`, and with them all steps of the server.
-/

namespace Upcalls.UpcallEcho

open Library LibUpcall TcpEcho

namespace Server

open Team

variable {n msgSize : ℕ}

/-! ## Changes at one descriptor -/

section Change

variable {tr : List (Input n × Output)} {s : Server n} {w : Fin n} {me : Worker} {sh : Shared}
  {d : ℤ}

/-- A step that changes what is known of descriptor `d`, when no write is for it. -/
theorem Inv.change (hs : s.Inv tr) {x : Input n × Output}
    (hrequests : ∀ r ∈ me.requests, r ∈ (s.worker w).requests ∨ Idle r ∨
      r = .read d (some .myRead))
    (hcalled : ∀ e ∈ me.queue.undispatched, e ∈ (s.worker w).queue.undispatched)
    (haccepts : me.accepts = (s.worker w).accepts)
    (hconns : ∀ fd, fd ≠ d → sh.conns fd = s.shared.conns fd)
    (hconn : ∀ fd p, fd ≠ d → s.shared.conns fd = some p → sh.conn p = s.shared.conn p)
    (hself : ∀ p, sh.conns d = some p → (sh.conn p).fd = d ∧ 0 ≤ d)
    (hops : ∀ fd, me.ops fd + (if x.2.failed fd then 1 else 0) + present s.shared fd =
      (s.worker w).ops fd + present sh fd)
    (hopening : ∀ fd, me.opening fd + present sh fd + (if s.shared.opened fd then 1 else 0) ≤
      (s.worker w).opening fd + present s.shared fd + if sh.opened fd then 1 else 0)
    (hwrites : ∀ v buf len workFn, .write d buf len workFn ∉ ((s.set w me).worker v).requests)
    (hseparated : Separated (Server.free ((s.set w me).share sh)) (Owns sh) sh.next) :
    Inv (tr ++ [x]) ((s.set w me).share sh) := by
  have hold : ∀ v r, r ∈ ((s.set w me).worker v).requests →
      r ∈ (s.worker v).requests ∨ Idle r ∨ r = .read d (some .myRead) := by
    refine forall_set (P := fun v (me : Worker) => ∀ r ∈ me.requests,
      r ∈ (s.worker v).requests ∨ Idle r ∨ r = .read d (some .myRead)) hrequests ?_
    intro v _ r hr
    exact .inl hr
  refine ⟨?_, ?_, ?_, ?_, ?_, ?_, ?_, hseparated⟩
  · intro fd p hp
    rw [share_shared] at hp ⊢
    by_cases hfd : fd = d
    · subst hfd
      exact hself p hp
    · rw [hconns fd hfd] at hp
      rw [hconn fd p hfd hp]
      exact hs.live fd p hp
  · intro v r hr
    rcases hold v r hr with hr | hr | rfl
    · exact hs.plain v r hr
    · cases r <;> simp_all [Idle, Plain]
    · exact rfl
  · exact forall_set (P := fun _ (me : Worker) => ∀ e ∈ me.queue.undispatched,
      e.workFn.isSome = true) (fun e he => hs.called w e (hcalled e he)) fun v _ => hs.called v
  · intro fd
    have htotal := tally_set (·.ops fd) s w me
    have hshare := hops fd
    have harmed := hs.armed fd
    simp only [Server.ops, failures_snoc, share_shared, tally_share] at harmed htotal ⊢
    omega
  · intro fd
    have htotal := opening_set s w me sh fd
    have hshare := hopening fd
    have hopen := hs.opening fd
    rw [share_shared]
    omega
  · refine forall_set (P := fun _ (me : Worker) => me.accepts = 1) ?_ fun v _ => hs.accepts v
    rw [haccepts]
    exact hs.accepts w
  · intro v fd buf len workFn hr
    have hfd : fd ≠ d := by
      rintro rfl
      exact hwrites v buf len workFn hr
    rcases hold v _ hr with hr | hr | hr
    · obtain ⟨p, hp, hbuf⟩ := hs.writes v fd buf len workFn hr
      rw [share_shared, hconns fd hfd, hp]
      exact ⟨p, rfl, by rw [hconn fd p hfd hp]; exact hbuf⟩
    · exact hr.elim
    · cases hr

end Change

/-! ## Closing -/

theorem onClose_eq {sh : Shared} {p : ℕ} (hfd : 0 ≤ (sh.conn p).fd) (me : Worker) :
    onClose p me sh =
      ({ me with
          msgCache := cacheFree me.msgCache (sh.conn p).buffer
          connCache := cacheFree me.connCache p
          connCount := me.connCount + 1 },
        { sh with
          conns := Function.update sh.conns (sh.conn p).fd none
          conn := Function.update sh.conn p { sh.conn p with fd := -1, state := .closing }
          opened := Function.update sh.opened (sh.conn p).fd false }) := by
  rw [onClose, if_pos hfd]

/-- Different descriptors have different records. -/
theorem Inv.record_ne {tr : List (Input n × Output)} {s : Server n} (hs : s.Inv tr)
    {fd fd' : ℤ} {p p' : ℕ} (hp : s.shared.conns fd = some p)
    (hp' : s.shared.conns fd' = some p') (hne : fd' ≠ fd) : p' ≠ p := by
  rintro rfl
  have hsame : (fd', Part.record) = (fd, Part.record) :=
    hs.separated.single (b := p') (show Owns _ (fd', .record) p' from hp')
      (show Owns _ (fd, .record) p' from hp)
  exact hne (Prod.mk.inj hsame).1

section Closed

variable {tr : List (Input n × Output)} {s : Server n} {w : Fin n} {me : Worker} {sh : Shared}
  {d : ℤ} {p : ℕ}

/-- The record and the buffer of the connection of `d` go to the caches. -/
theorem Inv.closed_separated (hs : s.Inv tr) (hp : s.shared.conns d = some p)
    (hcached : ∀ b, me.cached b = (s.worker w).cached b + (if b = p then 1 else 0) +
      if b = (s.shared.conn p).buffer then 1 else 0)
    (hconns : sh.conns = Function.update s.shared.conns d none)
    (hconn : ∀ q, q ≠ p → sh.conn q = s.shared.conn q) (hnext : sh.next = s.shared.next) :
    Separated (Server.free ((s.set w me).share sh)) (Owns sh) sh.next := by
  have hrecord : Owns s.shared (d, .record) p := hp
  have hbuffer : Owns s.shared (d, .buffer) (s.shared.conn p).buffer := ⟨p, hp, rfl⟩
  have hpb : (s.shared.conn p).buffer ≠ p := by
    intro heq
    rw [heq] at hbuffer
    cases hs.separated.single hrecord hbuffer
  have hgive : Separated (fun b => s.free b + if b = p then 1 else 0)
      (fun k b => Owns s.shared k b ∧ b ≠ p) s.shared.next :=
    hs.separated.give hrecord (fun b => rfl) fun k b ho => ho
  rw [hnext]
  refine hgive.give (k := (d, .buffer)) ⟨hbuffer, hpb⟩ ?_ ?_
  · intro b
    have hfree := tally_set (·.cached b) s w me
    have hmore := hcached b
    simp only [free_eq, tally_share] at hfree ⊢
    omega
  · rintro ⟨fd, part⟩ b ho
    have hkept : ∀ {q}, sh.conns fd = some q → fd ≠ d ∧ s.shared.conns fd = some q := by
      intro q hq
      rw [hconns] at hq
      by_cases hfd : fd = d
      · rw [hfd, Function.update_self] at hq
        cases hq
      · rw [Function.update_of_ne hfd] at hq
        exact ⟨hfd, hq⟩
    have hfd : fd ≠ d ∧ Owns s.shared (fd, part) b := by
      cases part with
      | record => exact hkept ho
      | buffer =>
          obtain ⟨q, hq, hb⟩ := ho
          obtain ⟨hfd, hold⟩ := hkept hq
          rw [hconn q (hs.record_ne hp hold hfd)] at hb
          exact ⟨hfd, q, hold, hb⟩
    have hother : ∀ {part' b'}, Owns s.shared (d, part') b' → b ≠ b' := by
      rintro part' b' ho' rfl
      cases hs.separated.single hfd.2 ho'
      exact hfd.1 rfl
    exact ⟨⟨hfd.2, hother hrecord⟩, hother hbuffer⟩

/-- A write on the closed descriptor would be a second operation. -/
theorem Inv.not_write (hs : s.Inv tr) (hd : s.shared.conns d = some p)
    (hops : me.ops d + 1 = (s.worker w).ops d)
    (hrequests : me.requests = (s.worker w).requests) (v : Fin n) (buf : Ptr) (len : ℕ)
    (workFn : Option Handler) :
    .write d buf len workFn ∉ ((s.set w me).worker v).requests := by
  intro hr
  have hold : ∀ v, ((s.set w me).worker v).requests = (s.worker v).requests :=
    forall_set (P := fun v (me : Worker) => me.requests = (s.worker v).requests) hrequests
      fun v _ => rfl
  have hmem : .write d buf len workFn ∈ (s.worker v).requests := hold v ▸ hr
  have hplain : workFn = some .myWrite := hs.plain v _ hmem
  have hfor : requestFor .myWrite d (.write d buf len workFn) = true := by
    rw [hplain]
    simp [requestFor, requestFn, requestFd]
  have hpos := Worker.jobs_pos hr hfor
  have hle := le_tally (·.ops d) (s.set w me) v
  have htotal := tally_set (·.ops d) s w me
  have harmed := hs.armed d
  rw [present_some hd] at harmed
  simp only [Server.ops, Worker.ops] at harmed htotal hle hops
  omega

theorem Inv.closed (hs : s.Inv tr) {e : UpEvent Handler} {rest : List (UpEvent Handler)}
    (he : (s.worker w).queue.undispatched = e :: rest) {h : Handler} (hfn : e.workFn = some h)
    (hh : h ≠ .myAccept) (hres : e.result = 0) (hp : s.shared.conns e.fd = some p)
    (a : Input n) (effects : List Effect) :
    Inv (tr ++ [(a, .dispatched e effects)])
      ((s.set w (onClose p (s.worker w).pop s.shared).1).share
        (onClose p (s.worker w).pop s.shared).2) := by
  obtain ⟨hpfd, hpos⟩ := hs.live _ _ hp
  have hne := ne_accept_of_isOp hfn hh
  rw [onClose_eq (by rw [hpfd]; exact hpos), hpfd]
  have hops : ∀ fd, (s.worker w).pop.ops fd + (if e.fd = fd then 1 else 0) =
      (s.worker w).ops fd := by
    intro fd
    rw [Worker.ops_pop he]
    simp [isOp_of_ne hfn hh]
  refine hs.change (d := e.fd) ?_ ?_ ?_ ?_ ?_ ?_ ?_ ?_ ?_ (hs.closed_separated hp ?_ rfl ?_ rfl)
  · exact fun r hr => .inl hr
  · exact fun e' he' => List.mem_of_mem_tail he'
  · rw [Worker.accepts_pop he, if_neg hne]
    rfl
  · exact fun fd hfd => Function.update_of_ne hfd _ _
  · exact fun fd q hfd hq => Function.update_of_ne (hs.record_ne hp hq hfd) _ _
  · intro q hq
    dsimp only at hq
    rw [Function.update_self] at hq
    cases hq
  · intro fd
    have hfd := hops fd
    change (s.worker w).pop.ops fd + _ + _ = _
    simp only [Output.failed, hres, lt_self_iff_false, false_and, and_false, decide_false,
      Bool.false_eq_true, if_false]
    by_cases heq : fd = e.fd
    · subst heq
      rw [if_pos rfl] at hfd
      rw [present_some hp, present_none (Function.update_self ..)]
      omega
    · rw [if_neg (Ne.symm heq)] at hfd
      simp only [present, Function.update_of_ne heq]
      omega
  · intro fd
    have hsame := opening_pop_of_ne he (.inl hne) fd
    change (s.worker w).pop.opening fd + _ + _ ≤ _
    by_cases heq : fd = e.fd
    · subst heq
      rw [present_some hp, present_none (Function.update_self ..)]
      split <;> omega
    · simp only [present, Function.update_of_ne heq]
      omega
  · exact hs.not_write hp (by rw [← hops, if_pos rfl]; rfl) rfl
  · intro b
    simp only [Worker.cached, Worker.pop, cacheFree, List.count_append,
      List.count_singleton, beq_iff_eq, eq_comm (b := b)]
    omega
  · exact fun q hq => Function.update_of_ne hq _ _

end Closed

/-! ## Accepting -/

section Accepted

variable {tr : List (Input n × Output)} {s : Server n} {w : Fin n}

/-- The record of a new connection was in no use. -/
theorem Inv.new_unowned (hs : s.Inv tr) (w : Fin n) (k : ℤ × Part) :
    ¬ Owns s.shared k (cacheAlloc (s.worker w).connCache s.shared.next).entry := by
  have hcount : ∀ b, Server.free (s.set w { s.worker w with
      connCache := (cacheAlloc (s.worker w).connCache s.shared.next).cache }) b +
      (s.worker w).connCache.count b =
        s.free b + (cacheAlloc (s.worker w).connCache s.shared.next).cache.count b := by
    intro b
    have hfree := tally_set (·.cached b) s w { s.worker w with
      connCache := (cacheAlloc (s.worker w).connCache s.shared.next).cache }
    simp only [free_eq, Worker.cached] at hfree ⊢
    omega
  exact cacheAlloc_unowned hs.separated hcount k

/-- `my_accept` gets a descriptor without a connection. -/
theorem Inv.vacant (hs : s.Inv tr) {e : UpEvent Handler}
    (he : e ∈ (s.worker w).queue.undispatched) (hfn : e.workFn = some .myAccept)
    (hres : 0 ≤ e.result) : s.shared.conns e.result = none := by
  have hpos : 0 < (s.worker w).opening e.result :=
    List.countP_pos_iff.mpr ⟨e, he, by simp [hfn, hres]⟩
  have hpart := le_tally (·.opening e.result) s w
  have hopen := hs.opening e.result
  cases hp : s.shared.conns e.result with
  | none => rfl
  | some p =>
      rw [present_some hp] at hopen
      simp only [Server.opening] at hopen
      split at hopen <;> omega

/-- The new connection of `d` takes a record, and then a buffer. -/
theorem Inv.accepted_separated (hs : s.Inv tr) {me : Worker} {sh : Shared} {d : ℤ}
    {new buf : Alloc}
    (hnew : new = cacheAlloc (s.worker w).connCache s.shared.next)
    (hbuf : buf = cacheAlloc (s.worker w).msgCache new.next)
    (hcached : ∀ b, me.cached b = buf.cache.count b + new.cache.count b)
    (hconns : sh.conns = Function.update s.shared.conns d (some new.entry))
    (hself : (sh.conn new.entry).buffer = buf.entry)
    (hconn : ∀ q, q ≠ new.entry → sh.conn q = s.shared.conn q) (hnext : sh.next = buf.next) :
    Separated (Server.free ((s.set w me).share sh)) (Owns sh) sh.next := by
  have hcountNew : ∀ b, Server.free (s.set w { s.worker w with connCache := new.cache }) b +
      (s.worker w).connCache.count b = s.free b + new.cache.count b := by
    intro b
    have hfree := tally_set (·.cached b) s w { s.worker w with connCache := new.cache }
    simp only [free_eq, Worker.cached] at hfree ⊢
    omega
  have hcountBuf : ∀ b, Server.free (s.set w me) b + (s.worker w).msgCache.count b =
      Server.free (s.set w { s.worker w with connCache := new.cache }) b +
        buf.cache.count b := by
    intro b
    have hfree := tally_set (·.cached b) s w me
    have hfreeNew := hcountNew b
    have hmore := hcached b
    simp only [free_eq, Worker.cached] at hfree hfreeNew hmore ⊢
    omega
  have htake : Separated (Server.free (s.set w { s.worker w with connCache := new.cache }))
      (fun k b => Owns s.shared k b ∨ (k = (d, Part.record) ∧ b = new.entry)) new.next := by
    rw [hnew] at hcountNew ⊢
    exact cacheAlloc_take hs.separated (d, .record) hcountNew fun k b ho => ho
  rw [hnext, hbuf]
  rw [hbuf] at hcountBuf
  refine cacheAlloc_take htake (d, Part.buffer) hcountBuf ?_
  rw [← hbuf]
  rintro ⟨fd, part⟩ b ho
  have hcases : ∀ {q}, sh.conns fd = some q →
      fd = d ∧ q = new.entry ∨ s.shared.conns fd = some q ∧ q ≠ new.entry := by
    intro q hq
    rw [hconns] at hq
    by_cases hfd : fd = d
    · rw [hfd, Function.update_self] at hq
      exact .inl ⟨hfd, (Option.some.inj hq).symm⟩
    · rw [Function.update_of_ne hfd] at hq
      refine .inr ⟨hq, ?_⟩
      rintro rfl
      rw [hnew] at hq
      exact hs.new_unowned w (fd, .record) hq
  cases part with
  | record =>
      rcases hcases ho with ⟨rfl, rfl⟩ | ⟨hold, -⟩
      · exact .inl (.inr ⟨rfl, rfl⟩)
      · exact .inl (.inl hold)
  | buffer =>
      obtain ⟨q, hq, hb⟩ := ho
      rcases hcases hq with ⟨rfl, rfl⟩ | ⟨hold, hne⟩
      · exact .inr ⟨rfl, hb.symm.trans hself⟩
      · rw [hconn q hne] at hb
        exact .inl (.inl ⟨q, hold, hb⟩)

theorem Inv.accepted (hs : s.Inv tr) {e : UpEvent Handler} {rest : List (UpEvent Handler)}
    (he : (s.worker w).queue.undispatched = e :: rest) (hfn : e.workFn = some .myAccept)
    (hres : 0 ≤ e.result) (a : Input n) (effects : List Effect) :
    Inv (tr ++ [(a, .dispatched e effects)])
      ((s.set w (myAccept e (s.worker w).pop s.shared).1).share
        (myAccept e (s.worker w).pop s.shared).2) := by
  rw [myAccept, if_neg (not_lt.mpr hres)]
  obtain ⟨new, hnew⟩ : ∃ new, new = cacheAlloc (s.worker w).pop.connCache s.shared.next :=
    ⟨_, rfl⟩
  obtain ⟨buf, hbuf⟩ : ∃ buf, buf = cacheAlloc (s.worker w).pop.msgCache new.next := ⟨_, rfl⟩
  obtain ⟨mid, hmid⟩ : ∃ mid : Worker, mid = { (s.worker w).pop with
    acceptCount := (s.worker w).pop.acceptCount + 1
    connCache := new.cache
    msgCache := buf.cache } := ⟨_, rfl⟩
  obtain ⟨me, hme⟩ : ∃ me : Worker, me = (mid.request (.read e.result (some .myRead))).request
    (.accept e.fd (some .myAccept)) := ⟨_, rfl⟩
  simp only [← hnew, ← hbuf, ← hmid, ← hme]
  have hnone := hs.vacant (w := w) (by rw [he]; exact List.mem_cons_self) hfn hres
  have hrecord : ∀ fd q, s.shared.conns fd = some q → q ≠ new.entry := by
    rintro fd q hq rfl
    rw [hnew] at hq
    exact hs.new_unowned w (fd, .record) hq
  have hrequests : ∀ r ∈ me.requests, r ∈ (s.worker w).requests ∨ Idle r ∨
      r = .read e.result (some .myRead) := by
    intro r hr
    rw [hme, Worker.requests_request, Worker.requests_request, hmid] at hr
    rcases hr with (hr | rfl) | rfl
    · exact .inl hr
    · exact .inr (.inr rfl)
    · exact .inr (.inl rfl)
  refine hs.change (d := e.result) hrequests ?_ ?_ ?_ ?_ ?_ ?_ ?_ ?_
    (hs.accepted_separated hnew hbuf ?_ rfl ?_ ?_ rfl)
  · intro e' he'
    rw [hme, hmid] at he'
    exact List.mem_of_mem_tail he'
  · have hacc := Worker.accepts_pop he
    rw [if_pos hfn] at hacc
    rw [hacc, hme, Worker.accepts_request, Worker.accepts_request, hmid]
    simp [requestFn]
    rfl
  · exact fun fd hfd => Function.update_of_ne hfd _ _
  · exact fun fd q _ hq => Function.update_of_ne (hrecord fd q hq) _ _
  · intro q hq
    dsimp only at hq
    rw [Function.update_self] at hq
    cases hq
    dsimp only
    rw [Function.update_self]
    exact ⟨rfl, hres⟩
  · intro fd
    have hpop := Worker.ops_pop he fd
    have hsame : me.ops fd = mid.ops fd + if e.result = fd then 1 else 0 := by
      rw [hme, Worker.ops_request, Worker.ops_request]
      simp [requestFor, requestFn, requestFd]
    have hmidops : mid.ops fd = (s.worker w).pop.ops fd := by rw [hmid]; rfl
    simp only [not_isOp hfn, Bool.false_eq_true, false_and, if_false] at hpop
    simp only [Output.failed, not_isOp hfn, Bool.false_eq_true, false_and, decide_false,
      if_false]
    by_cases heq : fd = e.result
    · subst heq
      rw [if_pos rfl] at hsame
      rw [present_none hnone, present_some (p := new.entry) (Function.update_self ..)]
      omega
    · rw [if_neg (Ne.symm heq)] at hsame
      simp only [present, Function.update_of_ne heq]
      omega
  · intro fd
    have hpop := Worker.opening_pop he fd
    have hsame : me.opening fd = (s.worker w).pop.opening fd := by rw [hme, hmid]; rfl
    by_cases heq : fd = e.result
    · subst heq
      rw [if_pos ⟨hfn, rfl, hres⟩] at hpop
      rw [present_none hnone, present_some (p := new.entry) (Function.update_self ..)]
      dsimp only
      omega
    · rw [if_neg (by rintro ⟨-, rfl, -⟩; exact heq rfl)] at hpop
      simp only [present, Function.update_of_ne heq]
      omega
  · intro v buf' len workFn hr
    have hold : ∀ v, ∀ r ∈ ((s.set w me).worker v).requests, r ∈ (s.worker v).requests ∨
        Idle r ∨ r = .read e.result (some .myRead) :=
      forall_set (P := fun v (me : Worker) => ∀ r ∈ me.requests, r ∈ (s.worker v).requests ∨
        Idle r ∨ r = .read e.result (some .myRead)) hrequests fun v _ r hr => .inl hr
    rcases hold v _ hr with hr | hr | hr
    · obtain ⟨q, hq, -⟩ := hs.writes v _ _ _ _ hr
      rw [hnone] at hq
      cases hq
    · exact hr
    · cases hr
  · intro b
    rw [hme, hmid]
    rfl
  · dsimp only
    rw [Function.update_self]
  · exact fun q hq => Function.update_of_ne hq _ _

end Accepted

/-! ## All steps -/

theorem inv_start {s : Server n} (hs : s.Start) : s.Inv [] := by
  have hjobs : ∀ w h fd, h ≠ .myAccept → (s.worker w).jobs h fd = 0 := by
    intro w h fd hh
    rw [Worker.jobs, hs.queue, hs.outstanding]
    simp [setupQueue, requestFor, requestFn, Ne.symm hh]
  have hrequests : ∀ w r, r ∈ (s.worker w).requests →
      r = .vec BUF_COUNT ∨ r = .accept (s.worker w).listenSock (some .myAccept) := by
    intro w r hr
    rw [Worker.requests, hs.queue, hs.outstanding] at hr
    simpa [setupQueue] using hr
  refine ⟨?_, ?_, ?_, ?_, ?_, ?_, ?_, ⟨hs.cached, ?_, ?_, ?_⟩⟩
  · intro fd p hp
    rw [hs.conns] at hp
    cases hp
  · intro w r hr
    rcases hrequests w r hr with rfl | rfl
    · trivial
    · exact rfl
  · intro w e he
    rw [hs.queue] at he
    cases he
  · intro fd
    have hops : s.ops fd = 0 := by
      refine tally_eq_zero ?_
      intro w
      rw [Worker.ops, hjobs w _ fd (by simp), hjobs w _ fd (by simp)]
    rw [hops, present_none (hs.conns fd)]
    rfl
  · intro fd
    have hopening : s.opening fd = 0 := by
      refine tally_eq_zero ?_
      intro w
      rw [Worker.opening, hs.queue]
      rfl
    rw [hopening, present_none (hs.conns fd)]
    exact Nat.zero_le _
  · intro w
    rw [Worker.accepts, hs.queue, hs.outstanding]
    simp [setupQueue, requestFn]
  · intro w fd buf len workFn hr
    rcases hrequests w _ hr with hr | hr <;> cases hr
  · rintro ⟨fd, part⟩ b ho
    cases part with
    | record => simp [Owns, hs.conns] at ho
    | buffer => simp [Owns, hs.conns] at ho
  · rintro ⟨fd, part⟩ k b ho
    cases part with
    | record => simp [Owns, hs.conns] at ho
    | buffer => simp [Owns, hs.conns] at ho
  · intro b hb
    refine ⟨hs.fresh b hb, ?_⟩
    rintro ⟨fd, part⟩ ho
    cases part with
    | record => simp [Owns, hs.conns] at ho
    | buffer => simp [Owns, hs.conns] at ho

theorem Inv.handled {tr : List (Input n × Output)} {s s' : Server n} (hs : s.Inv tr)
    {w : Fin n} {e : UpEvent Handler} {rest : List (UpEvent Handler)} {effects : List Effect}
    (he : (s.worker w).queue.undispatched = e :: rest) (h : Handled msgSize s w e s' effects)
    (a : Input n) : s'.Inv (tr ++ [(a, .dispatched e effects)]) := by
  cases h with
  | refused hfn hres => exact hs.refused he hfn hres a _
  | accepted hfn hres => exact hs.accepted he hfn hres a _
  | closed hfn hh hres hp => exact hs.closed he hfn hh hres hp a _
  | failed hfn hh hres hp hfd hbuf hcur => exact hs.failed he hfn hh hres hfd hbuf a _
  | rearmed hfn hh hres hp hfd hbuf hr hcopy =>
      exact hs.rearmed he hfn hh hres hp hfd hbuf (hr.continues msgSize) a _

theorem Inv.step {tr : List (Input n × Output)} {s s' : Server n} (hs : s.Inv tr)
    {a : Input n} {o : Output} (h : s.step msgSize a = some (s', o)) :
    s'.Inv (tr ++ [(a, o)]) := by
  cases a with
  | submit w => exact hs.submit h
  | complete w i result buf len => exact hs.complete h
  | receive w => exact hs.receive h
  | dispatch w =>
      obtain ⟨e, rest, effects, he, rfl, hhandled⟩ := dispatch_spec hs.live h
      exact hs.handled he hhandled _

theorem reaches_inv {tr : List (Input n × Output)} {s : Server n}
    (h : (echoServer n msgSize).Reaches tr s) : s.Inv tr := by
  induction h with
  | init hs => exact inv_start hs
  | step _ hstep ih => exact ih.step hstep

end Server

end Upcalls.UpcallEcho
