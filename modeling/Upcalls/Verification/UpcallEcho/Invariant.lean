import Upcalls.Library.Ownership
import Upcalls.Verification.UpcallEcho.Equations

/-! # Who may touch a connection

A connection in `conns[]` has at most one read or write request on its way. The count
is kept exact: a connection without one is a connection whose last request failed.
-/

namespace Upcalls.UpcallEcho

open Library LibUpcall TcpEcho

/-! ## Failed requests -/

/-- A read or write completion. -/
def isOp (e : UpEvent Handler) : Bool :=
  e.workFn = some .myRead ∨ e.workFn = some .myWrite

/-- A handler was given an error for `fd`. -/
def Output.failed (fd : ℤ) : Output → Bool
  | .silent => false
  | .dispatched e _ => isOp e ∧ e.result < 0 ∧ e.fd = fd

def failures {n : ℕ} (tr : List (Input n × Output)) (fd : ℤ) : ℕ :=
  tr.countP fun x => x.2.failed fd

theorem failures_snoc {n : ℕ} (tr : List (Input n × Output)) (x : Input n × Output) (fd : ℤ) :
    failures (tr ++ [x]) fd = failures tr fd + if x.2.failed fd then 1 else 0 := by
  simp [failures, List.countP_append, List.countP_singleton]

theorem isOp_of_ne {e : UpEvent Handler} {h : Handler} (he : e.workFn = some h)
    (hh : h ≠ .myAccept) : isOp e = true := by
  cases h <;> simp_all [isOp]

theorem not_isOp {e : UpEvent Handler} (he : e.workFn = some .myAccept) : isOp e = false := by
  simp [isOp, he]

namespace Worker

theorem ops_pop {me : Worker} {e : UpEvent Handler} {rest : List (UpEvent Handler)}
    (he : me.queue.undispatched = e :: rest) (fd : ℤ) :
    me.ops fd = me.pop.ops fd + if isOp e ∧ e.fd = fd then 1 else 0 := by
  rw [ops, ops, jobs_pop he, jobs_pop he]
  cases hfn : e.workFn with
  | none => simp [eventFor, isOp, hfn]
  | some h => cases h <;> by_cases hfd : e.fd = fd <;> simp [eventFor, isOp, hfn, hfd] <;> omega

theorem ops_request (fd : ℤ) (me : Worker) (r : Request Handler) :
    (me.request r).ops fd =
      me.ops fd + (if requestFor .myRead fd r then 1 else 0) +
        if requestFor .myWrite fd r then 1 else 0 := by
  rw [ops, ops, jobs_request, jobs_request]
  omega

/-- The request that continues a connection is one read or write on its descriptor. -/
theorem ops_continues {conn : Connection} {r : Request Handler} (hr : Continues conn r)
    (fd : ℤ) (me : Worker) :
    (me.request r).ops fd = me.ops fd + if conn.fd = fd then 1 else 0 := by
  rw [ops_request]
  rcases hr with rfl | ⟨buf, len, rfl, -⟩
  · simp [requestFor, requestFn, requestFd]
  · simp [requestFor, requestFn, requestFd]

theorem accepts_continues {conn : Connection} {r : Request Handler} (hr : Continues conn r)
    (me : Worker) : (me.request r).accepts = me.accepts := by
  rcases hr with rfl | ⟨buf, len, rfl, -⟩
  · simp [requestFn]
  · simp [requestFn]

end Worker

/-! ## The invariant -/

/-- The two blocks of a connection. -/
inductive Part
  | record
  | buffer

def Owns (sh : Shared) : ℤ × Part → ℕ → Prop
  | (fd, .record), b => sh.conns fd = some b
  | (fd, .buffer), b => ∃ p, sh.conns fd = some p ∧ (sh.conn p).buffer = b

namespace Server

open Team

variable {n msgSize : ℕ}

/-- Reads and writes on `fd` of all workers. -/
def ops (s : Server n) (fd : ℤ) : ℕ := s.tally (·.ops fd)

def opening (s : Server n) (fd : ℤ) : ℕ := s.tally (·.opening fd)

def present (sh : Shared) (fd : ℤ) : ℕ := if (sh.conns fd).isSome then 1 else 0

structure Inv (tr : List (Input n × Output)) (s : Server n) : Prop where
  live : Live s.shared
  plain : ∀ w, ∀ r ∈ (s.worker w).requests, Plain r
  called : ∀ w, ∀ e ∈ (s.worker w).queue.undispatched, e.workFn.isSome = true
  armed : ∀ fd, s.ops fd + failures tr fd = present s.shared fd
  opening : ∀ fd, s.opening fd + present s.shared fd ≤ if s.shared.opened fd then 1 else 0
  accepts : ∀ w, (s.worker w).accepts = 1
  writes : ∀ w fd buf len workFn, .write fd buf len workFn ∈ (s.worker w).requests →
    ∃ p, s.shared.conns fd = some p ∧ buf.block = (s.shared.conn p).buffer
  separated : Separated s.free (Owns s.shared) s.shared.next

theorem free_eq (s : Server n) (b : ℕ) : s.free b = s.tally (·.cached b) := rfl

theorem present_le_one (sh : Shared) (fd : ℤ) : present sh fd ≤ 1 := by
  rw [present]
  split <;> omega

theorem present_some {sh : Shared} {fd : ℤ} {p : ℕ} (h : sh.conns fd = some p) :
    present sh fd = 1 := by
  simp [present, h]

theorem present_none {sh : Shared} {fd : ℤ} (h : sh.conns fd = none) : present sh fd = 0 := by
  simp [present, h]

/-- A descriptor with an operation has a connection. -/
theorem Inv.conn_of_ops {tr : List (Input n × Output)} {s : Server n} (hs : s.Inv tr)
    {fd : ℤ} (h : 0 < s.ops fd) : ∃ p, s.shared.conns fd = some p := by
  have harmed := hs.armed fd
  cases hp : s.shared.conns fd with
  | some p => exact ⟨p, rfl⟩
  | none =>
      rw [present_none hp] at harmed
      omega

/-! ## Steps that open and close no connection -/

/-- A request that is for no connection. -/
def Idle : Request Handler → Prop
  | .vec _ => True
  | .accept _ workFn => workFn = some .myAccept
  | .read _ _ | .write _ _ _ _ | .close _ _ => False

theorem opening_set (s : Server n) (w : Fin n) (me : Worker) (sh : Shared) (fd : ℤ) :
    Server.opening ((s.set w me).share sh) fd + (s.worker w).opening fd =
      s.opening fd + me.opening fd :=
  tally_set (·.opening fd) s w me

/-- Each request of the worker is an old one, is idle or continues a connection, and the
worker has lost an operation only where one failed. -/
theorem Inv.advance {tr : List (Input n × Output)} {s : Server n} (hs : s.Inv tr) {w : Fin n}
    {me : Worker} (sh : Shared) {x : Input n × Output}
    (hops : ∀ fd, me.ops fd + (if x.2.failed fd then 1 else 0) = (s.worker w).ops fd)
    (haccepts : me.accepts = (s.worker w).accepts)
    (hcached : ∀ b, me.cached b = (s.worker w).cached b)
    (hrequests : ∀ r ∈ me.requests, r ∈ (s.worker w).requests ∨ Idle r ∨
      ∃ fd p, s.shared.conns fd = some p ∧ Continues (s.shared.conn p) r)
    (hcalled : ∀ e ∈ me.queue.undispatched, e ∈ (s.worker w).queue.undispatched ∨
      e.workFn.isSome = true)
    (hconns : sh.conns = s.shared.conns) (hnext : sh.next = s.shared.next)
    (hconn : ∀ p, (sh.conn p).fd = (s.shared.conn p).fd ∧
      (sh.conn p).buffer = (s.shared.conn p).buffer)
    (hopening : ∀ fd, Server.opening ((s.set w me).share sh) fd + present sh fd ≤
      if sh.opened fd then 1 else 0) :
    Inv (tr ++ [x]) ((s.set w me).share sh) := by
  have hold : ∀ v r, r ∈ ((s.set w me).worker v).requests →
      r ∈ (s.worker v).requests ∨ Idle r ∨
        ∃ fd p, s.shared.conns fd = some p ∧ Continues (s.shared.conn p) r := by
    refine forall_set (P := fun v (me : Worker) => ∀ r ∈ me.requests,
      r ∈ (s.worker v).requests ∨ Idle r ∨
        ∃ fd p, s.shared.conns fd = some p ∧ Continues (s.shared.conn p) r) hrequests ?_
    intro v _ r hr
    exact .inl hr
  refine ⟨?_, ?_, ?_, ?_, hopening, ?_, ?_, ?_⟩
  · intro fd p hp
    rw [share_shared, hconns] at hp
    rw [share_shared, (hconn p).1]
    exact hs.live fd p hp
  · intro v r hr
    rcases hold v r hr with hr | hr | ⟨fd, p, -, rfl | ⟨buf, len, rfl, -⟩⟩
    · exact hs.plain v r hr
    · cases r <;> simp_all [Idle, Plain]
    · exact rfl
    · exact rfl
  · refine forall_set (P := fun _ (me : Worker) => ∀ e ∈ me.queue.undispatched,
      e.workFn.isSome = true) ?_ fun v _ => hs.called v
    intro e he
    rcases hcalled e he with he | he
    · exact hs.called w e he
    · exact he
  · intro fd
    have htotal := tally_set (·.ops fd) s w me
    have hshare := hops fd
    have harmed := hs.armed fd
    simp only [Server.ops, failures_snoc, present, share_shared, tally_share, hconns]
      at harmed htotal ⊢
    omega
  · refine forall_set (P := fun _ (me : Worker) => me.accepts = 1) ?_ fun v _ => hs.accepts v
    rw [haccepts]
    exact hs.accepts w
  · intro v fd buf len workFn hr
    rw [share_shared, hconns]
    rcases hold v _ hr with hr | hr | ⟨fd', p, hp, hr | ⟨buf', len', hr, hbuf⟩⟩
    · obtain ⟨p, hp, hbuf⟩ := hs.writes v fd buf len workFn hr
      exact ⟨p, hp, by rw [(hconn p).2]; exact hbuf⟩
    · exact hr.elim
    · cases hr
    · cases hr
      rw [(hs.live fd' p hp).1]
      exact ⟨p, hp, by rw [(hconn p).2]; exact hbuf⟩
  · rw [share_shared, hnext]
    refine hs.separated.mono ?_ ?_
    · intro b
      have hfree := tally_set (·.cached b) s w me
      simp only [hcached b] at hfree
      rw [free_eq, free_eq, tally_share]
      omega
    · rintro ⟨fd, part⟩ b ho
      cases part with
      | record => simpa only [Owns, share_shared, hconns] using ho
      | buffer =>
          obtain ⟨p, hp, hb⟩ : ∃ p, sh.conns fd = some p ∧ (sh.conn p).buffer = b := ho
          rw [hconns] at hp
          rw [(hconn p).2] at hb
          exact ⟨p, hp, hb⟩

/-! ## The kernel's steps -/

theorem Inv.submit {tr : List (Input n × Output)} {s s' : Server n} (hs : s.Inv tr)
    {w : Fin n} {o : Output} (h : s.step msgSize (.submit w) = some (s', o)) :
    s'.Inv (tr ++ [(.submit w, o)]) := by
  obtain ⟨hnil, rfl, rfl⟩ := submit_spec h
  refine hs.advance s.shared ?_ (Worker.accepts_enter hnil)
    (fun b => Worker.cached_enter b _) ?_ (by simp [Worker.enter]) rfl rfl
    (fun p => ⟨rfl, rfl⟩) ?_
  · intro fd
    simp [Worker.ops, Worker.jobs_enter hnil, Output.failed]
  · intro r hr
    rcases Worker.requests_enter _ hr with hr | ⟨len, rfl⟩
    · exact .inl hr
    · exact .inr (.inl trivial)
  · intro fd
    have hset := opening_set s w (s.worker w).enter s.shared fd
    rw [Worker.opening_enter hnil] at hset
    have hopening := hs.opening fd
    omega

theorem Inv.receive {tr : List (Input n × Output)} {s s' : Server n} (hs : s.Inv tr)
    {w : Fin n} {o : Output} (h : s.step msgSize (.receive w) = some (s', o)) :
    s'.Inv (tr ++ [(.receive w, o)]) := by
  obtain ⟨rfl, rfl⟩ := receive_spec h
  refine hs.advance s.shared (fun fd => rfl) rfl (fun b => rfl) (fun r hr => .inl hr)
    (fun e he => .inl he) rfl rfl (fun p => ⟨rfl, rfl⟩) ?_
  intro fd
  have hset := opening_set s w { s.worker w with inKernel := false } s.shared fd
  have hopening := hs.opening fd
  have hfd : ({ s.worker w with inKernel := false } : Worker).opening fd =
      (s.worker w).opening fd := rfl
  omega

/-- An accept completes with a descriptor that no connection and no other completed
accept has. -/
theorem Inv.complete {tr : List (Input n × Output)} {s s' : Server n} (hs : s.Inv tr)
    {w : Fin n} {i : ℕ} {result : ℤ} {buf : Ptr} {len : ℕ} {o : Output}
    (h : s.step msgSize (.complete w i result buf len) = some (s', o)) :
    s'.Inv (tr ++ [(.complete w i result buf len, o)]) := by
  obtain ⟨r, sh, hr, hopen, rfl, rfl⟩ := complete_spec h
  have hplain := hs.plain w r (List.mem_append_right _ (List.mem_of_getElem? hr))
  have hset := opening_set s w ((s.worker w).arrive i (completion r result buf len)) sh
  simp only [Worker.opening_arrive] at hset
  have hsame : sh.conns = s.shared.conns ∧ sh.next = s.shared.next ∧
      sh.conn = s.shared.conn := by
    rcases openFor_spec hopen with ⟨-, -, -, rfl⟩ | ⟨-, rfl⟩ <;> exact ⟨rfl, rfl, rfl⟩
  refine hs.advance sh ?_ (Worker.accepts_arrive hr result buf len)
    (fun b => Worker.cached_arrive b _ i _) (fun r hr => .inl (Worker.requests_arrive hr))
    (fun e he => Worker.undispatched_arrive he) hsame.1 hsame.2.1 (fun p => by rw [hsame.2.2]; exact ⟨rfl, rfl⟩) ?_
  · intro fd
    simp [Worker.ops, Worker.jobs_arrive hr, Output.failed]
  · intro fd
    have hopening := hs.opening fd
    have hset := hset fd
    rcases openFor_spec hopen with ⟨htype, hres, hclosed, rfl⟩ | ⟨hnot, rfl⟩
    · by_cases hfd : fd = (completion r result buf len).result
      · subst hfd
        rw [hclosed] at hopening
        simp only [Function.update_self, present, Bool.false_eq_true, if_false] at hopening ⊢
        split at hset <;> simp <;> omega
      · rw [if_neg (by tauto)] at hset
        simp only [Function.update_of_ne hfd, present] at hopening ⊢
        omega
    · rw [if_neg] at hset
      · omega
      · rintro ⟨hfn, rfl, hpos⟩
        rw [Worker.completion_workFn] at hfn
        obtain ⟨fd, rfl⟩ := hplain.accept hfn
        exact hnot ⟨rfl, hpos⟩

/-! ## Exits that keep the connection -/

theorem opening_pop_of_ne {me : Worker} {e : UpEvent Handler} {rest : List (UpEvent Handler)}
    (he : me.queue.undispatched = e :: rest) (hfn : e.workFn ≠ some .myAccept ∨ e.result < 0)
    (fd : ℤ) : me.pop.opening fd = me.opening fd := by
  rw [Worker.opening_pop he, if_neg, Nat.add_zero]
  rintro ⟨hacc, rfl, hpos⟩
  rcases hfn with hfn | hneg
  · exact hfn hacc
  · omega

/-- The opening count stays when only the dispatched completion is gone. -/
theorem Inv.opening_popped {tr : List (Input n × Output)} {s : Server n} (hs : s.Inv tr)
    {w : Fin n} {me : Worker} {e : UpEvent Handler} {rest : List (UpEvent Handler)}
    (he : (s.worker w).queue.undispatched = e :: rest)
    (hfn : e.workFn ≠ some .myAccept ∨ e.result < 0)
    (hme : ∀ fd, me.opening fd = (s.worker w).pop.opening fd) (sh : Shared)
    (hconns : sh.conns = s.shared.conns) (hopened : sh.opened = s.shared.opened) (fd : ℤ) :
    Server.opening ((s.set w me).share sh) fd + present sh fd ≤
      if sh.opened fd then 1 else 0 := by
  have hset := opening_set s w me sh fd
  rw [hme, opening_pop_of_ne he hfn] at hset
  have hopening := hs.opening fd
  rw [present, hconns, hopened, ← present]
  omega

theorem ne_accept_of_isOp {e : UpEvent Handler} {h : Handler} (hfn : e.workFn = some h)
    (hh : h ≠ .myAccept) : e.workFn ≠ some .myAccept := by
  rw [hfn]
  simpa using hh

theorem Inv.refused {tr : List (Input n × Output)} {s : Server n} (hs : s.Inv tr) {w : Fin n}
    {e : UpEvent Handler} {rest : List (UpEvent Handler)}
    (he : (s.worker w).queue.undispatched = e :: rest) (hfn : e.workFn = some .myAccept)
    (hres : e.result < 0) (a : Input n) (effects : List Effect) :
    Inv (tr ++ [(a, .dispatched e effects)])
      (s.set w ((s.worker w).pop.request (.accept e.fd (some .myAccept)))) := by
  refine hs.advance s.shared ?_ ?_ (fun b => rfl) ?_
    (fun e' he' => .inl (List.mem_of_mem_tail he')) rfl rfl (fun p => ⟨rfl, rfl⟩) ?_
  · intro fd
    rw [Worker.ops_pop he, Worker.ops_request]
    simp [Output.failed, not_isOp hfn, requestFor, requestFn]
  · rw [Worker.accepts_pop he, Worker.accepts_request]
    simp [hfn, requestFn]
  · intro r hr
    rcases Worker.requests_request.mp hr with hr | rfl
    · exact .inl hr
    · exact .inr (.inl rfl)
  · exact hs.opening_popped he (.inr hres) (by intro fd; rfl) _ (by rfl) (by rfl)

/-- A record that keeps its descriptor and its buffer. -/
theorem conn_update {conn : ℕ → Connection} {p : ℕ} {c : Connection}
    (hfd : c.fd = (conn p).fd) (hbuf : c.buffer = (conn p).buffer) (q : ℕ) :
    (Function.update conn p c q).fd = (conn q).fd ∧
      (Function.update conn p c q).buffer = (conn q).buffer := by
  by_cases hq : q = p
  · subst hq
    rw [Function.update_self]
    exact ⟨hfd, hbuf⟩
  · rw [Function.update_of_ne hq]
    exact ⟨rfl, rfl⟩

theorem Inv.failed {tr : List (Input n × Output)} {s : Server n} (hs : s.Inv tr) {w : Fin n}
    {e : UpEvent Handler} {rest : List (UpEvent Handler)}
    (he : (s.worker w).queue.undispatched = e :: rest) {h : Handler} (hfn : e.workFn = some h)
    (hh : h ≠ .myAccept) (hres : e.result < 0) {p : ℕ} {c : Connection}
    (hfd : c.fd = (s.shared.conn p).fd) (hbuf : c.buffer = (s.shared.conn p).buffer)
    (a : Input n) (effects : List Effect) :
    Inv (tr ++ [(a, .dispatched e effects)]) ((s.set w (s.worker w).pop).share
      { s.shared with conn := Function.update s.shared.conn p c }) := by
  have hne := ne_accept_of_isOp hfn hh
  refine hs.advance _ ?_ ?_ (fun b => rfl) (fun r hr => .inl hr)
    (fun e' he' => .inl (List.mem_of_mem_tail he')) (by rfl) (by rfl)
    (conn_update hfd hbuf) ?_
  · intro fd
    rw [Worker.ops_pop he]
    simp [Output.failed, isOp_of_ne hfn hh, hres]
  · rw [Worker.accepts_pop he, if_neg hne, Nat.add_zero]
  · exact hs.opening_popped he (.inl hne) (by intro fd; rfl) _ (by rfl) (by rfl)

theorem Inv.rearmed {tr : List (Input n × Output)} {s : Server n} (hs : s.Inv tr) {w : Fin n}
    {e : UpEvent Handler} {rest : List (UpEvent Handler)}
    (he : (s.worker w).queue.undispatched = e :: rest) {h : Handler} (hfn : e.workFn = some h)
    (hh : h ≠ .myAccept) (hres : 0 < e.result) {p : ℕ} (hp : s.shared.conns e.fd = some p)
    {c : Connection} (hfd : c.fd = (s.shared.conn p).fd)
    (hbuf : c.buffer = (s.shared.conn p).buffer) {k : ℕ} {r : Request Handler}
    (hr : Continues (s.shared.conn p) r) (a : Input n) (effects : List Effect) :
    Inv (tr ++ [(a, .dispatched e effects)])
      ((s.set w (Worker.request r { (s.worker w).pop with
          queue := { (s.worker w).pop.queue with
            returned := (s.worker w).pop.queue.returned + k } })).share
        { s.shared with conn := Function.update s.shared.conn p c }) := by
  have hne := ne_accept_of_isOp hfn hh
  refine hs.advance _ ?_ ?_ (fun b => rfl) ?_
    (fun e' he' => .inl (List.mem_of_mem_tail he')) (by rfl) (by rfl)
    (conn_update hfd hbuf) ?_
  · intro fd
    have hneg : ¬ e.result < 0 := by omega
    rw [Worker.ops_pop he, Worker.ops_continues hr, (hs.live _ _ hp).1]
    simp only [Output.failed, isOp_of_ne hfn hh, hneg, true_and, false_and, and_false,
      decide_false, Bool.false_eq_true, if_false, Nat.add_zero]
    rfl
  · rw [Worker.accepts_continues hr, Worker.accepts_pop he, if_neg hne]
    rfl
  · intro q hq
    rcases Worker.requests_request.mp hq with hq | rfl
    · exact .inl hq
    · exact .inr (.inr ⟨e.fd, p, hp, hr⟩)
  · exact hs.opening_popped he (.inl hne) (by intro fd; rfl) _ (by rfl) (by rfl)

end Server

end Upcalls.UpcallEcho
