import Upcalls.Library.Ledger
import Upcalls.Verification.Epoll.Handoff

/-! # What the epoll server counts

A worker counts an accept before it hands the connection to its owner, and the owner counts
the close. Between the two the descriptor may be on a list, in the hands of a worker or in
a record, and it was accepted wherever it is.
-/

namespace Upcalls.Epoll

open Library TcpEcho

variable {n msgSize : ℕ}

/-! ## The descriptors that the server knows -/

/-- The descriptors that the worker has in its hands satisfy `Q`. -/
def Pc.Knows (Q : ℤ → Prop) (conn : ℕ → Connection) : Pc n → Prop
  | .push fd _ | .install fd => Q fd
  | .onRead (some p) | .read p _ | .write p _ | .onClose (some p) _ => Q (conn p).fd
  | _ => True

structure Worker.Knows (Q : ℤ → Prop) (conn : ℕ → Connection) (me : Worker n) : Prop where
  incoming : ∀ fd ∈ me.incoming, Q fd
  pc : me.pc.Knows Q conn

theorem Pc.Knows.mono {Q : ℤ → Prop} {conn conn' : ℕ → Connection} {pc : Pc n}
    (h : pc.Knows Q conn) (hconn : ∀ p, Q (conn p).fd → Q (conn' p).fd) :
    pc.Knows Q conn' := by
  cases pc with
  | push fd owner => exact h
  | install fd => exact h
  | read p cursor => exact hconn p h
  | write p cursor => exact hconn p h
  | onRead conn =>
      cases conn with
      | none => exact trivial
      | some p => exact hconn p h
  | onClose conn rest =>
      cases conn with
      | none => exact trivial
      | some p => exact hconn p h
  | _ => exact trivial

theorem Pc.InRead.knows {Q : ℤ → Prop} {conn : ℕ → Connection} {pc : Pc n} {p : ℕ}
    (h : pc.InRead p) (hpc : pc.Knows Q conn) : Q (conn p).fd := by
  cases pc with
  | read q cursor =>
      cases h
      exact hpc
  | write q cursor =>
      cases h
      exact hpc
  | _ => exact h.elim

namespace Server

open Team

def books (s : Server n) : Books ℤ where
  opened := s.shared.opened
  waiting _ := 0
  ins := s.tally (·.acceptCount)
  outs := s.tally (·.connCount)

/-- The server knows only descriptors that satisfy `Q`. -/
structure Knows (Q : ℤ → Prop) (s : Server n) : Prop where
  worker : ∀ w, (s.worker w).Knows Q s.shared.conn
  conns : ∀ fd p, s.shared.conns fd = some p → Q (s.shared.conn p).fd

structure Accounted (Q : ℤ → Prop) (s s' : Server n) : Prop where
  booked : Books.Step Q s.books s'.books
  knows : s'.Knows Q

variable {Q : ℤ → Prop} {tr : List (Input n × Output n)} {s s' : Server n} {w : Fin n}

theorem Knows.change (hk : s.Knows Q) {me : Worker n} {t : Table}
    (hme : me.Knows Q t.conn)
    (hconn : ∀ p, Q (s.shared.conn p).fd → Q (t.conn p).fd)
    (hconns : ∀ fd p, t.conns fd = some p → Q (t.conn p).fd) :
    Knows Q ((s.set w me).share t) := by
  refine ⟨?_, hconns⟩
  refine forall_set (P := fun _ (me : Worker n) => me.Knows Q t.conn) hme ?_
  intro v _
  exact ⟨(hk.worker v).incoming, (hk.worker v).pc.mono hconn⟩

theorem Knows.conns_pc (hk : s.Knows Q) (fd : ℤ) : (Pc.onRead (s.shared.conns fd) : Pc n).Knows Q
    s.shared.conn := by
  cases hp : s.shared.conns fd with
  | none => exact trivial
  | some p => exact hk.conns fd p hp

/-- A step of one worker that leaves the counters and the descriptors alone. -/
theorem Knows.quiet {me : Worker n} {t : Table} (hk : Knows Q ((s.set w me).share t))
    (haccepts : me.acceptCount = (s.worker w).acceptCount)
    (hcloses : me.connCount = (s.worker w).connCount) (hopened : t.opened = s.shared.opened) :
    Accounted Q s ((s.set w me).share t) := by
  refine ⟨?_, hk⟩
  have hbooks : books ((s.set w me).share t) = s.books := by
    rw [books, tally_share, tally_share, tally_set_eq haccepts, tally_set_eq hcloses,
      share_shared, hopened]
    rfl
  rw [hbooks]
  exact .same

/-- A step that moves the worker and nothing else. -/
theorem Knows.moved (hk : s.Knows Q) {pc : Pc n} (hpc : pc.Knows Q s.shared.conn)
    (events : List Event) :
    Accounted Q s (s.set w { s.worker w with pc := pc, events := events }) := by
  have hknows : Knows Q ((s.set w { s.worker w with pc := pc, events := events }).share
      s.shared) := hk.change ⟨(hk.worker w).incoming, hpc⟩ (fun _ h => h) hk.conns
  exact hknows.quiet (by rfl) (by rfl) rfl

/-! ## The steps -/

/-- What a worker gives to another, or rings for it, is not counted. -/
theorem Knows.delivered (hk : s.Knows Q) {owner : Fin n} {me : Worker n} (items : List ℤ)
    (k : ℕ) (hme : me.Knows Q s.shared.conn) (hitems : ∀ fd ∈ items, Q fd)
    (haccepts : me.acceptCount = (s.worker w).acceptCount)
    (hcloses : me.connCount = (s.worker w).connCount) :
    Accounted Q s ((s.set w me).modify owner (deliver items k)) := by
  refine ⟨?_, ?_, hk.conns⟩
  · have hbooks : books ((s.set w me).modify owner (deliver items k)) = s.books := by
      have hins := tally_modify_eq (g := fun me : Worker n => me.acceptCount)
        (f := deliver items k) (fun me => rfl) (s.set w me) owner
      have houts := tally_modify_eq (g := fun me : Worker n => me.connCount)
        (f := deliver items k) (fun me => rfl) (s.set w me) owner
      rw [books, hins, houts, tally_set_eq haccepts, tally_set_eq hcloses]
      rfl
    rw [hbooks]
    exact .same
  · refine forall_modify (P := fun _ (me : Worker n) => me.Knows Q s.shared.conn) ?_ ?_
    · rintro v me ⟨hincoming, hpc⟩
      refine ⟨?_, hpc⟩
      intro fd hfd
      rcases List.mem_append.mp hfd with hfd | hfd
      · exact hitems fd hfd
      · exact hincoming fd hfd
    · exact forall_set hme fun v _ => hk.worker v

theorem Knows.accepted (hk : s.Knows Q) {fd : ℤ} (hfd : s.shared.opened fd = false)
    (hq : Q fd) (owner : Fin n) :
    Accounted Q s ((s.set w { s.worker w with
        acceptCount := (s.worker w).acceptCount + 1
        pc := .push fd owner }).share
      { s.shared with opened := Function.update s.shared.opened fd true }) := by
  refine ⟨?_, hk.change ⟨(hk.worker w).incoming, hq⟩ (fun _ h => h) hk.conns⟩
  have hbooks : books ((s.set w { s.worker w with
      acceptCount := (s.worker w).acceptCount + 1
      pc := .push fd owner }).share
        { s.shared with opened := Function.update s.shared.opened fd true }) =
      s.books.enter fd := by
    rw [books, tally_share, tally_share, tally_set_add (k := 1) (by rfl),
      tally_set_eq (by rfl)]
    rfl
  rw [hbooks]
  exact .enter hfd rfl

theorem Knows.installed (hk : s.Knows Q) {fd : ℤ} (hpc : (s.worker w).pc = .install fd)
    (new : Alloc) {c : Connection} (hc : c.fd = fd) :
    Accounted Q s ((s.set w { s.worker w with
        connCache := new.cache
        interest := fd :: (s.worker w).interest
        pc := .drain }).share (s.shared.install fd new.entry c new.next)) := by
  have hq : Q fd := by
    have hknows := (hk.worker w).pc
    rw [hpc] at hknows
    exact hknows
  have hconn : ∀ p, Q (s.shared.conn p).fd →
      Q ((s.shared.install fd new.entry c new.next).conn p).fd := by
    intro p hp
    by_cases hnew : p = new.entry
    · simpa only [Table.install, hnew, Function.update_self, hc] using hq
    · simpa only [Table.install, Function.update_of_ne hnew] using hp
  refine Knows.quiet (hk.change ⟨(hk.worker w).incoming, trivial⟩ hconn ?_) (by rfl) (by rfl)
    (by rfl)
  intro g p hp
  by_cases hg : g = fd
  · simp only [Table.install, hg, Function.update_self, Option.some.injEq] at hp
    simpa only [Table.install, ← hp, Function.update_self, hc] using hq
  · simp only [Table.install, Function.update_of_ne hg] at hp
    exact hconn p (hk.conns g p hp)

/-- A step inside `on_read`. -/
theorem Knows.setConn (hk : s.Knows Q) {me : Worker n} {p : ℕ} {c : Connection} (next : ℕ)
    (hc : c.fd = (s.shared.conn p).fd) (hincoming : me.incoming = (s.worker w).incoming)
    (hpc : me.pc.Knows Q s.shared.conn)
    (haccepts : me.acceptCount = (s.worker w).acceptCount)
    (hcloses : me.connCount = (s.worker w).connCount) :
    Accounted Q s ((s.set w me).share { s.shared.setConn p c with next := next }) := by
  have hconn : ∀ q, Q (s.shared.conn q).fd → Q ((s.shared.setConn p c).conn q).fd := by
    intro q hq
    by_cases hqp : q = p
    · subst hqp
      simpa only [Table.setConn, Function.update_self, hc] using hq
    · simpa only [Table.setConn, Function.update_of_ne hqp] using hq
  refine Knows.quiet (hk.change ⟨?_, hpc.mono hconn⟩ hconn ?_) haccepts hcloses (by rfl)
  · rw [hincoming]
    exact (hk.worker w).incoming
  · intro g q hq
    exact hconn q (hk.conns g q hq)

/-- What is registered is open. -/
theorem Inv.opened_of_interest (hs : s.Inv tr) {fd : ℤ} (hfd : fd ∈ (s.worker w).interest) :
    s.shared.opened fd = true := by
  have hheld := hs.held fd
  have hpart := le_tally (·.custody fd) s w
  have hpos := List.count_pos_iff.mpr hfd
  by_contra hclosed
  rw [if_neg hclosed, Server.held] at hheld
  simp only [Worker.custody] at hpart hheld
  omega

/-- `on_close` closes and counts one connection that was accepted. -/
theorem Inv.account_closed (hs : s.Inv tr) (hk : s.Knows Q) {p : ℕ} {rest : Option Event}
    {msgCache : List ℕ} (hpc : (s.worker w).pc = .onClose (some p) rest)
    (hfd : (s.shared.conn p).fd ∈ (s.worker w).interest) :
    Accounted Q s ((s.set w { s.worker w with
        interest := (s.worker w).interest.erase (s.shared.conn p).fd
        connCount := (s.worker w).connCount + 1
        msgCache := msgCache
        connCache := cacheFree (s.worker w).connCache p
        pc := rest.elim .loop .event }).share (s.shared.close (s.shared.conn p).fd)) := by
  have hq : Q (s.shared.conn p).fd := by
    have hknows := (hk.worker w).pc
    rw [hpc] at hknows
    exact hknows
  refine ⟨?_, hk.change ⟨(hk.worker w).incoming, ?_⟩ (fun _ h => h) ?_⟩
  · have hbooks : books ((s.set w { s.worker w with
        interest := (s.worker w).interest.erase (s.shared.conn p).fd
        connCount := (s.worker w).connCount + 1
        msgCache := msgCache
        connCache := cacheFree (s.worker w).connCache p
        pc := rest.elim .loop .event }).share (s.shared.close (s.shared.conn p).fd)) =
          s.books.leave (s.shared.conn p).fd := by
      rw [books, tally_share, tally_share, tally_set_eq (by rfl),
        tally_set_add (k := 1) (by rfl)]
      rfl
    rw [hbooks]
    exact .leave hq (hs.opened_of_interest hfd) rfl
  · cases rest <;> exact trivial
  · intro g q hconn
    by_cases hg : g = (s.shared.conn p).fd
    · simp only [Table.close, hg, Function.update_self, reduceCtorEq] at hconn
    · simp only [Table.close, Function.update_of_ne hg] at hconn
      exact hk.conns g q hconn

theorem Inv.account (hs : s.Inv tr) (hk : s.Knows Q)
    (hnew : ∀ fd, s.shared.opened fd = false → Q fd) {a : Input n} {o : Output n}
    (h : s.step msgSize a = some (s', o)) : Accounted Q s s' := by
  cases step_spec h with
  | batch hpc hnodup hmem => exact hk.moved (by trivial) _
  | batchEnd hpc hnil => exact hk.moved (by trivial) _
  | @failed w e events hpc hevents herr hlisten hevent =>
      refine hk.moved ?_ _
      have hknows := hk.conns_pc (n := n) e.fd
      cases hp : s.shared.conns e.fd with
      | none => exact trivial
      | some p =>
          rw [hp] at hknows
          exact hknows
  | took hpc hevents => exact hk.moved (by trivial) _
  | listen hpc hfd => exact hk.moved (by trivial) _
  | wake hpc hfd => exact hk.moved (by trivial) _
  | ready hpc hlisten hevent => exact hk.moved (hk.conns_pc _) _
  | accepted hpc hpos hfd => exact hk.accepted hfd (hnew _ hfd) _
  | acceptEnd hpc => exact hk.moved (by trivial) _
  | @pushed w fd owner hpc =>
      have hknows := (hk.worker w).pc
      rw [hpc] at hknows
      refine hk.delivered [fd] 0 ⟨(hk.worker w).incoming, trivial⟩ ?_ (by rfl) (by rfl)
      intro g hg
      rw [List.mem_singleton.mp hg]
      exact hknows
  | @notified w owner hpc =>
      exact hk.delivered [] 1 ⟨(hk.worker w).incoming, trivial⟩ (by simp) (by rfl) (by rfl)
  | asleep hpc hzero => exact hk.moved (by trivial) _
  | @awake w hpc hpos =>
      exact Knows.quiet (t := s.shared)
        (hk.change ⟨(hk.worker w).incoming, trivial⟩ (fun _ h => h) hk.conns) (by rfl) (by rfl)
        rfl
  | drained hpc hnil => exact hk.moved (by trivial) _
  | @popped w fd rest hpc hcons =>
      have hincoming := (hk.worker w).incoming
      rw [hcons, List.forall_mem_cons] at hincoming
      exact Knows.quiet (t := s.shared)
        (hk.change ⟨hincoming.2, hincoming.1⟩ (fun _ h => h) hk.conns) (by rfl) (by rfl) rfl
  | installed hpc hnew => exact hk.installed hpc _ rfl
  | ignored hpc hneg => exact hk.moved (by trivial) _
  | @entered w p cursor msgCache c next hpc hfd hnext =>
      have hknows := (hk.worker w).pc
      rw [hpc] at hknows
      exact hk.setConn _ hfd (by rfl) hknows (by rfl) (by rfl)
  | @answered w ret p c next hpc hfd =>
      have hq : Q (s.shared.conn p).fd := hpc.knows (hk.worker w).pc
      refine hk.setConn s.shared.next hfd (by rfl) ?_ (by rfl) (by rfl)
      cases next with
      | done => exact trivial
      | _ => exact hq
  | closed hpc hfd => exact hs.account_closed hk hpc hfd

/-! ## Runs -/

theorem knows_start (hs : s.Start) : s.Knows Q := by
  refine ⟨?_, ?_⟩
  · intro w
    refine ⟨?_, ?_⟩
    · intro fd hfd
      rw [hs.incoming] at hfd
      cases hfd
    · rw [hs.pc]
      exact trivial
  · intro fd p hp
    rw [hs.conns] at hp
    cases hp

/-- What `accept_count` and `conn_count` add up to, with the connections that were accepted
since `s₀` and are not closed. -/
def ledger (s s₀ : Server n) : Ledger ℤ := s.books.ledger s₀.shared.opened

theorem run_balanced {s₀ : Server n} (hstart : s₀.Start) (hcleared : s₀.Cleared)
    (h : (echoServer n msgSize).Run s₀ tr s) : (s.ledger s₀).Balanced := by
  refine (h.preserves (P := fun u : Server n => (∃ tr, u.Inv tr) ∧
    u.Knows (s₀.shared.opened · = false) ∧ u.books.Sound s₀.shared.opened) ?_
      ⟨⟨[], inv_start hstart⟩, knows_start hstart, ?_⟩).2.2.balanced
  · rintro u a o v - ⟨⟨tr, hinv⟩, hknows, hsound⟩ hstep
    obtain ⟨hbooked, hknows'⟩ := hinv.account hknows (fun fd => hsound.keeps.fresh) hstep
    exact ⟨⟨_, hinv.step hstep⟩, hknows', hsound.step hbooked⟩
  · refine Books.sound_start rfl ?_ ?_
    · exact tally_eq_zero hcleared.acceptCount
    · exact tally_eq_zero hcleared.connCount

end Server

end Upcalls.Epoll
