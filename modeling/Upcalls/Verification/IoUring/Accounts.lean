import Upcalls.Library.Ledger
import Upcalls.Verification.IoUring.Handoff

/-! # What the io_uring server counts

Besides `on_close`, the completion of a write that finishes a message adds to `conn_count`.
So the books of the server balance with one more entry for each finished message.
-/

namespace Upcalls.IoUring

open Library TcpEcho

variable {n msgSize : ℕ}

/-! ## Finished messages -/

/-- The step handles the completion of a write that echoes the rest of a message. -/
def Server.finishes (msgSize : ℕ) (s : Server n) : Input n → Bool
  | .run w =>
      match (s.worker w).pc, (s.worker w).cq with
      | .loop, ⟨.sockWrite fd _ _, res⟩ :: _ =>
          match s.shared.conns fd with
          | some p => 0 < res ∧ (s.shared.conn p).cursor + res.toNat = msgSize
          | none => false
      | _, _ => false
  | _ => false

/-- Of the completions of a write, these are followed by a read. -/
theorem sockWrite_read (conn : Connection) (res : ℤ) :
    (∃ off len, (sockWrite msgSize conn res).2 = .read off len) ↔
      0 < res ∧ conn.cursor + res.toNat = msgSize := by
  rw [sockWrite]
  split
  · rename_i hres
    simp only [reduceCtorEq, exists_false, false_iff]
    omega
  · split
    · rename_i hres hall
      exact ⟨fun _ => ⟨by omega, hall⟩, fun _ => ⟨_, _, rfl⟩⟩
    · rename_i hres hrest
      simp only [reduceCtorEq, exists_false, false_iff]
      exact fun h => hrest h.2

/-! ## The descriptors that the server knows -/

/-- The descriptors that the worker has in its hands satisfy `Q`. -/
def Pc.Knows (Q : ℤ → Prop) : Pc n → Prop
  | .adopt fd | .push fd _ | .install fd => Q fd
  | _ => True

structure Worker.Knows (Q : ℤ → Prop) (me : Worker n) : Prop where
  cq : ∀ c ∈ me.cq, c.info = .accept → Q c.res
  incoming : ∀ fd ∈ me.incoming, Q fd
  pc : me.pc.Knows Q

namespace Server

open Team

/-- A completed accept waits until its worker handles the completion; `k` are entries that
the server has not counted. -/
def books (s : Server n) (k : ℕ) : Books ℤ where
  opened := s.shared.opened
  waiting := s.fresh
  ins := s.tally (·.acceptCount) + k
  outs := s.tally (·.connCount)

/-- The server knows only descriptors that satisfy `Q`. -/
structure Knows (Q : ℤ → Prop) (s : Server n) : Prop where
  worker : ∀ w, (s.worker w).Knows Q
  conns : ∀ fd p, s.shared.conns fd = some p → Q fd

/-- A step after which `k` more entries are missing. -/
structure Accounted (Q : ℤ → Prop) (s s' : Server n) (k : ℕ) : Prop where
  booked : ∀ i, Books.Step Q (s.books i) (s'.books (i + k))
  knows : s'.Knows Q

variable {Q : ℤ → Prop} {tr : List (Input n × Output n)} {s s' : Server n} {w : Fin n}

theorem Knows.change (hk : s.Knows Q) {me : Worker n} {t : Table} (hme : me.Knows Q)
    (hconns : ∀ fd p, t.conns fd = some p → Q fd) : Knows Q ((s.set w me).share t) := by
  refine ⟨?_, hconns⟩
  exact forall_set (P := fun _ (me : Worker n) => me.Knows Q) hme fun v _ => hk.worker v

theorem fresh_set (me : Worker n) (t : Table) (fd : ℤ) :
    Server.fresh ((s.set w me).share t) fd + (s.worker w).fresh fd =
      s.fresh fd + me.fresh fd :=
  tally_set (·.fresh fd) s w me

theorem fresh_same {me : Worker n} (h : ∀ fd, me.fresh fd = (s.worker w).fresh fd)
    (t : Table) : Server.fresh ((s.set w me).share t) = s.fresh := by
  funext fd
  have hset := fresh_set (s := s) (w := w) me t fd
  rw [h] at hset
  omega

/-- A step of one worker that leaves the descriptors alone, and adds `k` to its
`conn_count`. -/
theorem Knows.turned {me : Worker n} {t : Table} (hk : Knows Q ((s.set w me).share t))
    (hfresh : ∀ fd, me.fresh fd = (s.worker w).fresh fd)
    (haccepts : me.acceptCount = (s.worker w).acceptCount) {k : ℕ} (hle : k ≤ 1)
    (hcloses : me.connCount = (s.worker w).connCount + k)
    (hopened : t.opened = s.shared.opened) :
    Accounted Q s ((s.set w me).share t) k := by
  refine ⟨?_, hk⟩
  intro i
  have hbooks : books ((s.set w me).share t) (i + k) =
      { s.books i with ins := (s.books i).ins + k, outs := (s.books i).outs + k } := by
    rw [books, fresh_same hfresh, tally_share, tally_share, tally_set_eq haccepts,
      tally_set_add hcloses, share_shared, hopened, ← Nat.add_assoc]
    rfl
  rw [hbooks]
  rcases Nat.le_one_iff_eq_zero_or_eq_one.mp hle with rfl | rfl
  · exact .same
  · exact .turn

theorem Knows.quiet {me : Worker n} {t : Table} (hk : Knows Q ((s.set w me).share t))
    (hfresh : ∀ fd, me.fresh fd = (s.worker w).fresh fd)
    (haccepts : me.acceptCount = (s.worker w).acceptCount)
    (hcloses : me.connCount = (s.worker w).connCount)
    (hopened : t.opened = s.shared.opened) : Accounted Q s ((s.set w me).share t) 0 :=
  hk.turned hfresh haccepts (Nat.zero_le 1) hcloses hopened

/-! ## The steps -/

theorem Knows.tail (hk : s.Knows Q) {c : Cqe n} {cq : List (Cqe n)}
    (hcq : (s.worker w).cq = c :: cq) : ∀ c ∈ cq, c.info = .accept → Q c.res := by
  have hall := (hk.worker w).cq
  rw [hcq, List.forall_mem_cons] at hall
  exact hall.2

theorem Knows.completed (hk : s.Knows Q) (i : ℕ) {info : Req n} (hinfo : info ≠ .accept)
    (res : ℤ) : (answer (s.worker w) i info res).Knows Q := by
  refine ⟨?_, (hk.worker w).incoming, (hk.worker w).pc⟩
  intro c hc hacc
  rcases List.mem_append.mp hc with hc | hc
  · exact (hk.worker w).cq c hc hacc
  · rw [List.mem_singleton.mp hc] at hacc
    exact absurd hacc hinfo

theorem Knows.delivered (hk : s.Knows Q) {owner : Fin n} {me : Worker n} (items : List ℤ)
    (k : ℕ) (hme : me.Knows Q) (hitems : ∀ fd ∈ items, Q fd)
    (hfresh : ∀ fd, me.fresh fd = (s.worker w).fresh fd)
    (haccepts : me.acceptCount = (s.worker w).acceptCount)
    (hcloses : me.connCount = (s.worker w).connCount) :
    Accounted Q s ((s.set w me).modify owner (deliver items k)) 0 := by
  refine ⟨?_, ?_, hk.conns⟩
  · intro i
    have hbooks : books ((s.set w me).modify owner (deliver items k)) i = s.books i := by
      have hins := tally_modify_eq (g := fun me : Worker n => me.acceptCount)
        (f := deliver items k) (fun me => rfl) (s.set w me) owner
      have houts := tally_modify_eq (g := fun me : Worker n => me.connCount)
        (f := deliver items k) (fun me => rfl) (s.set w me) owner
      have hwaiting : Server.fresh ((s.set w me).modify owner (deliver items k)) = s.fresh := by
        funext fd
        have hmodify := tally_modify_eq (g := fun me : Worker n => me.fresh fd)
          (f := deliver items k) (fun me => rfl) (s.set w me) owner
        exact hmodify.trans (tally_set_eq (hfresh fd))
      rw [books, hwaiting, hins, houts, tally_set_eq haccepts, tally_set_eq hcloses]
      rfl
    rw [Nat.add_zero, hbooks]
    exact .same
  · refine forall_modify (P := fun _ (me : Worker n) => me.Knows Q) ?_ ?_
    · rintro v me ⟨hcq, hincoming, hpc⟩
      refine ⟨hcq, ?_, hpc⟩
      intro fd hfd
      rcases List.mem_append.mp hfd with hfd | hfd
      · exact hitems fd hfd
      · exact hincoming fd hfd
    · exact forall_set hme fun v _ => hk.worker v

theorem Knows.accepted (hk : s.Knows Q) {fd : ℤ} (hfd : s.shared.opened fd = false)
    (hq : Q fd) (i : ℕ) :
    Accounted Q s ((s.set w (answer (s.worker w) i .accept fd)).share
      { s.shared with opened := Function.update s.shared.opened fd true }) 0 := by
  refine ⟨?_, hk.change ⟨?_, (hk.worker w).incoming, (hk.worker w).pc⟩ hk.conns⟩
  · intro k
    have hwaiting : Server.fresh ((s.set w (answer (s.worker w) i .accept fd)).share
        { s.shared with opened := Function.update s.shared.opened fd true }) =
          fun g => s.fresh g + if fd = g then 1 else 0 := by
      funext g
      have hset := fresh_set (s := s) (w := w) (answer (s.worker w) i .accept fd)
        { s.shared with opened := Function.update s.shared.opened fd true } g
      have harrived := Worker.fresh_answer (s.worker w) i .accept fd g
      simp only [true_and] at harrived
      rw [harrived] at hset
      exact Nat.add_right_cancel (hset.trans (by omega))
    have hbooks : books ((s.set w (answer (s.worker w) i .accept fd)).share
        { s.shared with opened := Function.update s.shared.opened fd true }) k =
          (s.books k).arrive fd := by
      rw [books, hwaiting, tally_share, tally_share, tally_set_eq (by rfl),
        tally_set_eq (by rfl)]
      rfl
    rw [Nat.add_zero, hbooks]
    exact .arrive hfd
  · intro c hc hacc
    rcases List.mem_append.mp hc with hc | hc
    · exact (hk.worker w).cq c hc hacc
    · rw [List.mem_singleton.mp hc]
      exact hq

/-- Where a descriptor is, it is open, and in no other place. -/
theorem Inv.opened_of_held (hs : s.Inv tr) (fd : ℤ) (h : 0 < s.held fd) :
    s.shared.opened fd = true ∧ s.held fd = 1 := by
  have hheld := hs.held fd
  have hopened : s.shared.opened fd = true := by
    by_contra hclosed
    rw [if_neg hclosed] at hheld
    omega
  rw [if_pos hopened] at hheld
  exact ⟨hopened, by omega⟩

theorem fresh_le_held (s : Server n) (fd : ℤ) :
    s.fresh fd + present s.shared fd ≤ s.held fd := by
  have hsplit := tally_add (·.fresh fd) (fun me : Worker n =>
    me.incoming.count fd + me.pc.holds fd) s
  have hsame : s.tally (·.custody fd) = s.tally fun me : Worker n =>
      me.fresh fd + (me.incoming.count fd + me.pc.holds fd) := by
    refine congrArg (s.tally ·) ?_
    funext me
    exact Nat.add_assoc _ _ _
  rw [Server.held, Server.fresh]
  omega

/-- Handling an `ACCEPT` completion counts a descriptor that waited. -/
theorem Inv.account_assigned (hs : s.Inv tr) (hk : s.Knows Q) {cpu : Fin n} {fd : ℤ}
    {cq : List (Cqe n)} {pc : Pc n} (hcq : (s.worker w).cq = ⟨.accept, fd⟩ :: cq)
    (hnext : (cpu = w ∧ pc = .adopt fd) ∨ (cpu ≠ w ∧ pc = .push fd cpu)) :
    Accounted Q s (s.set w { s.worker w with
      cq := cq
      acceptCount := (s.worker w).acceptCount + 1
      pc := pc }) 0 := by
  obtain ⟨me, hme⟩ : ∃ me : Worker n, me = { s.worker w with
    cq := cq
    acceptCount := (s.worker w).acceptCount + 1
    pc := pc } := ⟨_, rfl⟩
  rw [← hme]
  have hq : Q fd := by
    refine (hk.worker w).cq ⟨.accept, fd⟩ ?_ rfl
    rw [hcq]
    exact List.mem_cons_self
  have hwaiting : ∀ g, s.fresh g = Server.fresh (s.set w me) g + if fd = g then 1 else 0 := by
    intro g
    have hset := fresh_set (s := s) (w := w) me s.shared g
    have hcons := Worker.fresh_cons hcq g
    have hrest : me.fresh g = cq.countP fun c => c.info = .accept ∧ c.res = g := by
      rw [hme]
      rfl
    have hshare : Server.fresh ((s.set w me).share s.shared) g =
        Server.fresh (s.set w me) g := rfl
    simp only [true_and] at hcons
    omega
  have hwaits := hwaiting fd
  rw [if_pos rfl] at hwaits
  have hle := fresh_le_held s fd
  obtain ⟨hopened, hone⟩ := hs.opened_of_held fd (by omega)
  refine ⟨?_, hk.change (t := s.shared) ⟨?_, ?_, ?_⟩ hk.conns⟩
  · intro k
    have hins : (s.set w me).tally (·.acceptCount) = s.tally (·.acceptCount) + 1 := by
      refine tally_set_add ?_
      rw [hme]
    have houts : (s.set w me).tally (·.connCount) = s.tally (·.connCount) := by
      refine tally_set_eq ?_
      rw [hme]
    have hbooks : books (s.set w me) k = (s.books k).record (Server.fresh (s.set w me)) := by
      rw [books, hins, houts, Nat.add_right_comm]
      rfl
    rw [Nat.add_zero, hbooks]
    exact .record hq hopened hwaiting (by omega)
  · rw [hme]
    exact hk.tail hcq
  · rw [hme]
    exact (hk.worker w).incoming
  · rw [hme]
    rcases hnext with ⟨-, rfl⟩ | ⟨-, rfl⟩ <;> exact hq

theorem Knows.installed (hk : s.Knows Q) {fd : ℤ} {after : Req n} {pc : Pc n} {buf : Ptr}
    {len : ℕ} {c : Connection} {next : ℕ} {msgCache : List ℕ} (new : Alloc)
    (hpc : ((s.worker w).pc = .adopt fd ∧ after = .accept ∧ pc = .loop) ∨
      ((s.worker w).pc = .install fd ∧ after = .evRead ∧ pc = .drain)) :
    Accounted Q s ((s.set w { s.worker w with
        sq := (s.worker w).sq ++ [.sockRead fd buf len, after]
        msgCache := msgCache
        connCache := new.cache
        pc := pc }).share (s.shared.install fd new.entry c next)) 0 := by
  have hknows := (hk.worker w).pc
  have hhands : Q fd ∧ pc.Knows Q := by
    rcases hpc with ⟨hpc, -, rfl⟩ | ⟨hpc, -, rfl⟩
    · rw [hpc] at hknows
      exact ⟨hknows, trivial⟩
    · rw [hpc] at hknows
      exact ⟨hknows, trivial⟩
  refine Knows.quiet (hk.change ⟨(hk.worker w).cq, (hk.worker w).incoming, hhands.2⟩ ?_)
    (by intro g; rfl) (by rfl) (by rfl) (by rfl)
  intro g p hp
  by_cases hg : g = fd
  · rw [hg]
    exact hhands.1
  · simp only [Table.install, Function.update_of_ne hg] at hp
    exact hk.conns g p hp

/-- `on_close` closes and counts one connection that was accepted. -/
theorem Inv.account_closed (hs : s.Inv tr) (hk : s.Knows Q) {info : Req n} {res : ℤ}
    {cq : List (Cqe n)} {fd : ℤ} {p : ℕ} {msgCache : List ℕ}
    (hcq : (s.worker w).cq = ⟨info, res⟩ :: cq) (hinfo : info.Sock)
    (hp : s.shared.conns fd = some p) :
    Accounted Q s ((s.set w { s.worker w with
        cq := cq
        connCount := (s.worker w).connCount + 1
        msgCache := msgCache
        connCache := cacheFree (s.worker w).connCache p }).share (s.shared.close fd)) 0 := by
  have hpresent : present s.shared fd = 1 := by
    rw [present, hp]
    rfl
  have hle := fresh_le_held s fd
  obtain ⟨hopened, hone⟩ := hs.opened_of_held fd (by omega)
  have hfresh := Worker.fresh_tail hcq hinfo.ne_accept
  refine ⟨?_, hk.change ⟨hk.tail hcq, (hk.worker w).incoming, (hk.worker w).pc⟩ ?_⟩
  · intro k
    have hbooks : books ((s.set w { s.worker w with
        cq := cq
        connCount := (s.worker w).connCount + 1
        msgCache := msgCache
        connCache := cacheFree (s.worker w).connCache p }).share (s.shared.close fd)) k =
          (s.books k).leave fd := by
      rw [books, fresh_same (by exact hfresh), tally_share, tally_share,
        tally_set_eq (by rfl), tally_set_add (k := 1) (by rfl)]
      rfl
    rw [Nat.add_zero k, hbooks]
    refine .leave (hk.conns fd p hp) hopened ?_
    have hzero : s.fresh fd = 0 := by omega
    exact hzero
  · intro g q hconn
    by_cases hg : g = fd
    · simp only [Table.close, hg, Function.update_self, reduceCtorEq] at hconn
    · simp only [Table.close, Function.update_of_ne hg] at hconn
      exact hk.conns g q hconn

/-- A completion on a connection: only where it is followed by a read, `count` is added to
`conn_count` for a connection that stays open. -/
theorem Inv.account_resume (hs : s.Inv tr) (hk : s.Knows Q) {info : Req n} {res : ℤ}
    {cq : List (Cqe n)} {fd : ℤ} {p count : ℕ} {after : Connection × Next}
    (hcq : (s.worker w).cq = ⟨info, res⟩ :: cq) (hinfo : info.Sock)
    (hp : s.shared.conns fd = some p) (hfd : after.1.fd = (s.shared.conn p).fd)
    (hcount : count ≤ 1) (h : s.resume w p cq count after = some s') :
    Accounted Q s s' (match after.2 with | .read _ _ => count | _ => 0) := by
  have hme : ∀ sq k, Worker.Knows Q { s.worker w with
      cq := cq
      sq := sq
      connCount := (s.worker w).connCount + k } :=
    fun sq k => ⟨hk.tail hcq, (hk.worker w).incoming, (hk.worker w).pc⟩
  have hfresh := Worker.fresh_tail hcq hinfo.ne_accept
  simp only [resume] at h
  split at h
  · rename_i hafter
    cases Option.some.inj h
    rw [hafter, hfd, hs.filed.live hp]
    exact hs.account_closed hk hcq hinfo hp
  · rename_i off len hafter
    obtain ⟨me, hadd, h⟩ := Option.bind_eq_some_iff.mp h
    cases Worker.addRequests_spec hadd
    cases Option.some.inj h
    rw [hafter]
    refine Knows.turned (hk.change (t := s.shared.setConn p after.1) ?_ hk.conns)
      (by exact hfresh) (by rfl) hcount (by rfl) rfl
    exact hme _ count
  · rename_i off len hafter
    obtain ⟨me, hadd, h⟩ := Option.bind_eq_some_iff.mp h
    cases Worker.addRequests_spec hadd
    cases Option.some.inj h
    rw [hafter]
    refine Knows.quiet (hk.change (t := s.shared.setConn p after.1) ?_ hk.conns)
      (by exact hfresh) (by rfl) (by rfl) rfl
    exact hme _ 0

theorem Inv.account_loop (hs : s.Inv tr) (hk : s.Knows Q) (hpc : (s.worker w).pc = .loop)
    (h : s.loop msgSize w = some s') :
    Accounted Q s s' (if s.finishes msgSize (.run w) then 1 else 0) := by
  have hpc' : (s.worker w).pc.Knows Q := (hk.worker w).pc
  simp only [loop] at h
  split at h
  · rename_i hcq
    cases Option.some.inj h
    have hnone : s.finishes msgSize (.run w) = false := by simp only [finishes, hpc, hcq]
    rw [hnone, if_neg Bool.false_ne_true]
    exact Knows.quiet (t := s.shared) (hk.change ⟨(hk.worker w).cq, (hk.worker w).incoming,
      trivial⟩ hk.conns) (by intro fd; rfl) (by rfl) (by rfl) rfl
  · cases h
  · rename_i fd buf len res cq hcq
    obtain ⟨p, hp, h⟩ := Option.bind_eq_some_iff.mp h
    have hacc := hs.account_resume hk hcq trivial hp (sockRead_fd _ _) (Nat.zero_le 1) h
    have hnone : s.finishes msgSize (.run w) = false := by simp only [finishes, hpc, hcq]
    rw [hnone, if_neg Bool.false_ne_true]
    split at hacc <;> exact hacc
  · rename_i res cq hcq
    cases Option.some.inj h
    have hnone : s.finishes msgSize (.run w) = false := by simp only [finishes, hpc, hcq]
    rw [hnone, if_neg Bool.false_ne_true]
    exact Knows.quiet (t := s.shared) (hk.change ⟨hk.tail hcq, (hk.worker w).incoming,
      trivial⟩ hk.conns) (Worker.fresh_tail hcq (by simp)) (by rfl) (by rfl) rfl
  · rename_i fd buf len res cq hcq
    obtain ⟨p, hp, h⟩ := Option.bind_eq_some_iff.mp h
    have hacc := hs.account_resume hk hcq trivial hp (sockWrite_fd _ _) (Nat.le_refl 1) h
    have hread := @sockWrite_read msgSize (s.shared.conn p) res
    have hfinishes : s.finishes msgSize (.run w) = true ↔
        ∃ off len, (sockWrite msgSize (s.shared.conn p) res).2 = .read off len := by
      simp only [finishes, hpc, hcq, hp, decide_eq_true_eq, hread]
    split at hacc
    · rename_i off len hafter
      rw [if_pos (hfinishes.mpr ⟨off, len, hafter⟩)]
      exact hacc
    · rename_i hafter
      have hnone : ¬ s.finishes msgSize (.run w) = true := by
        intro htrue
        obtain ⟨off, len, hread⟩ := hfinishes.mp htrue
        exact hafter off len hread
      rw [if_neg hnone]
      exact hacc
  · rename_i owner res cq hcq
    cases Option.some.inj h
    have hnone : s.finishes msgSize (.run w) = false := by simp only [finishes, hpc, hcq]
    rw [hnone, if_neg Bool.false_ne_true]
    exact Knows.quiet (t := s.shared) (hk.change ⟨hk.tail hcq, (hk.worker w).incoming,
      hpc'⟩ hk.conns) (Worker.fresh_tail hcq (by simp)) (by rfl) (by rfl) rfl

theorem finishes_of_ne (hpc : (s.worker w).pc ≠ .loop) :
    s.finishes msgSize (.run w) = false := by
  rw [finishes]
  split
  · rename_i hloop hcq
    exact absurd hloop hpc
  · rfl

/-- A step of the worker away from the completions. -/
theorem Knows.account_run (hk : s.Knows Q) (hne : (s.worker w).pc ≠ .loop) {o : Output n}
    (h : s.run msgSize w = some (s', o)) : Accounted Q s s' 0 := by
  have hme := hk.worker w
  cases run_spec h with
  | woken hpc =>
      exact Knows.quiet (t := s.shared) (hk.change ⟨hme.cq, hme.incoming, trivial⟩ hk.conns)
        (by intro fd; rfl) (by rfl) (by rfl) rfl
  | submitted hpc => exact absurd hpc hne
  | answered hpc hcq => exact absurd hpc hne
  | freed hpc hcq => exact absurd hpc hne
  | resumed hpc hcq hinfo hfd hreq => exact absurd hpc hne
  | closed hpc hcq hinfo hp => exact absurd hpc hne
  | installed hpc hnew hc hnext => exact hk.installed _ hpc
  | @pushed _ fd owner hpc =>
      have hq := hme.pc
      rw [hpc] at hq
      refine hk.delivered [fd] 0 ⟨hme.cq, hme.incoming, trivial⟩ ?_ (by intro g; rfl) (by rfl)
        (by rfl)
      intro g hg
      rw [List.mem_singleton.mp hg]
      exact hq
  | notified hpc =>
      exact Knows.quiet (t := s.shared) (hk.change ⟨hme.cq, hme.incoming, trivial⟩ hk.conns)
        (by intro fd; rfl) (by rfl) (by rfl) rfl
  | drained hpc hnil =>
      exact Knows.quiet (t := s.shared) (hk.change ⟨hme.cq, hme.incoming, trivial⟩ hk.conns)
        (by intro fd; rfl) (by rfl) (by rfl) rfl
  | popped hpc hcons =>
      have hincoming := hme.incoming
      rw [hcons, List.forall_mem_cons] at hincoming
      exact Knows.quiet (t := s.shared)
        (hk.change ⟨hme.cq, hincoming.2, hincoming.1⟩ hk.conns) (by intro fd; rfl) (by rfl)
        (by rfl) rfl

theorem Inv.account (hs : s.Inv tr) (hk : s.Knows Q)
    (hnew : ∀ fd, s.shared.opened fd = false → Q fd) {a : Input n} {o : Output n}
    (h : s.step msgSize a = some (s', o)) :
    Accounted Q s s' (if s.finishes msgSize a then 1 else 0) := by
  cases a with
  | complete w i res =>
      cases complete_spec h with
      | accepted hinfo hfd => exact hk.accepted hfd (hnew _ hfd) i
      | taken hinfo hpos =>
          have hme : (answer (s.worker w) i .evRead res).Knows Q :=
            hk.completed i (by simp) res
          exact Knows.quiet (t := s.shared) (hk.change ⟨hme.cq, hme.incoming, hme.pc⟩ hk.conns)
            (by exact Worker.fresh_answer_ne i (by simp) res) (by rfl) (by rfl) rfl
      | rung hinfo =>
          exact hk.delivered [] 1 (hk.completed i (by simp) res) (by simp)
            (Worker.fresh_answer_ne i (by simp) res) (by rfl) (by rfl)
      | moved hinfo hsock =>
          exact Knows.quiet (t := s.shared)
            (hk.change (hk.completed i hsock.ne_accept res) hk.conns)
            (Worker.fresh_answer_ne i hsock.ne_accept res) (by rfl) (by rfl) rfl
  | accept w cpu =>
      cases accept_spec h with
      | assigned hpc hcq hnext => exact hs.account_assigned hk hcq hnext
  | run w =>
      by_cases hpc : (s.worker w).pc = .loop
      · have hrun : s.run msgSize w = some (s', o) := h
        rw [run, hpc] at hrun
        obtain ⟨t, ht, hpair⟩ := Option.map_eq_some_iff.mp hrun
        cases hpair
        exact hs.account_loop hk hpc ht
      · rw [finishes_of_ne hpc]
        exact hk.account_run hpc h

/-! ## Runs -/

theorem knows_start (hs : s.Start) : s.Knows Q := by
  refine ⟨?_, ?_⟩
  · intro w
    refine ⟨?_, ?_, ?_⟩
    · intro c hc
      rw [hs.cq] at hc
      cases hc
    · intro fd hfd
      rw [hs.incoming] at hfd
      cases hfd
    · rw [hs.pc]
      exact trivial
  · intro fd p hp
    rw [hs.conns] at hp
    cases hp

/-- What `accept_count` and `conn_count` add up to, with the connections that were accepted
since `s₀` and are not closed. -/
def ledger (s s₀ : Server n) : Ledger ℤ := (s.books 0).ledger s₀.shared.opened

/-- The ledger balances as long as no write has finished a message. -/
theorem run_balanced_iff {s₀ : Server n} (hstart : s₀.Start) (hcleared : s₀.Cleared)
    (h : (echoServer n msgSize).Run s₀ tr s) :
    (s.ledger s₀).Balanced ↔
      ((echoServer n msgSize).guard fun u a => !u.finishes msgSize a).Run s₀ tr s := by
  have hstep : ∀ (u : Server n) k a o (v : Server n),
      ((∃ tr, u.Inv tr) ∧ u.Knows (s₀.shared.opened · = false) ∧
        (u.books k).Sound s₀.shared.opened) → u.step msgSize a = some (v, o) →
      (∃ tr, v.Inv tr) ∧ v.Knows (s₀.shared.opened · = false) ∧
        (v.books (k + if !u.finishes msgSize a then 0 else 1)).Sound s₀.shared.opened := by
    rintro u k a o v ⟨⟨tr, hinv⟩, hknows, hsound⟩ hstep
    obtain ⟨hbooked, hknows'⟩ := hinv.account hknows (fun fd => hsound.keeps.fresh) hstep
    have hcount : (if !u.finishes msgSize a then 0 else 1) =
        if u.finishes msgSize a then 1 else 0 := by
      cases u.finishes msgSize a <;> rfl
    rw [hcount]
    exact ⟨⟨_, hinv.step hstep⟩, hknows', hsound.step (hbooked k)⟩
  obtain ⟨k, ⟨-, -, hsound⟩, hiff⟩ := h.count ⟨⟨[], inv_start hstart⟩, knows_start hstart,
    Books.sound_start rfl (tally_eq_zero hcleared.acceptCount)
      (tally_eq_zero hcleared.connCount)⟩ hstep
  rw [← hiff]
  exact hsound.balanced.iff_of_missing_ins

end Server

end Upcalls.IoUring
