import Upcalls.Verification.Epoll.Events

/-! # Which connections a worker can close

In any run, also behind an `on_close` for an error or hang-up, a worker holds a connection of
its own, which is in `conns[]`, or one whose descriptor it has not registered. It cannot close
the latter.
-/

namespace Upcalls.Epoll

open Library TcpEcho

variable {n msgSize : ℕ}

namespace Worker

/-- If the worker has the descriptor of connection `p` registered, then `p` is its own. -/
def Linked (t : Table) (me : Worker n) (p : ℕ) : Prop :=
  (t.conn p).fd ∈ me.interest → t.conns (t.conn p).fd = some p ∧
    (t.conn p).fd ∉ me.events.map (·.fd)

/-- The part of the invariant that depends on where the worker stands. -/
def Stands (t : Table) (me : Worker n) : Pc n → Prop
  | .event e => e.fd ∉ me.events.map (·.fd)
  | .onRead conn => ∀ p, conn = some p → me.Linked t p
  | .read p _ | .write p _ => me.Linked t p
  | .onClose conn rest => (∀ p, conn = some p → me.Linked t p) ∧
      ∀ e, rest = some e → e.fd ∉ me.events.map (·.fd)
  | _ => True

structure Wired (t : Table) (me : Worker n) : Prop where
  known : ∀ fd ∈ me.interest, ¬ me.Own fd → ∃ p, t.conns fd = some p
  nodup : (me.events.map (·.fd)).Nodup
  registered : ∀ e ∈ me.events, e.fd ∈ me.interest
  stands : me.Stands t me.pc

/-- What the table keeps for the worker: the connections that it has registered, and it gets
no other record with a descriptor of these. -/
structure Leaves (t t' : Table) (me : Worker n) : Prop where
  conns : ∀ fd p, fd ∈ me.interest → t.conns fd = some p → t'.conns fd = some p
  fds : ∀ p, (t'.conn p).fd ∈ me.interest → (t'.conn p).fd = (t.conn p).fd

theorem Leaves.same {t t' : Table} {me : Worker n} (hconns : t'.conns = t.conns)
    (hfds : ∀ p, (t'.conn p).fd = (t.conn p).fd) : me.Leaves t t' := by
  refine ⟨?_, fun p _ => hfds p⟩
  intro fd p _ hp
  rw [hconns]
  exact hp

theorem Linked.keep {t t' : Table} {me : Worker n} {p : ℕ} (h : me.Linked t p)
    (hleaves : me.Leaves t t') : me.Linked t' p := by
  intro hmem
  have hfd := hleaves.fds p hmem
  rw [hfd] at hmem ⊢
  obtain ⟨hconns, hseen⟩ := h hmem
  exact ⟨hleaves.conns _ _ hmem hconns, hseen⟩

theorem Stands.keep {t t' : Table} {me : Worker n} {pc : Pc n} (h : me.Stands t pc)
    (hleaves : me.Leaves t t') : me.Stands t' pc := by
  cases pc with
  | event e => exact h
  | onRead conn => exact fun p hp => Linked.keep (h p hp) hleaves
  | read p cursor => exact Linked.keep h hleaves
  | write p cursor => exact Linked.keep h hleaves
  | onClose conn rest => exact ⟨fun p hp => Linked.keep (h.1 p hp) hleaves, h.2⟩
  | _ => exact trivial

theorem Wired.keep {t t' : Table} {me : Worker n} (h : me.Wired t) (hleaves : me.Leaves t t') :
    me.Wired t' := by
  refine ⟨?_, h.nodup, h.registered, h.stands.keep hleaves⟩
  intro fd hfd hown
  obtain ⟨p, hp⟩ := h.known fd hfd hown
  exact ⟨p, hleaves.conns fd p hfd hp⟩

theorem Linked.alike {t : Table} {me me' : Worker n} {p : ℕ} (h : me.Linked t p)
    (hme : me.Alike me') : me'.Linked t p := by
  rw [Linked, hme.interest, hme.events]
  exact h

theorem Stands.alike {t : Table} {me me' : Worker n} {pc : Pc n} (h : me.Stands t pc)
    (hme : me.Alike me') : me'.Stands t pc := by
  cases pc with
  | event e =>
      rw [Stands, hme.events]
      exact h
  | onRead conn => exact fun p hp => Linked.alike (h p hp) hme
  | read p cursor => exact Linked.alike h hme
  | write p cursor => exact Linked.alike h hme
  | onClose conn rest =>
      refine ⟨fun p hp => Linked.alike (h.1 p hp) hme, ?_⟩
      rw [hme.events]
      exact h.2
  | _ => exact trivial

theorem Wired.alike {t : Table} {me me' : Worker n} (h : me.Wired t) (hme : me.Alike me')
    (hstands : me'.Stands t me'.pc) : me'.Wired t := by
  refine ⟨?_, ?_, ?_, hstands⟩
  · intro fd hfd hown
    rw [hme.interest] at hfd
    rw [hme.own] at hown
    exact h.known fd hfd hown
  · rw [hme.events]
    exact h.nodup
  · rw [hme.events, hme.interest]
    exact h.registered

theorem leaves_setConn {t : Table} {p : ℕ} {c : Connection} (hc : c.fd = (t.conn p).fd)
    (next : ℕ) (me : Worker n) : me.Leaves t { t.setConn p c with next := next } := by
  refine Leaves.same (by rfl) ?_
  intro q
  by_cases hq : q = p
  · subst hq
    simp only [Table.setConn, Function.update_self, hc]
  · simp only [Table.setConn, Function.update_of_ne hq]

end Worker

namespace Server

open Team

structure Wired (s : Server n) : Prop where
  filed : Filed s.free s.shared
  workers : ∀ w, (s.worker w).Wired s.shared

theorem Wired.change {s : Server n} (hs : s.Wired) {w : Fin n} {me : Worker n} {t : Table}
    (hfiled : Filed (Server.free ((s.set w me).share t)) t) (hme : me.Wired t)
    (hleaves : ∀ v, v ≠ w → (s.worker v).Leaves s.shared t) :
    Wired ((s.set w me).share t) :=
  ⟨hfiled, forall_set (P := fun _ (me : Worker n) => me.Wired t) hme
    fun v hv => (hs.workers v).keep (hleaves v hv)⟩

/-- A step that opens and closes no connection and looks at no event. -/
theorem Wired.quiet {s : Server n} (hs : s.Wired) {w : Fin n} {me : Worker n} {t : Table}
    (hme : (s.worker w).Alike me) (hcache : me.connCache = (s.worker w).connCache)
    (hfiled : Filed s.free t) (hleaves : ∀ v : Worker n, v.Leaves s.shared t)
    (hstands : (s.worker w).Stands s.shared me.pc) : Wired ((s.set w me).share t) :=
  hs.change (filed_same hcache hfiled)
    (((hs.workers w).keep (hleaves _)).alike hme ((hstands.keep (hleaves _)).alike hme))
    fun _ _ => hleaves _

theorem Wired.moved {s : Server n} (hs : s.Wired) {w : Fin n} {me : Worker n}
    (hme : (s.worker w).Alike me) (hcache : me.connCache = (s.worker w).connCache)
    (hstands : (s.worker w).Stands s.shared me.pc) : Wired (s.set w me) :=
  hs.quiet (t := s.shared) hme hcache hs.filed (fun _ => .same rfl fun _ => rfl) hstands

/-- The events of the batch change. -/
theorem Wired.seen {s : Server n} (hs : s.Wired) {w : Fin n} {pc : Pc n} {events : List Event}
    (hnodup : (events.map (·.fd)).Nodup)
    (hregistered : ∀ e ∈ events, e.fd ∈ (s.worker w).interest)
    (hstands : { s.worker w with pc := pc, events := events }.Stands s.shared pc) :
    Wired (s.set w { s.worker w with pc := pc, events := events }) :=
  hs.change (t := s.shared) (filed_same (by rfl) hs.filed)
    ⟨(hs.workers w).known, hnodup, hregistered, hstands⟩ fun _ _ => .same rfl fun _ => rfl

theorem Wired.delivered {s : Server n} (hs : s.Wired) {w owner : Fin n} {me : Worker n}
    (hme : (s.worker w).Alike me) (hcache : me.connCache = (s.worker w).connCache)
    (hstands : (s.worker w).Stands s.shared me.pc) (items : List ℤ) (k : ℕ) :
    Wired ((s.set w me).modify owner (deliver items k)) := by
  have hs' := hs.moved hme hcache hstands
  refine hs'.moved (w := owner) ⟨by rfl, by rfl, by rfl, by rfl⟩ (by rfl) ?_
  exact (hs'.workers owner).stands

/-- An event that is taken up finds its connection by its descriptor. -/
theorem Wired.finds {s : Server n} (hs : s.Wired) {me : Worker n} {fd : ℤ} {p : ℕ}
    (hseen : fd ∉ me.events.map (·.fd)) (hp : s.shared.conns fd = some p) :
    me.Linked s.shared p := by
  intro _
  rw [hs.filed.live hp]
  exact ⟨hp, hseen⟩

/-! ### Opening and closing -/

theorem Wired.installed {tr : List (Input n × Output n)} {s : Server n} (hi : s.Inv tr)
    (hs : s.Wired) {w : Fin n} {fd : ℤ} (hpc : (s.worker w).pc = .install fd) {c : Connection}
    (hc : c.fd = fd) :
    Wired ((s.set w { s.worker w with
        connCache := (cacheAlloc (s.worker w).connCache s.shared.next).cache
        interest := fd :: (s.worker w).interest
        pc := .drain }).share
      (s.shared.install fd (cacheAlloc (s.worker w).connCache s.shared.next).entry c
        (cacheAlloc (s.worker w).connCache s.shared.next).next)) := by
  have hwired := hs.workers w
  have hcount := free_set s w { s.worker w with
    connCache := (cacheAlloc (s.worker w).connCache s.shared.next).cache
    interest := fd :: (s.worker w).interest
    pc := .drain } (s.shared.install fd (cacheAlloc (s.worker w).connCache s.shared.next).entry c
      (cacheAlloc (s.worker w).connCache s.shared.next).next)
  have hleaves : ∀ v, (s.worker v).Leaves s.shared
      (s.shared.install fd (cacheAlloc (s.worker w).connCache s.shared.next).entry c
        (cacheAlloc (s.worker w).connCache s.shared.next).next) := by
    intro v
    have hnone := hi.unregistered hpc v
    constructor
    · intro g p hg hp
      have hgf : g ≠ fd := by
        rintro rfl
        exact hnone hg
      simp only [Table.install, Function.update_of_ne hgf]
      exact hp
    · intro p hp
      simp only [Table.install] at hp ⊢
      by_cases hpn : p = (cacheAlloc (s.worker w).connCache s.shared.next).entry
      · rw [hpn, Function.update_self, hc] at hp
        exact absurd hp hnone
      · rw [Function.update_of_ne hpn]
  refine hs.change (hs.filed.install hc hcount (Nat.le_refl _)) ?_ fun v _ => hleaves v
  refine ⟨?_, hwired.nodup, ?_, trivial⟩
  · intro g hg hown
    rcases List.mem_cons.mp hg with rfl | hg
    · exact ⟨_, Function.update_self ..⟩
    · obtain ⟨p, hp⟩ := hwired.known g hg hown
      exact ⟨p, (hleaves w).conns g p hg hp⟩
  · intro e he
    exact List.mem_cons_of_mem _ (hwired.registered e he)

theorem Wired.closed {tr : List (Input n × Output n)} {s : Server n} (hi : s.Inv tr)
    (hs : s.Wired) {w : Fin n} {p : ℕ} {rest : Option Event}
    (hpc : (s.worker w).pc = .onClose (some p) rest)
    (hmem : (s.shared.conn p).fd ∈ (s.worker w).interest) (msgCache : List ℕ) :
    Wired ((s.set w { s.worker w with
        interest := (s.worker w).interest.erase (s.shared.conn p).fd
        connCount := (s.worker w).connCount + 1
        msgCache := msgCache
        connCache := cacheFree (s.worker w).connCache p
        pc := rest.elim .loop .event }).share (s.shared.close (s.shared.conn p).fd)) := by
  have hwired := hs.workers w
  have hstands := hwired.stands
  rw [hpc] at hstands
  obtain ⟨hlinked, hrest⟩ := hstands
  obtain ⟨hfiled, hseen⟩ := hlinked p rfl hmem
  obtain ⟨hone, hothers⟩ := hi.registered_once hmem
  have hfree : ∀ b, Server.free ((s.set w { s.worker w with
        interest := (s.worker w).interest.erase (s.shared.conn p).fd
        connCount := (s.worker w).connCount + 1
        msgCache := msgCache
        connCache := cacheFree (s.worker w).connCache p
        pc := rest.elim .loop .event }).share (s.shared.close (s.shared.conn p).fd)) b =
      s.free b + if b = p then 1 else 0 := by
    intro b
    refine Nat.add_right_cancel ((free_set s w _ _ b).trans ?_)
    rw [count_cacheFree]
    omega
  refine hs.change (hs.filed.close hfiled hfree) ?_ ?_
  · refine ⟨Worker.known_close hone hwired.known, hwired.nodup,
      Worker.registered_erase hseen hwired.registered, ?_⟩
    cases rest with
    | none => exact trivial
    | some e => exact hrest e rfl
  · intro v hv
    constructor
    · intro g q hg hq
      have hgp : g ≠ (s.shared.conn p).fd := by
        rintro rfl
        exact hothers v hv hg
      rw [Table.conns_close_ne hgp]
      exact hq
    · exact fun q _ => rfl

/-! ### Runs -/

theorem Wired.step {tr : List (Input n × Output n)} {s s' : Server n} (hi : s.Inv tr)
    (hs : s.Wired) {a : Input n} {o : Output n} (h : s.step msgSize a = some (s', o)) :
    s'.Wired := by
  cases step_spec h with
  | batch hpc hnodup hmem => exact hs.seen hnodup hmem trivial
  | @batchEnd w hpc hnil => exact hs.moved ⟨by rfl, by rfl, by rfl, by rfl⟩ (by rfl) trivial
  | @failed w e events hpc hevents herr hlisten hevent =>
      obtain ⟨-, hnodup, hregistered, -⟩ := hs.workers w
      rw [hevents, List.map_cons, List.nodup_cons] at hnodup
      rw [hevents] at hregistered
      refine hs.seen hnodup.2 ?_ ⟨?_, ?_⟩
      · intro e' he'
        exact hregistered e' (List.mem_cons_of_mem e he')
      · intro p hp
        exact hs.finds hnodup.1 hp
      · rintro e' he'
        cases he'
        exact hnodup.1
  | @took w e events hpc hevents =>
      obtain ⟨-, hnodup, hregistered, -⟩ := hs.workers w
      rw [hevents, List.map_cons, List.nodup_cons] at hnodup
      rw [hevents] at hregistered
      refine hs.seen hnodup.2 ?_ hnodup.1
      intro e' he'
      exact hregistered e' (List.mem_cons_of_mem e he')
  | listen hpc hfd => exact hs.moved ⟨by rfl, by rfl, by rfl, by rfl⟩ (by rfl) trivial
  | wake hpc hfd => exact hs.moved ⟨by rfl, by rfl, by rfl, by rfl⟩ (by rfl) trivial
  | @ready w e hpc hlisten hevent =>
      have hstands := (hs.workers w).stands
      rw [hpc] at hstands
      refine hs.moved ⟨by rfl, by rfl, by rfl, by rfl⟩ (by rfl) ?_
      intro p hp
      exact hs.finds hstands hp
  | accepted hpc hpos hfd =>
      exact hs.quiet ⟨by rfl, by rfl, by rfl, by rfl⟩ (by rfl) (hs.filed.accept _)
        (fun _ => .same rfl fun _ => rfl) trivial
  | acceptEnd hpc => exact hs.moved ⟨by rfl, by rfl, by rfl, by rfl⟩ (by rfl) trivial
  | @pushed w fd owner hpc =>
      exact hs.delivered (w := w) ⟨by rfl, by rfl, by rfl, by rfl⟩ (by rfl) (by trivial) [fd] 0
  | @notified w owner hpc =>
      exact hs.delivered (w := w) ⟨by rfl, by rfl, by rfl, by rfl⟩ (by rfl) (by trivial) [] 1
  | asleep hpc hzero => exact hs.moved ⟨by rfl, by rfl, by rfl, by rfl⟩ (by rfl) trivial
  | awake hpc hpos => exact hs.moved ⟨by rfl, by rfl, by rfl, by rfl⟩ (by rfl) trivial
  | drained hpc hnil => exact hs.moved ⟨by rfl, by rfl, by rfl, by rfl⟩ (by rfl) trivial
  | popped hpc hcons => exact hs.moved ⟨by rfl, by rfl, by rfl, by rfl⟩ (by rfl) trivial
  | installed hpc hnew =>
      subst hnew
      exact Wired.installed hi hs hpc rfl
  | ignored hpc hneg => exact hs.moved ⟨by rfl, by rfl, by rfl, by rfl⟩ (by rfl) trivial
  | @entered w p cursor msgCache c next hpc hfd hnext =>
      have hstands := (hs.workers w).stands
      rw [hpc] at hstands
      exact hs.quiet ⟨by rfl, by rfl, by rfl, by rfl⟩ (by rfl) (hs.filed.setConn hfd hnext)
        (Worker.leaves_setConn hfd next) (hstands p rfl)
  | @answered w ret p c next hpc hfd =>
      have hlinked : (s.worker w).Linked s.shared p := by
        have hstands := (hs.workers w).stands
        cases hw : (s.worker w).pc with
        | read q cursor =>
            rw [hw] at hpc hstands
            cases hpc
            exact hstands
        | write q cursor =>
            rw [hw] at hpc hstands
            cases hpc
            exact hstands
        | _ =>
            rw [hw] at hpc
            exact hpc.elim
      refine hs.quiet ⟨by rfl, by rfl, by rfl, by rfl⟩ (by rfl)
        (hs.filed.setConn hfd (Nat.le_refl _)) (Worker.leaves_setConn hfd _) ?_
      cases next with
      | read cursor => exact hlinked
      | write cursor => exact hlinked
      | close =>
          refine ⟨?_, nofun⟩
          rintro q hq
          cases hq
          exact hlinked
      | done => exact trivial
  | @closed w p rest msgCache hpc hmem => exact Wired.closed hi hs hpc hmem msgCache

theorem wired_start {s : Server n} (h : s.Start) : s.Wired := by
  refine ⟨.empty h.conns h.cached h.fresh, ?_⟩
  intro w
  obtain ⟨hknown, hnodup, hregistered⟩ := h.worker w
  refine ⟨hknown, hnodup, hregistered, ?_⟩
  rw [h.pc]
  exact trivial

theorem reaches_wired {tr : List (Input n × Output n)} {s : Server n}
    (h : (echoServer n msgSize).Reaches tr s) : s.Wired := by
  refine h.invariant (P := fun _ s => s.Wired) (fun _ hs => wired_start hs) ?_
  intro tr s a o t hr hs hstep
  exact hs.step (reaches_inv hr) hstep

end Server

end Upcalls.Epoll
