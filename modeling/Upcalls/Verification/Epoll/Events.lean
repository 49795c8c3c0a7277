import Upcalls.Verification.Epoll.Handoff
import Upcalls.Verification.TcpEcho.Table

/-! # Which connections the event loop calls

Behind `on_close`, `worker_func` goes on with the same event. As long as it meets no
`EPOLLERR` or `EPOLLHUP` of a connection, each call of `on_read` and `on_close` is for a
connection in `conns[]`.
-/

namespace Upcalls.Epoll

open Library TcpEcho

variable {n msgSize : ℕ}

/-! ## Calls -/

/-- A descriptor of the worker itself. An error on it ends the process. -/
def Worker.Own (me : Worker n) (fd : ℤ) : Prop := fd = me.listenSock ∨ fd = me.eventFd

/-- The worker does not meet an error or hang-up of a connection. -/
def Server.calm (s : Server n) : Input n → Bool
  | .run w =>
      match (s.worker w).pc, (s.worker w).events with
      | .loop, e :: _ => !(e.epollErr || e.epollHup) || e.fd = (s.worker w).listenSock ||
          e.fd = (s.worker w).eventFd
      | _, _ => true
  | _ => true

/-- The argument of a call of `on_read` or `on_close`. -/
def Pc.call : Pc n → Option (Option ℕ)
  | .onRead conn | .onClose conn _ => some conn
  | _ => none

/-- Calls are for connections in `conns[]`, and an event that closed its connection is
finished. -/
structure Server.Sound (s : Server n) : Prop where
  called : ∀ w conn, (s.worker w).pc.call = some conn →
    ∃ p, conn = some p ∧ s.shared.conns (s.shared.conn p).fd = some p
  finished : ∀ w conn e, (s.worker w).pc ≠ .onClose conn (some e)

/-! ## The invariant -/

namespace Worker

/-- Connection `p` is this worker's, and no event of the batch is for it any more. -/
structure Current (t : Table) (me : Worker n) (p : ℕ) : Prop where
  filed : t.conns (t.conn p).fd = some p
  registered : (t.conn p).fd ∈ me.interest
  seen : (t.conn p).fd ∉ me.events.map (·.fd)
  other : ¬ me.Own (t.conn p).fd

/-- The part of the invariant that depends on where the worker stands. -/
def At (t : Table) (me : Worker n) : Pc n → Prop
  | .event e => e.fd ∈ me.interest ∧ e.fd ∉ me.events.map (·.fd)
  | .onRead conn => ∃ p, conn = some p ∧ me.Current t p
  | .read p _ | .write p _ => me.Current t p
  | .onClose conn rest => rest = none ∧ ∃ p, conn = some p ∧ me.Current t p
  | _ => True

structure Good (t : Table) (me : Worker n) : Prop where
  known : ∀ fd ∈ me.interest, ¬ me.Own fd → ∃ p, t.conns fd = some p
  nodup : (me.events.map (·.fd)).Nodup
  registered : ∀ e ∈ me.events, e.fd ∈ me.interest
  at_pc : me.At t me.pc

/-- The table keeps the connections of the worker. -/
def Keeps (t t' : Table) (me : Worker n) : Prop :=
  ∀ fd p, fd ∈ me.interest → t.conns fd = some p →
    t'.conns fd = some p ∧ (t'.conn p).fd = (t.conn p).fd

theorem Current.keep {t t' : Table} {me : Worker n} {p : ℕ} (h : me.Current t p)
    (hkeep : me.Keeps t t') : me.Current t' p := by
  obtain ⟨hconns, hfd⟩ := hkeep _ _ h.registered h.filed
  constructor <;> rw [hfd]
  · exact hconns
  · exact h.registered
  · exact h.seen
  · exact h.other

theorem At.keep {t t' : Table} {me : Worker n} {pc : Pc n} (h : me.At t pc)
    (hkeep : me.Keeps t t') : me.At t' pc := by
  cases pc with
  | event e => exact h
  | onRead conn =>
      obtain ⟨p, hp, hcur⟩ := h
      exact ⟨p, hp, hcur.keep hkeep⟩
  | read p cursor => exact Current.keep h hkeep
  | write p cursor => exact Current.keep h hkeep
  | onClose conn rest =>
      obtain ⟨hrest, p, hp, hcur⟩ := h
      exact ⟨hrest, p, hp, hcur.keep hkeep⟩
  | _ => exact trivial

theorem Good.keep {t t' : Table} {me : Worker n} (h : me.Good t) (hkeep : me.Keeps t t') :
    me.Good t' := by
  refine ⟨?_, h.nodup, h.registered, ?_⟩
  · intro fd hfd hown
    obtain ⟨p, hp⟩ := h.known fd hfd hown
    exact ⟨p, (hkeep fd p hfd hp).1⟩
  · exact h.at_pc.keep hkeep

/-- The same worker, but for what the invariant does not look at. -/
structure Alike (me me' : Worker n) : Prop where
  interest : me'.interest = me.interest
  events : me'.events = me.events
  listenSock : me'.listenSock = me.listenSock
  eventFd : me'.eventFd = me.eventFd

theorem Alike.own {me me' : Worker n} (h : me.Alike me') (fd : ℤ) :
    me'.Own fd ↔ me.Own fd := by
  rw [Own, Own, h.listenSock, h.eventFd]

theorem Current.alike {t : Table} {me me' : Worker n} {p : ℕ} (h : me.Current t p)
    (hme : me.Alike me') : me'.Current t p where
  filed := h.filed
  registered := by
    rw [hme.interest]
    exact h.registered
  seen := by
    rw [hme.events]
    exact h.seen
  other := by
    rw [hme.own]
    exact h.other

theorem At.alike {t : Table} {me me' : Worker n} {pc : Pc n} (h : me.At t pc)
    (hme : me.Alike me') : me'.At t pc := by
  cases pc with
  | event e =>
      rw [At, hme.interest, hme.events]
      exact h
  | onRead conn =>
      obtain ⟨p, hp, hcur⟩ := h
      exact ⟨p, hp, hcur.alike hme⟩
  | read p cursor => exact Current.alike h hme
  | write p cursor => exact Current.alike h hme
  | onClose conn rest =>
      obtain ⟨hrest, p, hp, hcur⟩ := h
      exact ⟨hrest, p, hp, hcur.alike hme⟩
  | _ => exact trivial

theorem Good.alike {t : Table} {me me' : Worker n} (h : me.Good t) (hme : me.Alike me')
    (hat : me'.At t me'.pc) : me'.Good t := by
  refine ⟨?_, ?_, ?_, hat⟩
  · intro fd hfd hown
    rw [hme.interest] at hfd
    rw [hme.own] at hown
    exact h.known fd hfd hown
  · rw [hme.events]
    exact h.nodup
  · rw [hme.events, hme.interest]
    exact h.registered

/-- Closing a descriptor that is registered once keeps the connections of the others. -/
theorem known_close {t : Table} {me : Worker n} {fd : ℤ} (hone : me.interest.count fd = 1)
    (h : ∀ g ∈ me.interest, ¬ me.Own g → ∃ p, t.conns g = some p) :
    ∀ g ∈ me.interest.erase fd, ¬ me.Own g → ∃ p, (t.close fd).conns g = some p := by
  intro g hg hown
  have hne : g ≠ fd := by
    rintro rfl
    have hpos := List.count_pos_iff.mpr hg
    rw [List.count_erase_self, hone] at hpos
    exact Nat.lt_irrefl 0 hpos
  rw [Table.conns_close_ne hne]
  exact h g (List.mem_of_mem_erase hg) hown

theorem registered_erase {me : Worker n} {fd : ℤ} (hseen : fd ∉ me.events.map (·.fd))
    (h : ∀ e ∈ me.events, e.fd ∈ me.interest) :
    ∀ e ∈ me.events, e.fd ∈ me.interest.erase fd := by
  intro e he
  have hne : e.fd ≠ fd := by
    rintro rfl
    exact hseen (List.mem_map_of_mem he)
  exact (List.mem_erase_of_ne hne).mpr (h e he)

/-- A record may change while it keeps its descriptor. -/
theorem keeps_setConn {t : Table} {p : ℕ} {c : Connection} (hc : c.fd = (t.conn p).fd)
    (next : ℕ) (me : Worker n) : me.Keeps t { t.setConn p c with next := next } := by
  intro fd q _ hq
  refine ⟨hq, ?_⟩
  by_cases hqp : q = p
  · subst hqp
    simp only [Table.setConn, Function.update_self, hc]
  · simp only [Table.setConn, Function.update_of_ne hqp]

end Worker

namespace Server

open Team

structure Tidy (s : Server n) : Prop where
  filed : Filed s.free s.shared
  good : ∀ w, (s.worker w).Good s.shared

/-- A step of one worker on the table. -/
theorem Tidy.change {s : Server n} (hs : s.Tidy) {w : Fin n} {me : Worker n} {t : Table}
    (hfiled : Filed (Server.free ((s.set w me).share t)) t) (hme : me.Good t)
    (hkeep : ∀ v, v ≠ w → (s.worker v).Keeps s.shared t) :
    Tidy ((s.set w me).share t) :=
  ⟨hfiled, forall_set (P := fun _ (me : Worker n) => me.Good t) hme
    fun v hv => (hs.good v).keep (hkeep v hv)⟩

theorem free_set (s : Server n) (w : Fin n) (me : Worker n) (t : Table) (b : ℕ) :
    Server.free ((s.set w me).share t) b + (s.worker w).connCache.count b =
      s.free b + me.connCache.count b :=
  tally_set (fun me => me.connCache.count b) s w me

theorem free_same {s : Server n} {w : Fin n} {me : Worker n}
    (h : me.connCache = (s.worker w).connCache) (t : Table) :
    Server.free ((s.set w me).share t) = s.free := by
  funext b
  have hset := free_set s w me t b
  rw [h] at hset
  omega

theorem filed_same {s : Server n} {w : Fin n} {me : Worker n} {t : Table}
    (h : me.connCache = (s.worker w).connCache) (hf : Filed s.free t) :
    Filed (Server.free ((s.set w me).share t)) t := by
  rw [free_same h]
  exact hf

/-- A step that opens and closes no connection and looks at no event. -/
theorem Tidy.quiet {s : Server n} (hs : s.Tidy) {w : Fin n} {me : Worker n} {t : Table}
    (hme : (s.worker w).Alike me) (hcache : me.connCache = (s.worker w).connCache)
    (hfiled : Filed s.free t) (hkeep : ∀ v : Worker n, v.Keeps s.shared t)
    (hat : (s.worker w).At s.shared me.pc) : Tidy ((s.set w me).share t) :=
  hs.change (filed_same hcache hfiled)
    (((hs.good w).keep (hkeep _)).alike hme ((hat.keep (hkeep _)).alike hme))
    fun _ _ => hkeep _

theorem Tidy.moved {s : Server n} (hs : s.Tidy) {w : Fin n} {me : Worker n}
    (hme : (s.worker w).Alike me) (hcache : me.connCache = (s.worker w).connCache)
    (hat : (s.worker w).At s.shared me.pc) : Tidy (s.set w me) :=
  hs.quiet (t := s.shared) hme hcache hs.filed (fun _ _ _ _ hp => ⟨hp, rfl⟩) hat

/-- The events of the batch change. -/
theorem Tidy.seen {s : Server n} (hs : s.Tidy) {w : Fin n} {pc : Pc n} {events : List Event}
    (hnodup : (events.map (·.fd)).Nodup)
    (hregistered : ∀ e ∈ events, e.fd ∈ (s.worker w).interest)
    (hat : { s.worker w with pc := pc, events := events }.At s.shared pc) :
    Tidy (s.set w { s.worker w with pc := pc, events := events }) :=
  hs.change (t := s.shared) (filed_same (by rfl) hs.filed)
    ⟨(hs.good w).known, hnodup, hregistered, hat⟩ fun _ _ _ _ _ hp => ⟨hp, rfl⟩

/-- A delivery touches nothing that the invariant looks at. -/
theorem Tidy.delivered {s : Server n} (hs : s.Tidy) {w owner : Fin n} {me : Worker n}
    (hme : (s.worker w).Alike me) (hcache : me.connCache = (s.worker w).connCache)
    (hat : (s.worker w).At s.shared me.pc) (items : List ℤ) (k : ℕ) :
    Tidy ((s.set w me).modify owner (deliver items k)) := by
  have hs' := hs.moved hme hcache hat
  refine hs'.moved (w := owner) ⟨by rfl, by rfl, by rfl, by rfl⟩ (by rfl) ?_
  exact (hs'.good owner).at_pc

/-! ### Opening and closing -/

/-- A descriptor that is being installed is registered nowhere. -/
theorem Inv.unregistered {tr : List (Input n × Output n)} {s : Server n} (hi : s.Inv tr)
    {w : Fin n} {fd : ℤ} (hpc : (s.worker w).pc = .install fd) (v : Fin n) :
    fd ∉ (s.worker v).interest := by
  intro hfd
  have hheld := hi.held fd
  have hone : s.held fd ≤ 1 := by
    split at hheld <;> omega
  have hpos := List.count_pos_iff.mpr hfd
  have hw : 1 ≤ (s.worker w).custody fd := by
    rw [Worker.custody, hpc, Pc.holds, if_pos rfl]
    omega
  by_cases hv : v = w
  · subst hv
    have hle := le_tally (·.custody fd) s v
    have htwo : 2 ≤ (s.worker v).custody fd := by
      rw [Worker.custody, hpc, Pc.holds, if_pos rfl]
      omega
    rw [Server.held] at hone
    omega
  · have hle := add_le_tally (·.custody fd) s hv
    have hcustody : 1 ≤ (s.worker v).custody fd := by
      rw [Worker.custody]
      omega
    rw [Server.held] at hone
    omega

/-- A descriptor is registered with one worker, and once. -/
theorem Inv.registered_once {tr : List (Input n × Output n)} {s : Server n} (hi : s.Inv tr)
    {w : Fin n} {fd : ℤ} (hfd : fd ∈ (s.worker w).interest) :
    (s.worker w).interest.count fd = 1 ∧ ∀ v, v ≠ w → fd ∉ (s.worker v).interest := by
  have hheld := hi.held fd
  have hone : s.held fd ≤ 1 := by
    split at hheld <;> omega
  have hpos := List.count_pos_iff.mpr hfd
  rw [Server.held] at hone
  constructor
  · have hle := le_tally (·.custody fd) s w
    simp only [Worker.custody] at hle hone
    omega
  · intro v hv hmem
    have hle := add_le_tally (·.custody fd) s hv
    have hposv := List.count_pos_iff.mpr hmem
    simp only [Worker.custody] at hle hone
    omega

theorem Tidy.installed {tr : List (Input n × Output n)} {s : Server n} (hi : s.Inv tr)
    (hs : s.Tidy) {w : Fin n} {fd : ℤ} (hpc : (s.worker w).pc = .install fd) {c : Connection}
    (hc : c.fd = fd) :
    Tidy ((s.set w { s.worker w with
        connCache := (cacheAlloc (s.worker w).connCache s.shared.next).cache
        interest := fd :: (s.worker w).interest
        pc := .drain }).share
      (s.shared.install fd (cacheAlloc (s.worker w).connCache s.shared.next).entry c
        (cacheAlloc (s.worker w).connCache s.shared.next).next)) := by
  have hgood := hs.good w
  have hcount := free_set s w { s.worker w with
    connCache := (cacheAlloc (s.worker w).connCache s.shared.next).cache
    interest := fd :: (s.worker w).interest
    pc := .drain } (s.shared.install fd (cacheAlloc (s.worker w).connCache s.shared.next).entry c
      (cacheAlloc (s.worker w).connCache s.shared.next).next)
  have hnew := cacheAlloc_unowned hs.filed.separated hcount
  have hkeep : ∀ v, (s.worker v).Keeps s.shared
      (s.shared.install fd (cacheAlloc (s.worker w).connCache s.shared.next).entry c
        (cacheAlloc (s.worker w).connCache s.shared.next).next) := by
    intro v g p hg hp
    have hgf : g ≠ fd := by
      rintro rfl
      exact hi.unregistered hpc v hg
    have hpn : p ≠ (cacheAlloc (s.worker w).connCache s.shared.next).entry := by
      rintro rfl
      exact hnew g hp
    simp only [Table.install, Function.update_of_ne hgf, Function.update_of_ne hpn]
    exact ⟨hp, trivial⟩
  refine hs.change (hs.filed.install hc hcount (Nat.le_refl _)) ?_ fun v _ => hkeep v
  refine ⟨?_, hgood.nodup, ?_, trivial⟩
  · intro g hg hown
    rcases List.mem_cons.mp hg with rfl | hg
    · exact ⟨_, Function.update_self ..⟩
    · obtain ⟨p, hp⟩ := hgood.known g hg hown
      exact ⟨p, (hkeep w g p hg hp).1⟩
  · intro e he
    exact List.mem_cons_of_mem _ (hgood.registered e he)

theorem Tidy.closed {tr : List (Input n × Output n)} {s : Server n} (hi : s.Inv tr)
    (hs : s.Tidy) {w : Fin n} {p : ℕ} (hp : (s.worker w).Current s.shared p)
    (msgCache : List ℕ) :
    Tidy ((s.set w { s.worker w with
        interest := (s.worker w).interest.erase (s.shared.conn p).fd
        connCount := (s.worker w).connCount + 1
        msgCache := msgCache
        connCache := cacheFree (s.worker w).connCache p
        pc := .loop }).share (s.shared.close (s.shared.conn p).fd)) := by
  have hgood := hs.good w
  obtain ⟨hone, hothers⟩ := hi.registered_once hp.registered
  have hfree : ∀ b, Server.free ((s.set w { s.worker w with
        interest := (s.worker w).interest.erase (s.shared.conn p).fd
        connCount := (s.worker w).connCount + 1
        msgCache := msgCache
        connCache := cacheFree (s.worker w).connCache p
        pc := .loop }).share (s.shared.close (s.shared.conn p).fd)) b =
      s.free b + if b = p then 1 else 0 := by
    intro b
    refine Nat.add_right_cancel ((free_set s w _ _ b).trans ?_)
    rw [count_cacheFree]
    omega
  refine hs.change (hs.filed.close hp.filed hfree) ?_ ?_
  · exact ⟨Worker.known_close hone hgood.known, hgood.nodup,
      Worker.registered_erase hp.seen hgood.registered, trivial⟩
  · intro v hv g q hg hq
    have hgp : g ≠ (s.shared.conn p).fd := by
      rintro rfl
      exact hothers v hv hg
    rw [Table.conns_close_ne hgp]
    exact ⟨hq, rfl⟩

/-! ### Runs -/

theorem Tidy.step {tr : List (Input n × Output n)} {s s' : Server n} (hi : s.Inv tr)
    (hs : s.Tidy) {a : Input n} {o : Output n} (hcalm : s.calm a = true)
    (h : s.step msgSize a = some (s', o)) : s'.Tidy := by
  cases step_spec h with
  | batch hpc hnodup hmem => exact hs.seen hnodup hmem trivial
  | @batchEnd w hpc hnil => exact hs.moved ⟨by rfl, by rfl, by rfl, by rfl⟩ (by rfl) trivial
  | @failed w e events hpc hevents herr hlisten hevent =>
      simp only [calm, hpc, hevents, Bool.or_eq_true, Bool.not_eq_true', Bool.or_eq_false_iff,
        decide_eq_true_eq, hlisten, hevent, or_false] at hcalm
      rcases herr with herr | herr
      · rw [hcalm.1] at herr
        cases herr
      · rw [hcalm.2] at herr
        cases herr
  | @took w e events hpc hevents =>
      obtain ⟨-, hnodup, hregistered, -⟩ := hs.good w
      rw [hevents, List.map_cons, List.nodup_cons] at hnodup
      rw [hevents] at hregistered
      refine hs.seen hnodup.2 ?_ ⟨hregistered e List.mem_cons_self, hnodup.1⟩
      intro e' he'
      exact hregistered e' (List.mem_cons_of_mem e he')
  | listen hpc hfd => exact hs.moved ⟨by rfl, by rfl, by rfl, by rfl⟩ (by rfl) trivial
  | wake hpc hfd => exact hs.moved ⟨by rfl, by rfl, by rfl, by rfl⟩ (by rfl) trivial
  | @ready w e hpc hlisten hevent =>
      have hat := (hs.good w).at_pc
      rw [hpc] at hat
      obtain ⟨hmem, hseen⟩ := hat
      have hown : ¬ (s.worker w).Own e.fd := not_or.mpr ⟨hlisten, hevent⟩
      obtain ⟨p, hp⟩ := (hs.good w).known e.fd hmem hown
      have hfd := hs.filed.live hp
      refine hs.moved ⟨by rfl, by rfl, by rfl, by rfl⟩ (by rfl) ⟨p, hp, ?_⟩
      constructor <;> rw [hfd]
      · exact hp
      · exact hmem
      · exact hseen
      · exact hown
  | accepted hpc hpos hfd =>
      exact hs.quiet ⟨by rfl, by rfl, by rfl, by rfl⟩ (by rfl) (hs.filed.accept _)
        (fun _ _ _ _ hp => ⟨hp, rfl⟩) trivial
  | acceptEnd hpc => exact hs.moved ⟨by rfl, by rfl, by rfl, by rfl⟩ (by rfl) trivial
  | @pushed w fd owner hpc =>
      exact hs.delivered (w := w) ⟨by rfl, by rfl, by rfl, by rfl⟩ (by rfl) (by trivial) [fd] 0
  | @notified w owner hpc =>
      exact hs.delivered (w := w) ⟨by rfl, by rfl, by rfl, by rfl⟩ (by rfl) (by trivial) [] 1
  | asleep hpc hzero => exact hs.moved ⟨by rfl, by rfl, by rfl, by rfl⟩ (by rfl) trivial
  | awake hpc hpos => exact hs.moved ⟨by rfl, by rfl, by rfl, by rfl⟩ (by rfl) trivial
  | drained hpc hnil => exact hs.moved ⟨by rfl, by rfl, by rfl, by rfl⟩ (by rfl) trivial
  | popped hpc hcons => exact hs.moved ⟨by rfl, by rfl, by rfl, by rfl⟩ (by rfl) trivial
  | installed hpc hnew =>
      subst hnew
      exact Tidy.installed hi hs hpc rfl
  | ignored hpc hneg => exact hs.moved ⟨by rfl, by rfl, by rfl, by rfl⟩ (by rfl) trivial
  | @entered w p cursor msgCache c next hpc hfd hnext =>
      have hat := (hs.good w).at_pc
      rw [hpc] at hat
      obtain ⟨q, hq, hcur⟩ := hat
      cases hq
      exact hs.quiet ⟨by rfl, by rfl, by rfl, by rfl⟩ (by rfl) (hs.filed.setConn hfd hnext)
        (Worker.keeps_setConn hfd next) hcur
  | @answered w ret p c next hpc hfd =>
      have hcur : (s.worker w).Current s.shared p := by
        have hat := (hs.good w).at_pc
        cases hw : (s.worker w).pc with
        | read q cursor =>
            rw [hw] at hpc hat
            cases hpc
            exact hat
        | write q cursor =>
            rw [hw] at hpc hat
            cases hpc
            exact hat
        | _ =>
            rw [hw] at hpc
            exact hpc.elim
      refine hs.quiet ⟨by rfl, by rfl, by rfl, by rfl⟩ (by rfl)
        (hs.filed.setConn hfd (Nat.le_refl _)) (Worker.keeps_setConn hfd _) ?_
      cases next with
      | read cursor => exact hcur
      | write cursor => exact hcur
      | close => exact ⟨rfl, p, rfl, hcur⟩
      | done => exact trivial
  | @closed w p rest msgCache hpc hmem =>
      have hat := (hs.good w).at_pc
      rw [hpc] at hat
      obtain ⟨rfl, q, hq, hcur⟩ := hat
      cases hq
      exact Tidy.closed hi hs hcur msgCache

/-- At first a worker has registered its own two descriptors and has no event. -/
theorem Start.worker {s : Server n} (h : s.Start) (w : Fin n) :
    (∀ fd ∈ (s.worker w).interest, ¬ (s.worker w).Own fd → ∃ p, s.shared.conns fd = some p) ∧
      ((s.worker w).events.map (·.fd)).Nodup ∧
      ∀ e ∈ (s.worker w).events, e.fd ∈ (s.worker w).interest := by
  rw [h.events]
  refine ⟨?_, List.nodup_nil, List.forall_mem_nil _⟩
  intro fd hfd hown
  rw [h.interest] at hfd
  simp only [List.mem_cons, List.not_mem_nil, or_false] at hfd
  exact absurd hfd hown

theorem tidy_start {s : Server n} (h : s.Start) : s.Tidy := by
  refine ⟨.empty h.conns h.cached h.fresh, ?_⟩
  intro w
  obtain ⟨hknown, hnodup, hregistered⟩ := h.worker w
  refine ⟨hknown, hnodup, hregistered, ?_⟩
  rw [h.pc]
  exact trivial

theorem guard_tidy {tr : List (Input n × Output n)} {s : Server n}
    (h : ((echoServer n msgSize).guard calm).Reaches tr s) : s.Tidy := by
  refine h.invariant (P := fun _ s => s.Tidy) (fun _ hs => tidy_start hs) ?_
  intro tr s a o t hr hs hstep
  obtain ⟨hcalm, hstep⟩ := Machine.guard_step.mp hstep
  exact hs.step (reaches_inv hr.of_guard) hcalm hstep

theorem Tidy.sound {s : Server n} (hs : s.Tidy) : s.Sound := by
  constructor
  · intro w conn hcall
    have hat := (hs.good w).at_pc
    cases hpc : (s.worker w).pc with
    | onRead c =>
        rw [hpc] at hcall hat
        cases hcall
        obtain ⟨p, hp, hcur⟩ := hat
        exact ⟨p, hp, hcur.filed⟩
    | onClose c rest =>
        rw [hpc] at hcall hat
        cases hcall
        obtain ⟨-, p, hp, hcur⟩ := hat
        exact ⟨p, hp, hcur.filed⟩
    | _ =>
        rw [hpc] at hcall
        cases hcall
  · intro w conn e hpc
    have hat := (hs.good w).at_pc
    rw [hpc] at hat
    cases hat.1

theorem calm_eq_false {s : Server n} {a : Input n} (h : s.calm a = false) :
    ∃ w e events, a = .run w ∧ (s.worker w).pc = .loop ∧ (s.worker w).events = e :: events ∧
      (e.epollErr ∨ e.epollHup) ∧ e.fd ≠ (s.worker w).listenSock ∧
      e.fd ≠ (s.worker w).eventFd := by
  cases a with
  | run w =>
      simp only [calm] at h
      split at h
      · rename_i e events hpc hevents
        simp only [Bool.or_eq_false_iff, Bool.not_eq_false', Bool.or_eq_true,
          decide_eq_false_iff_not] at h
        exact ⟨w, e, events, rfl, hpc, hevents, h.1.1, h.1.2, h.2⟩
      · cases h
  | _ => cases h

/-- An error or hang-up of a connection: the event goes on behind its `on_close`. -/
theorem not_sound_of_not_calm {s s' : Server n} {a : Input n} {o : Output n}
    (h : s.step msgSize a = some (s', o)) (hcalm : s.calm a = false) : ¬ s'.Sound := by
  obtain ⟨w, e, events, rfl, hpc, hevents, herr, hlisten, hevent⟩ := calm_eq_false hcalm
  simp only [step, run, hpc, loop, hevents, if_pos herr, hlisten, hevent, or_self, if_false,
    Option.map_some, Option.some.injEq, Prod.mk.injEq] at h
  obtain ⟨rfl, -⟩ := h
  intro hs
  refine hs.finished w (s.shared.conns e.fd) e ?_
  rw [set_worker_self]

/-- In a run that meets no error or hang-up of a connection, `on_read` and `on_close` are
called for connections in `conns[]` only, and the run stays so exactly as long as it meets
none. -/
theorem echoServer_sound {tr : List (Input n × Output n)} {s : Server n}
    (h : ((echoServer n msgSize).guard calm).Reaches tr s) :
    s.Sound ∧ ∀ a s' o, s.step msgSize a = some (s', o) → (s'.Sound ↔ s.calm a = true) := by
  have hs := guard_tidy h
  refine ⟨hs.sound, ?_⟩
  intro a s' o hstep
  constructor
  · intro hsound
    by_contra hcalm
    exact not_sound_of_not_calm hstep (Bool.eq_false_iff.mpr hcalm) hsound
  · intro hcalm
    exact (hs.step (reaches_inv h.of_guard) hcalm hstep).sound

end Server

/-- Descriptor 7 is installed and its first read finds nothing yet. -/
def firstRead (v w : Fin n) : List (Input n) :=
  handOver v w ++ [.epollWait w [readable 7], .run w, .run w, .run w, .io w (.error true)]

theorem echoServer_sound_firstRead :
    ∃ tr s, ((echoServer 2 1).guard Server.calm).Reaches tr s ∧
      s.shared.conns 7 = some 4 ∧ s.Sound ∧
        ∀ a s' o, s.step 1 a = some (s', o) → (s'.Sound ↔ s.calm a = true) := by
  have hrun : (((echoServer 2 1).guard Server.calm).exec smallServer (firstRead 0 1)).isSome := by
    decide
  have hreach := Machine.reaches_exec_get (M := (echoServer 2 1).guard Server.calm)
    smallServer_start hrun
  exact ⟨_, _, hreach, rfl, Server.echoServer_sound hreach⟩

/-- The peer aborts: `on_close` is called and then `on_read(NULL)`. -/
theorem echoServer_not_sound :
    ¬ ∀ (n msgSize : ℕ) (tr : List (Input n × Output n)) (s : Server n), 1 ≤ msgSize →
      (echoServer n msgSize).Reaches tr s → s.Sound := by
  intro h
  have hrun : ((echoServer 2 1).exec smallServer (firstRead 0 1 ++
      [.run 1, .epollWait 1 [⟨7, true, false, true⟩], .run 1, .run 1, .run 1])).isSome := by
    decide
  have hreach := Machine.reaches_exec_get smallServer_start hrun
  obtain ⟨p, hp, -⟩ := (h 2 1 _ _ (Nat.le_refl 1) hreach).called 1 none rfl
  cases hp

end Upcalls.Epoll
