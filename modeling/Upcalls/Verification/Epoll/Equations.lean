import Upcalls.Model.Epoll
import Upcalls.Verification.TcpEcho.Cache

/-! # What an epoll worker can do in one step -/

namespace Upcalls.Epoll

open Library TcpEcho

variable {n msgSize : ℕ}

/-! ## Connections inside `on_read` -/

theorem afterRead_fd (conn : Connection) (cursor : ℕ) (ret : Ret) :
    (afterRead msgSize conn cursor ret).1.fd = conn.fd := by
  simp only [afterRead]
  cases ret with
  | error again => simp only; split <;> rfl
  | count k =>
      simp only
      split
      · rfl
      · split <;> rfl

theorem afterWrite_fd (conn : Connection) (cursor : ℕ) (ret : Ret) :
    (afterWrite msgSize conn cursor ret).1.fd = conn.fd := by
  simp only [afterWrite]
  cases ret with
  | error again => simp only; split <;> rfl
  | count k =>
      simp only
      split
      · rfl
      · split <;> rfl

/-! ## Inversion -/

/-- `on_read` is at work on the connection at block `p`. -/
def Pc.InRead (p : ℕ) : Pc n → Prop
  | .read q _ | .write q _ => q = p
  | _ => False

namespace Server

open Team

/-- The steps that each input allows. -/
inductive Stepped (s : Server n) : Input n → Server n → Output n → Prop
  | batch {w events} : (s.worker w).pc = .epollWait → (events.map (·.fd)).Nodup →
      (∀ e ∈ events, e.fd ∈ (s.worker w).interest) →
      Stepped s (.epollWait w events)
        (s.set w { s.worker w with pc := .loop, events := events }) .silent
  | batchEnd {w} : (s.worker w).pc = .loop → (s.worker w).events = [] →
      Stepped s (.run w) (s.set w { s.worker w with pc := .epollWait }) .silent
  | failed {w e events} : (s.worker w).pc = .loop → (s.worker w).events = e :: events →
      (e.epollErr ∨ e.epollHup) → e.fd ≠ (s.worker w).listenSock →
      e.fd ≠ (s.worker w).eventFd →
      Stepped s (.run w) (s.set w { s.worker w with
        pc := .onClose (s.shared.conns e.fd) (some e)
        events := events }) .silent
  | took {w e events} : (s.worker w).pc = .loop → (s.worker w).events = e :: events →
      Stepped s (.run w) (s.set w { s.worker w with pc := .event e, events := events }) .silent
  | listen {w e} : (s.worker w).pc = .event e → e.fd = (s.worker w).listenSock →
      Stepped s (.run w) (s.set w { s.worker w with pc := .accept }) .silent
  | wake {w e} : (s.worker w).pc = .event e → e.fd = (s.worker w).eventFd →
      Stepped s (.run w) (s.set w { s.worker w with pc := .onEvent }) .silent
  | ready {w e} : (s.worker w).pc = .event e → e.fd ≠ (s.worker w).listenSock →
      e.fd ≠ (s.worker w).eventFd →
      Stepped s (.run w) (s.set w { s.worker w with pc := .onRead (s.shared.conns e.fd) }) .silent
  | accepted {w fd owner} : (s.worker w).pc = .accept → 0 ≤ fd → s.shared.opened fd = false →
      Stepped s (.accept w fd owner) ((s.set w { s.worker w with
          acceptCount := (s.worker w).acceptCount + 1
          pc := .push fd owner }).share
        { s.shared with opened := Function.update s.shared.opened fd true })
        (.accepted fd owner)
  | acceptEnd {w} : (s.worker w).pc = .accept →
      Stepped s (.acceptAgain w) (s.set w { s.worker w with pc := .loop }) .silent
  | pushed {w fd owner} : (s.worker w).pc = .push fd owner →
      Stepped s (.run w) (s.push w fd owner) .silent
  | notified {w owner} : (s.worker w).pc = .notify owner →
      Stepped s (.run w) ((s.set w { s.worker w with pc := .accept }).modify owner fun me =>
        { me with counter := me.counter + 1 }) .silent
  | asleep {w} : (s.worker w).pc = .onEvent → (s.worker w).counter = 0 →
      Stepped s (.run w) (s.set w { s.worker w with pc := .loop }) .silent
  | awake {w} : (s.worker w).pc = .onEvent → 0 < (s.worker w).counter →
      Stepped s (.run w) (s.set w { s.worker w with counter := 0, pc := .drain }) .silent
  | drained {w} : (s.worker w).pc = .drain → (s.worker w).incoming = [] →
      Stepped s (.run w) (s.set w { s.worker w with pc := .loop }) .silent
  | popped {w fd rest} : (s.worker w).pc = .drain → (s.worker w).incoming = fd :: rest →
      Stepped s (.run w) (s.set w { s.worker w with incoming := rest, pc := .install fd }) .silent
  | installed {w fd} {new : Alloc} : (s.worker w).pc = .install fd →
      new = cacheAlloc (s.worker w).connCache s.shared.next →
      Stepped s (.run w) ((s.set w { s.worker w with
          connCache := new.cache
          interest := fd :: (s.worker w).interest
          pc := .drain }).share
        (s.shared.install fd new.entry { newConn fd with state := .reading } new.next))
        (.installed fd w)
  | ignored {w p} : (s.worker w).pc = .onRead (some p) → (s.shared.conn p).fd < 0 →
      Stepped s (.run w) (s.set w { s.worker w with pc := .loop }) .silent
  | entered {w p cursor msgCache c next} : (s.worker w).pc = .onRead (some p) →
      c.fd = (s.shared.conn p).fd → s.shared.next ≤ next →
      Stepped s (.run w) ((s.set w { s.worker w with
          msgCache := msgCache
          pc := .read p cursor }).share { s.shared.setConn p c with next := next }) .silent
  | answered {w ret p c} {next : Next} : (s.worker w).pc.InRead p →
      c.fd = (s.shared.conn p).fd →
      Stepped s (.io w ret) ((s.set w { s.worker w with pc := next.pc p }).share
        (s.shared.setConn p c)) .silent
  | closed {w p rest msgCache} : (s.worker w).pc = .onClose (some p) rest →
      (s.shared.conn p).fd ∈ (s.worker w).interest →
      Stepped s (.run w) ((s.set w { s.worker w with
          interest := (s.worker w).interest.erase (s.shared.conn p).fd
          connCount := (s.worker w).connCount + 1
          msgCache := msgCache
          connCache := cacheFree (s.worker w).connCache p
          pc := rest.elim .loop .event }).share (s.shared.close (s.shared.conn p).fd)) .silent

/-! ### The specifications of the steps -/

theorem epollWait_spec {s s' : Server n} {w : Fin n} {events : List Event}
    (h : s.epollWait w events = some s') : Stepped s (.epollWait w events) s' .silent := by
  rw [epollWait] at h
  split at h
  · rename_i hguard
    obtain ⟨hpc, -, -, hnodup, hmem⟩ := hguard
    cases Option.some.inj h
    exact .batch hpc hnodup hmem
  · cases h

theorem loop_spec {s s' : Server n} {w : Fin n} (hpc : (s.worker w).pc = .loop)
    (h : s.loop w = some s') : Stepped s (.run w) s' .silent := by
  simp only [loop] at h
  split at h
  · rename_i hnil
    cases Option.some.inj h
    exact .batchEnd hpc hnil
  · rename_i e events hcons
    split at h
    · rename_i herr
      split at h
      · cases h
      · rename_i hfd
        rw [not_or] at hfd
        cases Option.some.inj h
        exact .failed hpc hcons herr hfd.1 hfd.2
    · cases Option.some.inj h
      exact .took hpc hcons

theorem event_spec {s : Server n} {w : Fin n} {e : Event} (hpc : (s.worker w).pc = .event e) :
    Stepped s (.run w) (s.event w e) .silent := by
  rw [event]
  by_cases hlisten : e.fd = (s.worker w).listenSock
  · simp only [if_pos hlisten]
    exact .listen hpc hlisten
  · by_cases hevent : e.fd = (s.worker w).eventFd
    · simp only [if_neg hlisten, if_pos hevent]
      exact .wake hpc hevent
    · simp only [if_neg hlisten, if_neg hevent]
      exact .ready hpc hlisten hevent

theorem accept_spec {s s' : Server n} {w : Fin n} {fd : ℤ} {cpu : Fin n}
    (h : s.accept w fd cpu = some s') :
    Stepped s (.accept w fd cpu) s' (.accepted fd cpu) := by
  simp only [accept, Table.accept] at h
  split at h
  · rename_i hpc
    split at h
    · rename_i hfd
      cases Option.some.inj h
      exact .accepted hpc hfd.1 hfd.2
    · cases h
  · cases h

theorem acceptAgain_spec {s s' : Server n} {w : Fin n} (h : s.acceptAgain w = some s') :
    Stepped s (.acceptAgain w) s' .silent := by
  simp only [acceptAgain] at h
  split at h
  · rename_i hpc
    cases Option.some.inj h
    exact .acceptEnd hpc
  · cases h

theorem notify_spec {s s' : Server n} {w owner : Fin n}
    (hpc : (s.worker w).pc = .notify owner) (h : s.notify w owner = some s') :
    Stepped s (.run w) s' .silent := by
  rw [notify] at h
  split at h
  · cases Option.some.inj h
    exact .notified hpc
  · cases h

theorem onEvent_spec {s : Server n} {w : Fin n} (hpc : (s.worker w).pc = .onEvent) :
    Stepped s (.run w) (s.onEvent w) .silent := by
  simp only [onEvent]
  split
  · rename_i hzero
    exact .asleep hpc hzero
  · rename_i hpos
    exact .awake hpc (Nat.pos_of_ne_zero hpos)

theorem drain_spec {s : Server n} {w : Fin n} (hpc : (s.worker w).pc = .drain) :
    Stepped s (.run w) (s.drain w) .silent := by
  simp only [drain]
  split
  · rename_i hnil
    exact .drained hpc hnil
  · rename_i fd rest hcons
    exact .popped hpc hcons

theorem install_spec {s s' : Server n} {w : Fin n} {fd : ℤ}
    (hpc : (s.worker w).pc = .install fd) (h : s.install w fd = some s') :
    Stepped s (.run w) s' (.installed fd w) := by
  simp only [install] at h
  split at h
  · cases h
  · cases Option.some.inj h
    exact .installed hpc rfl

theorem onRead_spec {s : Server n} {w : Fin n} {p : ℕ}
    (hpc : (s.worker w).pc = .onRead (some p)) : Stepped s (.run w) (s.onRead w p) .silent := by
  simp only [onRead]
  split
  · rename_i hneg
    exact .ignored hpc hneg
  · split
    · exact .entered hpc rfl (cacheAlloc_next_le _ _)
    · exact .entered hpc rfl (Nat.le_refl _)

theorem io_spec {s s' : Server n} {w : Fin n} {ret : Ret}
    (h : s.io msgSize w ret = some s') : Stepped s (.io w ret) s' .silent := by
  simp only [io] at h
  split at h
  · rename_i p cursor hpc
    split at h
    · cases Option.some.inj h
      exact .answered (by rw [hpc]; rfl) (afterRead_fd _ _ _)
    · cases h
  · rename_i p cursor hpc
    split at h
    · cases Option.some.inj h
      exact .answered (by rw [hpc]; rfl) (afterWrite_fd _ _ _)
    · cases h
  · cases h

theorem onClose_spec {s s' : Server n} {w : Fin n} {p : ℕ} {rest : Option Event}
    (hpc : (s.worker w).pc = .onClose (some p) rest) (h : s.onClose w p rest = some s') :
    Stepped s (.run w) s' .silent := by
  simp only [onClose] at h
  split at h
  · rename_i hguard
    cases Option.some.inj h
    exact .closed hpc hguard.1
  · cases h

theorem run_spec {s s' : Server n} {w : Fin n} {o : Output n} (h : s.run w = some (s', o)) :
    Stepped s (.run w) s' o := by
  rw [run] at h
  split at h
  · rename_i hpc
    obtain ⟨t, ht, hpair⟩ := Option.map_eq_some_iff.mp h
    cases hpair
    exact loop_spec hpc ht
  · rename_i e hpc
    cases Option.some.inj h
    exact event_spec hpc
  · rename_i fd owner hpc
    cases Option.some.inj h
    exact .pushed hpc
  · rename_i owner hpc
    obtain ⟨t, ht, hpair⟩ := Option.map_eq_some_iff.mp h
    cases hpair
    exact notify_spec hpc ht
  · rename_i hpc
    cases Option.some.inj h
    exact onEvent_spec hpc
  · rename_i hpc
    cases Option.some.inj h
    exact drain_spec hpc
  · rename_i fd hpc
    obtain ⟨t, ht, hpair⟩ := Option.map_eq_some_iff.mp h
    cases hpair
    exact install_spec hpc ht
  · rename_i p hpc
    cases Option.some.inj h
    exact onRead_spec hpc
  · rename_i p rest hpc
    obtain ⟨t, ht, hpair⟩ := Option.map_eq_some_iff.mp h
    cases hpair
    exact onClose_spec hpc ht
  · cases h

theorem step_spec {s s' : Server n} {a : Input n} {o : Output n}
    (h : s.step msgSize a = some (s', o)) : Stepped s a s' o := by
  cases a with
  | run w => exact run_spec h
  | epollWait w events =>
      obtain ⟨t, ht, hpair⟩ := Option.map_eq_some_iff.mp h
      cases hpair
      exact epollWait_spec ht
  | accept w fd cpu =>
      obtain ⟨t, ht, hpair⟩ := Option.map_eq_some_iff.mp h
      cases hpair
      exact accept_spec ht
  | acceptAgain w =>
      obtain ⟨t, ht, hpair⟩ := Option.map_eq_some_iff.mp h
      cases hpair
      exact acceptAgain_spec ht
  | io w ret =>
      obtain ⟨t, ht, hpair⟩ := Option.map_eq_some_iff.mp h
      cases hpair
      exact io_spec ht

end Server

end Upcalls.Epoll
