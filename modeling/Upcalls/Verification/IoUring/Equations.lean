import Upcalls.Model.IoUring
import Upcalls.Verification.TcpEcho.Cache

/-! # What an io_uring worker can do in one step -/

namespace Upcalls.IoUring

open Library TcpEcho

variable {n msgSize : ℕ}

/-- A request on a connection. -/
def Req.Sock : Req n → Prop
  | .sockRead _ _ _ | .sockWrite _ _ _ => True
  | _ => False

theorem sockRead_fd (conn : Connection) (ret : ℤ) :
    (sockRead msgSize conn ret).1.fd = conn.fd := by
  rw [sockRead]
  split
  · rfl
  · split <;> rfl

theorem sockWrite_fd (conn : Connection) (ret : ℤ) :
    (sockWrite msgSize conn ret).1.fd = conn.fd := by
  rw [sockWrite]
  split
  · rfl
  · split <;> rfl

theorem Worker.addRequests_spec {me me' : Worker n} {reqs : List (Req n)}
    (h : me.addRequests reqs = some me') : me' = { me with sq := me.sq ++ reqs } := by
  rw [addRequests] at h
  split at h
  · exact (Option.some.inj h).symm
  · cases h

namespace Server

open Team

/-- The `i`-th request that the kernel has is completed. -/
def answer (me : Worker n) (i : ℕ) (info : Req n) (res : ℤ) : Worker n :=
  { me with kernel := me.kernel.eraseIdx i, cq := me.cq ++ [⟨info, res⟩] }

/-- The steps that each input allows. -/
inductive Stepped (s : Server n) : Input n → Server n → Output n → Prop
  | accepted {w i fd} : (s.worker w).kernel[i]? = some .accept → s.shared.opened fd = false →
      Stepped s (.complete w i fd) ((s.set w (answer (s.worker w) i .accept fd)).share
        { s.shared with opened := Function.update s.shared.opened fd true }) (.accepted fd)
  | taken {w i res} : (s.worker w).kernel[i]? = some .evRead → 0 < (s.worker w).counter →
      Stepped s (.complete w i res)
        (s.set w { answer (s.worker w) i .evRead res with counter := 0 }) .silent
  | rung {w i res owner} : (s.worker w).kernel[i]? = some (.evWrite owner) →
      Stepped s (.complete w i res)
        ((s.set w (answer (s.worker w) i (.evWrite owner) res)).modify owner fun me =>
          { me with counter := me.counter + 1 }) .silent
  | moved {w i info res} : (s.worker w).kernel[i]? = some info → info.Sock →
      Stepped s (.complete w i res) (s.set w (answer (s.worker w) i info res)) .silent
  | assigned {w cpu fd cq pc} : (s.worker w).pc = .loop →
      (s.worker w).cq = ⟨.accept, fd⟩ :: cq →
      (cpu = w ∧ pc = .adopt fd) ∨ (cpu ≠ w ∧ pc = .push fd cpu) →
      Stepped s (.accept w cpu) (s.set w { s.worker w with
        cq := cq
        acceptCount := (s.worker w).acceptCount + 1
        pc := pc }) (.assigned fd cpu)
  | woken {w} : (s.worker w).pc = .wait →
      Stepped s (.run w) (s.set w { s.worker w with pc := .loop }) .silent
  | submitted {w} : (s.worker w).pc = .loop →
      Stepped s (.run w) (s.set w { s.worker w with
        sq := []
        kernel := (s.worker w).kernel ++ (s.worker w).sq
        pc := .wait }) .silent
  | answered {w res cq} : (s.worker w).pc = .loop → (s.worker w).cq = ⟨.evRead, res⟩ :: cq →
      Stepped s (.run w) (s.set w { s.worker w with cq := cq, pc := .drain }) .silent
  | freed {w owner res cq} : (s.worker w).pc = .loop →
      (s.worker w).cq = ⟨.evWrite owner, res⟩ :: cq →
      Stepped s (.run w) (s.set w { s.worker w with cq := cq }) .silent
  | resumed {w info res cq c p req} {k : ℕ} : (s.worker w).pc = .loop →
      (s.worker w).cq = ⟨info, res⟩ :: cq → info.Sock → c.fd = (s.shared.conn p).fd →
      req.Sock → Stepped s (.run w) ((s.set w { s.worker w with
          cq := cq
          sq := (s.worker w).sq ++ [req]
          connCount := (s.worker w).connCount + k }).share (s.shared.setConn p c)) .silent
  | closed {w info res cq fd p msgCache} : (s.worker w).pc = .loop →
      (s.worker w).cq = ⟨info, res⟩ :: cq → info.Sock → s.shared.conns fd = some p →
      Stepped s (.run w) ((s.set w { s.worker w with
          cq := cq
          connCount := (s.worker w).connCount + 1
          msgCache := msgCache
          connCache := cacheFree (s.worker w).connCache p }).share
        (s.shared.close (s.shared.conn p).fd)) .silent
  | installed {w fd after pc buf len c next msgCache} {new : Alloc} :
      ((s.worker w).pc = .adopt fd ∧ after = .accept ∧ pc = .loop) ∨
        ((s.worker w).pc = .install fd ∧ after = .evRead ∧ pc = .drain) →
      new = cacheAlloc (s.worker w).connCache s.shared.next → c.fd = fd → new.next ≤ next →
      Stepped s (.run w) ((s.set w { s.worker w with
          sq := (s.worker w).sq ++ [.sockRead fd buf len, after]
          msgCache := msgCache
          connCache := new.cache
          pc := pc }).share (s.shared.install fd new.entry c next)) (.installed fd w)
  | pushed {w fd owner} : (s.worker w).pc = .push fd owner →
      Stepped s (.run w) (s.push w fd owner) .silent
  | notified {w owner} : (s.worker w).pc = .notify owner →
      Stepped s (.run w) (s.set w { s.worker w with
        sq := (s.worker w).sq ++ [.evWrite owner, .accept]
        pc := .loop }) .silent
  | drained {w} : (s.worker w).pc = .drain → (s.worker w).incoming = [] →
      Stepped s (.run w) (s.set w { s.worker w with pc := .loop }) .silent
  | popped {w fd rest} : (s.worker w).pc = .drain → (s.worker w).incoming = fd :: rest →
      Stepped s (.run w) (s.set w { s.worker w with incoming := rest, pc := .install fd }) .silent

theorem complete_spec {s s' : Server n} {w : Fin n} {i : ℕ} {res : ℤ} {o : Output n}
    (h : s.complete w i res = some (s', o)) : Stepped s (.complete w i res) s' o := by
  rw [complete] at h
  obtain ⟨info, hinfo, h⟩ := Option.bind_eq_some_iff.mp h
  cases info with
  | accept =>
      obtain ⟨table, htable, h⟩ := Option.bind_eq_some_iff.mp h
      rw [Table.accept] at htable
      split at htable
      · rename_i hfd
        cases Option.some.inj htable
        cases Option.some.inj h
        exact .accepted hinfo hfd.2
      · cases htable
  | evRead =>
      simp only at h
      split at h
      · rename_i hpos
        cases Option.some.inj h
        exact .taken hinfo hpos
      · cases h
  | evWrite owner =>
      simp only at h
      split at h
      · cases Option.some.inj h
        exact .rung hinfo
      · cases h
  | sockRead fd buf len =>
      simp only at h
      split at h
      · cases Option.some.inj h
        exact .moved hinfo trivial
      · cases h
  | sockWrite fd buf len =>
      simp only at h
      split at h
      · cases Option.some.inj h
        exact .moved hinfo trivial
      · cases h

theorem accept_spec {s s' : Server n} {w cpu : Fin n} {o : Output n}
    (h : s.accept w cpu = some (s', o)) : Stepped s (.accept w cpu) s' o := by
  simp only [accept] at h
  split at h
  · rename_i fd cq hpc hcq
    split at h
    · cases h
    · cases Option.some.inj h
      refine .assigned hpc hcq ?_
      by_cases hcpu : cpu = w
      · exact .inl ⟨hcpu, if_pos hcpu⟩
      · exact .inr ⟨hcpu, if_neg hcpu⟩
  · cases h

theorem install_spec {s s' : Server n} {w : Fin n} {fd : ℤ} {after : Req n} {pc : Pc n}
    (hpc : ((s.worker w).pc = .adopt fd ∧ after = .accept ∧ pc = .loop) ∨
      ((s.worker w).pc = .install fd ∧ after = .evRead ∧ pc = .drain))
    (h : s.install msgSize w fd after pc = some s') :
    Stepped s (.run w) s' (.installed fd w) := by
  rw [install] at h
  obtain ⟨me, hme, h⟩ := Option.bind_eq_some_iff.mp h
  cases Worker.addRequests_spec hme
  cases Option.some.inj h
  exact .installed hpc rfl rfl (cacheAlloc_next_le _ _)

theorem resume_spec {s s' : Server n} {w : Fin n} {p : ℕ} {info : Req n} {res : ℤ}
    {cq : List (Cqe n)} {count : ℕ} {after : Connection × Next} {fd : ℤ}
    (hpc : (s.worker w).pc = .loop) (hcq : (s.worker w).cq = ⟨info, res⟩ :: cq)
    (hinfo : info.Sock) (hp : s.shared.conns fd = some p)
    (hfd : after.1.fd = (s.shared.conn p).fd) (h : s.resume w p cq count after = some s') :
    Stepped s (.run w) s' .silent := by
  simp only [resume] at h
  split at h
  · cases Option.some.inj h
    rw [hfd]
    exact .closed hpc hcq hinfo hp
  · obtain ⟨me, hme, h⟩ := Option.bind_eq_some_iff.mp h
    cases Worker.addRequests_spec hme
    cases Option.some.inj h
    exact .resumed hpc hcq hinfo hfd trivial
  · obtain ⟨me, hme, h⟩ := Option.bind_eq_some_iff.mp h
    cases Worker.addRequests_spec hme
    cases Option.some.inj h
    exact .resumed (k := 0) hpc hcq hinfo hfd trivial

theorem loop_spec {s s' : Server n} {w : Fin n} (hpc : (s.worker w).pc = .loop)
    (h : s.loop msgSize w = some s') : Stepped s (.run w) s' .silent := by
  simp only [loop] at h
  split at h
  · cases Option.some.inj h
    exact .submitted hpc
  · cases h
  · rename_i fd buf len res cq hcq
    obtain ⟨p, hp, h⟩ := Option.bind_eq_some_iff.mp h
    exact resume_spec hpc hcq trivial hp (sockRead_fd _ _) h
  · rename_i res cq hcq
    cases Option.some.inj h
    exact .answered hpc hcq
  · rename_i fd buf len res cq hcq
    obtain ⟨p, hp, h⟩ := Option.bind_eq_some_iff.mp h
    exact resume_spec hpc hcq trivial hp (sockWrite_fd _ _) h
  · rename_i owner res cq hcq
    cases Option.some.inj h
    exact .freed hpc hcq

theorem run_spec {s s' : Server n} {w : Fin n} {o : Output n}
    (h : s.run msgSize w = some (s', o)) : Stepped s (.run w) s' o := by
  rw [run] at h
  split at h
  · rename_i hpc
    split at h
    · cases h
    · cases Option.some.inj h
      exact .woken hpc
  · rename_i hpc
    obtain ⟨t, ht, hpair⟩ := Option.map_eq_some_iff.mp h
    cases hpair
    exact loop_spec hpc ht
  · rename_i fd hpc
    obtain ⟨t, ht, hpair⟩ := Option.map_eq_some_iff.mp h
    cases hpair
    exact install_spec (.inl ⟨hpc, rfl, rfl⟩) ht
  · rename_i fd owner hpc
    cases Option.some.inj h
    exact .pushed hpc
  · rename_i owner hpc
    obtain ⟨t, ht, hpair⟩ := Option.map_eq_some_iff.mp h
    cases hpair
    rw [notify] at ht
    obtain ⟨me, hme, ht⟩ := Option.bind_eq_some_iff.mp ht
    cases Worker.addRequests_spec hme
    cases Option.some.inj ht
    exact .notified hpc
  · rename_i hpc
    cases Option.some.inj h
    simp only [drain]
    split
    · rename_i hnil
      exact .drained hpc hnil
    · rename_i fd rest hcons
      exact .popped hpc hcons
  · rename_i fd hpc
    obtain ⟨t, ht, hpair⟩ := Option.map_eq_some_iff.mp h
    cases hpair
    exact install_spec (.inr ⟨hpc, rfl, rfl⟩) ht

theorem step_spec {s s' : Server n} {a : Input n} {o : Output n}
    (h : s.step msgSize a = some (s', o)) : Stepped s a s' o := by
  cases a with
  | complete w i res => exact complete_spec h
  | accept w cpu => exact accept_spec h
  | run w => exact run_spec h

end Server

end Upcalls.IoUring
