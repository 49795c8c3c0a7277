import Mathlib.Data.List.DropRight
import Upcalls.Verification.IoUring.Handoff

/-! # Room on the submission ring

Between two calls of `io_uring_submit_and_wait` a worker queues one request for a transfer, and
two for a connection that it accepts or gets from another worker. It runs out of room when what
it handles adds up to more than `QUEUE_DEPTH`.
-/

namespace Upcalls.IoUring

open Library TcpEcho

variable {n msgSize : ℕ}

/-! ## What a worker handles in one pass -/

/-- What `w` has handled since its last `io_uring_submit_and_wait`. -/
def pass (w : Fin n) (log : List (Handled n)) : List (Handled n) :=
  log.rtakeWhile (· ≠ .submit w)

/-- The requests for it. -/
def load (w : Fin n) (log : List (Handled n)) : ℕ :=
  (pass w log).count (.transfer w) + 2 * (pass w log).count (.accept w) +
    2 * (pass w log).count (.handedOver w)

/-- In each pass of each worker the requests fit on the ring. -/
def Fits (log : List (Handled n)) : Prop := ∀ w, ∀ l, l <+: log → load w l ≤ QUEUE_DEPTH

namespace Handled

def worker : Handled n → Fin n
  | .transfer w | .accept w | .handedOver w | .submit w => w

def weight : Handled n → ℕ
  | .transfer _ => 1
  | .accept _ | .handedOver _ => 2
  | .submit _ => 0

end Handled

theorem load_nil (w : Fin n) : load w [] = 0 := rfl

theorem load_submit (w : Fin n) (log : List (Handled n)) : load w (log ++ [.submit w]) = 0 := by
  have hpass : pass w (log ++ [.submit w]) = [] := by
    rw [pass, List.rtakeWhile_concat_neg]
    simp
  rw [load, hpass]
  rfl

theorem load_snoc {w : Fin n} {log : List (Handled n)} {x : Handled n} (hx : x ≠ .submit w) :
    load w (log ++ [x]) = load w log + if w = x.worker then x.weight else 0 := by
  have hpass : pass w (log ++ [x]) = pass w log ++ [x] := by
    rw [pass, pass, List.rtakeWhile_concat_pos]
    simpa using hx
  rw [load, load, hpass]
  simp only [List.count_append, List.count_singleton, beq_iff_eq]
  cases x with
  | transfer v =>
      simp only [Handled.transfer.injEq, reduceCtorEq, if_false, Handled.worker, Handled.weight,
        eq_comm (a := w)]
      omega
  | accept v =>
      simp only [Handled.accept.injEq, reduceCtorEq, if_false, Handled.worker, Handled.weight,
        eq_comm (a := w)]
      split <;> omega
  | handedOver v =>
      simp only [Handled.handedOver.injEq, reduceCtorEq, if_false, Handled.worker, Handled.weight,
        eq_comm (a := w)]
      split <;> omega
  | submit v =>
      simp only [reduceCtorEq, if_false, Handled.weight, ite_self, Nat.add_zero]

/-! ## What a step queues -/

theorem sockRead_close (conn : Connection) (ret : ℤ) :
    (sockRead msgSize conn ret).2 = .close ↔ ¬ 0 < ret := by
  rw [sockRead]
  split
  · rename_i hle
    exact ⟨fun _ => Int.not_lt.mpr hle, fun _ => rfl⟩
  · rename_i hgt
    have hpos := Int.not_le.mp hgt
    split
    · simp [hpos]
    · simp [hpos]

theorem sockWrite_close (conn : Connection) (ret : ℤ) :
    (sockWrite msgSize conn ret).2 = .close ↔ ¬ 0 < ret := by
  rw [sockWrite]
  split
  · rename_i hle
    exact ⟨fun _ => Int.not_lt.mpr hle, fun _ => rfl⟩
  · rename_i hgt
    have hpos := Int.not_le.mp hgt
    split
    · simp [hpos]
    · simp [hpos]

/-- The requests and completions of a worker are as they were. -/
structure Worker.Still (me me' : Worker n) : Prop where
  sq : me'.sq = me.sq
  kernel : me'.kernel = me.kernel
  cq : me'.cq = me.cq
  pc : me'.pc = me.pc

theorem Worker.Still.refl (me : Worker n) : me.Still me := ⟨rfl, rfl, rfl, rfl⟩

namespace Server

open Team

variable {s s' : Server n} {a : Input n} {o : Output n} {w : Fin n}

theorem handles_cases (s : Server n) (a : Input n) :
    s.handles a = [] ∧ s.getSqes a = 0 ∨
      ∃ x, s.handles a = [x] ∧ x.worker = a.worker ∧ s.getSqes a = x.weight := by
  cases a with
  | complete w i res => exact .inl ⟨rfl, rfl⟩
  | accept w cpu => exact .inl ⟨rfl, rfl⟩
  | run w =>
      simp only [handles, getSqes]
      cases hpc : (s.worker w).pc with
      | loop =>
          cases hcq : (s.worker w).cq with
          | nil => exact .inr ⟨_, rfl, rfl, rfl⟩
          | cons c cq =>
              obtain ⟨info, res⟩ := c
              cases info with
              | sockRead fd buf len =>
                  simp only
                  split
                  · exact .inr ⟨_, rfl, rfl, rfl⟩
                  · exact .inl ⟨rfl, rfl⟩
              | sockWrite fd buf len =>
                  simp only
                  split
                  · exact .inr ⟨_, rfl, rfl, rfl⟩
                  · exact .inl ⟨rfl, rfl⟩
              | _ => exact .inl ⟨rfl, rfl⟩
      | adopt fd => exact .inr ⟨_, rfl, rfl, rfl⟩
      | notify owner => exact .inr ⟨_, rfl, rfl, rfl⟩
      | install fd => exact .inr ⟨_, rfl, rfl, rfl⟩
      | _ => exact .inl ⟨rfl, rfl⟩

/-- The load goes with what a step queues. -/
theorem load_handles (s : Server n) (a : Input n) (log : List (Handled n)) (v : Fin n) :
    load v (log ++ s.handles a) = if .submit v ∈ s.handles a then 0
      else load v log + if v = a.worker then s.getSqes a else 0 := by
  rcases s.handles_cases a with ⟨hnil, hzero⟩ | ⟨x, hx, hworker, hweight⟩
  · rw [hnil, hzero, List.append_nil, if_neg List.not_mem_nil, ite_self, Nat.add_zero]
  · rw [hx]
    by_cases hsubmit : x = .submit v
    · rw [hsubmit, load_submit, if_pos List.mem_cons_self]
    · have hmem : .submit v ∉ [x] := by
        intro hmem
        exact hsubmit (List.mem_singleton.mp hmem).symm
      rw [load_snoc hsubmit, if_neg hmem, hworker, hweight]

/-- What the other workers keep. -/
theorem step_others (h : s.step msgSize a = some (s', o)) {v : Fin n} (hv : v ≠ a.worker) :
    (s.worker v).Still (s'.worker v) := by
  have hset : ∀ (me : Worker n) (t : Table),
      (s.worker v).Still (((s.set a.worker me).share t).worker v) := by
    intro me t
    rw [share_worker, set_worker_ne s me hv]
    exact .refl _
  have hdeliver : ∀ (me : Worker n) (owner : Fin n) (items : List ℤ) (k : ℕ),
      (s.worker v).Still (((s.set a.worker me).modify owner (deliver items k)).worker v) := by
    intro me owner items k
    rw [Team.modify]
    by_cases hvo : v = owner
    · subst hvo
      rw [set_worker_self, set_worker_ne s me hv]
      exact ⟨rfl, rfl, rfl, rfl⟩
    · rw [set_worker_ne _ _ hvo, set_worker_ne s me hv]
      exact .refl _
  cases step_spec h with
  | accepted hinfo hfd => exact hset _ _
  | taken hinfo hpos => exact hset _ s.shared
  | rung hinfo => exact hdeliver _ _ [] 1
  | moved hinfo hsock => exact hset _ s.shared
  | assigned hpc hcq hnext => exact hset _ s.shared
  | woken hpc => exact hset _ s.shared
  | submitted hpc => exact hset _ s.shared
  | answered hpc hcq => exact hset _ s.shared
  | freed hpc hcq => exact hset _ s.shared
  | resumed hpc hcq hinfo hfd hreq => exact hset _ _
  | closed hpc hcq hinfo hp => exact hset _ _
  | installed hpc hnew hfd hnext => exact hset _ _
  | @pushed w fd owner hpc => exact hdeliver _ owner [fd] 0
  | notified hpc => exact hset _ s.shared
  | drained hpc hnil => exact hset _ s.shared
  | popped hpc hcons => exact hset _ s.shared

/-- The length of the queue of the worker that takes the step. -/
def queued (s : Server n) (a : Input n) : ℕ :=
  if .submit a.worker ∈ s.handles a then 0
  else (s.worker a.worker).sq.length + s.getSqes a

theorem addRequests_length {me me' : Worker n} {reqs : List (Req n)}
    (h : me.addRequests reqs = some me') : me'.sq.length = me.sq.length + reqs.length := by
  rw [Worker.addRequests_spec h, List.length_append]

theorem deliver_sq (t : Server n) (owner : Fin n) (items : List ℤ) (k : ℕ) (v : Fin n) :
    ((t.modify owner (deliver items k)).worker v).sq = (t.worker v).sq := by
  rw [Team.modify]
  by_cases hv : v = owner
  · subst hv
    rw [set_worker_self]
    rfl
  · rw [set_worker_ne _ _ hv]

theorem complete_queued {i : ℕ} {res : ℤ} (h : s.complete w i res = some (s', o)) :
    (s'.worker w).sq = (s.worker w).sq := by
  cases complete_spec h with
  | accepted hinfo hfd => rw [share_worker, set_worker_self]; rfl
  | taken hinfo hpos => rw [set_worker_self]; rfl
  | rung hinfo =>
      refine (deliver_sq _ _ [] 1 w).trans ?_
      rw [set_worker_self]
      rfl
  | moved hinfo hsock => rw [set_worker_self]; rfl

theorem resume_queued {p : ℕ} {cq : List (Cqe n)} {count : ℕ} {after : Connection × Next}
    (h : s.resume w p cq count after = some s') :
    (s'.worker w).sq.length =
      (s.worker w).sq.length + if after.2 = .close then 0 else 1 := by
  simp only [resume] at h
  split at h
  · rename_i hclose
    cases Option.some.inj h
    rw [share_worker, set_worker_self, if_pos hclose]
    rfl
  · rename_i off len hread
    obtain ⟨me, hme, h⟩ := Option.bind_eq_some_iff.mp h
    cases Option.some.inj h
    rw [share_worker, set_worker_self, hread, if_neg Next.noConfusion]
    exact addRequests_length hme
  · rename_i off len hwrite
    obtain ⟨me, hme, h⟩ := Option.bind_eq_some_iff.mp h
    cases Option.some.inj h
    rw [share_worker, set_worker_self, hwrite, if_neg Next.noConfusion]
    exact addRequests_length hme

theorem install_queued {fd : ℤ} {after : Req n} {pc : Pc n}
    (h : s.install msgSize w fd after pc = some s') :
    (s'.worker w).sq.length = (s.worker w).sq.length + 2 := by
  rw [install] at h
  obtain ⟨me, hme, h⟩ := Option.bind_eq_some_iff.mp h
  cases Option.some.inj h
  rw [share_worker, set_worker_self]
  exact addRequests_length hme

theorem notify_queued {owner : Fin n} (h : s.notify w owner = some s') :
    (s'.worker w).sq.length = (s.worker w).sq.length + 2 := by
  rw [notify] at h
  obtain ⟨me, hme, h⟩ := Option.bind_eq_some_iff.mp h
  cases Option.some.inj h
  rw [set_worker_self]
  exact addRequests_length hme

theorem loop_queued (hpc : (s.worker w).pc = .loop) (h : s.loop msgSize w = some s') :
    (s'.worker w).sq.length = s.queued (.run w) := by
  simp only [queued, handles, getSqes, Input.worker, hpc]
  have hsock : ∀ {res : ℤ} {fd : ℤ} {p : ℕ} {after : Connection × Next},
      s.shared.conns fd = some p → (after.2 = .close ↔ ¬ 0 < res) →
      (s'.worker w).sq.length = (s.worker w).sq.length + (if after.2 = .close then 0 else 1) →
      (s'.worker w).sq.length =
        if .submit w ∈ (if 0 < res ∧ (s.shared.conns fd).isSome then [Handled.transfer w] else [])
        then 0 else (s.worker w).sq.length +
          if 0 < res ∧ (s.shared.conns fd).isSome then 1 else 0 := by
    intro res fd p after hp hclose hlength
    rw [hlength, hp]
    by_cases hpos : 0 < res
    · rw [if_neg (fun h => hclose.mp h hpos)]
      simp [hpos]
    · rw [if_pos (hclose.mpr hpos)]
      simp [hpos]
  simp only [loop] at h
  split at h
  · rename_i hcq
    cases Option.some.inj h
    rw [set_worker_self, hcq]
    simp
  · cases h
  · rename_i fd buf len res cq hcq
    obtain ⟨p, hp, h⟩ := Option.bind_eq_some_iff.mp h
    rw [hcq]
    exact hsock hp (sockRead_close _ _) (resume_queued h)
  · rename_i res cq hcq
    cases Option.some.inj h
    rw [set_worker_self, hcq]
    simp
  · rename_i fd buf len res cq hcq
    obtain ⟨p, hp, h⟩ := Option.bind_eq_some_iff.mp h
    rw [hcq]
    exact hsock hp (sockWrite_close _ _) (resume_queued h)
  · rename_i owner res cq hcq
    cases Option.some.inj h
    rw [set_worker_self, hcq]
    simp

theorem step_queued (h : s.step msgSize a = some (s', o)) :
    (s'.worker a.worker).sq.length = s.queued a := by
  cases a with
  | complete w i res =>
      simp only [queued, handles, getSqes, List.not_mem_nil, if_false, Nat.add_zero]
      exact congrArg List.length (complete_queued h)
  | accept w cpu =>
      simp only [queued, handles, getSqes, List.not_mem_nil, if_false, Nat.add_zero]
      cases accept_spec h with
      | assigned hpc hcq hnext =>
          change ((s.set w _).worker w).sq.length = _
          rw [set_worker_self]
          rfl
  | run w =>
      change s.run msgSize w = some (s', o) at h
      rw [run] at h
      split at h
      · rename_i hpc
        simp only [queued, handles, getSqes, Input.worker, hpc, List.not_mem_nil, if_false]
        split at h
        · cases h
        · cases Option.some.inj h
          rw [set_worker_self]
          rfl
      · rename_i hpc
        obtain ⟨t, ht, hpair⟩ := Option.map_eq_some_iff.mp h
        cases hpair
        exact loop_queued hpc ht
      · rename_i fd hpc
        obtain ⟨t, ht, hpair⟩ := Option.map_eq_some_iff.mp h
        cases hpair
        simp only [queued, handles, getSqes, Input.worker, hpc]
        exact install_queued ht
      · rename_i fd owner hpc
        cases Option.some.inj h
        simp only [queued, handles, getSqes, Input.worker, hpc, List.not_mem_nil, if_false]
        refine congrArg List.length ((deliver_sq _ owner [fd] 0 w).trans ?_)
        rw [set_worker_self]
      · rename_i owner hpc
        obtain ⟨t, ht, hpair⟩ := Option.map_eq_some_iff.mp h
        cases hpair
        simp only [queued, handles, getSqes, Input.worker, hpc]
        exact notify_queued ht
      · rename_i hpc
        cases Option.some.inj h
        simp only [queued, handles, getSqes, Input.worker, hpc, List.not_mem_nil, if_false]
        simp only [drain]
        split
        · rw [set_worker_self]
          rfl
        · rw [set_worker_self]
          rfl
      · rename_i fd hpc
        obtain ⟨t, ht, hpair⟩ := Option.map_eq_some_iff.mp h
        cases hpair
        simp only [queued, handles, getSqes, Input.worker, hpc]
        exact install_queued ht

end Server

/-! ## Runs -/

/-- The server, with what its workers have handled. -/
def loggedServer (n msgSize : ℕ) : Machine (Ring n × List (Handled n)) (Input n) (Output n) :=
  (ringServer n msgSize).record fun r a => r.server.handles a

namespace Ring

open Team

/-- A worker before its first `io_uring_submit_and_wait`. -/
structure Fresh (me : Worker n) : Prop where
  sq : me.sq.length = 2
  kernel : me.kernel = []
  cq : me.cq = []
  pc : me.pc = .loop

structure Inv (r : Ring n) (log : List (Handled n)) : Prop where
  fresh : ∀ w, .submit w ∉ log → Fresh (r.server.worker w) ∧ load w log = 0
  queued : r.null = false → ∀ w, .submit w ∈ log →
    (r.server.worker w).sq.length = load w log
  fits : r.null = false → Fits log
  ended : r.null = true → ¬ Fits log

theorem Inv.start {r : Ring n} (h : (ringServer n msgSize).Init r) : r.Inv [] := by
  obtain ⟨hstart, hnull⟩ := h
  refine ⟨?_, ?_, ?_, ?_⟩
  · intro w _
    refine ⟨⟨?_, hstart.kernel w, hstart.cq w, hstart.pc w⟩, load_nil w⟩
    rw [hstart.sq]
    rfl
  · intro _ w hw
    cases hw
  · intro _ w l hl
    rw [List.prefix_nil.mp hl, load_nil]
    exact Nat.zero_le _
  · intro hnull'
    rw [hnull] at hnull'
    cases hnull'

/-- A worker that has not submitted anything does nothing before that. -/
theorem Fresh.first {s s' : Server n} {a : Input n} {o : Output n}
    (h : Fresh (s.worker a.worker)) (hstep : s.step msgSize a = some (s', o)) :
    s.handles a = [.submit a.worker] := by
  cases a with
  | complete w i res =>
      obtain ⟨info, hinfo, -⟩ := Option.bind_eq_some_iff.mp hstep
      rw [show (s.worker w).kernel = [] from h.kernel] at hinfo
      cases hinfo
  | accept w cpu =>
      cases Server.accept_spec hstep with
      | assigned hpc hcq hnext =>
          cases hcq.symm.trans h.cq
  | run w =>
      have hpc : (s.worker w).pc = .loop := h.pc
      have hcq : (s.worker w).cq = [] := h.cq
      simp only [Server.handles, hpc, hcq]
      rfl

theorem Fresh.still {me me' : Worker n} (h : Fresh me) (hstill : me.Still me') : Fresh me' :=
  ⟨hstill.sq ▸ h.sq, hstill.kernel.trans h.kernel, hstill.cq.trans h.cq, hstill.pc.trans h.pc⟩

theorem Fresh.getSqes {s : Server n} {a : Input n} (h : Fresh (s.worker a.worker)) :
    s.getSqes a = 0 := by
  cases a with
  | complete w i res => rfl
  | accept w cpu => rfl
  | run w =>
      have hpc : (s.worker w).pc = .loop := h.pc
      have hcq : (s.worker w).cq = [] := h.cq
      simp only [Server.getSqes, hpc, hcq]

theorem not_submit_of_ne (s : Server n) (a : Input n) {w : Fin n} (hw : w ≠ a.worker) :
    .submit w ∉ s.handles a := by
  intro hmem
  rcases s.handles_cases a with ⟨hnil, -⟩ | ⟨x, hx, hworker, -⟩
  · rw [hnil] at hmem
    cases hmem
  · rw [hx] at hmem
    cases List.mem_singleton.mp hmem
    exact hw hworker

/-- The load behind a step that has room. -/
theorem Inv.load_le {r : Ring n} {log : List (Handled n)} (hr : r.Inv log)
    (hnull : r.null = false) {a : Input n} {s' : Server n} {o : Output n}
    (hroom : (r.server.worker a.worker).sq.length + r.server.getSqes a ≤ QUEUE_DEPTH)
    (h : r.server.step msgSize a = some (s', o)) (w : Fin n) :
    load w (log ++ r.server.handles a) ≤ QUEUE_DEPTH := by
  rw [r.server.load_handles]
  by_cases hw : w = a.worker
  · subst hw
    rw [if_pos rfl]
    by_cases hsubmit : .submit a.worker ∈ log
    · rw [← hr.queued hnull _ hsubmit]
      split
      · exact Nat.zero_le _
      · exact hroom
    · rw [(hr.fresh _ hsubmit).1.first h, if_pos List.mem_cons_self]
      exact Nat.zero_le _
  · rw [if_neg (not_submit_of_ne _ _ hw), if_neg hw]
    exact hr.fits hnull w log List.prefix_rfl

/-- A step with room for its requests. -/
theorem Inv.room {r : Ring n} {log : List (Handled n)} (hr : r.Inv log)
    (hnull : r.null = false) {a : Input n} {s' : Server n} {o : Output n}
    (hroom : (r.server.worker a.worker).sq.length + r.server.getSqes a ≤ QUEUE_DEPTH)
    (h : r.server.step msgSize a = some (s', o)) :
    Inv ⟨s', false⟩ (log ++ r.server.handles a) := by
  refine ⟨?_, ?_, ?_, nofun⟩
  · intro w hsubmit
    rw [List.mem_append, not_or] at hsubmit
    obtain ⟨hfresh, hload⟩ := hr.fresh w hsubmit.1
    have hw : w ≠ a.worker := by
      rintro rfl
      rw [hfresh.first h] at hsubmit
      exact hsubmit.2 List.mem_cons_self
    refine ⟨hfresh.still (Server.step_others h hw), ?_⟩
    rw [r.server.load_handles, if_neg hsubmit.2, if_neg hw, hload]
  · intro _ w hsubmit
    rw [r.server.load_handles]
    by_cases hw : w = a.worker
    · subst hw
      rw [Server.step_queued h, Server.queued, if_pos rfl]
      split
      · rfl
      · rename_i hnone
        rcases List.mem_append.mp hsubmit with hold | hnew
        · rw [hr.queued hnull _ hold]
        · exact absurd hnew hnone
    · have hnone := not_submit_of_ne r.server a hw
      rw [if_neg hnone, if_neg hw, (Server.step_others h hw).sq]
      rcases List.mem_append.mp hsubmit with hold | hnew
      · exact hr.queued hnull w hold
      · exact absurd hnew hnone
  · intro _ w l hl
    rcases r.server.handles_cases a with ⟨hnil, -⟩ | ⟨x, hx, -, -⟩
    · rw [hnil, List.append_nil] at hl
      exact hr.fits hnull w l hl
    · rw [hx] at hl
      rcases List.prefix_concat_iff.mp hl with rfl | hold
      · rw [← hx]
        exact hr.load_le hnull hroom h w
      · exact hr.fits hnull w l hold

/-- A step without room. -/
theorem Inv.full {r : Ring n} {log : List (Handled n)} (hr : r.Inv log)
    (hnull : r.null = false) {a : Input n}
    (hfull : QUEUE_DEPTH < (r.server.worker a.worker).sq.length + r.server.getSqes a) :
    Inv { r with null := true } (log ++ r.server.handles a) := by
  have hsubmit : .submit a.worker ∈ log := by
    by_contra hnone
    have hfresh := (hr.fresh _ hnone).1
    rw [hfresh.sq, hfresh.getSqes] at hfull
    exact absurd hfull (by decide)
  have hload := hr.queued hnull _ hsubmit
  have hle := hr.fits hnull a.worker log List.prefix_rfl
  refine ⟨?_, nofun, nofun, ?_⟩
  · intro w hnone
    rw [List.mem_append, not_or] at hnone
    have hw : w ≠ a.worker := by
      rintro rfl
      exact hnone.1 hsubmit
    obtain ⟨hfresh, hzero⟩ := hr.fresh w hnone.1
    refine ⟨hfresh, ?_⟩
    rw [r.server.load_handles, if_neg hnone.2, if_neg hw, hzero]
  · intro _ hfits
    have hlast := hfits a.worker _ List.prefix_rfl
    rw [r.server.load_handles, if_pos rfl] at hlast
    rcases r.server.handles_cases a with ⟨hnil, hzero⟩ | ⟨x, hx, -, hweight⟩
    · rw [hzero] at hfull
      omega
    · rw [hx] at hlast
      split at hlast
      · rename_i hmem
        rw [hweight, ← List.mem_singleton.mp hmem, Handled.weight] at hfull
        omega
      · omega

theorem Inv.step {r r' : Ring n} {log : List (Handled n)} (hr : r.Inv log) {a : Input n}
    {o : Output n} (h : r.step msgSize a = some (r', o)) :
    r'.Inv (log ++ r.server.handles a) := by
  rw [Ring.step] at h
  split at h
  · cases h
  · rename_i hnull
    have hnull := Bool.eq_false_iff.mpr hnull
    split at h
    · rename_i hfull
      cases Option.some.inj h
      exact hr.full hnull hfull
    · rename_i hroom
      obtain ⟨x, hx, hpair⟩ := Option.map_eq_some_iff.mp h
      cases hpair
      exact hr.room hnull (Nat.le_of_not_lt hroom) hx

theorem reaches_inv {tr : List (Input n × Output n)} {s : Ring n × List (Handled n)}
    (h : (loggedServer n msgSize).Reaches tr s) : s.1.Inv s.2 := by
  refine h.invariant (P := fun _ s => s.1.Inv s.2) ?_ ?_
  · rintro s ⟨hstart, hlog⟩
    rw [hlog]
    exact Inv.start hstart
  · rintro tr s a o t - hs hstep
    obtain ⟨hstep, hlog⟩ := Machine.record_step.mp hstep
    rw [hlog]
    exact hs.step hstep

/-- `io_uring_get_sqe` never returns `NULL` exactly as long as what each worker handles in
one pass fits on the ring. -/
theorem null_iff {tr : List (Input n × Output n)} {s : Ring n × List (Handled n)}
    (h : (loggedServer n msgSize).Reaches tr s) : s.1.null = false ↔ Fits s.2 := by
  have hs := reaches_inv h
  constructor
  · exact hs.fits
  · intro hfits
    by_contra hnull
    exact hs.ended (Bool.eq_true_of_not_eq_false hnull) hfits

end Ring

theorem null_iff_handOver : ∃ tr s, (loggedServer 2 1).Reaches tr s ∧ s.1.null = false ∧
    Fits s.2 ∧ .handedOver 1 ∈ s.2 := by
  have hinit : (loggedServer 2 1).Init (⟨smallServer, false⟩, []) :=
    ⟨⟨smallServer_start, rfl⟩, rfl⟩
  have hrun : ((loggedServer 2 1).exec (⟨smallServer, false⟩, []) (handOver 0 1)).isSome := by
    decide
  have hreach := Machine.reaches_exec_get hinit hrun
  exact ⟨_, _, hreach, rfl, (Ring.null_iff hreach).mp rfl, List.elem_iff.mp rfl⟩

end Upcalls.IoUring
