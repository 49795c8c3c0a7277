import Upcalls.Verification.IoUring.Outstanding

/-! # Each request has its own record

A record is in an `info_cache`, or it is the user data of one request or completion. So what a
completion is taken for is what was requested.
-/

namespace Upcalls.IoUring

open Library TcpEcho

variable {n msgSize : ℕ}

/-- The requests of a worker by where they are. -/
@[ext] structure Load (n : ℕ) where
  sq : List (Req n)
  kernel : List (Req n)
  cq : List (Req n)

def Worker.load (me : Worker n) : Load n := ⟨me.sq, me.kernel, me.cq.map fun c => c.info⟩

theorem Worker.Still.load {me me' : Worker n} (h : me.Still me') : me'.load = me.load := by
  rw [Worker.load, Worker.load, h.sq, h.kernel, h.cq]

namespace UserData

/-- The user data that is not in the cache. -/
def outstanding (me : UserData) : List ℕ := me.sq ++ me.kernel ++ me.cq

def load (info : ℕ → Req n) (me : UserData) : Load n :=
  ⟨me.sq.map info, me.kernel.map info, me.cq.map info⟩

/-- All records of a worker. -/
def all (me : UserData) : List ℕ := me.infoCache ++ me.sq ++ me.kernel ++ me.cq

theorem count_all (me : UserData) (b : ℕ) :
    me.all.count b = me.infoCache.count b + me.outstanding.count b := by
  rw [all, outstanding, ← List.count_append, List.append_assoc, List.append_assoc,
    List.append_assoc]

/-- A record that is not used may be written to. -/
theorem load_update {me : UserData} {b : ℕ} (hb : b ∉ me.outstanding) (info : ℕ → Req n)
    (req : Req n) : me.load (Function.update info b req) = me.load info := by
  have hmap : ∀ l : List ℕ, (∀ x ∈ l, x ∈ me.outstanding) →
      l.map (Function.update info b req) = l.map info := by
    intro l hl
    refine List.map_congr_left ?_
    intro x hx
    refine Function.update_of_ne ?_ _ _
    rintro rfl
    exact hb (hl x hx)
  rw [load, load, hmap me.sq fun x hx => List.mem_append_left _ (List.mem_append_left _ hx),
    hmap me.kernel fun x hx => List.mem_append_left _ (List.mem_append_right _ hx),
    hmap me.cq fun x hx => List.mem_append_right _ hx]

end UserData

namespace Records

open Team

def load (r : Records n) (w : Fin n) : Load n := (r.worker w).load r.shared.info

/-- No record is in two places. -/
structure Distinct (r : Records n) : Prop where
  once : ∀ b, r.places b ≤ 1
  fresh : ∀ b, r.shared.next ≤ b → r.places b = 0

variable {r r' : Records n} {w : Fin n}

theorem places_set (r : Records n) (w : Fin n) (me : UserData) (t : Infos n) (b : ℕ) :
    places ((r.set w me).share t) b + (r.worker w).all.count b = r.places b + me.all.count b :=
  tally_set (fun me => me.all.count b) r w me

theorem Distinct.moved (h : r.Distinct) {me : UserData}
    (hme : ∀ b, me.all.count b = (r.worker w).all.count b) : Distinct (r.set w me) := by
  have hplaces : ∀ b, places (r.set w me) b = r.places b := by
    intro b
    have hset := places_set r w me r.shared b
    rw [hme] at hset
    exact Nat.add_right_cancel hset
  refine ⟨?_, ?_⟩
  · intro b
    rw [hplaces]
    exact h.once b
  · intro b hb
    rw [hplaces]
    exact h.fresh b hb

theorem Distinct.apart (h : r.Distinct) {b : ℕ} (hb : 0 < (r.worker w).all.count b) :
    (r.worker w).all.count b = 1 ∧ ∀ v, v ≠ w → (r.worker v).all.count b = 0 := by
  have honce := h.once b
  constructor
  · have hle := le_tally (fun me : UserData => me.all.count b) r w
    have hplaces : r.tally (fun me => me.all.count b) = r.places b := rfl
    omega
  · intro v hv
    have hle := add_le_tally (fun me : UserData => me.all.count b) r hv
    have hplaces : r.tally (fun me => me.all.count b) = r.places b := rfl
    omega

/-- What `cache_alloc` returns is the user data of nothing. -/
theorem Distinct.entry (h : r.Distinct) (w v : Fin n) :
    (cacheAlloc (r.worker w).infoCache r.shared.next).entry ∉ (r.worker v).outstanding := by
  intro hmem
  have hpos := List.count_pos_iff.mpr hmem
  rcases cacheAlloc_cases (r.worker w).infoCache r.shared.next with
    ⟨hcache, -⟩ | ⟨-, -, hentry, -⟩
  · have hhead := congrArg
      (List.count (cacheAlloc (r.worker w).infoCache r.shared.next).entry) hcache
    rw [List.count_cons_self] at hhead
    have hall := (r.worker w).count_all (cacheAlloc (r.worker w).infoCache r.shared.next).entry
    have hused : 0 < (r.worker w).all.count
        (cacheAlloc (r.worker w).infoCache r.shared.next).entry := by omega
    obtain ⟨hone, hother⟩ := h.apart hused
    by_cases hv : v = w
    · subst hv
      omega
    · have hzero := hother v hv
      rw [UserData.count_all] at hzero
      omega
  · rw [hentry] at hpos
    have hzero := h.fresh _ (Nat.le_refl r.shared.next)
    have hle := le_tally (fun me : UserData => me.all.count r.shared.next) r v
    have hplaces : r.tally (fun me => me.all.count r.shared.next) =
      r.places r.shared.next := rfl
    have hall := (r.worker v).count_all r.shared.next
    omega

theorem Distinct.addRequest (h : r.Distinct) (w : Fin n) (req : Req n) :
    Distinct (r.addRequest w req) := by
  rcases cacheAlloc_cases (r.worker w).infoCache r.shared.next with
    ⟨hcache, hnext⟩ | ⟨hnil, -, -, hnext⟩
  · have hplaces : ∀ b, (r.addRequest w req).places b = r.places b := by
      intro b
      have hhead := congrArg (List.count b) hcache
      rw [List.count_cons] at hhead
      refine Nat.add_right_cancel ((places_set r w _ _ b).trans ?_)
      simp only [UserData.all, List.count_append, List.count_singleton]
      omega
    refine ⟨?_, ?_⟩
    · intro b
      rw [hplaces]
      exact h.once b
    · intro b hb
      rw [hplaces]
      exact h.fresh b (hnext ▸ hb)
  · have hplaces : ∀ b, (r.addRequest w req).places b =
        r.places b + if b = r.shared.next then 1 else 0 := by
      intro b
      refine Nat.add_right_cancel ((places_set r w _ _ b).trans ?_)
      simp only [UserData.all, List.count_append, hnil, cacheAlloc, List.count_nil,
        List.count_singleton, beq_iff_eq, eq_comm (a := r.shared.next)]
      omega
    refine ⟨?_, ?_⟩
    · intro b
      rw [hplaces]
      have honce := h.once b
      split
      · rename_i hb
        rw [h.fresh b (Nat.le_of_eq hb.symm)]
      · exact honce
    · intro b hb
      have hlt : r.shared.next + 1 ≤ b := hnext ▸ hb
      rw [hplaces, h.fresh b (by omega), if_neg (by omega)]

/-! ### What the records say of the requests -/

theorem load_set_ne (r : Records n) (me : UserData) {v : Fin n} (hv : v ≠ w) :
    load (r.set w me) v = r.load v := by
  rw [load, set_worker_ne r me hv]
  rfl

theorem load_set_self (r : Records n) (w : Fin n) (me : UserData) :
    load (r.set w me) w = me.load r.shared.info := by
  rw [load, set_worker_self]
  rfl

theorem Distinct.load_addRequest_ne (h : r.Distinct) (req : Req n) {v : Fin n} (hv : v ≠ w) :
    (r.addRequest w req).load v = r.load v := by
  rw [load, Records.addRequest, share_worker, set_worker_ne _ _ hv, share_shared]
  exact UserData.load_update (h.entry w v) _ req

theorem Distinct.load_addRequest_self (h : r.Distinct) (w : Fin n) (req : Req n) :
    (r.addRequest w req).load w = { r.load w with sq := (r.load w).sq ++ [req] } := by
  have hold := UserData.load_update (h.entry w w) r.shared.info req
  rw [load, Records.addRequest, share_worker, set_worker_self, share_shared]
  rw [UserData.load] at hold ⊢
  simp only [List.map_append, List.map_cons, List.map_nil, Function.update_self]
  obtain ⟨hsq, hkernel, hcq⟩ := Load.mk.inj hold
  rw [hsq, hkernel, hcq]
  rfl

theorem Distinct.addRequests (h : r.Distinct) (w : Fin n) (reqs : List (Req n)) :
    Distinct (r.addRequests w reqs) ∧
      (∀ v, v ≠ w → (r.addRequests w reqs).load v = r.load v) ∧
      (r.addRequests w reqs).load w = { r.load w with sq := (r.load w).sq ++ reqs } := by
  induction reqs generalizing r with
  | nil =>
      refine ⟨h, fun _ _ => rfl, ?_⟩
      rw [List.append_nil]
      rfl
  | cons req reqs ih =>
      obtain ⟨hdistinct, hother, hself⟩ := ih (h.addRequest w req)
      refine ⟨hdistinct, ?_, ?_⟩
      · intro v hv
        exact (hother v hv).trans (h.load_addRequest_ne req hv)
      · refine hself.trans ?_
        rw [h.load_addRequest_self, List.append_assoc]
        rfl

theorem Distinct.complete (h : r.Distinct) {i : ℕ} (hr : r.complete w i = some r') :
    r'.Distinct ∧ (∀ v, v ≠ w → r'.load v = r.load v) ∧
      ∃ req, (r.load w).kernel[i]? = some req ∧ r'.load w =
        ⟨(r.load w).sq, (r.load w).kernel.eraseIdx i, (r.load w).cq ++ [req]⟩ := by
  rw [Records.complete, Option.map_eq_some_iff] at hr
  obtain ⟨b, hb, rfl⟩ := hr
  refine ⟨h.moved ?_, fun v hv => load_set_ne r _ hv, r.shared.info b, ?_, ?_⟩
  · intro x
    have hcount := countP_eraseIdx (· == x) hb
    simp only [UserData.all, List.count_append, List.count_singleton]
    simp only [List.count_eq_countP]
    omega
  · change ((r.worker w).kernel.map r.shared.info)[i]? = _
    rw [List.getElem?_map, hb]
    rfl
  · rw [load_set_self, UserData.load]
    simp only [List.map_append, List.map_cons, List.map_nil, ← List.eraseIdx_map]
    rfl

theorem Distinct.submit (h : r.Distinct) (w : Fin n) : (r.submit w).Distinct ∧
    (∀ v, v ≠ w → (r.submit w).load v = r.load v) ∧
      (r.submit w).load w = ⟨[], (r.load w).kernel ++ (r.load w).sq, (r.load w).cq⟩ := by
  refine ⟨h.moved ?_, fun v hv => load_set_ne r _ hv, ?_⟩
  · intro b
    simp only [UserData.all, List.count_append, List.count_nil]
    omega
  · rw [Records.submit, load_set_self, UserData.load]
    simp only [List.map_append]
    rfl

theorem Distinct.free (h : r.Distinct) {b : ℕ} {cq : List ℕ} (hcq : (r.worker w).cq = b :: cq) :
    (r.free w).Distinct ∧ (∀ v, v ≠ w → (r.free w).load v = r.load v) ∧
      (r.free w).load w = ⟨(r.load w).sq, (r.load w).kernel, cq.map r.shared.info⟩ := by
  have hfree : r.free w = r.set w { r.worker w with
      infoCache := cacheFree (r.worker w).infoCache b, cq := cq } := by
    simp only [Records.free, hcq]
  rw [hfree]
  refine ⟨h.moved ?_, fun v hv => load_set_ne r _ hv, ?_⟩
  · intro x
    simp only [UserData.all, cacheFree, List.count_append, List.count_nil, hcq, List.count_cons]
    omega
  · rw [load_set_self]
    rfl

end Records

/-! ## What a step does to the requests -/

namespace Server

open Team

variable {s s' : Server n} {w : Fin n} {a : Input n} {o : Output n}

/-- `new` is queued, and `cq` are the completions that remain. -/
def Queues (me me' : Worker n) (cq : List (Cqe n)) : Prop :=
  ∃ new, me'.sq = me.sq ++ new ∧ me'.kernel = me.kernel ∧ me'.cq = cq

theorem resume_queues {p : ℕ} {cq : List (Cqe n)} {count : ℕ} {after : Connection × Next}
    (h : s.resume w p cq count after = some s') :
    Queues (s.worker w) (s'.worker w) cq := by
  simp only [resume] at h
  split at h
  · cases Option.some.inj h
    rw [share_worker, set_worker_self]
    exact ⟨[], (List.append_nil _).symm, rfl, rfl⟩
  · obtain ⟨me, hme, h⟩ := Option.bind_eq_some_iff.mp h
    cases Worker.addRequests_spec hme
    cases Option.some.inj h
    rw [share_worker, set_worker_self]
    exact ⟨_, rfl, rfl, rfl⟩
  · obtain ⟨me, hme, h⟩ := Option.bind_eq_some_iff.mp h
    cases Worker.addRequests_spec hme
    cases Option.some.inj h
    rw [share_worker, set_worker_self]
    exact ⟨_, rfl, rfl, rfl⟩

theorem loop_queues {c : Cqe n} {cq : List (Cqe n)} (hcq : (s.worker w).cq = c :: cq)
    (h : s.loop msgSize w = some s') : Queues (s.worker w) (s'.worker w) cq := by
  obtain ⟨info, res⟩ := c
  simp only [loop, hcq] at h
  cases info with
  | accept => cases h
  | sockRead fd buf len =>
      obtain ⟨p, hp, h⟩ := Option.bind_eq_some_iff.mp h
      exact resume_queues h
  | evRead =>
      cases Option.some.inj h
      rw [set_worker_self]
      exact ⟨[], (List.append_nil _).symm, rfl, rfl⟩
  | sockWrite fd buf len =>
      obtain ⟨p, hp, h⟩ := Option.bind_eq_some_iff.mp h
      exact resume_queues h
  | evWrite owner =>
      cases Option.some.inj h
      rw [set_worker_self]
      exact ⟨[], (List.append_nil _).symm, rfl, rfl⟩

/-- A worker handles its first completion. -/
theorem step_handles {c : Cqe n} {cq : List (Cqe n)} (hpc : (s.worker a.worker).pc = .loop)
    (hcq : (s.worker a.worker).cq = c :: cq) (ha : ∀ w i res, a ≠ .complete w i res)
    (h : s.step msgSize a = some (s', o)) :
    Queues (s.worker a.worker) (s'.worker a.worker) cq := by
  cases a with
  | complete w i res => exact absurd rfl (ha w i res)
  | accept w cpu =>
      cases accept_spec h with
      | assigned _ hcq' _ =>
          cases hcq.symm.trans hcq'
          change Queues (s.worker w) ((s.set w _).worker w) cq
          rw [set_worker_self]
          exact ⟨[], (List.append_nil _).symm, rfl, rfl⟩
  | run w =>
      change s.run msgSize w = some (s', o) at h
      have hpc : (s.worker w).pc = .loop := hpc
      rw [run, hpc] at h
      obtain ⟨t, ht, hpair⟩ := Option.map_eq_some_iff.mp h
      cases hpair
      exact loop_queues hcq ht

/-- A worker submits what it has queued. -/
theorem step_submits (hpc : (s.worker a.worker).pc = .loop) (hcq : (s.worker a.worker).cq = [])
    (ha : ∀ w i res, a ≠ .complete w i res) (h : s.step msgSize a = some (s', o)) :
    (s'.worker a.worker).load =
      ⟨[], (s.worker a.worker).kernel ++ (s.worker a.worker).sq, []⟩ := by
  cases a with
  | complete w i res => exact absurd rfl (ha w i res)
  | accept w cpu =>
      cases accept_spec h with
      | assigned _ hcq' _ => cases hcq.symm.trans hcq'
  | run w =>
      change s.run msgSize w = some (s', o) at h
      have hpc : (s.worker w).pc = .loop := hpc
      have hcq : (s.worker w).cq = [] := hcq
      rw [run, hpc] at h
      simp only [loop, hcq, Option.map_some, Option.some.injEq, Prod.mk.injEq] at h
      rw [← h.1]
      change ((s.set w _).worker w).load = _
      rw [set_worker_self]
      rfl

/-- A worker goes on with what it was at. -/
theorem step_goes (hpc : (s.worker a.worker).pc ≠ .loop) (ha : ∀ w i res, a ≠ .complete w i res)
    (h : s.step msgSize a = some (s', o)) :
    Queues (s.worker a.worker) (s'.worker a.worker) (s.worker a.worker).cq := by
  cases step_spec h with
  | accepted hinfo hfd => exact absurd rfl (ha _ _ _)
  | taken hinfo hpos => exact absurd rfl (ha _ _ _)
  | rung hinfo => exact absurd rfl (ha _ _ _)
  | moved hinfo hsock => exact absurd rfl (ha _ _ _)
  | assigned hloop hcq hnext => exact absurd hloop hpc
  | submitted hloop => exact absurd hloop hpc
  | answered hloop hcq => exact absurd hloop hpc
  | freed hloop hcq => exact absurd hloop hpc
  | resumed hloop hcq hinfo hfd hreq => exact absurd hloop hpc
  | closed hloop hcq hinfo hp => exact absurd hloop hpc
  | @woken w hwait =>
      change Queues (s.worker w) ((s.set w _).worker w) _
      rw [set_worker_self]
      exact ⟨[], (List.append_nil _).symm, rfl, rfl⟩
  | @installed w fd after pc buf len c next msgCache new hwork hnew hfd hnext =>
      change Queues (s.worker w) ((s.set w _).worker w) _
      rw [set_worker_self]
      exact ⟨_, rfl, rfl, rfl⟩
  | @pushed w fd owner hpush =>
      change Queues (s.worker w) (((s.set w _).modify owner (deliver [fd] 0)).worker w) _
      rw [Team.modify, set_worker]
      split
      · rename_i hw
        rw [← hw, set_worker_self]
        exact ⟨[], (List.append_nil _).symm, rfl, rfl⟩
      · rw [set_worker_self]
        exact ⟨[], (List.append_nil _).symm, rfl, rfl⟩
  | @notified w owner hnotify =>
      change Queues (s.worker w) ((s.set w _).worker w) _
      rw [set_worker_self]
      exact ⟨_, rfl, rfl, rfl⟩
  | @drained w hdrain hnil =>
      change Queues (s.worker w) ((s.set w _).worker w) _
      rw [set_worker_self]
      exact ⟨[], (List.append_nil _).symm, rfl, rfl⟩
  | @popped w fd rest hdrain hcons =>
      change Queues (s.worker w) ((s.set w _).worker w) _
      rw [set_worker_self]
      exact ⟨[], (List.append_nil _).symm, rfl, rfl⟩

theorem load_answer (me : Worker n) (i : ℕ) (info : Req n) (res : ℤ) :
    (answer me i info res).load =
      ⟨me.load.sq, me.load.kernel.eraseIdx i, me.load.cq ++ [info]⟩ := by
  simp only [Worker.load, answer, List.map_append, List.map_cons, List.map_nil]

/-- The kernel completes a request. -/
theorem complete_load {i : ℕ} {res : ℤ} (h : s.complete w i res = some (s', o)) :
    ∃ req, (s.worker w).load.kernel[i]? = some req ∧ (s'.worker w).load =
      ⟨(s.worker w).load.sq, (s.worker w).load.kernel.eraseIdx i,
        (s.worker w).load.cq ++ [req]⟩ := by
  cases complete_spec h with
  | accepted hinfo hfd =>
      refine ⟨_, hinfo, ?_⟩
      rw [share_worker, set_worker_self, load_answer]
  | @taken w i res hinfo hpos =>
      refine ⟨_, hinfo, ?_⟩
      rw [set_worker_self]
      exact load_answer (s.worker w) i .evRead res
  | @rung w i res owner hinfo =>
      refine ⟨_, hinfo, ?_⟩
      change (((s.set w _).modify owner (deliver [] 1)).worker w).load = _
      rw [Team.modify, set_worker]
      split
      · rename_i hw
        rw [← hw, set_worker_self]
        exact load_answer (s.worker w) i (.evWrite w) res
      · rw [set_worker_self, load_answer]
  | moved hinfo hsock =>
      refine ⟨_, hinfo, ?_⟩
      rw [set_worker_self, load_answer]

theorem fail_load {i : ℕ} {res : ℤ} (h : s.fail w i res = some (s', o)) :
    (∀ v, v ≠ w → (s'.worker v).load = (s.worker v).load) ∧
      ∃ req, (s.worker w).load.kernel[i]? = some req ∧ (s'.worker w).load =
        ⟨(s.worker w).load.sq, (s.worker w).load.kernel.eraseIdx i,
          (s.worker w).load.cq ++ [req]⟩ := by
  rw [fail] at h
  obtain ⟨info, hinfo, h⟩ := Option.bind_eq_some_iff.mp h
  split at h
  · cases Option.some.inj h
    refine ⟨?_, info, hinfo, ?_⟩
    · intro v hv
      rw [set_worker_ne s _ hv]
    · rw [set_worker_self]
      exact load_answer _ _ _ res
  · cases h

end Server

/-! ## Runs -/

namespace Uring

open Team

variable {tr : List (Attempt n × Output n)} {u u' : Uring n} {w : Fin n} {a : Attempt n}
  {o : Output n}

structure Inv (msgSize : ℕ) (tr : List (Attempt n × Output n)) (u : Uring n) : Prop where
  clean : ∃ log, u.server.clean.Inv log
  tended : u.server.Tended msgSize tr
  load : ∀ w, u.records.load w = (u.server.worker w).load
  distinct : u.records.Distinct

/-- A completion is what its record says. -/
theorem Inv.fetch (hu : u.Inv msgSize tr) (w : Fin n) : u.fetch w = u.server := by
  rw [Uring.fetch]
  split
  · rename_i c cq b rest hcq hrest
    have hload := congrArg Load.cq (hu.load w)
    change (u.records.worker w).cq.map u.records.shared.info =
      (u.server.worker w).cq.map (fun c => c.info) at hload
    rw [hcq, hrest, List.map_cons, List.map_cons] at hload
    have hinfo := (List.cons.inj hload).1
    rw [hinfo, ← hcq]
    exact congrArg (fun worker => (⟨worker, u.server.shared⟩ : Server n))
      (Function.update_eq_self w u.server.worker)
  · rfl

/-- The records go with the requests. -/
def Goes (msgSize : ℕ) (a : Attempt n) (u u' : Uring n) (o : Output n) : Prop :=
  u.server.attempt msgSize a = some (u'.server, o) ∧
    (∀ v, u'.records.load v = (u'.server.worker v).load) ∧ u'.records.Distinct

theorem Inv.completes (hu : u.Inv msgSize tr) {i : ℕ}
    (hothers : ∀ v, v ≠ w → (u'.server.worker v).load = (u.server.worker v).load)
    (hself : ∃ req, (u.server.worker w).load.kernel[i]? = some req ∧ (u'.server.worker w).load =
      ⟨(u.server.worker w).load.sq, (u.server.worker w).load.kernel.eraseIdx i,
        (u.server.worker w).load.cq ++ [req]⟩)
    (hrecords : u.records.complete w i = some u'.records) :
    (∀ v, u'.records.load v = (u'.server.worker v).load) ∧ u'.records.Distinct := by
  obtain ⟨hdistinct, hothers', req, hreq, hself'⟩ := hu.distinct.complete hrecords
  refine ⟨?_, hdistinct⟩
  intro v
  by_cases hv : v = w
  · subst hv
    obtain ⟨req', hreq', hself⟩ := hself
    rw [hu.load] at hreq hself'
    cases hreq.symm.trans hreq'
    rw [hself, hself']
  · rw [hothers v hv, hothers' v hv, hu.load]

theorem Inv.queues (hu : u.Inv msgSize tr) {r : Records n} {s' : Server n} {cq : List (Cqe n)}
    (hdistinct : r.Distinct) (hr : ∀ v, v ≠ w → r.load v = u.records.load v)
    (hw : r.load w = ⟨(u.server.worker w).sq, (u.server.worker w).kernel,
      cq.map fun c => c.info⟩)
    (hothers : ∀ v, v ≠ w → (s'.worker v).load = (u.server.worker v).load)
    (hqueues : Server.Queues (u.server.worker w) (s'.worker w) cq) :
    (∀ v, (r.addRequests w ((s'.worker w).sq.drop (u.server.worker w).sq.length)).load v =
      (s'.worker v).load) ∧
        (r.addRequests w ((s'.worker w).sq.drop (u.server.worker w).sq.length)).Distinct := by
  obtain ⟨new, hsq, hkernel, hcq⟩ := hqueues
  rw [hsq, List.drop_left]
  obtain ⟨hdistinct', hothers', hself'⟩ := hdistinct.addRequests w new
  refine ⟨?_, hdistinct'⟩
  intro v
  by_cases hv : v = w
  · subst hv
    rw [hself', hw, Worker.load, hsq, hkernel, hcq]
  · rw [hothers' v hv, hr v hv, hothers v hv, hu.load]

theorem Inv.work (hu : u.Inv msgSize tr) {a : Input n} (ha : ∀ w i res, a ≠ .complete w i res)
    (h : u.work msgSize a = some (u', o)) : Goes msgSize (.act a) u u' o := by
  have hothers : ∀ {s' : Server n} {o : Output n}, u.server.step msgSize a = some (s', o) →
      ∀ v, v ≠ a.worker → (s'.worker v).load = (u.server.worker v).load :=
    fun hstep v hv => (Server.step_others hstep hv).load
  simp only [Uring.work] at h
  split at h
  · rename_i hpc hcq
    obtain ⟨x, hx, hpair⟩ := Option.map_eq_some_iff.mp h
    cases hpair
    obtain ⟨hdistinct, hrest, hself⟩ := hu.distinct.submit a.worker
    refine ⟨hx, ?_, hdistinct⟩
    intro v
    by_cases hv : v = a.worker
    · subst hv
      rw [hself, hu.load, Server.step_submits hpc hcq ha hx, Worker.load, hcq]
      rfl
    · rw [hrest v hv, hothers hx v hv, hu.load]
  · rename_i c cq hpc hcq
    obtain ⟨x, hx, hpair⟩ := Option.map_eq_some_iff.mp h
    cases hpair
    rw [hu.fetch] at hx
    have hload := congrArg Load.cq (hu.load a.worker)
    change (u.records.worker a.worker).cq.map u.records.shared.info =
      (u.server.worker a.worker).cq.map (fun c => c.info) at hload
    rw [hcq, List.map_cons] at hload
    obtain ⟨b, rest, hrest, hinfo, hmap⟩ := List.map_eq_cons_iff.mp hload
    obtain ⟨hdistinct, hkept, hself⟩ := hu.distinct.free hrest
    rw [hu.load, hmap] at hself
    exact ⟨hx, hu.queues hdistinct hkept hself (hothers hx) (Server.step_handles hpc hcq ha hx)⟩
  · rename_i hnil hcons
    obtain ⟨x, hx, hpair⟩ := Option.map_eq_some_iff.mp h
    cases hpair
    have hpc : (u.server.worker a.worker).pc ≠ .loop := by
      intro hpc
      cases hcq : (u.server.worker a.worker).cq with
      | nil => exact hnil hpc hcq
      | cons c cq => exact hcons c cq hpc hcq
    exact ⟨hx, hu.queues hu.distinct (fun _ _ => rfl) (hu.load a.worker) (hothers hx)
      (Server.step_goes hpc ha hx)⟩

theorem Inv.goes (hu : u.Inv msgSize tr) (h : u.step msgSize a = some (u', o)) :
    Goes msgSize a u u' o := by
  cases a with
  | fail w i res =>
      obtain ⟨x, hx, h⟩ := Option.bind_eq_some_iff.mp h
      obtain ⟨records, hrecords, h⟩ := Option.bind_eq_some_iff.mp h
      cases Option.some.inj h
      obtain ⟨hothers, hself⟩ := Server.fail_load hx
      exact ⟨hx, hu.completes hothers hself hrecords⟩
  | act a =>
      cases a with
      | complete w i res =>
          obtain ⟨x, hx, h⟩ := Option.bind_eq_some_iff.mp h
          obtain ⟨records, hrecords, h⟩ := Option.bind_eq_some_iff.mp h
          cases Option.some.inj h
          have hstep : u.server.step msgSize (.complete w i res) = some (x.1, x.2) := hx
          exact ⟨hx, hu.completes (fun v hv => (Server.step_others hstep hv).load)
            (Server.complete_load hstep) hrecords⟩
      | accept w cpu => exact hu.work nofun h
      | run w => exact hu.work nofun h

theorem Inv.step (hu : u.Inv msgSize tr) (h : u.step msgSize a = some (u', o)) :
    u'.Inv msgSize (tr ++ [(a, o)]) := by
  obtain ⟨hserver, hload, hdistinct⟩ := hu.goes h
  obtain ⟨log, hlog⟩ := hu.clean
  obtain ⟨log', hlog'⟩ := Server.clean_attempt hlog hserver
  exact ⟨⟨log', hlog'⟩, hu.tended.attempt hlog.placed hlog'.placed hserver, hload, hdistinct⟩

theorem Start.inv (h : u.Start) : u.Inv msgSize [] := by
  refine ⟨⟨[], h.server.clean⟩, h.server.tended h.buffers h.freshBuffers, ?_,
    ⟨h.records, h.freshRecords⟩⟩
  intro w
  rw [Records.load, UserData.load, h.sq, h.kernel, h.cq, Worker.load, h.server.sq,
    h.server.kernel, h.server.cq]
  rfl

theorem reaches_inv (h : (uringServer n msgSize).Reaches tr u) : u.Inv msgSize tr :=
  h.invariant (fun _ hu => Start.inv hu) fun _ _ _ _ _ _ hu hstep => hu.step hstep

/-! ## Between the handling of two completions -/

/-- `accept`, `transfer`: worker `w` has one accept outstanding, and one transfer for each live
connection that it owns. `found`: no completion is for a connection that is gone. `records`,
`own`: each request has a record, which nothing else has and which is not free. `buffer`: a
transfer is for the rest of the message in the buffer of its connection, which no other
connection has and which is not free. -/
structure Orderly (msgSize : ℕ) (tr : List (Attempt n × Output n)) (u : Uring n) (w : Fin n) :
    Prop where
  accept : (u.server.worker w).requests.count .accept = 1
  transfer : ∀ fd p, u.server.shared.conns fd = some p → owner tr fd = some w →
    (u.server.worker w).requests.countP (·.on fd) = 1 ∧
      ∀ v, v ≠ w → (u.server.worker v).requests.countP (·.on fd) = 0
  found : ∀ b ∈ (u.records.worker w).cq, ∀ fd, (u.records.shared.info b).on fd = true →
    (u.server.shared.conns fd).isSome
  records : (u.records.worker w).outstanding.map u.records.shared.info =
    (u.server.worker w).requests
  own : ∀ b ∈ (u.records.worker w).outstanding, (u.records.worker w).outstanding.count b = 1 ∧
    ∀ v, b ∉ (u.records.worker v).infoCache ∧ (v ≠ w → b ∉ (u.records.worker v).outstanding)
  buffer : ∀ r ∈ (u.server.worker w).requests, ∀ fd, r.on fd = true →
    ∃ p, u.server.shared.conns fd = some p ∧ r.Rest msgSize (u.server.shared.conn p) ∧
      (u.server.shared.conn p).cursor ≤ msgSize ∧
      u.server.msgFree (u.server.shared.conn p).buffer = 0 ∧
      ∀ g, Buffered u.server.shared g (u.server.shared.conn p).buffer → g = fd

theorem orderly (h : (uringServer n msgSize).Reaches tr u)
    (hpc : (u.server.worker w).pc.Between) : u.Orderly msgSize tr w := by
  have hu := reaches_inv h
  obtain ⟨hsq, hkernel, hcq⟩ := Load.mk.inj (hu.load w)
  refine ⟨?_, ?_, ?_, ?_, ?_, ?_⟩
  · have haccepts := hu.tended.accepts w
    rwa [hpc.accepting] at haccepts
  · intro fd p hp howner
    refine ⟨?_, ?_⟩
    · rw [hu.tended.transfers, hp, if_pos ⟨rfl, howner⟩]
    · intro v hv
      rw [hu.tended.transfers, if_neg]
      rintro ⟨-, hother⟩
      exact hv (Option.some.inj (hother.symm.trans howner))
  · intro b hb fd hon
    have hmem : u.records.shared.info b ∈ (u.server.worker w).requests := by
      refine List.mem_append_right _ ?_
      rw [← hcq]
      exact List.mem_map_of_mem hb
    exact Option.isSome_iff_exists.mpr (hu.tended.transfers.of_mem hmem hon).1
  · rw [UserData.outstanding, List.map_append, List.map_append, hsq, hkernel, hcq]
    rfl
  · intro b hb
    have hpos := List.count_pos_iff.mpr hb
    have hall := (u.records.worker w).count_all b
    have hused : 0 < (u.records.worker w).all.count b := by omega
    obtain ⟨hone, hzero⟩ := hu.distinct.apart hused
    refine ⟨by omega, ?_⟩
    intro v
    by_cases hv : v = w
    · subst hv
      exact ⟨List.count_eq_zero.mp (by omega), fun hne => absurd rfl hne⟩
    · have hnone := hzero v hv
      rw [UserData.count_all] at hnone
      exact ⟨List.count_eq_zero.mp (by omega), fun _ => List.count_eq_zero.mp (by omega)⟩
  · intro r hr fd hon
    obtain ⟨p, hp⟩ := (hu.tended.transfers.of_mem hr hon).1
    have hbuffered : Buffered u.server.shared fd (u.server.shared.conn p).buffer := ⟨p, hp, rfl⟩
    exact ⟨p, hp, hu.tended.rest w r hr fd p hon hp, hu.tended.cursor fd p hp,
      hu.tended.buffers.unowned hbuffered, fun g hg => hu.tended.buffers.single hg hbuffered⟩

end Uring

/-- Two workers with one more record in each `info_cache`. -/
def smallUring : Uring 2 where
  server := smallServer
  records := {
    worker := fun w => {
      infoCache := if w.val = 0 then [5] else [6]
      sq := if w.val = 0 then [1, 2] else [3, 4]
      kernel := []
      cq := [] }
    shared := {
      info := fun b => if b = 1 ∨ b = 3 then .accept else .evRead
      next := 7 } }

theorem smallUring_start : smallUring.Start := by
  have hbuffers : ∀ b, smallUring.server.msgFree b = List.count b [1, 3] := by
    intro b
    rw [Server.msgFree, Team.tally, Fin.sum_univ_two, ← List.count_append]
    rfl
  have hplaces : ∀ b, smallUring.records.places b = List.count b [5, 1, 2, 6, 3, 4] := by
    intro b
    rw [Records.places, Team.tally, Fin.sum_univ_two, ← List.count_append]
    rfl
  refine ⟨smallServer_start, ?_, ?_, ?_, fun _ => rfl, fun _ => rfl, ?_, ?_⟩
  · intro b
    rw [hbuffers]
    exact List.nodup_iff_count_le_one.mp (by decide) b
  · intro b hb
    have hlt : 5 ≤ b := hb
    rw [hbuffers, List.count_eq_zero]
    simp
    omega
  · exact Fin.forall_fin_two.mpr ⟨rfl, rfl⟩
  · intro b
    rw [hplaces]
    exact List.nodup_iff_count_le_one.mp (by decide) b
  · intro b hb
    have hlt : 7 ≤ b := hb
    rw [hplaces, List.count_eq_zero]
    simp
    omega

/-- The first read of the connection that worker 1 has got from worker 0 fails. -/
theorem uringServer_runs : ((uringServer 2 1).exec smallUring
    ((handOver 0 1).map .act ++ [.fail 1 1 (-104)])).isSome := by
  decide

theorem orderly_readFailed : ∃ tr u, (uringServer 2 1).Reaches tr u ∧
    u.server.shared.conns 7 = some 4 ∧ owner tr 7 = some 1 ∧ u.Orderly 1 tr 1 := by
  have hreach := Machine.reaches_exec_get smallUring_start uringServer_runs
  exact ⟨_, _, hreach, rfl, rfl, Uring.orderly hreach (.inl rfl)⟩

end Upcalls.IoUring
