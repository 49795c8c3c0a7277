import Upcalls.Verification.IoUring.Wakeup
import Upcalls.Verification.TcpEcho.Table

/-! # Handing connections to their owners

From the completion of its accept on, a descriptor is in one place: a completion, the hands
of a worker, the list of its owner, or `conns[]`.
-/

namespace Upcalls.IoUring

open Library TcpEcho

variable {n msgSize : ℕ}

/-! ## What a worker has in its hands -/

namespace Pc

/-- A descriptor that is for another worker and not pushed yet. -/
def carries (fd : ℤ) (owner : Fin n) : Pc n → ℕ
  | .push g o => if g = fd ∧ o = owner then 1 else 0
  | _ => 0

/-- A descriptor that the worker is about to install. -/
def installs (fd : ℤ) : Pc n → ℕ
  | .adopt g | .install g => if g = fd then 1 else 0
  | _ => 0

def holds (fd : ℤ) : Pc n → ℕ
  | .adopt g | .push g _ | .install g => if g = fd then 1 else 0
  | _ => 0

/-- The worker has no descriptor in its hands. -/
def Idle : Pc n → Prop
  | .adopt _ | .push _ _ | .install _ => False
  | _ => True

theorem Idle.zero {pc : Pc n} (h : pc.Idle) :
    (∀ fd owner, pc.carries fd owner = 0) ∧ (∀ fd, pc.installs fd = 0) ∧
      ∀ fd, pc.holds fd = 0 := by
  cases pc with
  | adopt fd => exact h.elim
  | push fd owner => exact h.elim
  | install fd => exact h.elim
  | _ => exact ⟨fun _ _ => rfl, fun _ => rfl, fun _ => rfl⟩

end Pc

namespace Worker

/-- `ACCEPT` completions with descriptor `fd`. -/
def fresh (fd : ℤ) (me : Worker n) : ℕ := me.cq.countP fun c => c.info = .accept ∧ c.res = fd

def custody (fd : ℤ) (me : Worker n) : ℕ :=
  me.fresh fd + me.incoming.count fd + me.pc.holds fd

/-- On its way to this worker, and no longer in the hands of another. -/
def received (fd : ℤ) (me : Worker n) : ℕ := me.incoming.count fd + me.pc.installs fd

theorem fresh_answer (me : Worker n) (i : ℕ) (info : Req n) (res fd : ℤ) :
    (Server.answer me i info res).fresh fd =
      me.fresh fd + if info = .accept ∧ res = fd then 1 else 0 := by
  simp only [fresh, Server.answer, List.countP_append, List.countP_singleton,
    decide_eq_true_eq]

theorem fresh_answer_ne {me : Worker n} (i : ℕ) {info : Req n} (hinfo : info ≠ .accept)
    (res fd : ℤ) : (Server.answer me i info res).fresh fd = me.fresh fd := by
  rw [fresh_answer, if_neg (fun hacc => hinfo hacc.1), Nat.add_zero]

theorem fresh_cons {me : Worker n} {info : Req n} {res : ℤ} {cq : List (Cqe n)}
    (h : me.cq = ⟨info, res⟩ :: cq) (fd : ℤ) :
    me.fresh fd = cq.countP (fun c => c.info = .accept ∧ c.res = fd) +
      if info = .accept ∧ res = fd then 1 else 0 := by
  rw [fresh, h, List.countP_cons]
  simp only [decide_eq_true_eq]

theorem fresh_tail {me : Worker n} {info : Req n} {res : ℤ} {cq : List (Cqe n)}
    (h : me.cq = ⟨info, res⟩ :: cq) (hinfo : info ≠ .accept) (fd : ℤ) :
    cq.countP (fun c => c.info = .accept ∧ c.res = fd) = me.fresh fd := by
  rw [fresh_cons h, if_neg (fun hacc => hinfo hacc.1), Nat.add_zero]

/-- The same worker, as to the descriptors that it has. -/
structure SameHands (me me' : Worker n) : Prop where
  fresh : ∀ fd, me'.fresh fd = me.fresh fd
  incoming : me'.incoming = me.incoming
  carries : ∀ fd owner, me'.pc.carries fd owner = me.pc.carries fd owner
  installs : ∀ fd, me'.pc.installs fd = me.pc.installs fd
  holds : ∀ fd, me'.pc.holds fd = me.pc.holds fd
  connCache : me'.connCache = me.connCache

theorem SameHands.of_idle {me me' : Worker n} (hpc : me.pc.Idle) (hpc' : me'.pc.Idle)
    (hfresh : ∀ fd, me'.fresh fd = me.fresh fd) (hincoming : me'.incoming = me.incoming)
    (hcache : me'.connCache = me.connCache) : me.SameHands me' where
  fresh := hfresh
  incoming := hincoming
  carries fd owner := (hpc'.zero.1 fd owner).trans (hpc.zero.1 fd owner).symm
  installs fd := (hpc'.zero.2.1 fd).trans (hpc.zero.2.1 fd).symm
  holds fd := (hpc'.zero.2.2 fd).trans (hpc.zero.2.2 fd).symm
  connCache := hcache

theorem SameHands.custody {me me' : Worker n} (h : me.SameHands me') (fd : ℤ) :
    me'.custody fd = me.custody fd := by
  rw [Worker.custody, Worker.custody, h.fresh, h.incoming, h.holds]

theorem SameHands.received {me me' : Worker n} (h : me.SameHands me') (fd : ℤ) :
    me'.received fd = me.received fd := by
  rw [Worker.received, Worker.received, h.incoming, h.installs]

end Worker

/-! ## What has become of the accepted descriptors -/

def Output.assigns (fd : ℤ) : Output n → Bool
  | .assigned g _ => g = fd
  | _ => false

def accepted (tr : List (Input n × Output n)) (fd : ℤ) : ℕ :=
  tr.countP fun x => x.2 = .accepted fd

/-- How many `ACCEPT` completions with descriptor `fd` were handled. -/
def handled (tr : List (Input n × Output n)) (fd : ℤ) : ℕ := tr.countP fun x => x.2.assigns fd

def assigned (tr : List (Input n × Output n)) (owner : Fin n) (fd : ℤ) : ℕ :=
  tr.countP fun x => x.2 = .assigned fd owner

def installed (tr : List (Input n × Output n)) (owner : Fin n) (fd : ℤ) : ℕ :=
  tr.countP fun x => x.2 = .installed fd owner

section Snoc

variable (tr : List (Input n × Output n)) (x : Input n × Output n) (owner : Fin n) (fd : ℤ)

theorem accepted_snoc :
    accepted (tr ++ [x]) fd = accepted tr fd + if x.2 = .accepted fd then 1 else 0 := by
  simp [accepted, List.countP_append, List.countP_singleton]

theorem handled_snoc :
    handled (tr ++ [x]) fd = handled tr fd + if x.2.assigns fd then 1 else 0 := by
  simp [handled, List.countP_append, List.countP_singleton]

theorem assigned_snoc :
    assigned (tr ++ [x]) owner fd =
      assigned tr owner fd + if x.2 = .assigned fd owner then 1 else 0 := by
  simp [assigned, List.countP_append, List.countP_singleton]

theorem installed_snoc :
    installed (tr ++ [x]) owner fd =
      installed tr owner fd + if x.2 = .installed fd owner then 1 else 0 := by
  simp [installed, List.countP_append, List.countP_singleton]

end Snoc

namespace Server

open Team

/-- How often `fd` waits in an `ACCEPT` completion. -/
def fresh (s : Server n) (fd : ℤ) : ℕ := s.tally (·.fresh fd)

/-- How often `fd` is on its way to `owner`. -/
def pending (s : Server n) (owner : Fin n) (fd : ℤ) : ℕ :=
  s.account (·.pc.carries fd owner) (·.received fd) owner

def present (t : Table) (fd : ℤ) : ℕ := if (t.conns fd).isSome then 1 else 0

theorem present_install (t : Table) (fd : ℤ) (p : ℕ) (c : Connection) (next : ℕ) (g : ℤ) :
    present (t.install fd p c next) g ≤ present t g + if fd = g then 1 else 0 := by
  by_cases hg : fd = g
  · rw [if_pos hg, present]
    split <;> omega
  · have hconns : (t.install fd p c next).conns g = t.conns g :=
      Function.update_of_ne (Ne.symm hg) _ _
    rw [if_neg hg, present, present, hconns]
    exact Nat.le_refl _

/-- How often `fd` is in some place. -/
def held (s : Server n) (fd : ℤ) : ℕ := s.tally (·.custody fd) + present s.shared fd

structure Inv (tr : List (Input n × Output n)) (s : Server n) : Prop where
  handled : ∀ fd, accepted tr fd = handled tr fd + s.fresh fd
  once : ∀ owner fd, assigned tr owner fd = installed tr owner fd + s.pending owner fd
  held : ∀ fd, s.held fd ≤ if s.shared.opened fd then 1 else 0
  filed : Filed s.free s.shared

/-! ### Changes of one worker -/

theorem free_set {s : Server n} {w : Fin n} {me : Worker n} (t : Table) (b : ℕ) :
    Server.free ((s.set w me).share t) b + (s.worker w).connCache.count b =
      s.free b + me.connCache.count b :=
  tally_set (fun me => me.connCache.count b) s w me

theorem filed_same {s : Server n} {w : Fin n} {me : Worker n} {t : Table}
    (h : me.connCache = (s.worker w).connCache) (hf : Filed s.free t) :
    Filed (Server.free ((s.set w me).share t)) t := by
  have hfree : Server.free ((s.set w me).share t) = s.free := by
    funext b
    have hset : Server.free ((s.set w me).share t) b + (s.worker w).connCache.count b =
        s.free b + me.connCache.count b := free_set t b
    rw [h] at hset
    omega
  rw [hfree]
  exact hf

/-- What leaves the worker's hands is in the output or in the table. -/
theorem Inv.advance {tr : List (Input n × Output n)} {s : Server n} (hs : s.Inv tr) {w : Fin n}
    {me : Worker n} {t : Table} {x : Input n × Output n}
    (hhandled : ∀ fd, (if x.2 = .accepted fd then 1 else 0) + (s.worker w).fresh fd =
      (if x.2.assigns fd then 1 else 0) + me.fresh fd)
    (honce : ∀ o fd, (if x.2 = .assigned fd o then 1 else 0) +
        ((s.worker w).pc.carries fd o + if o = w then (s.worker w).received fd else 0) =
      (if x.2 = .installed fd o then 1 else 0) +
        (me.pc.carries fd o + if o = w then me.received fd else 0))
    (hheld : ∀ fd, me.custody fd + present t fd + (if s.shared.opened fd then 1 else 0) ≤
      (s.worker w).custody fd + present s.shared fd + if t.opened fd then 1 else 0)
    (hfiled : Filed (Server.free ((s.set w me).share t)) t) :
    Inv (tr ++ [x]) ((s.set w me).share t) := by
  refine ⟨?_, ?_, ?_, hfiled⟩
  · intro fd
    have hset := tally_set (·.fresh fd) s w me
    have hold := hs.handled fd
    have hnew := hhandled fd
    rw [accepted_snoc, handled_snoc, fresh, tally_share]
    rw [fresh] at hold
    omega
  · intro o fd
    have hset := account_set (·.pc.carries fd o) (·.received fd) s w me o
    have hold := hs.once o fd
    have hnew := honce o fd
    rw [assigned_snoc, installed_snoc, pending, account_share]
    rw [pending] at hold
    omega
  · intro fd
    have hset := tally_set (·.custody fd) s w me
    have hold := hs.held fd
    have hnew := hheld fd
    rw [Server.held, tally_share, share_shared]
    rw [Server.held] at hold
    omega

/-- A step that moves no descriptor. -/
theorem Inv.idle {tr : List (Input n × Output n)} {s : Server n} (hs : s.Inv tr) {w : Fin n}
    {me : Worker n} (hme : (s.worker w).SameHands me) {t : Table}
    (hconns : t.conns = s.shared.conns) (hopened : t.opened = s.shared.opened)
    (hfiled : Filed s.free t) (a : Input n) :
    Inv (tr ++ [(a, .silent)]) ((s.set w me).share t) := by
  refine hs.advance ?_ ?_ ?_ (filed_same hme.connCache hfiled)
  · intro fd
    rw [hme.fresh]
    simp [Output.assigns]
  · intro o fd
    rw [hme.carries, hme.received]
    simp
  · intro fd
    rw [hme.custody, present, present, hconns, hopened]

/-- `w` passes from one idle control point to another and keeps its pipe and its cache. -/
theorem Inv.passes {tr : List (Input n × Output n)} {s : Server n} (hs : s.Inv tr) {w : Fin n}
    {me : Worker n} {pc : Pc n} (hpc : (s.worker w).pc = pc) (hidle : pc.Idle)
    (hidle' : me.pc.Idle) (hfresh : ∀ fd, me.fresh fd = (s.worker w).fresh fd)
    (hincoming : me.incoming = (s.worker w).incoming)
    (hcache : me.connCache = (s.worker w).connCache) (a : Input n) :
    Inv (tr ++ [(a, .silent)]) (s.set w me) := by
  subst hpc
  exact hs.idle (t := s.shared) (.of_idle hidle hidle' hfresh hincoming hcache) rfl rfl
    hs.filed a

/-- `w` becomes `me`, which has delivered `items` and `k` rings to `owner`. -/
theorem Inv.delivered {tr : List (Input n × Output n)} {s : Server n} (hs : s.Inv tr)
    {w owner : Fin n} {me : Worker n} (items : List ℤ) (k : ℕ)
    (hfresh : ∀ fd, me.fresh fd = (s.worker w).fresh fd)
    (hincoming : me.incoming = (s.worker w).incoming)
    (hcache : me.connCache = (s.worker w).connCache)
    (hinstalls : ∀ fd, me.pc.installs fd = (s.worker w).pc.installs fd)
    (hholds : ∀ fd, (s.worker w).pc.holds fd = me.pc.holds fd + items.count fd)
    (hcarries : ∀ fd o, (s.worker w).pc.carries fd o =
      me.pc.carries fd o + if o = owner then items.count fd else 0) (a : Input n) :
    Inv (tr ++ [(a, .silent)]) ((s.set w me).modify owner (deliver items k)) := by
  have hsame : ∀ f : Worker n → ℕ, (∀ me, f (deliver items k me) = f me) →
      f me = f (s.worker w) → ((s.set w me).modify owner (deliver items k)).tally f =
        s.tally f := by
    intro f hf hme
    have hset := tally_set f s w me
    rw [tally_modify_eq hf]
    omega
  refine ⟨?_, ?_, ?_, ?_⟩
  · intro fd
    have hhandled := hs.handled fd
    have hset := hsame (·.fresh fd) (fun me => rfl) (hfresh fd)
    simp only [accepted_snoc, handled_snoc, Output.assigns, reduceCtorEq, if_false,
      Bool.false_eq_true]
    rw [fresh] at hhandled ⊢
    omega
  · intro o fd
    have honce := hs.once o fd
    have hset := account_set (·.pc.carries fd o) (·.received fd) s w me o
    have hreceived : ∀ me : Worker n,
        (deliver items k me).received fd = me.received fd + items.count fd := by
      intro me
      simp only [Worker.received, deliver, List.count_append]
      omega
    have hmodify := account_modify (f := fun me : Worker n => me.pc.carries fd o)
      (g := fun me => me.received fd) (h := deliver items k) (fun me => rfl) hreceived
      (s.set w me) owner o
    have hme : me.received fd = (s.worker w).received fd := by
      rw [Worker.received, Worker.received, hincoming, hinstalls]
    simp only [hcarries, hme] at hset
    simp only [assigned_snoc, installed_snoc, reduceCtorEq, if_false]
    rw [pending] at honce ⊢
    omega
  · intro fd
    have hheld := hs.held fd
    have hset := tally_set (·.custody fd) s w me
    have hcustody : ∀ me : Worker n,
        (deliver items k me).custody fd = me.custody fd + items.count fd := by
      intro me
      simp only [Worker.custody, Worker.fresh, deliver, List.count_append]
      omega
    have hmodify := tally_modify_add (g := fun me => me.custody fd)
      (f := deliver items k) hcustody (s.set w me) owner
    have hme : me.custody fd + items.count fd = (s.worker w).custody fd := by
      simp only [Worker.custody, hfresh, hincoming, hholds]
      omega
    rw [Server.held] at hheld ⊢
    rw [modify_shared, set_shared]
    omega
  · have hfree : Server.free ((s.set w me).modify owner (deliver items k)) = s.free := by
      funext b
      exact hsame (fun me => me.connCache.count b) (fun me => rfl) (by rw [hcache])
    rw [hfree]
    exact hs.filed

/-! ## The steps of a hand-off -/

theorem Inv.accepted {tr : List (Input n × Output n)} {s : Server n} (hs : s.Inv tr)
    {w : Fin n} {fd : ℤ} (hfd : s.shared.opened fd = false) (i : ℕ) (a : Input n) :
    Inv (tr ++ [(a, .accepted fd)]) ((s.set w (answer (s.worker w) i .accept fd)).share
      { s.shared with opened := Function.update s.shared.opened fd true }) := by
  have hfresh : ∀ g, (answer (s.worker w) i .accept fd).fresh g =
      (s.worker w).fresh g + if fd = g then 1 else 0 := by
    intro g
    simp only [Worker.fresh_answer, true_and]
  refine hs.advance ?_ ?_ ?_ (filed_same (by rfl) (hs.filed.accept _))
  · intro g
    rw [hfresh]
    simp [Output.assigns]
    omega
  · intro o g
    simp [Worker.received, answer]
  · intro g
    simp only [Worker.custody, hfresh, present]
    by_cases hg : fd = g
    · subst hg
      simp [hfd, answer]
      omega
    · simp [hg, Function.update_of_ne (Ne.symm hg), answer]

theorem Inv.assigned {tr : List (Input n × Output n)} {s : Server n} (hs : s.Inv tr)
    {w cpu : Fin n} {fd : ℤ} {cq : List (Cqe n)} {pc : Pc n} (hpc : (s.worker w).pc = .loop)
    (hcq : (s.worker w).cq = ⟨.accept, fd⟩ :: cq)
    (hnext : (cpu = w ∧ pc = .adopt fd) ∨ (cpu ≠ w ∧ pc = .push fd cpu)) (a : Input n) :
    Inv (tr ++ [(a, .assigned fd cpu)]) (s.set w { s.worker w with
      cq := cq
      acceptCount := (s.worker w).acceptCount + 1
      pc := pc }) := by
  have hfresh := Worker.fresh_cons hcq
  simp only [true_and] at hfresh
  refine hs.advance (t := s.shared) ?_ ?_ ?_ (filed_same (by rfl) hs.filed)
  · intro g
    rw [hfresh]
    simp [Output.assigns, Worker.fresh]
    omega
  · intro o g
    rcases hnext with ⟨rfl, rfl⟩ | ⟨hne, rfl⟩
    · by_cases ho : o = cpu
      · subst ho
        simp [Worker.received, hpc, Pc.carries, Pc.installs]
        omega
      · simp [hpc, Pc.carries, ho, Ne.symm ho]
    · simp [Worker.received, hpc, Pc.carries, Pc.installs]
  · intro g
    rcases hnext with ⟨rfl, rfl⟩ | ⟨hne, rfl⟩
    · simp only [Worker.custody, hfresh, hpc, Pc.holds]
      simp [Worker.fresh]
      omega
    · simp only [Worker.custody, hfresh, hpc, Pc.holds]
      simp [Worker.fresh]
      omega

theorem Inv.popped {tr : List (Input n × Output n)} {s : Server n} (hs : s.Inv tr)
    {w : Fin n} {fd : ℤ} {rest : List ℤ} (hpc : (s.worker w).pc = .drain)
    (hcons : (s.worker w).incoming = fd :: rest) (a : Input n) :
    Inv (tr ++ [(a, .silent)])
      (s.set w { s.worker w with incoming := rest, pc := .install fd }) := by
  refine hs.advance (t := s.shared) ?_ ?_ ?_ (filed_same (by rfl) hs.filed)
  · intro g
    simp [Output.assigns, Worker.fresh]
  · intro o g
    simp [Worker.received, hpc, hcons, Pc.carries, Pc.installs, List.count_cons]
  · intro g
    simp [Worker.custody, Worker.fresh, hpc, hcons, Pc.holds, List.count_cons]
    omega

/-- The hands of the worker that installs `fd`. -/
theorem Inv.installed {tr : List (Input n × Output n)} {s : Server n} (hs : s.Inv tr)
    {w : Fin n} {fd : ℤ} {after : Req n} {pc : Pc n} {buf : Ptr} {len : ℕ} {c : Connection}
    {next : ℕ} {msgCache : List ℕ}
    (hpc : ((s.worker w).pc = .adopt fd ∧ after = .accept ∧ pc = .loop) ∨
      ((s.worker w).pc = .install fd ∧ after = .evRead ∧ pc = .drain)) (hc : c.fd = fd)
    (hnext : (cacheAlloc (s.worker w).connCache s.shared.next).next ≤ next) (a : Input n) :
    Inv (tr ++ [(a, .installed fd w)]) ((s.set w { s.worker w with
        sq := (s.worker w).sq ++ [.sockRead fd buf len, after]
        msgCache := msgCache
        connCache := (cacheAlloc (s.worker w).connCache s.shared.next).cache
        pc := pc }).share (s.shared.install fd
          (cacheAlloc (s.worker w).connCache s.shared.next).entry c next)) := by
  have hhands : (∀ g o, (s.worker w).pc.carries g o = 0 ∧ pc.carries g o = 0) ∧
      (∀ g, (s.worker w).pc.installs g = (if fd = g then 1 else 0) ∧ pc.installs g = 0) ∧
      ∀ g, (s.worker w).pc.holds g = (if fd = g then 1 else 0) ∧ pc.holds g = 0 := by
    rcases hpc with ⟨hpc, -, rfl⟩ | ⟨hpc, -, rfl⟩
    · rw [hpc]
      exact ⟨fun _ _ => ⟨rfl, rfl⟩, fun _ => ⟨rfl, rfl⟩, fun _ => ⟨rfl, rfl⟩⟩
    · rw [hpc]
      exact ⟨fun _ _ => ⟨rfl, rfl⟩, fun _ => ⟨rfl, rfl⟩, fun _ => ⟨rfl, rfl⟩⟩
  obtain ⟨hcarries, hinstalls, hholds⟩ := hhands
  refine hs.advance ?_ ?_ ?_ (hs.filed.install hc (free_set _) hnext)
  · intro g
    simp [Output.assigns, Worker.fresh]
  · intro o g
    simp only [Worker.received, hcarries, hinstalls]
    by_cases ho : o = w
    · subst ho
      simp
      omega
    · simp [ho, Ne.symm ho]
  · intro g
    have hpresent := present_install s.shared fd
      (cacheAlloc (s.worker w).connCache s.shared.next).entry c next g
    have hopened : (s.shared.install fd
        (cacheAlloc (s.worker w).connCache s.shared.next).entry c next).opened =
          s.shared.opened := rfl
    rw [hopened]
    simp only [Worker.custody, Worker.fresh, hholds]
    omega

theorem Inv.closed {tr : List (Input n × Output n)} {s : Server n} (hs : s.Inv tr) {w : Fin n}
    {info : Req n} {res : ℤ} {cq : List (Cqe n)} {fd : ℤ} {p : ℕ} {msgCache : List ℕ}
    (hcq : (s.worker w).cq = ⟨info, res⟩ :: cq) (hinfo : info.Sock)
    (hp : s.shared.conns fd = some p) (a : Input n) :
    Inv (tr ++ [(a, .silent)]) ((s.set w { s.worker w with
        cq := cq
        connCount := (s.worker w).connCount + 1
        msgCache := msgCache
        connCache := cacheFree (s.worker w).connCache p }).share
      (s.shared.close (s.shared.conn p).fd)) := by
  have hfd := hs.filed.live hp
  rw [hfd]
  have hfresh := Worker.fresh_tail hcq hinfo.ne_accept
  refine hs.advance ?_ ?_ ?_ (hs.filed.close hp ?_)
  · intro g
    rw [← hfresh g]
    simp [Output.assigns, Worker.fresh]
  · intro o g
    simp [Worker.received]
  · intro g
    simp only [Worker.custody, ← hfresh g, present, Table.close]
    by_cases hg : fd = g
    · subst hg
      simp [Worker.fresh, hp]
      split <;> omega
    · simp [Worker.fresh, Function.update_of_ne (Ne.symm hg)]
  · intro b
    refine Nat.add_right_cancel ((free_set _ b).trans ?_)
    rw [count_cacheFree]
    omega

/-! ## Runs -/

theorem Inv.stepped {tr : List (Input n × Output n)} {s s' : Server n} (hs : s.Inv tr)
    {a : Input n} {x : Output n} (h : Stepped s a s' x) : s'.Inv (tr ++ [(a, x)]) := by
  cases h with
  | @accepted w i fd hinfo hfd => exact hs.accepted hfd i _
  | @taken w i res hinfo hpos =>
      refine hs.idle (t := s.shared) ⟨?_, by rfl, ?_, ?_, ?_, by rfl⟩ rfl rfl hs.filed _
      · exact Worker.fresh_answer_ne i (by simp) res
      all_goals intros; rfl
  | @rung w i res owner hinfo =>
      refine hs.delivered [] 1 ?_ (by rfl) (by rfl) ?_ ?_ ?_ _
      · exact Worker.fresh_answer_ne i (by simp) res
      · intro fd
        rfl
      · intro fd
        rfl
      · intro fd o
        rw [List.count_nil, ite_self]
        rfl
  | @moved w i info res hinfo hsock =>
      refine hs.idle (t := s.shared) ⟨?_, by rfl, ?_, ?_, ?_, by rfl⟩ rfl rfl hs.filed _
      · exact Worker.fresh_answer_ne i hsock.ne_accept res
      all_goals intros; rfl
  | assigned hpc hcq hnext => exact hs.assigned hpc hcq hnext _
  | @woken w hpc =>
      exact hs.passes hpc trivial (by trivial) (by intro fd; rfl) (by rfl) (by rfl) _
  | @submitted w hpc =>
      exact hs.passes hpc trivial (by trivial) (by intro fd; rfl) (by rfl) (by rfl) _
  | @answered w res cq hpc hcq =>
      have hfresh := Worker.fresh_tail hcq (by simp)
      exact hs.passes hpc trivial (by trivial) (by exact hfresh) (by rfl) (by rfl) _
  | @freed w owner res cq hpc hcq =>
      have hfresh := Worker.fresh_tail hcq (by simp)
      refine hs.passes hpc trivial ?_ (by exact hfresh) (by rfl) (by rfl) _
      rw [hpc]
      exact trivial
  | @resumed w info res cq c p req k hpc hcq hinfo hfd hreq =>
      refine hs.idle (t := s.shared.setConn p c) (.of_idle ?_ ?_
        (by exact Worker.fresh_tail hcq hinfo.ne_accept) (by rfl) (by rfl)) rfl rfl
        (hs.filed.setConn hfd (Nat.le_refl _)) _
      · rw [hpc]
        exact trivial
      · rw [hpc]
        exact trivial
  | closed hpc hcq hinfo hp => exact hs.closed hcq hinfo hp _
  | @installed w fd after pc buf len c next msgCache new hpc hnew hc hnext =>
      subst hnew
      exact hs.installed hpc hc hnext _
  | @pushed w fd owner hpc =>
      refine hs.delivered [fd] 0 (by intro g; rfl) (by rfl) (by rfl) ?_ ?_ ?_ _
      · intro g
        rw [hpc]
        rfl
      · intro g
        simp [hpc, Pc.holds, List.count_singleton]
      · intro g o
        by_cases ho : o = owner
        · subst ho
          simp [hpc, Pc.carries, List.count_singleton]
        · simp [hpc, Pc.carries, ho, Ne.symm ho]
  | @notified w owner hpc =>
      exact hs.passes hpc trivial (by trivial) (by intro fd; rfl) (by rfl) (by rfl) _
  | @drained w hpc hnil =>
      exact hs.passes hpc trivial (by trivial) (by intro fd; rfl) (by rfl) (by rfl) _
  | popped hpc hcons => exact hs.popped hpc hcons _

theorem Inv.step {tr : List (Input n × Output n)} {s s' : Server n} (hs : s.Inv tr)
    {a : Input n} {x : Output n} (h : s.step msgSize a = some (s', x)) :
    s'.Inv (tr ++ [(a, x)]) :=
  hs.stepped (step_spec h)

theorem inv_start {s : Server n} (h : s.Start) : s.Inv [] := by
  have hidle : ∀ w, (s.worker w).pc.Idle := by
    intro w
    rw [h.pc]
    trivial
  have hfresh : ∀ w fd, (s.worker w).fresh fd = 0 := by
    intro w fd
    rw [Worker.fresh, h.cq]
    rfl
  refine ⟨?_, ?_, ?_, ?_⟩
  · intro fd
    rw [fresh, tally_eq_zero (hfresh · fd)]
    rfl
  · intro owner fd
    have hcarries : s.tally (·.pc.carries fd owner) = 0 :=
      tally_eq_zero fun w => (hidle w).zero.1 fd owner
    rw [pending, account, hcarries, Worker.received, h.incoming, (hidle owner).zero.2.1]
    rfl
  · intro fd
    have hcustody : s.tally (·.custody fd) = 0 := by
      refine tally_eq_zero ?_
      intro w
      rw [Worker.custody, hfresh, h.incoming, (hidle w).zero.2.2]
      rfl
    rw [Server.held, hcustody, present, h.conns]
    exact Nat.zero_le _
  · exact .empty h.conns h.cached h.fresh

theorem reaches_inv {tr : List (Input n × Output n)} {s : Server n}
    (h : (echoServer n msgSize).Reaches tr s) : s.Inv tr :=
  h.invariant (fun _ hs => inv_start hs) fun _ _ _ _ _ _ hs hstep => hs.step hstep

/-! ## The hand-off -/

end Server

namespace Worker

/-- A read of the worker's eventfd is queued, submitted, or completed and not handled. -/
def WillRead (me : Worker n) : Prop :=
  Req.evRead ∈ me.sq ∨ Req.evRead ∈ me.kernel ∨ ∃ c ∈ me.cq, c.info = .evRead

/-- An `EV_WRITE` for `owner` is queued or submitted. -/
def WillRing (owner : Fin n) (me : Worker n) : Prop :=
  Req.evWrite owner ∈ me.sq ∨ Req.evWrite owner ∈ me.kernel

theorem taken_pos {me : Worker n} : 0 < me.taken ↔ ∃ c ∈ me.cq, c.info = .evRead := by
  rw [taken, List.countP_pos_iff]
  simp only [decide_eq_true_eq]

theorem willRead_of_pos {me : Worker n} (hpc : me.pc.drains = false)
    (h : 0 < me.armed + me.taken) : me.WillRead := by
  have harms : me.pc.arms = 0 := by
    cases hcase : me.pc with
    | install fd =>
        rw [hcase] at hpc
        cases hpc
    | _ => rfl
  rw [armed, harms] at h
  rcases Nat.eq_zero_or_pos (me.sq.count .evRead) with hsq | hsq
  · rcases Nat.eq_zero_or_pos (me.kernel.count .evRead) with hkernel | hkernel
    · exact .inr (.inr (taken_pos.mp (by omega)))
    · exact .inr (.inl (List.count_pos_iff.mp hkernel))
  · exact .inl (List.count_pos_iff.mp hsq)

theorem willRing_of_pos {me : Worker n} {owner : Fin n} (h : 0 < me.rings owner) :
    me.WillRing owner ∨ me.pc = .notify owner := by
  rw [rings] at h
  rcases Nat.eq_zero_or_pos (me.sq.count (.evWrite owner)) with hsq | hsq
  · rcases Nat.eq_zero_or_pos (me.kernel.count (.evWrite owner)) with hkernel | hkernel
    · right
      have hpc : 0 < me.pc.rings owner := by omega
      cases hcase : me.pc with
      | notify o =>
          rw [hcase, Pc.rings] at hpc
          split at hpc
          · rename_i ho
            rw [ho]
          · omega
      | _ =>
          rw [hcase] at hpc
          cases hpc
    · exact .inl (.inr (List.count_pos_iff.mp hkernel))
  · exact .inl (.inl (List.count_pos_iff.mp hsq))

end Worker

/-- Between the handlings of two completions. -/
def Pc.Between (pc : Pc n) : Prop := pc = .wait ∨ pc = .loop

theorem Pc.Between.drains {pc : Pc n} (h : pc.Between) : pc.drains = false := by
  rcases h with rfl | rfl <;> rfl

namespace Server

open Team

/-- `handled` and `once` say that an accepted descriptor is in a completion, has been
given to an owner and is on its way, or has been installed. -/
structure HandOff (msgSize : ℕ) (tr : List (Input n × Output n)) (s : Server n) : Prop where
  handled : ∀ fd, accepted tr fd = handled tr fd + s.fresh fd
  once : ∀ owner fd, assigned tr owner fd = installed tr owner fd + s.pending owner fd
  single : ∀ fd, s.held fd ≤ 1
  installs : ∀ {a s' fd owner}, s.step msgSize a = some (s', .installed fd owner) →
    a.worker = owner ∧ (s'.shared.conns fd).isSome
  armed : ∀ owner, (s.worker owner).pc.Between → (s.worker owner).WillRead
  woken : ∀ owner, (s.worker owner).pc.Between → (s.worker owner).incoming ≠ [] →
    (∃ v, (s.worker v).WillRing owner ∨ (s.worker v).pc = .notify owner) ∨
      0 < (s.worker owner).counter ∨ ∃ c ∈ (s.worker owner).cq, c.info = .evRead

theorem installed_step {s s' : Server n} {a : Input n} {fd : ℤ} {owner : Fin n}
    (h : s.step msgSize a = some (s', .installed fd owner)) :
    a.worker = owner ∧ (s'.shared.conns fd).isSome := by
  cases step_spec h with
  | installed hpc hnew hfd hnext =>
      refine ⟨rfl, ?_⟩
      rw [share_shared, Table.install]
      simp only [Function.update_self, Option.isSome_some]

theorem reaches_willRead {tr : List (Input n × Output n)} {s : Server n}
    (h : (echoServer n msgSize).Reaches tr s) {owner : Fin n}
    (hpc : (s.worker owner).pc.Between) : (s.worker owner).WillRead := by
  obtain ⟨hcovered, hawake⟩ := reaches_station h owner
  exact Worker.willRead_of_pos hpc.drains (hcovered.armed hawake hpc.drains)

theorem reaches_willRing {tr : List (Input n × Output n)} {s : Server n}
    (h : (echoServer n msgSize).Reaches tr s) {owner : Fin n}
    (hpc : (s.worker owner).pc.Between) (hne : (s.worker owner).incoming ≠ []) :
    (∃ v, (s.worker v).WillRing owner ∨ (s.worker v).pc = .notify owner) ∨
      0 < (s.worker owner).counter ∨ ∃ c ∈ (s.worker owner).cq, c.info = .evRead := by
  rcases (reaches_station h owner).2.of_ne_nil hne with hcounter | hringing | htaken | hdrains
  · exact .inr (.inl hcounter)
  · have hpos : 0 < s.tally (·.rings owner) := hringing
    obtain ⟨v, hv⟩ := exists_of_tally_pos hpos
    exact .inl ⟨v, Worker.willRing_of_pos hv⟩
  · exact .inr (.inr (Worker.taken_pos.mp htaken))
  · have hquiet := hpc.drains
    have hdraining : (s.worker owner).pc.drains = true := hdrains
    rw [hdraining] at hquiet
    cases hquiet

/-- Every accepted descriptor is handed to its owner exactly once, and every owner goes on
reading its eventfd. -/
theorem ringServer_handOff {tr : List (Input n × Output n)} {s : Server n}
    (h : (echoServer n msgSize).Reaches tr s) : s.HandOff msgSize tr := by
  have hs := reaches_inv h
  refine ⟨hs.handled, hs.once, ?_, installed_step, fun owner => reaches_willRead h,
    fun owner => reaches_willRing h⟩
  intro fd
  have hheld := hs.held fd
  split at hheld <;> omega

end Server

/-- Two workers with one block in each cache. -/
def smallServer : Server 2 where
  worker w := {
    sq := [.accept, .evRead]
    kernel := []
    cq := []
    incoming := []
    counter := 0
    pc := .loop
    msgCache := if w.val = 0 then [1] else [3]
    connCache := if w.val = 0 then [2] else [4]
    acceptCount := 0
    connCount := 0 }
  shared := {
    conns := fun _ => none
    conn := fun _ => Connection.zero
    opened := fun fd => fd ∈ [(10 : ℤ), 11, 20, 21]
    next := 5 }

theorem smallServer_free (b : ℕ) : smallServer.free b = List.count b [2, 4] := by
  rw [Server.free, Team.tally, Fin.sum_univ_two, ← List.count_append]
  rfl

theorem smallServer_start : smallServer.Start where
  sq _ := rfl
  kernel _ := rfl
  cq _ := rfl
  incoming _ := rfl
  counter _ := rfl
  pc _ := rfl
  conns _ := rfl
  cached b := by
    rw [smallServer_free]
    exact List.nodup_iff_count_le_one.mp (by decide) b
  fresh b hb := by
    have hlt : 5 ≤ b := hb
    rw [smallServer_free, List.count_eq_zero]
    simp
    omega

/-- Worker `v` accepts descriptor 7 for worker `w`, which installs it. -/
def handOver (v w : Fin n) : List (Input n) :=
  [.run v, .run w, .complete v 0 7, .run v, .accept v w, .run v, .run v, .run v,
    .complete v 1 8, .complete w 1 8, .run w, .run w, .run w, .run w, .run w, .run w]

theorem ringServer_handOff_handOver :
    ∃ tr s, (echoServer 2 1).Reaches tr s ∧ installed tr 1 7 = 1 ∧ s.HandOff 1 tr := by
  have hrun : ((echoServer 2 1).exec smallServer (handOver 0 1)).isSome := by decide
  have hreach := Machine.reaches_exec_get smallServer_start hrun
  exact ⟨_, _, hreach, rfl, Server.ringServer_handOff hreach⟩

end Upcalls.IoUring
