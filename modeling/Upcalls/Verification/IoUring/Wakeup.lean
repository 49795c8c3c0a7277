import Upcalls.Library.Mailbox
import Upcalls.Verification.IoUring.Equations

/-! # No owner is left without a read of its eventfd

The read of an eventfd is armed once for each connection that its owner takes off the
`incoming` list, and one completion takes all rings made so far.
-/

namespace Upcalls.IoUring

open Library TcpEcho

variable {n msgSize : ℕ}

/-! ## What a worker holds of each request -/

namespace Pc

/-- The worker is about to queue an `EV_WRITE` for `owner`. -/
def rings (owner : Fin n) : Pc n → ℕ
  | .notify o => if o = owner then 1 else 0
  | _ => 0

/-- The worker is about to queue an `EV_READ`. -/
def arms : Pc n → ℕ
  | .install _ => 1
  | _ => 0

/-- The worker is handling an `EV_READ` completion. -/
def drains : Pc n → Bool
  | .drain | .install _ => true
  | _ => false

end Pc

namespace Worker

/-- `EV_READ` requests. -/
def armed (me : Worker n) : ℕ := me.sq.count .evRead + me.kernel.count .evRead + me.pc.arms

/-- `EV_READ` completions that are not handled. -/
def taken (me : Worker n) : ℕ := me.cq.countP fun c => c.info = .evRead

/-- `EV_WRITE` requests for `owner`. -/
def rings (owner : Fin n) (me : Worker n) : ℕ :=
  me.sq.count (.evWrite owner) + me.kernel.count (.evWrite owner) + me.pc.rings owner

/-- The `incoming` list of the worker with its eventfd, and the reads of the eventfd. -/
def station (ringing : ℕ) (me : Worker n) : Mailbox ℤ × ℕ :=
  ({ list := me.incoming
     ringing := ringing
     counter := me.counter
     taken := me.taken
     draining := me.pc.drains }, me.armed)

/-- The same worker, but for what it does for other workers. -/
structure Alike (me me' : Worker n) : Prop where
  incoming : me'.incoming = me.incoming
  counter : me'.counter = me.counter
  armed : me'.armed = me.armed
  taken : me'.taken = me.taken
  drains : me'.pc.drains = me.pc.drains

theorem Alike.station {me me' : Worker n} (h : me.Alike me') (ringing : ℕ) :
    me'.station ringing = me.station ringing := by
  rw [Worker.station, Worker.station, h.incoming, h.counter, h.armed, h.taken, h.drains]

end Worker

/-! ### Requests that are completed, and completions that are handled -/

theorem Req.Sock.ne_evRead {info : Req n} (h : info.Sock) : info ≠ .evRead := by
  rintro rfl
  exact h

theorem Req.Sock.ne_evWrite {info : Req n} (h : info.Sock) (owner : Fin n) :
    info ≠ .evWrite owner := by
  rintro rfl
  exact h

theorem Req.Sock.ne_accept {info : Req n} (h : info.Sock) : info ≠ .accept := by
  rintro rfl
  exact h

theorem count_kernel {me : Worker n} {i : ℕ} {info : Req n} (h : me.kernel[i]? = some info)
    (r : Req n) :
    me.kernel.count r = (me.kernel.eraseIdx i).count r + if info = r then 1 else 0 := by
  have herase := countP_eraseIdx (· == r) h
  simp only [beq_iff_eq] at herase
  exact herase

namespace Worker

theorem armed_answer {me : Worker n} {i : ℕ} {info : Req n} (h : me.kernel[i]? = some info)
    (res : ℤ) :
    (Server.answer me i info res).armed + (if info = .evRead then 1 else 0) = me.armed := by
  have hcount := count_kernel h .evRead
  simp only [armed, Server.answer]
  omega

theorem rings_answer {me : Worker n} {i : ℕ} {info : Req n} (h : me.kernel[i]? = some info)
    (res : ℤ) (owner : Fin n) :
    (Server.answer me i info res).rings owner + (if info = .evWrite owner then 1 else 0) =
      me.rings owner := by
  have hcount := count_kernel h (.evWrite owner)
  simp only [rings, Server.answer]
  omega

theorem taken_answer (me : Worker n) (i : ℕ) (info : Req n) (res : ℤ) :
    (Server.answer me i info res).taken = me.taken + if info = .evRead then 1 else 0 := by
  simp only [taken, Server.answer, List.countP_append, List.countP_singleton,
    decide_eq_true_eq]

theorem taken_cons {me : Worker n} {info : Req n} {res : ℤ} {cq : List (Cqe n)}
    (h : me.cq = ⟨info, res⟩ :: cq) :
    me.taken = cq.countP (·.info = .evRead) + if info = .evRead then 1 else 0 := by
  rw [taken, h, List.countP_cons]
  simp only [decide_eq_true_eq]

theorem taken_tail {me : Worker n} {info : Req n} {res : ℤ} {cq : List (Cqe n)}
    (h : me.cq = ⟨info, res⟩ :: cq) (hinfo : info ≠ .evRead) :
    cq.countP (·.info = .evRead) = me.taken := by
  rw [taken_cons h, if_neg hinfo, Nat.add_zero]

theorem alike_answer {me : Worker n} {i : ℕ} {info : Req n} (h : me.kernel[i]? = some info)
    (hinfo : info ≠ .evRead) (res : ℤ) : me.Alike (Server.answer me i info res) where
  incoming := rfl
  counter := rfl
  armed := by
    have harmed := armed_answer h res
    rw [if_neg hinfo] at harmed
    exact harmed
  taken := by rw [taken_answer, if_neg hinfo, Nat.add_zero]
  drains := rfl

end Worker

namespace Server

open Team

def station (s : Server n) (owner : Fin n) : Mailbox ℤ × ℕ :=
  (s.worker owner).station (s.tally (·.rings owner))

theorem rings_set {s : Server n} {w : Fin n} {me : Worker n} (o : Fin n)
    (h : me.rings o = (s.worker w).rings o) :
    (s.set w me).tally (·.rings o) = s.tally (·.rings o) := by
  have htally := tally_set (·.rings o) s w me
  simp only [h] at htally
  omega

theorem station_set {s : Server n} {w : Fin n} {me : Worker n} (t : Table) (o : Fin n)
    (h : me.rings o = (s.worker w).rings o) :
    Server.station ((s.set w me).share t) o =
      if o = w then me.station (s.tally (·.rings o)) else s.station o := by
  rw [station, tally_share, rings_set o h, share_worker, set_worker]
  by_cases how : o = w
  · rw [if_pos how, if_pos how]
  · rw [if_neg how, if_neg how, station]

/-- A step of the mailbox, or none. -/
def Moves (x y : Mailbox ℤ × ℕ) : Prop := y = x ∨ Mailbox.ArmedStep x y

/-- A step that is no part of a wake-up. -/
theorem moves_same {s : Server n} {w : Fin n} {me : Worker n} (t : Table)
    (hme : (s.worker w).Alike me) (h : ∀ o, me.rings o = (s.worker w).rings o) (o : Fin n) :
    Moves (s.station o) (Server.station ((s.set w me).share t) o) := by
  left
  rw [station_set t o (h o)]
  split
  · rename_i how
    subst how
    exact hme.station _
  · rfl

/-- A step of the owner itself. -/
theorem moves_owner {s : Server n} {w : Fin n} {me : Worker n}
    (hme : ∀ ringing, Mailbox.ArmedStep ((s.worker w).station ringing) (me.station ringing))
    (h : ∀ o, me.rings o = (s.worker w).rings o) (o : Fin n) :
    Moves (s.station o) (Server.station (s.set w me) o) := by
  have hset := station_set (s := s) (w := w) s.shared o (h o)
  by_cases how : o = w
  · subst how
    right
    rw [if_pos rfl] at hset
    exact hset ▸ hme _
  · left
    rw [if_neg how] at hset
    exact hset

/-! ## Steps that go to another worker -/

def deliver (items : List ℤ) (k : ℕ) (me : Worker n) : Worker n :=
  { me with incoming := items ++ me.incoming, counter := me.counter + k }

theorem station_deliver {s : Server n} {w : Fin n} {me : Worker n} (owner : Fin n)
    (items : List ℤ) (k : ℕ) (hme : (s.worker w).Alike me) (o : Fin n) :
    Server.station ((s.set w me).modify owner (deliver items k)) o =
      (if o = owner then deliver items k (s.worker o) else s.worker o).station
        ((s.set w me).tally (·.rings o)) := by
  have hmodify := tally_modify_eq (g := fun me : Worker n => me.rings o)
    (f := deliver items k) (fun me => rfl) (s.set w me) owner
  have hworker : ∀ ringing, ((s.set w me).worker o).station ringing =
      (s.worker o).station ringing := by
    intro ringing
    by_cases how : o = w
    · subst how
      rw [set_worker_self]
      exact hme.station ringing
    · rw [set_worker_ne s me how]
  rw [station, hmodify, Team.modify]
  by_cases how : o = owner
  · subst how
    rw [set_worker_self, if_pos rfl]
    have hst := hworker ((s.set w me).tally (·.rings o))
    simp only [Worker.station, Prod.mk.injEq, Mailbox.mk.injEq] at hst
    obtain ⟨⟨hlist, -, hcounter, htaken, hdrains⟩, harmed⟩ := hst
    simp only [Worker.station, deliver, Prod.mk.injEq, Mailbox.mk.injEq, hlist, hcounter,
      true_and]
    exact ⟨⟨htaken, hdrains⟩, harmed⟩
  · rw [set_worker_ne _ _ how, if_neg how, hworker]

/-- A delivery is a step of the mailbox that it goes to. -/
theorem moves_deliver {s : Server n} {w owner : Fin n} {me : Worker n} (items : List ℤ) (k : ℕ)
    (hme : (s.worker w).Alike me)
    (hother : ∀ o, o ≠ owner → me.rings o = (s.worker w).rings o)
    (hbox : ∀ ringing ringing', ringing' + (s.worker w).rings owner = ringing + me.rings owner →
      Mailbox.ArmedStep ((s.worker owner).station ringing)
        ((deliver items k (s.worker owner)).station ringing')) (o : Fin n) :
    Moves (s.station o) (Server.station ((s.set w me).modify owner (deliver items k)) o) := by
  rw [station_deliver owner items k hme]
  by_cases how : o = owner
  · subst how
    right
    rw [if_pos rfl]
    exact hbox _ _ (tally_set (·.rings o) s w me)
  · left
    rw [if_neg how, rings_set o (hother o how), station]

/-! ### The steps of a wake-up -/

theorem taken_step {me : Worker n} {i : ℕ} (hinfo : me.kernel[i]? = some .evRead)
    (hpos : 0 < me.counter) (res : ℤ) (ringing : ℕ) :
    Mailbox.ArmedStep (me.station ringing)
      ({ answer me i .evRead res with counter := 0 }.station ringing) := by
  have harmed := Worker.armed_answer hinfo res
  have htaken := Worker.taken_answer me i .evRead res
  rw [if_pos rfl] at harmed htaken
  have hst : ({ answer me i .evRead res with counter := 0 } : Worker n).station ringing =
      ({ (me.station ringing).1 with counter := 0, taken := me.taken + 1 },
        (answer me i .evRead res).armed) := by
    rw [← htaken]
    rfl
  have hst' : me.station ringing =
      ((me.station ringing).1, (answer me i .evRead res).armed + 1) :=
    Prod.ext rfl harmed.symm
  rw [hst, hst']
  exact .take hpos

theorem answered_step {me : Worker n} {res : ℤ} {cq : List (Cqe n)} (hpc : me.pc = .loop)
    (hcq : me.cq = ⟨.evRead, res⟩ :: cq) (ringing : ℕ) :
    Mailbox.ArmedStep (me.station ringing)
      ({ me with cq := cq, pc := .drain }.station ringing) := by
  have htaken := Worker.taken_cons hcq
  rw [if_pos rfl] at htaken
  have hst : ({ me with cq := cq, pc := .drain } : Worker n).station ringing =
      ({ (me.station ringing).1 with taken := me.taken - 1, draining := true }, me.armed) := by
    rw [htaken, Worker.armed, hpc]
    rfl
  rw [hst]
  refine .answer ?_
  show 0 < me.taken
  omega

theorem drained_step {me : Worker n} (hpc : me.pc = .drain) (hnil : me.incoming = [])
    (ringing : ℕ) :
    Mailbox.ArmedStep (me.station ringing) ({ me with pc := .loop }.station ringing) := by
  have hst : ({ me with pc := .loop } : Worker n).station ringing =
      ({ (me.station ringing).1 with draining := false }, me.armed) := by
    rw [Worker.armed, hpc]
    rfl
  rw [hst]
  exact .finish hnil

theorem popped_step {me : Worker n} {fd : ℤ} {rest : List ℤ} (hpc : me.pc = .drain)
    (hcons : me.incoming = fd :: rest) (ringing : ℕ) :
    Mailbox.ArmedStep (me.station ringing)
      ({ me with incoming := rest, pc := .install fd }.station ringing) := by
  have hdrains : (me.station ringing).1.draining = true := by
    rw [Worker.station, hpc]
    rfl
  have hst : ({ me with incoming := rest, pc := .install fd } : Worker n).station ringing =
      ({ (me.station ringing).1 with list := rest, draining := true }, me.armed + 1) := by
    rw [Worker.armed, hpc]
    rfl
  have hpop := Mailbox.ArmedStep.pop (a := me.armed) hdrains hcons
  rw [hdrains] at hpop
  rw [hst]
  exact hpop

/-- Every step of the server is, for each owner, a step of its mailbox or none. -/
theorem step_moves {s s' : Server n} {a : Input n} {x : Output n}
    (h : s.step msgSize a = some (s', x)) (o : Fin n) : Moves (s.station o) (s'.station o) := by
  cases step_spec h with
  | @accepted w i fd hinfo hfd =>
      exact moves_same _ (Worker.alike_answer hinfo (by simp) fd)
        (fun o => Worker.rings_answer hinfo fd o) o
  | @taken w i res hinfo hpos =>
      exact moves_owner (taken_step hinfo hpos res) (fun o => Worker.rings_answer hinfo res o) o
  | @rung w i res owner hinfo =>
      refine moves_deliver [] 1 (Worker.alike_answer hinfo (by simp) _) ?_ ?_ o
      · intro o how
        have hrings := Worker.rings_answer hinfo res o
        rw [if_neg (by simpa using Ne.symm how)] at hrings
        exact hrings
      · intro ringing ringing' hring
        have hrings := Worker.rings_answer hinfo res owner
        rw [if_pos rfl] at hrings
        have heq : ringing' = ringing - 1 := by omega
        rw [heq]
        exact .ring (by show 0 < ringing; omega)
  | @moved w i info res hinfo hsock =>
      refine moves_same s.shared (Worker.alike_answer hinfo hsock.ne_evRead res) ?_ o
      intro o
      have hrings := Worker.rings_answer hinfo res o
      rw [if_neg (hsock.ne_evWrite o)] at hrings
      exact hrings
  | @assigned w cpu fd cq pc hpc hcq hnext =>
      have htaken := Worker.taken_tail hcq (by simp)
      rcases hnext with ⟨-, rfl⟩ | ⟨-, rfl⟩
      · refine moves_same s.shared ⟨by rfl, by rfl, ?_, by exact htaken, ?_⟩ ?_ o
        · simp only [Worker.armed, hpc, Pc.arms]
        · rw [hpc]
          rfl
        · intro o
          simp only [Worker.rings, hpc, Pc.rings]
      · refine moves_same s.shared ⟨by rfl, by rfl, ?_, by exact htaken, ?_⟩ ?_ o
        · simp only [Worker.armed, hpc, Pc.arms]
        · rw [hpc]
          rfl
        · intro o
          simp only [Worker.rings, hpc, Pc.rings]
  | @woken w hpc =>
      refine moves_same s.shared ⟨by rfl, by rfl, ?_, by rfl, ?_⟩ ?_ o
      · simp only [Worker.armed, hpc, Pc.arms]
      · rw [hpc]
        rfl
      · intro o
        simp only [Worker.rings, hpc, Pc.rings]
  | @submitted w hpc =>
      refine moves_same s.shared ⟨by rfl, by rfl, ?_, by rfl, ?_⟩ ?_ o
      · simp only [Worker.armed, hpc, Pc.arms, List.count_append, List.count_nil]
        omega
      · rw [hpc]
        rfl
      · intro o
        simp only [Worker.rings, hpc, Pc.rings, List.count_append, List.count_nil]
        omega
  | @answered w res cq hpc hcq =>
      refine moves_owner (answered_step hpc hcq) ?_ o
      intro o
      simp only [Worker.rings, hpc, Pc.rings]
  | @freed w owner res cq hpc hcq =>
      have htaken := Worker.taken_tail hcq (by simp)
      exact moves_same s.shared ⟨by rfl, by rfl, by rfl, by exact htaken, by rfl⟩
        (by intro o; rfl) o
  | @resumed w info res cq c p req k hpc hcq hinfo hfd hreq =>
      have htaken := Worker.taken_tail hcq hinfo.ne_evRead
      refine moves_same _ ⟨by rfl, by rfl, ?_, by exact htaken, by rfl⟩ ?_ o
      · simp only [Worker.armed, List.count_append,
          List.count_singleton, beq_iff_eq, if_neg hreq.ne_evRead]
        omega
      · intro o
        simp only [Worker.rings, List.count_append,
          List.count_singleton, beq_iff_eq, if_neg (hreq.ne_evWrite o)]
        omega
  | @closed w info res cq fd p msgCache hpc hcq hinfo hp =>
      have htaken := Worker.taken_tail hcq hinfo.ne_evRead
      exact moves_same _ ⟨by rfl, by rfl, by rfl, by exact htaken, by rfl⟩ (by intro o; rfl) o
  | @installed w fd after pc buf len c next msgCache new hpc hnew hfd hnext =>
      rcases hpc with ⟨hpc, rfl, rfl⟩ | ⟨hpc, rfl, rfl⟩
      · refine moves_same _ ⟨by rfl, by rfl, ?_, by rfl, ?_⟩ ?_ o
        · simp [Worker.armed, hpc, Pc.arms]
        · rw [hpc]
          rfl
        · intro o
          simp [Worker.rings, hpc, Pc.rings]
      · refine moves_same _ ⟨by rfl, by rfl, ?_, by rfl, ?_⟩ ?_ o
        · simp [Worker.armed, hpc, Pc.arms]
          omega
        · rw [hpc]
          rfl
        · intro o
          simp [Worker.rings, hpc, Pc.rings]
  | @pushed w fd owner hpc =>
      refine moves_deliver [fd] 0 ⟨by rfl, by rfl, ?_, by rfl, ?_⟩ ?_ ?_ o
      · simp only [Worker.armed, hpc, Pc.arms]
      · rw [hpc]
        rfl
      · intro o how
        simp only [Worker.rings, hpc, Pc.rings, if_neg (Ne.symm how)]
      · intro ringing ringing' hring
        simp only [Worker.rings, hpc, Pc.rings, if_true] at hring
        have heq : ringing' = ringing + 1 := by omega
        rw [heq]
        exact .push fd
  | @notified w owner hpc =>
      refine moves_same s.shared ⟨by rfl, by rfl, ?_, by rfl, ?_⟩ ?_ o
      · simp [Worker.armed, hpc, Pc.arms]
      · rw [hpc]
        rfl
      · intro o
        simp [Worker.rings, hpc, Pc.rings, List.count_cons]
        omega
  | @drained w hpc hnil =>
      refine moves_owner (drained_step hpc hnil) ?_ o
      intro o
      simp only [Worker.rings, hpc, Pc.rings]
  | @popped w fd rest hpc hcons =>
      refine moves_owner (popped_step hpc hcons) ?_ o
      intro o
      simp only [Worker.rings, hpc, Pc.rings]

/-! ## Runs -/

theorem station_start {s : Server n} (h : s.Start) (o : Fin n) :
    Mailbox.Covered (s.station o) ∧ (s.station o).1.Awake := by
  have hrings : s.tally (·.rings o) = 0 := by
    refine tally_eq_zero ?_
    intro w
    rw [Worker.rings, h.sq, h.kernel, h.pc]
    simp [Pc.rings]
  have harmed : (s.worker o).armed = 1 := by
    rw [Worker.armed, h.sq, h.kernel, h.pc]
    simp [Pc.arms]
  constructor
  · simp only [Mailbox.Covered, station, Worker.station, hrings, harmed, h.counter, h.incoming]
    omega
  · refine .inr (.inr ?_)
    simp only [station, Worker.station, h.incoming]
    exact Nat.zero_le _

theorem reaches_station {tr : List (Input n × Output n)} {s : Server n}
    (h : (echoServer n msgSize).Reaches tr s) (o : Fin n) :
    Mailbox.Covered (s.station o) ∧ (s.station o).1.Awake := by
  refine h.invariant (P := fun _ s => Mailbox.Covered (s.station o) ∧ (s.station o).1.Awake)
    (fun s hs => station_start hs o) ?_
  intro tr s a x t _ hs hstep
  rcases step_moves hstep o with heq | hmoves
  · rw [heq]
    exact hs
  · exact ⟨hmoves.covered hs.1, hmoves.step.awake hs.2⟩

end Server

end Upcalls.IoUring
