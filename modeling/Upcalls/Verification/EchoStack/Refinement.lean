import Upcalls.Model.EchoStack
import Upcalls.Verification.LibUpcall.Refinement
import Upcalls.Verification.UpcallEcho.Equations

/-! # The server on arrays refines the server on list queues

Each library call of a handler is a step of the thread, so what the list queue of libupcall
promises holds for the calls one by one, and then for the handler that makes them.
-/

namespace Upcalls.EchoStack

open Library LibUpcall TcpEcho UpcallEcho

variable {n msgSize : ℕ}

/-! ## The simulation relation -/

/-- What is the same in both models, whatever the worker does. -/
structure Agrees (me : Worker) (u : UpcallEcho.Worker) : Prop where
  listenSock : u.listenSock = me.listenSock
  outstanding : u.outstanding = me.outstanding
  msgCache : u.msgCache = me.msgCache
  connCache : u.connCache = me.connCache
  acceptCount : u.acceptCount = me.acceptCount
  connCount : u.connCount = me.connCount
  recvCnt : me.thread.worker.recvCnt = BUF_COUNT

/-- The worker runs: its arrays are what the list queue says. -/
structure Runs (me : Worker) (u : UpcallEcho.Worker) : Prop extends Agrees me u where
  submitting : me.submitting = none
  arrived : me.arrived = []
  inKernel : u.inKernel = false
  refines : Refines me.thread u.queue

/-- It waits in `upcall_submit`: what has arrived is not in `receive` yet, and `work` still
holds the batch. -/
structure Waits (me : Worker) (u : UpcallEcho.Worker) : Prop extends Agrees me u where
  submitting : me.submitting.isSome = true
  inKernel : u.inKernel = true
  room : me.arrived.length ≤ BUF_COUNT
  top : me.thread.phase = .top
  queue : u.queue = .submitted me.arrived
  refines : ∃ q, Refines me.thread q

/-- Between two steps no handler runs. -/
def Between : Phase → Prop
  | .top | .dispatch _ _ | .loop => True
  | .setup | .handler _ _ => False

structure Matches (me : Worker) (u : UpcallEcho.Worker) : Prop where
  between : Between me.thread.phase
  state : Runs me u ∨ Waits me u

def Related (s : Stack n) (u : Server n) : Prop :=
  u.shared = s.shared ∧ ∀ w, Matches (s.worker w) (u.worker w)

/-! ## The capacity of `receive` -/

theorem call_recvCnt {t t' : Thread Handler} {o : LibUpcall.Output Handler}
    {r : Realloc Handler} {c : Call Handler} (hbound : t.worker.Bounded)
    (h : t.step (.call r c) = some (t', o)) : t'.worker.recvCnt = t.worker.recvCnt := by
  obtain ⟨-, -, -, hcall⟩ := Thread.call_spec h
  cases hc : c.request with
  | some req =>
      obtain ⟨e, w, hw, hq, -⟩ := Worker.call_request_spec hbound r hc
      cases hcall.symm.trans hw
      exact hq.recvCnt
  | none =>
      obtain ⟨buf, len, rfl⟩ := Call.request_eq_none hc
      obtain ⟨w, hw, hret⟩ := Worker.returnBuffer_spec hbound r buf len
      cases hcall.symm.trans hw
      exact hret.recvCnt

/-! ## Library calls -/

section Calls

variable {me : Worker} {u : UpcallEcho.Worker}

/-- A request of a handler is one request of the list queue. -/
theorem Runs.request (h : Runs me u) (huser : me.thread.phase.user = true)
    (r : Realloc Handler) {c : Call Handler} {req : Request Handler}
    (hc : c.request = some req) :
    ∃ me', me.call r c = some me' ∧ Runs me' (u.request req) ∧
      me'.thread.phase = me.thread.phase := by
  obtain ⟨e, w, hw, hq, rfl, -⟩ := Worker.call_request_spec h.refines.bounded r hc
  have hstep : me.thread.step (.call r c) = some ({ me.thread with worker := w }, .silent) := by
    rw [Thread.step, if_pos huser, hw]
    rfl
  refine ⟨{ me with thread := { me.thread with worker := w } },
    by rw [Worker.call, hstep]; rfl, ?_, rfl⟩
  exact ⟨⟨h.listenSock, h.outstanding, h.msgCache, h.connCache, h.acceptCount, h.connCount,
    (call_recvCnt h.refines.bounded hstep).trans h.recvCnt⟩, h.submitting, h.arrived,
    h.inKernel, h.refines.enqueued hq⟩

theorem Runs.returnBuffer (h : Runs me u) (huser : me.thread.phase.user = true)
    (r : Realloc Handler) (buf : Ptr) (len : ℕ) :
    ∃ me', me.call r (.returnBuffer buf len) = some me' ∧ Runs me' u.returnBuffer ∧
      me'.thread.phase = me.thread.phase := by
  obtain ⟨w, hw, hret⟩ := Worker.returnBuffer_spec h.refines.bounded r buf len
  have hstep : me.thread.step (.call r (.returnBuffer buf len)) =
      some ({ me.thread with worker := w }, .silent) := by
    rw [Thread.step, if_pos huser, LibUpcall.Worker.call, hw]
    rfl
  refine ⟨{ me with thread := { me.thread with worker := w } },
    by rw [Worker.call, hstep]; rfl, ?_, rfl⟩
  exact ⟨⟨h.listenSock, h.outstanding, h.msgCache, h.connCache, h.acceptCount, h.connCount,
    (call_recvCnt h.refines.bounded hstep).trans h.recvCnt⟩, h.submitting, h.arrived,
    h.inKernel, h.refines.returnBuffer hret⟩

/-! ## Handlers -/

theorem Runs.onClose (h : Runs me u) (sh : Shared) (p : ℕ) :
    Runs (onClose p me sh).1 (UpcallEcho.onClose p u sh).1 ∧
      (onClose p me sh).2 = (UpcallEcho.onClose p u sh).2 ∧
      (onClose p me sh).1.thread = me.thread := by
  rw [EchoStack.onClose, UpcallEcho.onClose]
  split
  · exact ⟨⟨⟨h.listenSock, h.outstanding, congrArg (cacheFree · _) h.msgCache,
      congrArg (cacheFree · p) h.connCache, h.acceptCount, congrArg (· + 1) h.connCount,
      h.recvCnt⟩, h.submitting, h.arrived, h.inKernel, h.refines⟩, rfl, rfl⟩
  · exact ⟨h, rfl, rfl⟩

/-- A handler makes its calls one after the other, and none of them leaves an array. -/
theorem Runs.perform (p : ℕ) (effects : List Effect) (r : ℕ → Realloc Handler) (sh : Shared)
    (h : Runs me u) (huser : me.thread.phase.user = true) :
    ∃ me', perform p effects r me sh = some (me', (UpcallEcho.perform p effects u sh).2) ∧
      Runs me' (UpcallEcho.perform p effects u sh).1 ∧ me'.thread.phase = me.thread.phase := by
  induction effects generalizing me u sh r with
  | nil => exact ⟨me, rfl, h, rfl⟩
  | cons effect rest ih =>
      cases effect with
      | memcpy dst src len => exact ih r sh h huser
      | returnBuffer buf len =>
          obtain ⟨me₁, hcall, h₁, hphase⟩ := h.returnBuffer huser (r 0) buf len
          obtain ⟨me₂, hrest, h₂, hphase'⟩ :=
            ih (fun k => r (k + 1)) sh h₁ (hphase ▸ huser)
          refine ⟨me₂, ?_, h₂, hphase'.trans hphase⟩
          rw [EchoStack.perform, hcall]
          exact hrest
      | addRead fd =>
          obtain ⟨me₁, hcall, h₁, hphase⟩ :=
            h.request huser (r 0) (c := .addRead fd (some .myRead)) rfl
          obtain ⟨me₂, hrest, h₂, hphase'⟩ :=
            ih (fun k => r (k + 1)) sh h₁ (hphase ▸ huser)
          refine ⟨me₂, ?_, h₂, hphase'.trans hphase⟩
          rw [EchoStack.perform, hcall]
          exact hrest
      | addWrite fd buf len =>
          obtain ⟨me₁, hcall, h₁, hphase⟩ :=
            h.request huser (r 0) (c := .addWrite fd buf len (some .myWrite)) rfl
          obtain ⟨me₂, hrest, h₂, hphase'⟩ :=
            ih (fun k => r (k + 1)) sh h₁ (hphase ▸ huser)
          refine ⟨me₂, ?_, h₂, hphase'.trans hphase⟩
          rw [EchoStack.perform, hcall]
          exact hrest
      | onClose =>
          obtain ⟨h₁, hshared, hthread⟩ := h.onClose sh p
          obtain ⟨me₂, hrest, h₂, hphase⟩ := ih r (UpcallEcho.onClose p u sh).2 h₁
            (hthread ▸ huser)
          refine ⟨me₂, ?_, h₂, hphase.trans (congrArg Thread.phase hthread)⟩
          rw [EchoStack.perform, hshared]
          exact hrest

theorem Runs.myAccept (e : UpEvent Handler) (r : ℕ → Realloc Handler) (sh : Shared)
    (h : Runs me u) (huser : me.thread.phase.user = true) :
    ∃ me', myAccept e r me sh = some (me', (UpcallEcho.myAccept e u sh).2) ∧
      Runs me' (UpcallEcho.myAccept e u sh).1 ∧ me'.thread.phase = me.thread.phase := by
  rw [EchoStack.myAccept, UpcallEcho.myAccept]
  split
  · obtain ⟨me₁, hcall, h₁, hphase⟩ :=
      h.request huser (r 0) (c := .addAccept e.fd (some .myAccept)) rfl
    exact ⟨me₁, by rw [hcall]; rfl, h₁, hphase⟩
  · have hcounted : Runs
        { me with
          acceptCount := me.acceptCount + 1
          connCache := (cacheAlloc me.connCache sh.next).cache
          msgCache := (cacheAlloc me.msgCache (cacheAlloc me.connCache sh.next).next).cache }
        { u with
          acceptCount := u.acceptCount + 1
          connCache := (cacheAlloc u.connCache sh.next).cache
          msgCache := (cacheAlloc u.msgCache (cacheAlloc u.connCache sh.next).next).cache } := by
      refine ⟨⟨h.listenSock, h.outstanding, ?_, ?_, congrArg (· + 1) h.acceptCount,
        h.connCount, h.recvCnt⟩, h.submitting, h.arrived, h.inKernel, h.refines⟩
      · rw [h.msgCache, h.connCache]
      · rw [h.connCache]
    obtain ⟨me₁, hread, h₁, hphase₁⟩ := hcounted.request huser (r 0)
      (c := .addRead e.result (some .myRead)) rfl
    obtain ⟨me₂, haccept, h₂, hphase₂⟩ := h₁.request (hphase₁ ▸ huser) (r 1)
      (c := .addAccept e.fd (some .myAccept)) rfl
    refine ⟨me₂, ?_, h₂, hphase₂.trans hphase₁⟩
    simp only [Option.bind_eq_bind, hread, Option.bind_some, haccept, h.connCache, h.msgCache]
    rfl

/-- A handler does the same on the arrays and on the list queue, or it follows a `NULL`
entry in both. -/
theorem Runs.handle (e : UpEvent Handler) (r : ℕ → Realloc Handler) (msgSize : ℕ) (sh : Shared)
    (h : Runs me u) (huser : me.thread.phase.user = true) :
    handle msgSize e r me sh = none ∧ UpcallEcho.Server.handle msgSize e u sh = none ∨
      ∃ me' u' sh' effects, handle msgSize e r me sh = some ((me', sh'), effects) ∧
        UpcallEcho.Server.handle msgSize e u sh = some ((u', sh'), effects) ∧ Runs me' u' ∧
        me'.thread.phase = me.thread.phase := by
  have hperform : ∀ (p : ℕ) (x : Connection × List Effect), ∃ me' u' sh',
      EchoStack.perform p x.2 r me { sh with conn := Function.update sh.conn p x.1 } =
          some (me', sh') ∧
        UpcallEcho.perform p x.2 u { sh with conn := Function.update sh.conn p x.1 } = (u', sh') ∧
        Runs me' u' ∧ me'.thread.phase = me.thread.phase := by
    intro p x
    obtain ⟨me', hme', h', hphase⟩ := h.perform p x.2 r _ huser
    exact ⟨me', _, _, hme', rfl, h', hphase⟩
  rw [EchoStack.handle, UpcallEcho.Server.handle]
  cases hfn : e.workFn with
  | none => exact .inl ⟨rfl, rfl⟩
  | some f =>
      cases f with
      | myAccept =>
          obtain ⟨me', hme', h', hphase⟩ := h.myAccept e r sh huser
          exact .inr ⟨me', _, _, [], by rw [hme']; rfl, rfl, h', hphase⟩
      | myRead =>
          cases hconn : sh.conns e.fd with
          | none => exact .inl ⟨rfl, rfl⟩
          | some p =>
              right
              obtain ⟨me', u', sh', hme', hu', h', hphase⟩ :=
                hperform p (myRead msgSize (sh.conn p) e)
              refine ⟨me', u', sh', (myRead msgSize (sh.conn p) e).2, ?_, ?_, h', hphase⟩
              · simp only [Option.bind_eq_bind, Option.bind_some, hme']
                rfl
              · simp only [Option.bind_eq_bind, Option.bind_some, hu']
                rfl
      | myWrite =>
          cases hconn : sh.conns e.fd with
          | none => exact .inl ⟨rfl, rfl⟩
          | some p =>
              right
              obtain ⟨me', u', sh', hme', hu', h', hphase⟩ :=
                hperform p (myWrite msgSize (sh.conn p) e)
              refine ⟨me', u', sh', (myWrite msgSize (sh.conn p) e).2, ?_, ?_, h', hphase⟩
              · simp only [Option.bind_eq_bind, Option.bind_some, hme']
                rfl
              · simp only [Option.bind_eq_bind, Option.bind_some, hu']
                rfl

end Calls

/-! ## Steps -/

section Steps

variable {s s' : Stack n} {u : Server n} {w : Fin n}

/-- A step of one worker, and of the same worker in the other model. -/
theorem Related.share_set (h : Related s u) {me : Worker} {v : UpcallEcho.Worker} (sh : Shared)
    (hmatch : Matches me v) : Related ((s.set w me).share sh) ((u.set w v).share sh) := by
  refine ⟨rfl, fun i => ?_⟩
  rw [Team.share_worker, Team.share_worker, Team.set_worker, Team.set_worker]
  split
  · exact hmatch
  · exact h.2 i

theorem Related.set (h : Related s u) {me : Worker} {v : UpcallEcho.Worker}
    (hmatch : Matches me v) : Related (s.set w me) (u.set w v) := by
  have hboth := h.share_set (w := w) s.shared hmatch
  exact ⟨h.1, hboth.2⟩

theorem Matches.runs {me : Worker} {v : UpcallEcho.Worker} (h : Matches me v)
    (hnone : me.submitting = none) : Runs me v := by
  refine h.state.resolve_right fun hwaits => ?_
  have hsome := hwaits.submitting
  rw [hnone] at hsome
  cases hsome

theorem Matches.waits {me : Worker} {v : UpcallEcho.Worker} (h : Matches me v)
    (hsome : me.submitting.isSome = true) : Waits me v := by
  refine h.state.resolve_left fun hruns => ?_
  rw [hruns.submitting] at hsome
  cases hsome

/-- The batch that the kernel reads at the array is the list queue's. -/
theorem Refines.gather {t : Thread Handler} {q : ListQueue Handler} (h : Refines t q)
    (r : Realloc Handler) :
    ∃ lib, t.worker.gatherBuffers r = some lib ∧ lib.batch = some lib.queued ∧
      lib.queued.map UpEvent.request = q.batch := by
  obtain ⟨lib, hlib, hbound, hqueued, -⟩ := LibUpcall.Worker.gatherBuffers_spec h.bounded r
  refine ⟨lib, hlib, LibUpcall.Worker.batch_spec hbound, ?_⟩
  rw [hqueued, List.map_append, h.pending, ListQueue.batch, ← h.returned]
  split <;> rfl

theorem Related.submit (h : Related s u) {r : Realloc Handler} (hstep : s.submit w r = some s') :
    ∃ u', u.submit w = some u' ∧ Related s' u' := by
  simp only [Stack.submit] at hstep
  split at hstep
  case isFalse => cases hstep
  case isTrue hguard =>
    have hruns := (h.2 w).runs hguard.1
    obtain ⟨lib, hlib, hbatch, hqueued⟩ := Refines.gather hruns.refines r
    simp only [hlib, Option.bind_eq_bind, Option.bind_some, hbatch] at hstep
    cases hstep
    have hnil : (u.worker w).queue.undispatched = [] := by
      rw [← hruns.refines.undispatched, Thread.undispatched, hguard.2]
    refine ⟨u.set w (u.worker w).enter, ?_, ?_⟩
    · simp only [Server.submit, hruns.inKernel, hnil]
      rfl
    apply h.set
    refine ⟨?_, .inr ⟨⟨hruns.listenSock, ?_, hruns.msgCache, hruns.connCache, hruns.acceptCount,
      hruns.connCount, hruns.recvCnt⟩, rfl, rfl, ?_, hguard.2, ?_, _, hruns.refines⟩⟩
    · exact hguard.2 ▸ trivial
    · rw [hqueued, ← hruns.outstanding]
      rfl
    · rw [hruns.arrived]
      exact Nat.zero_le _
    · rw [hruns.arrived]
      rfl

theorem Related.complete (h : Related s u) {i : ℕ} {result : ℤ} {buf : Ptr} {len : ℕ}
    (hstep : s.complete w i result buf len = some s') :
    ∃ u', u.complete w i result buf len = some u' ∧ Related s' u' := by
  simp only [Stack.complete] at hstep
  split at hstep
  case isFalse => cases hstep
  case isTrue hguard =>
    have hwaits := (h.2 w).waits hguard.1
    obtain ⟨r, hr, hstep⟩ := Option.bind_eq_some_iff.mp hstep
    obtain ⟨sh, hopen, hstep⟩ := Option.bind_eq_some_iff.mp hstep
    cases hstep
    have hlt : (s.worker w).arrived.length < BUF_COUNT := hwaits.recvCnt ▸ hguard.2
    have hundispatched : (u.worker w).queue.undispatched =
        (s.worker w).arrived.filter (·.workFn.isSome) := by
      rw [hwaits.queue]
      rfl
    have hroom : (u.worker w).queue.undispatched.length < BUF_COUNT := by
      rw [hundispatched]
      exact Nat.lt_of_le_of_lt (List.length_filter_le _ _) hlt
    refine ⟨(u.set w ((u.worker w).arrive i (completion r result buf len))).share sh, ?_, ?_⟩
    · have hr' : (u.worker w).outstanding[i]? = some r := hwaits.outstanding ▸ hr
      have hopen' : Server.openFor (completion r result buf len) u.shared = some sh := h.1 ▸ hopen
      simp only [Server.complete, if_pos (And.intro hwaits.inKernel hroom), hr', hopen',
        Option.bind_eq_bind, Option.bind_some]
      rfl
    · refine h.share_set _ ⟨(h.2 w).between, .inr ⟨⟨hwaits.listenSock, ?_, hwaits.msgCache,
        hwaits.connCache, hwaits.acceptCount, hwaits.connCount, hwaits.recvCnt⟩, hguard.1,
        hwaits.inKernel, ?_, hwaits.top, ?_, hwaits.refines⟩⟩
      · exact congrArg (List.eraseIdx · i) hwaits.outstanding
      · rw [List.length_append]
        exact hlt
      · have hone : List.filter (·.workFn.isSome) [completion r result buf len] =
            if (completion r result buf len).workFn.isSome then [completion r result buf len]
            else [] := by
          rw [List.filter_singleton, Bool.cond_eq_ite]
        rw [UpcallEcho.Worker.arrive, hwaits.queue, ListQueue.submitted, ListQueue.submitted,
          List.filter_append, hone]

theorem Related.receive (h : Related s u) (hstep : s.receive w = some s') :
    ∃ u', u.receive w = some u' ∧ Related s' u' := by
  obtain ⟨r, hr, hstep⟩ := Option.bind_eq_some_iff.mp hstep
  obtain ⟨⟨t, out⟩, ht, hstep⟩ := Option.bind_eq_some_iff.mp hstep
  cases hstep
  have hwaits := (h.2 w).waits (by rw [hr]; rfl)
  obtain ⟨q, hq⟩ := hwaits.refines
  obtain ⟨htop, -, hphase, lib, hlib, -, hworker⟩ := Thread.submit_spec hq.bounded ht
  obtain ⟨-, -, -, -, hrefines⟩ := hq.submit ht
  have hrecvCnt : t.worker.recvCnt = BUF_COUNT := by
    obtain ⟨lib', hlib', -, -, hsame⟩ := LibUpcall.Worker.gatherBuffers_spec hq.bounded r
    cases hlib.symm.trans hlib'
    rw [hworker]
    exact hsame.recvCnt.trans hwaits.recvCnt
  refine ⟨u.set w { u.worker w with inKernel := false }, ?_, ?_⟩
  · simp only [Server.receive, hwaits.inKernel]
    rfl
  · apply h.set
    refine ⟨?_, .inl ⟨⟨hwaits.listenSock, hwaits.outstanding, hwaits.msgCache, hwaits.connCache,
      hwaits.acceptCount, hwaits.connCount, hrecvCnt⟩, rfl, rfl, rfl, ?_⟩⟩
    · rw [hphase]
      trivial
    · rw [hwaits.queue]
      exact hrefines

/-- A step of the thread that neither users nor the kernel see. -/
theorem Related.quiet (h : Related s u) {t : Thread Handler} (hruns : Runs (s.worker w) (u.worker w))
    (hrefines : Refines t (u.worker w).queue) (hbetween : Between t.phase)
    (hrecvCnt : t.worker.recvCnt = (s.worker w).thread.worker.recvCnt) :
    Related (s.set w { s.worker w with thread := t }) u := by
  have hmatch : Matches { s.worker w with thread := t } (u.worker w) :=
    ⟨hbetween, .inl ⟨⟨hruns.listenSock, hruns.outstanding, hruns.msgCache, hruns.connCache,
      hruns.acceptCount, hruns.connCount, hrecvCnt.trans hruns.recvCnt⟩, hruns.submitting,
      hruns.arrived, hruns.inKernel, hrefines⟩⟩
  have hset := h.set (w := w) hmatch
  rwa [Team.set_same rfl] at hset

/-- Only a running worker is in one of these phases. -/
theorem Related.runs (h : Related s u) (hphase : (s.worker w).thread.phase ≠ .top) :
    Runs (s.worker w) (u.worker w) :=
  (h.2 w).state.resolve_right fun hwaits => hphase hwaits.top

theorem Related.loop (h : Related s u) (hstep : s.loop w = some s') : Related s' u := by
  obtain ⟨⟨t, out⟩, ht, hstep⟩ := Option.bind_eq_some_iff.mp hstep
  cases hstep
  obtain ⟨hphase, rfl, rfl⟩ := Thread.loopDone_spec ht
  have hruns := h.runs (by rw [hphase]; exact Phase.noConfusion)
  refine h.quiet hruns ?_ trivial rfl
  exact hruns.refines.moves trivial (by simp [Thread.undispatched, hphase])

/-- The handler of the next completion starts. -/
theorem Runs.dispatched {me : Worker} {v : UpcallEcho.Worker} (h : Runs me v)
    {t : Thread Handler} {e : UpEvent Handler}
    (hstep : me.thread.step .dispatch = some (t, .dispatched e)) :
    ∃ i ret rest, v.queue.undispatched = e :: rest ∧ t.phase = .handler i ret ∧
      Runs { me with thread := t } { v with queue := { v.queue with undispatched := rest } } := by
  obtain ⟨i, ret, hphase, ⟨-, e', -, hworker, ⟨-, -, hout⟩ | ⟨-, hnext, -⟩⟩ | ⟨-, -, hout⟩⟩ :=
    Thread.dispatch_spec hstep
  · cases hout
  · rcases h.refines.dispatch hstep with ⟨hout, -⟩ | ⟨e', rest, hout, hcons, hrefines⟩
    · cases hout
    · cases hout
      exact ⟨i, ret, rest, hcons, hnext, ⟨h.listenSock, h.outstanding, h.msgCache, h.connCache,
        h.acceptCount, h.connCount, (congrArg _ hworker).trans h.recvCnt⟩, h.submitting,
        h.arrived, h.inKernel, hrefines⟩
  · cases hout

/-- A turn of the loop runs the handler of the next completion that has one, or shows
nowhere. -/
theorem Related.dispatch (h : Related s u) {r : ℕ → Realloc Handler} {o : UpcallEcho.Output}
    (hstep : s.dispatch msgSize w r = some (s', o)) :
    o = .silent ∧ Related s' u ∨
      ∃ e effects u', o = .dispatched e effects ∧ u.dispatch msgSize w = some (u', o) ∧
        Related s' u' := by
  obtain ⟨⟨t, out⟩, ht, hstep⟩ := Option.bind_eq_some_iff.mp hstep
  obtain ⟨i, ret, hphase, hcases⟩ := Thread.dispatch_spec ht
  have hruns := h.runs (by rw [hphase]; exact Phase.noConfusion)
  rcases hruns.refines.dispatch ht with ⟨rfl, hrefines⟩ | ⟨e, -, rfl, -⟩
  · cases hstep
    left
    rcases hcases with ⟨-, e, -, hworker, ⟨-, hnext, -⟩ | ⟨-, -, hout⟩⟩ | ⟨-, rfl, -⟩
    · refine ⟨rfl, h.quiet hruns hrefines ?_ (congrArg _ hworker)⟩
      rw [hnext]
      trivial
    · cases hout
    · exact ⟨rfl, h.quiet hruns hrefines trivial rfl⟩
  · obtain ⟨j, ret', rest, hcons, hhandler, hstarted⟩ := hruns.dispatched ht
    obtain ⟨⟨⟨me, sh⟩, effects⟩, hme, hstep⟩ := Option.bind_eq_some_iff.mp hstep
    obtain ⟨⟨t', out⟩, ht', hstep⟩ := Option.bind_eq_some_iff.mp hstep
    cases hstep
    rcases hstarted.handle e r msgSize s.shared
      (by rw [hhandler]; rfl) with
      ⟨hnone, -⟩ | ⟨me', v, sh', effects', hme', hv, hdone, -⟩
    · cases hnone.symm.trans hme
    · cases hme'.symm.trans hme
      have hsimulates : Machine.Simulates (thread Handler 1 0) (listQueue Handler 1)
          LibUpcall.observe Refines := refines_simulates (Nat.le_refl 1)
      have hrefines' : Refines t' v.queue :=
        hsimulates.hidden (a := .handlerDone) (o := out) hdone.refines ht' rfl
      obtain ⟨k, ret'', -, rfl, rfl⟩ := Thread.handlerDone_spec ht'
      refine .inr ⟨e, effects, (u.set w v).share sh, rfl, ?_, ?_⟩
      · simp only [hruns.inKernel] at hv
        simp only [Server.dispatch, hruns.inKernel, hcons, h.1, Option.bind_eq_bind, hv]
        rfl
      · exact h.share_set _ ⟨trivial, .inl ⟨⟨hdone.listenSock, hdone.outstanding, hdone.msgCache,
          hdone.connCache, hdone.acceptCount, hdone.connCount, hdone.recvCnt⟩, hdone.submitting,
          hdone.arrived, hdone.inKernel, hrefines'⟩⟩

/-! ## All steps -/

theorem enqueue_recvCnt {lib lib' : LibUpcall.Worker Handler} {r : Realloc Handler}
    {fill : UpEvent Handler → UpEvent Handler} (h : lib.enqueue r fill = some lib') :
    lib'.recvCnt = lib.recvCnt := by
  obtain ⟨slot, -, rfl⟩ := Option.map_eq_some_iff.mp h
  dsimp only
  split <;> rfl

theorem related_start (hs : s.Start msgSize) : ∃ u : Server n, u.Start ∧ Related s u := by
  refine ⟨⟨fun w => ⟨(s.worker w).listenSock, setupQueue (s.worker w).listenSock, false, [],
    (s.worker w).msgCache, (s.worker w).connCache, 0, 0⟩, s.shared⟩, ?_, rfl, ?_⟩
  · exact ⟨fun _ => rfl, fun _ => rfl, fun _ => rfl, fun _ => rfl, fun _ => rfl, hs.conns,
      hs.cached, hs.fresh⟩
  · intro w
    obtain ⟨r, r', array, pool, lib, hsetup, haccept, hphase⟩ := hs.setup w
    obtain ⟨lib', hlib', hbound, hqueued, hcnt, -⟩ := LibUpcall.Worker.upcallWorkerSetup_spec
      (show 1 ≤ BUF_COUNT by decide) r array pool msgSize
    cases hsetup.symm.trans hlib'
    obtain ⟨slot, lib₂, hlib₂, henqueued⟩ := LibUpcall.Worker.enqueue_spec hbound r'
      fun slot => { slot with
        fd := (s.worker w).listenSock, type := .upAccept, workFn := some .myAccept }
    cases haccept.symm.trans hlib₂
    have hrecvCnt : lib.recvCnt = BUF_COUNT := by
      rw [LibUpcall.Worker.upcallWorkerSetup, LibUpcall.Worker.addBuffers] at hsetup
      exact enqueue_recvCnt hsetup
    refine ⟨?_, .inl ⟨⟨rfl, (hs.outstanding w).symm, rfl, rfl, (hs.acceptCount w).symm,
      (hs.connCount w).symm, henqueued.recvCnt.trans hrecvCnt⟩, hs.submitting w, hs.arrived w,
      rfl, henqueued.bounded, ?_, ?_, ?_, ?_⟩⟩
    · rw [hphase]
      trivial
    · rw [Thread.InRange, hphase]
      trivial
    · rw [henqueued.queued, hqueued]
      rfl
    · exact henqueued.bufCnt.trans hcnt
    · rw [Thread.undispatched, hphase]
      rfl

theorem stack_simulates :
    Machine.Simulates (echoStack n msgSize) (echoServer n msgSize) observe Related where
  init _ hs := related_start hs
  hidden := by
    intro s s' u a o h hstep hobs
    cases a with
    | submit w r => cases hobs
    | complete w i result buf len => cases hobs
    | receive w => cases hobs
    | dispatch w r =>
        rcases h.dispatch hstep with ⟨-, hnext⟩ | ⟨e, effects, u', rfl, -⟩
        · exact hnext
        · cases hobs
    | loop w =>
        obtain ⟨t, ht, hpair⟩ := Option.map_eq_some_iff.mp hstep
        cases hpair
        exact h.loop ht
  visible := by
    intro s s' u a o b p h hstep hobs
    cases a with
    | submit w r =>
        cases hobs
        obtain ⟨t, ht, hpair⟩ := Option.map_eq_some_iff.mp hstep
        cases hpair
        obtain ⟨u', hu', hnext⟩ := h.submit ht
        exact ⟨u', congrArg (Option.map _) hu', hnext⟩
    | complete w i result buf len =>
        cases hobs
        obtain ⟨t, ht, hpair⟩ := Option.map_eq_some_iff.mp hstep
        cases hpair
        obtain ⟨u', hu', hnext⟩ := h.complete ht
        exact ⟨u', congrArg (Option.map _) hu', hnext⟩
    | receive w =>
        cases hobs
        obtain ⟨t, ht, hpair⟩ := Option.map_eq_some_iff.mp hstep
        cases hpair
        obtain ⟨u', hu', hnext⟩ := h.receive ht
        exact ⟨u', congrArg (Option.map _) hu', hnext⟩
    | dispatch w r =>
        rcases h.dispatch hstep with ⟨rfl, -⟩ | ⟨e, effects, u', rfl, hu', hnext⟩
        · cases hobs
        · cases hobs
          exact ⟨u', hu', hnext⟩
    | loop w => cases hobs

/-- Some list queue says what the arrays of a worker hold. -/
theorem Matches.refines {me : Worker} {v : UpcallEcho.Worker} (h : Matches me v) :
    ∃ q, Refines me.thread q := by
  rcases h.state with hruns | hwaits
  · exact ⟨_, hruns.refines⟩
  · exact hwaits.refines

/-- A run of the server on arrays is, as observed, a run of the server on list queues, and no
worker leaves its arrays. -/
theorem stack_refines {tr : List (Input n × UpcallEcho.Output)}
    (h : (echoStack n msgSize).Reaches tr s) :
    (∃ u, (echoServer n msgSize).Reaches (tr.filterMap observe) u ∧ Related s u) ∧
      ∀ w, (s.worker w).thread.Sound := by
  obtain ⟨u, hu, hrelated⟩ := stack_simulates.reaches h
  refine ⟨⟨u, hu, hrelated⟩, ?_⟩
  intro w
  obtain ⟨q, hq⟩ := (hrelated.2 w).refines
  exact hq.sound

end Steps

/-! ## A small server -/

/-- What `realloc` answers. -/
def moved : Realloc Handler := ⟨⟨7, 0⟩, fun _ => UpEvent.zero, fun _ => ⟨.null, 0⟩⟩

/-- The thread of a worker behind `upcall_echo_setup`, listening on descriptor 3. -/
def smallThread : Thread Handler where
  worker :=
    (((LibUpcall.Worker.upcallWorkerSetup moved ⟨9, 0⟩ consecutive BUF_COUNT 2).get rfl).addAccept
      moved 3 (some .myAccept)).get rfl
  phase := .top

def smallStack : Stack 1 where
  worker _ :=
    { listenSock := 3, thread := smallThread, submitting := none, arrived := [], outstanding := []
      msgCache := [2], connCache := [1], acceptCount := 0, connCount := 0 }
  shared :=
    { conns := fun _ => none, conn := fun _ => Connection.zero
      opened := fun fd => fd ≤ 3, next := 3 }

theorem smallStack_start : (echoStack 1 2).Init smallStack := by
  have hfree : ∀ b, smallStack.free b = if b = 1 ∨ b = 2 then 1 else 0 := by
    intro b
    simp only [Stack.free, Team.tally, smallStack, Fin.sum_univ_one, List.count_cons,
      List.count_nil, beq_iff_eq]
    split <;> split <;> split <;> omega
  refine ⟨fun _ => ⟨moved, moved, ⟨9, 0⟩, consecutive, _, rfl, rfl, rfl⟩, fun _ => rfl,
    fun _ => rfl, fun _ => rfl, fun _ => rfl, fun _ => rfl, fun _ => rfl, ?_, ?_⟩
  · intro b
    rw [hfree]
    split <;> omega
  · intro b hb
    have hb : 3 ≤ b := hb
    rw [hfree, if_neg (by omega)]

/-- One turn of `run_event_loop` with one completion. -/
def turn (w : Fin n) (i : ℕ) (result : ℤ) : List (Input n) :=
  [.submit w moved, .complete w i result ⟨9, 0⟩ 8, .receive w, .dispatch w fun _ => moved,
    .dispatch w fun _ => moved, .loop w]

/-- A client connects and sends one message of two bytes. -/
def oneMessage (w : Fin n) : List (Input n) := turn w 1 5 ++ turn w 1 2

theorem stack_refines_oneMessage :
    ∃ tr s, (echoStack 1 2).Reaches tr s ∧
      (s.worker 0).thread.worker.queued.map UpEvent.request =
        [.write 5 ⟨2, 0⟩ 2 (some .myWrite)] ∧
      (∃ u, (echoServer 1 2).Reaches (tr.filterMap observe) u ∧ Related s u) ∧
      (s.worker 0).thread.Sound := by
  have hrun : ((echoStack 1 2).exec smallStack (oneMessage 0)).isSome := rfl
  have hreach := Machine.reaches_exec_get smallStack_start hrun
  obtain ⟨hserver, hsound⟩ := stack_refines hreach
  exact ⟨_, _, hreach, rfl, hserver, hsound 0⟩

end Upcalls.EchoStack
