import Upcalls.Verification.EchoStack.Refinement
import Upcalls.Verification.UpcallEcho.Safety

/-! # What the handlers rely on, on the arrays

The requests of a worker are where the code keeps them: in `work`, in the kernel, and in
`receive` behind the loop index. What holds of the list queues is read off the arrays, and no
worker is ever stuck between two calls of `upcall_submit`.
-/

namespace Upcalls.EchoStack

open Library LibUpcall TcpEcho UpcallEcho

variable {n msgSize : ℕ}

namespace Worker

/-- What is queued in `work`. In `upcall_submit` the kernel has all of it already. -/
def pending (me : Worker) : List (Request Handler) :=
  if me.submitting.isSome then [] else me.thread.worker.queued.map UpEvent.request

/-- The completions with a handler that is still to run. -/
def undispatched (me : Worker) : List (UpEvent Handler) :=
  if me.submitting.isSome then me.arrived.filter (·.workFn.isSome) else me.thread.undispatched

def requests (me : Worker) : List (Request Handler) := me.pending ++ me.outstanding

/-- Reads and writes on `fd` that are queued, outstanding or not yet dispatched. -/
def ops (fd : ℤ) (me : Worker) : ℕ :=
  me.requests.countP (fun r => requestFor .myRead fd r || requestFor .myWrite fd r) +
    me.undispatched.countP (fun e => eventFor .myRead fd e || eventFor .myWrite fd e)

def accepts (me : Worker) : ℕ :=
  me.requests.countP (requestFn · = some .myAccept) +
    me.undispatched.countP (·.workFn = some .myAccept)

end Worker

section Match

variable {me : Worker} {u : UpcallEcho.Worker}

theorem Matches.pending (h : Matches me u) : u.queue.pending = me.pending := by
  rw [Worker.pending]
  rcases h.state with hruns | hwaits
  · rw [hruns.submitting, ← hruns.refines.pending]
    rfl
  · rw [hwaits.submitting, hwaits.queue]
    rfl

theorem Matches.undispatched (h : Matches me u) : u.queue.undispatched = me.undispatched := by
  rw [Worker.undispatched]
  rcases h.state with hruns | hwaits
  · rw [hruns.submitting, ← hruns.refines.undispatched]
    rfl
  · rw [hwaits.submitting, hwaits.queue]
    rfl

theorem Matches.outstanding (h : Matches me u) : u.outstanding = me.outstanding := by
  rcases h.state with hruns | hwaits
  · exact hruns.outstanding
  · exact hwaits.outstanding

theorem Matches.requests (h : Matches me u) : u.requests = me.requests := by
  rw [UpcallEcho.Worker.requests, h.pending, h.outstanding, Worker.requests]

/-- A record is for one handler. -/
theorem countP_or {α : Type} {p q : α → Bool} (h : ∀ a, p a = true → q a = false) (l : List α) :
    l.countP (fun a => p a || q a) = l.countP p + l.countP q := by
  induction l with
  | nil => rfl
  | cons a l ih =>
      rw [List.countP_cons, List.countP_cons, List.countP_cons, ih]
      cases hp : p a with
      | false =>
          simp only [Bool.false_or, Bool.false_eq_true, if_false]
          omega
      | true =>
          simp only [Bool.true_or, h a hp, if_true, Bool.false_eq_true, if_false]
          omega

theorem Matches.ops (h : Matches me u) (fd : ℤ) : u.ops fd = me.ops fd := by
  have hrequest : ∀ r, requestFor .myRead fd r = true → requestFor .myWrite fd r = false := by
    intro r hr
    simp only [requestFor, decide_eq_true_eq, decide_eq_false_iff_not] at hr ⊢
    rw [hr.1]
    rintro ⟨hfn, -⟩
    cases hfn
  have hevent : ∀ e, eventFor .myRead fd e = true → eventFor .myWrite fd e = false := by
    intro e he
    simp only [eventFor, decide_eq_true_eq, decide_eq_false_iff_not] at he ⊢
    rw [he.1]
    rintro ⟨hfn, -⟩
    cases hfn
  rw [Worker.ops, countP_or hrequest, countP_or hevent, ← h.requests, ← h.undispatched,
    UpcallEcho.Worker.requests, List.countP_append, List.countP_append, UpcallEcho.Worker.ops,
    UpcallEcho.Worker.jobs, UpcallEcho.Worker.jobs]
  omega

theorem Matches.accepts (h : Matches me u) : u.accepts = me.accepts := by
  rw [Worker.accepts, ← h.requests, ← h.undispatched, UpcallEcho.Worker.requests,
    List.countP_append, UpcallEcho.Worker.accepts]

end Match

namespace Stack

def ops (s : Stack n) (fd : ℤ) : ℕ := s.tally (·.ops fd)

/-- How often a read or write on `fd` has been dispatched with a negative result. -/
def failures (tr : List (Input n × UpcallEcho.Output)) (fd : ℤ) : ℕ :=
  tr.countP fun x => x.2.failed fd

/-- Each connection has one request, and each worker one accept request; a handler leaves a
connection without one when its result is negative. A write is from the message buffer of a
connection, and a worker that is not in the kernel can go on, whatever `realloc` answers. -/
structure Safe (msgSize : ℕ) (tr : List (Input n × UpcallEcho.Output)) (s : Stack n) : Prop where
  armed : ∀ fd, s.ops fd + failures tr fd = if (s.shared.conns fd).isSome then 1 else 0
  accepts : ∀ w, (s.worker w).accepts = 1
  source : ∀ w fd buf len workFn, .write fd buf len workFn ∈ (s.worker w).requests →
    ∃ p, s.shared.conns fd = some p ∧ buf.block = (s.shared.conn p).buffer
  submits : ∀ w r, (s.worker w).submitting = none → (s.worker w).thread.phase = .top →
    (s.step msgSize (.submit w r)).isSome
  dispatches : ∀ w r i ret, (s.worker w).thread.phase = .dispatch i ret →
    (s.step msgSize (.dispatch w r)).isSome
  loops : ∀ w, (s.worker w).thread.phase = .loop → (s.step msgSize (.loop w)).isSome
  receives : ∀ w, (s.worker w).submitting.isSome → (s.step msgSize (.receive w)).isSome

end Stack

section Runs

variable {s t : Stack n} {u : Server n} {w : Fin n}

/-! ## Failed requests -/

/-- The steps that only the arrays see run no handler. -/
theorem observe_failed {a : Input n} {o : UpcallEcho.Output}
    (h : s.step msgSize a = some (t, o)) (fd : ℤ) :
    UpcallEcho.failures (observe (a, o)).toList fd = if o.failed fd then 1 else 0 := by
  cases a with
  | submit w r => exact List.countP_singleton
  | complete w i result buf len => exact List.countP_singleton
  | receive w => exact List.countP_singleton
  | dispatch w r =>
      cases o with
      | silent => rfl
      | dispatched e effects => exact List.countP_singleton
  | loop w =>
      obtain ⟨t', -, hpair⟩ := Option.map_eq_some_iff.mp h
      cases hpair
      rfl

theorem failures_observe {tr : List (Input n × UpcallEcho.Output)}
    (h : (echoStack n msgSize).Reaches tr s) (fd : ℤ) :
    UpcallEcho.failures (tr.filterMap observe) fd = Stack.failures tr fd := by
  induction h with
  | init => rfl
  | @step tr s t a o _ hlast ih =>
      have hone : [(a, o)].filterMap observe = (observe (a, o)).toList := by
        cases hobs : observe (a, o) with
        | none => rw [List.filterMap_cons_none hobs, List.filterMap_nil, Option.toList_none]
        | some x => rw [List.filterMap_cons_some hobs, List.filterMap_nil, Option.toList_some]
      have hsnoc : Stack.failures (tr ++ [(a, o)]) fd =
          Stack.failures tr fd + if o.failed fd then 1 else 0 := by
        rw [Stack.failures, List.countP_append, List.countP_singleton]
        rfl
      rw [List.filterMap_append, hone, hsnoc, ← ih, ← observe_failed hlast fd]
      exact List.countP_append

/-! ## The parts -/

theorem Related.ops (h : Related s u) (fd : ℤ) : u.ops fd = s.ops fd := by
  rw [Server.ops, Stack.ops]
  apply Finset.sum_congr rfl
  intro w _
  exact (h.2 w).ops fd

theorem Related.submits (h : Related s u) (r : Realloc Handler)
    (hnone : (s.worker w).submitting = none) (htop : (s.worker w).thread.phase = .top) :
    (s.step msgSize (.submit w r)).isSome := by
  have hruns := (h.2 w).runs hnone
  obtain ⟨lib, hlib, hbatch, -⟩ := Refines.gather hruns.refines r
  simp only [Stack.step, Stack.submit, if_pos (And.intro hnone htop), hlib,
    Option.bind_eq_bind, Option.bind_some, hbatch]
  rfl

/-- At most `recv_cnt` completions have arrived, so all of them have room in `receive`. -/
theorem Related.receives (h : Related s u) (hsome : (s.worker w).submitting.isSome) :
    (s.step msgSize (.receive w)).isSome := by
  have hwaits := (h.2 w).waits hsome
  obtain ⟨q, hq⟩ := hwaits.refines
  obtain ⟨r, hr⟩ := Option.isSome_iff_exists.mp hsome
  have hlen : (s.worker w).arrived.length ≤ (s.worker w).thread.worker.recvCnt :=
    hwaits.recvCnt ▸ hwaits.room
  obtain ⟨⟨t, o⟩, ht⟩ := Option.isSome_iff_exists.mp (hq.sound.submit hwaits.top r _ hlen)
  simp only [Stack.step, Stack.receive, hr, Option.bind_eq_bind, Option.bind_some, ht]
  rfl

theorem loop_isSome (hloop : (s.worker w).thread.phase = .loop) :
    (s.step msgSize (.loop w)).isSome := by
  simp only [Stack.step, Stack.loop, Thread.step, if_pos hloop]
  rfl

/-- A turn of the loop finds its entry of `receive`, and the handler of the entry its
connection. -/
theorem Related.dispatches (h : Related s u) {tr : List (UpcallEcho.Input n × UpcallEcho.Output)}
    (hu : u.Inv tr) (r : ℕ → Realloc Handler) {i ret : ℕ}
    (hphase : (s.worker w).thread.phase = .dispatch i ret) :
    (s.step msgSize (.dispatch w r)).isSome := by
  have hruns := h.runs (w := w) (by rw [hphase]; exact Phase.noConfusion)
  obtain ⟨⟨t, out⟩, ht⟩ :=
    Option.isSome_iff_exists.mp (hruns.refines.sound.dispatch i ret hphase)
  simp only [Stack.step, Stack.dispatch, Option.bind_eq_bind, ht, Option.bind_some]
  rcases hruns.refines.dispatch ht with ⟨rfl, -⟩ | ⟨e, -, rfl, -⟩
  · rfl
  · obtain ⟨j, ret', rest, hcons, hhandler, hstarted⟩ := hruns.dispatched ht
    have hserver : (u.step msgSize (.dispatch w)).isSome := by
      refine hu.runs hruns.inKernel ?_
      rw [hcons]
      exact List.cons_ne_nil e rest
    rcases hstarted.handle e r msgSize s.shared
      (by rw [hhandler]; rfl) with ⟨-, hnone⟩ | ⟨me, v, sh, effects, hme, -, -, hsame⟩
    · simp only [hruns.inKernel] at hnone
      simp only [Server.step, Server.dispatch, hruns.inKernel, hcons, h.1,
        Option.bind_eq_bind, hnone] at hserver
      cases hserver
    · have hdone : me.thread.step .handlerDone =
          some ({ me.thread with phase := .dispatch (j + 1) ret' }, .silent) := by
        rw [Thread.step, hsame, hhandler]
      simp only [hme, Option.bind_some, hdone]
      rfl

/-! ## The safety of the server -/

/-- Every run of the server on arrays is safe, whatever the completions. -/
theorem stack_safe {tr : List (Input n × UpcallEcho.Output)}
    (h : (echoStack n msgSize).Reaches tr s) : s.Safe msgSize tr := by
  obtain ⟨u, hu, hrelated⟩ := stack_simulates.reaches h
  have hinv := Server.reaches_inv hu
  refine ⟨?_, ?_, ?_, fun w r => hrelated.submits r, fun w r i ret => hrelated.dispatches hinv r,
    fun w => loop_isSome, fun w => hrelated.receives⟩
  · intro fd
    rw [← hrelated.ops fd, ← failures_observe h fd, ← hrelated.1]
    exact hinv.armed fd
  · intro w
    rw [← (hrelated.2 w).accepts]
    exact hinv.accepts w
  · intro w fd buf len workFn hmem
    rw [← (hrelated.2 w).requests] at hmem
    rw [← hrelated.1]
    exact hinv.writes w fd buf len workFn hmem

theorem stack_safe_oneMessage :
    ∃ tr s, (echoStack 1 2).Reaches tr s ∧ s.ops 5 = 1 ∧ Stack.Safe 2 tr s := by
  have hrun : ((echoStack 1 2).exec smallStack (oneMessage 0)).isSome := rfl
  have hreach := Machine.reaches_exec_get smallStack_start hrun
  exact ⟨_, _, hreach, rfl, stack_safe hreach⟩

end Runs

end Upcalls.EchoStack
