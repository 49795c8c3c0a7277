import Upcalls.Model.UpcallEcho

/-! # The upcall echo server on the arrays of libupcall

The handlers of `event-tester/upcall.c` as they run in `run_event_loop`: a worker queues its
requests in the arrays of `libupcall/upcall.c` and walks through `receive` while the handlers
queue new ones. `loop_fn` is `NULL`.
-/

namespace Upcalls.EchoStack

open Library LibUpcall TcpEcho UpcallEcho

/-- `submitting` says that the worker is inside `upcall_submit`, with what `realloc` answered
to `add_buffers` ahead of it, and `arrived` are the completions that the kernel has for it. -/
structure Worker where
  listenSock : ℤ
  thread : Thread Handler
  submitting : Option (Realloc Handler)
  arrived : List (UpEvent Handler)
  outstanding : List (Request Handler)
  msgCache : List ℕ
  connCache : List ℕ
  acceptCount : ℕ
  connCount : ℕ

abbrev Stack (n : ℕ) := Team n Worker Shared

/-! ## Handlers -/

namespace Worker

/-- A call into libupcall. -/
def call (r : Realloc Handler) (c : Call Handler) (me : Worker) : Option Worker :=
  (me.thread.step (.call r c)).map fun x => { me with thread := x.1 }

end Worker

def onClose (p : ℕ) (me : Worker) (sh : Shared) : Worker × Shared :=
  let conn := sh.conn p
  let closedFd := conn.fd
  if 0 ≤ closedFd then
    ({ me with
        msgCache := cacheFree me.msgCache conn.buffer
        connCache := cacheFree me.connCache p
        connCount := me.connCount + 1 },
      { sh with
        conns := Function.update sh.conns closedFd none
        conn := Function.update sh.conn p { conn with fd := -1, state := .closing }
        opened := Function.update sh.opened closedFd false })
  else (me, { sh with conn := Function.update sh.conn p { conn with fd := -1 } })

/-- The effects of a handler that runs on connection `p`; `r` is for the calls in order. -/
def perform (p : ℕ) : List Effect → (ℕ → Realloc Handler) → Worker → Shared →
    Option (Worker × Shared)
  | [], _, me, sh => some (me, sh)
  | .memcpy _ _ _ :: rest, r, me, sh => perform p rest r me sh
  | .returnBuffer buf len :: rest, r, me, sh => do
      let me ← me.call (r 0) (.returnBuffer buf len)
      perform p rest (fun k => r (k + 1)) me sh
  | .addRead fd :: rest, r, me, sh => do
      let me ← me.call (r 0) (.addRead fd (some .myRead))
      perform p rest (fun k => r (k + 1)) me sh
  | .addWrite fd buf len :: rest, r, me, sh => do
      let me ← me.call (r 0) (.addWrite fd buf len (some .myWrite))
      perform p rest (fun k => r (k + 1)) me sh
  | .onClose :: rest, r, me, sh => perform p rest r (onClose p me sh).1 (onClose p me sh).2

def myAccept (arg : UpEvent Handler) (r : ℕ → Realloc Handler) (me : Worker) (sh : Shared) :
    Option (Worker × Shared) :=
  if arg.result < 0 then do
    let me ← me.call (r 0) (.addAccept arg.fd (some .myAccept))
    return (me, sh)
  else do
    let incoming := arg.result
    let new := cacheAlloc me.connCache sh.next
    let buf := cacheAlloc me.msgCache new.next
    let me := { me with
      acceptCount := me.acceptCount + 1
      connCache := new.cache
      msgCache := buf.cache }
    let me ← me.call (r 0) (.addRead incoming (some .myRead))
    let me ← me.call (r 1) (.addAccept arg.fd (some .myAccept))
    return (me, { sh with
      conns := Function.update sh.conns incoming (some new.entry)
      conn := Function.update sh.conn new.entry
        { newConn incoming with state := .waiting, buffer := buf.entry }
      next := buf.next })

/-- A call of `work_fn`: `none` when the handler follows a `NULL` entry of `conns[]`, or
libupcall leaves one of its arrays. -/
def handle (msgSize : ℕ) (e : UpEvent Handler) (r : ℕ → Realloc Handler) (me : Worker)
    (sh : Shared) : Option ((Worker × Shared) × List Effect) :=
  match e.workFn with
  | none => none
  | some .myAccept => (myAccept e r me sh).map (·, [])
  | some .myRead => do
      let p ← sh.conns e.fd
      let (conn, effects) := myRead msgSize (sh.conn p) e
      let x ← perform p effects r me { sh with conn := Function.update sh.conn p conn }
      return (x, effects)
  | some .myWrite => do
      let p ← sh.conns e.fd
      let (conn, effects) := myWrite msgSize (sh.conn p) e
      let x ← perform p effects r me { sh with conn := Function.update sh.conn p conn }
      return (x, effects)

/-! ## The server -/

/-- `dispatch` is a turn of the loop over the completions, or its end. -/
inductive Input (n : ℕ)
  | submit (w : Fin n) (r : Realloc Handler)
  | complete (w : Fin n) (i : ℕ) (result : ℤ) (buf : Ptr) (len : ℕ)
  | receive (w : Fin n)
  | dispatch (w : Fin n) (r : ℕ → Realloc Handler)
  | loop (w : Fin n)

namespace Stack

variable {n : ℕ}

/-- The head of `run_event_loop`, up to where the kernel has the batch. -/
def submit (w : Fin n) (r : Realloc Handler) (s : Stack n) : Option (Stack n) :=
  let me := s.worker w
  if me.submitting = none ∧ me.thread.phase = .top then do
    let lib ← me.thread.worker.gatherBuffers r
    let batch ← lib.batch
    return s.set w { me with
      submitting := some r
      outstanding := me.outstanding ++ batch.map UpEvent.request }
  else none

/-- There is room for `recv_cnt` completions. -/
def complete (w : Fin n) (i : ℕ) (result : ℤ) (buf : Ptr) (len : ℕ) (s : Stack n) :
    Option (Stack n) :=
  let me := s.worker w
  if me.submitting.isSome ∧ me.arrived.length < me.thread.worker.recvCnt then do
    let r ← me.outstanding[i]?
    let e := completion r result buf len
    let sh ← Server.openFor e s.shared
    return (s.set w { me with
      arrived := me.arrived ++ [e]
      outstanding := me.outstanding.eraseIdx i }).share sh
  else none

/-- `upcall_submit` returns. -/
def receive (w : Fin n) (s : Stack n) : Option (Stack n) := do
  let me := s.worker w
  let r ← me.submitting
  let (thread, _) ← me.thread.step (.submit r me.arrived)
  return s.set w { me with thread := thread, submitting := none, arrived := [] }

def dispatch (msgSize : ℕ) (w : Fin n) (r : ℕ → Realloc Handler) (s : Stack n) :
    Option (Stack n × UpcallEcho.Output) := do
  let me := s.worker w
  let (thread, out) ← me.thread.step .dispatch
  match out with
  | .dispatched e =>
      let ((me, sh), effects) ← handle msgSize e r { me with thread := thread } s.shared
      let (thread, _) ← me.thread.step .handlerDone
      return ((s.set w { me with thread := thread }).share sh, .dispatched e effects)
  | _ => return (s.set w { me with thread := thread }, .silent)

def loop (w : Fin n) (s : Stack n) : Option (Stack n) := do
  let me := s.worker w
  let (thread, _) ← me.thread.step .loopDone
  return s.set w { me with thread := thread }

def step (msgSize : ℕ) (s : Stack n) : Input n → Option (Stack n × UpcallEcho.Output)
  | .submit w r => (s.submit w r).map (·, .silent)
  | .complete w i result buf len => (s.complete w i result buf len).map (·, .silent)
  | .receive w => (s.receive w).map (·, .silent)
  | .dispatch w r => s.dispatch msgSize w r
  | .loop w => (s.loop w).map (·, .silent)

/-- How often block `b` is on a free list of some worker. -/
def free (s : Stack n) (b : ℕ) : ℕ := s.tally fun me => me.msgCache.count b + me.connCache.count b

end Stack

/-- `upcall_worker_setup`, and `upcall_echo_setup` with its call of `add_accept`. -/
def Worker.Setup (msgSize : ℕ) (me : Worker) : Prop :=
  ∃ (r r' : Realloc Handler) (array : Ptr) (pool : Blocks) (lib : LibUpcall.Worker Handler),
    LibUpcall.Worker.upcallWorkerSetup r array pool BUF_COUNT msgSize = some lib ∧
      lib.addAccept r' me.listenSock (some .myAccept) = some me.thread.worker ∧
      me.thread.phase = .top

structure Stack.Start {n : ℕ} (msgSize : ℕ) (s : Stack n) : Prop where
  setup : ∀ w, (s.worker w).Setup msgSize
  submitting : ∀ w, (s.worker w).submitting = none
  arrived : ∀ w, (s.worker w).arrived = []
  outstanding : ∀ w, (s.worker w).outstanding = []
  acceptCount : ∀ w, (s.worker w).acceptCount = 0
  connCount : ∀ w, (s.worker w).connCount = 0
  conns : ∀ fd, s.shared.conns fd = none
  cached : ∀ b, s.free b ≤ 1
  fresh : ∀ b, s.shared.next ≤ b → s.free b = 0

def echoStack (n msgSize : ℕ) : Machine (Stack n) (Input n) UpcallEcho.Output where
  Init := Stack.Start msgSize
  step := Stack.step msgSize

/-! ## The view of the list queue -/

/-- The steps that the server on list queues takes too. -/
def observe {n : ℕ} :
    Input n × UpcallEcho.Output → Option (UpcallEcho.Input n × UpcallEcho.Output)
  | (.submit w _, o) => some (.submit w, o)
  | (.complete w i result buf len, o) => some (.complete w i result buf len, o)
  | (.receive w, o) => some (.receive w, o)
  | (.dispatch w _, .dispatched e effects) => some (.dispatch w, .dispatched e effects)
  | _ => none

end Upcalls.EchoStack
