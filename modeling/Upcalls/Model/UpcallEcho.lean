import Upcalls.Library.Team
import Upcalls.Model.ListQueue
import Upcalls.Model.TcpEcho

/-! # The upcall echo server

The event handlers of `event-tester/upcall.c` and the server they make up: one worker
for each CPU, with the list queue of libupcall, and the connection table that all of
them use. A handler runs as one step: what it does after `close` touches only the caches
of its own worker.
-/

namespace Upcalls.UpcallEcho

open Library LibUpcall TcpEcho

/-! ## Handlers

`my_read` and `my_write` work on one connection. They are given as the new connection
record and the calls they make, in order.
-/

inductive Handler
  | myAccept
  | myRead
  | myWrite
  deriving DecidableEq, Repr

/-- `memcpy`, the calls into libupcall and `on_close(conn)`. -/
inductive Effect
  | memcpy (dst src : Ptr) (len : ℕ)
  | returnBuffer (buf : Ptr) (len : ℕ)
  | addRead (fd : ℤ)
  | addWrite (fd : ℤ) (buf : Ptr) (len : ℕ)
  | onClose
  deriving DecidableEq, Repr

/-- The address `conn->buffer + conn->cursor`. -/
def position (conn : Connection) : Ptr := ⟨conn.buffer, conn.cursor⟩

def myWrite (msgSize : ℕ) (conn : Connection) (arg : UpEvent Handler) :
    Connection × List Effect :=
  if arg.result = 0 then (conn, [.onClose])
  else if arg.result < 0 then (conn, [])
  else if arg.result.toNat + conn.cursor < msgSize then
    let conn := { conn with cursor := conn.cursor + arg.result.toNat }
    (conn, [.addWrite conn.fd (position conn) (msgSize - conn.cursor)])
  else ({ conn with cursor := 0 }, [.addRead conn.fd])

def myRead (msgSize : ℕ) (conn : Connection) (arg : UpEvent Handler) :
    Connection × List Effect :=
  if conn.fd < 0 then (conn, [])
  else if arg.result = 0 then (conn, [.onClose])
  else
    let conn := { conn with eventCount := conn.eventCount + 1 }
    if arg.result < 0 then (conn, [])
    else
      let copy := .memcpy (position conn) arg.buf arg.result.toNat
      let conn := { conn with cursor := conn.cursor + arg.result.toNat }
      if conn.cursor < msgSize then
        (conn, [copy, .returnBuffer arg.buf arg.len, .addRead conn.fd])
      else
        let conn := { conn with cursor := 0 }
        (conn, [copy, .returnBuffer arg.buf arg.len,
          .addWrite conn.fd (position conn) msgSize])

/-! ## Workers and what they share -/

/-- A worker thread: `outstanding` are the requests that the kernel has and has not
answered yet, and `inKernel` says that the worker is inside `upcall_submit`. -/
structure Worker where
  listenSock : ℤ
  queue : ListQueue Handler
  inKernel : Bool
  outstanding : List (Request Handler)
  msgCache : List ℕ
  connCache : List ℕ
  acceptCount : ℕ
  connCount : ℕ

/-- `conns[]`, the connection records by block, the open descriptors and the allocator. -/
structure Shared where
  conns : ℤ → Option ℕ
  conn : ℕ → Connection
  opened : ℤ → Bool
  next : ℕ

abbrev Server (n : ℕ) := Team n Worker Shared

namespace Worker

def request (r : Request Handler) (me : Worker) : Worker :=
  { me with queue := { me.queue with pending := me.queue.pending ++ [r] } }

def returnBuffer (me : Worker) : Worker :=
  { me with queue := { me.queue with returned := me.queue.returned + 1 } }

end Worker

/-! ## What a handler does to them -/

def onClose (p : ℕ) (me : Worker) (sh : Shared) : Worker × Shared :=
  let conn := sh.conn p
  let closedFd := conn.fd
  if 0 ≤ closedFd then
    ({ me with
        msgCache := cacheFree me.msgCache conn.buffer
        connCache := cacheFree me.connCache p
        connCount := me.connCount + 1 },
      { sh with
        conns := Function.update sh.conns closedFd none
        conn := Function.update sh.conn p { conn with fd := -1, state := .closing }
        opened := Function.update sh.opened closedFd false })
  else (me, { sh with conn := Function.update sh.conn p { conn with fd := -1 } })

/-- The effects of a handler that runs on connection `p`. The message buffers have no
contents here: what a `memcpy` writes to is read off the effect. -/
def perform (p : ℕ) : List Effect → Worker → Shared → Worker × Shared
  | [], me, sh => (me, sh)
  | .memcpy _ _ _ :: rest, me, sh => perform p rest me sh
  | .returnBuffer _ _ :: rest, me, sh => perform p rest me.returnBuffer sh
  | .addRead fd :: rest, me, sh =>
      perform p rest (me.request (.read fd (some .myRead))) sh
  | .addWrite fd buf len :: rest, me, sh =>
      perform p rest (me.request (.write fd buf len (some .myWrite))) sh
  | .onClose :: rest, me, sh => perform p rest (onClose p me sh).1 (onClose p me sh).2

/-- The record comes cleared out of the cache, so `!new->buffer` holds and a message
buffer is always allocated. -/
def myAccept (arg : UpEvent Handler) (me : Worker) (sh : Shared) : Worker × Shared :=
  if arg.result < 0 then (me.request (.accept arg.fd (some .myAccept)), sh)
  else
    let incoming := arg.result
    let new := cacheAlloc me.connCache sh.next
    let buf := cacheAlloc me.msgCache new.next
    let me := { me with
      acceptCount := me.acceptCount + 1
      connCache := new.cache
      msgCache := buf.cache }
    ((me.request (.read incoming (some .myRead))).request (.accept arg.fd (some .myAccept)),
      { sh with
        conns := Function.update sh.conns incoming (some new.entry)
        conn := Function.update sh.conn new.entry
          { newConn incoming with state := .waiting, buffer := buf.entry }
        next := buf.next })

/-! ## The server -/

inductive Input (n : ℕ)
  | submit (w : Fin n)
  | complete (w : Fin n) (i : ℕ) (result : ℤ) (buf : Ptr) (len : ℕ)
  | receive (w : Fin n)
  | dispatch (w : Fin n)

inductive Output
  | silent
  | dispatched (event : UpEvent Handler) (effects : List Effect)
  deriving DecidableEq, Repr

/-- The completion of a request echoes its `fd` and `work_fn`. -/
def completion (r : Request Handler) (result : ℤ) (buf : Ptr) (len : ℕ) : UpEvent Handler :=
  match r with
  | .read fd workFn => ⟨fd, result, buf, len, workFn, .upRead, 0⟩
  | .write fd _ _ workFn => ⟨fd, result, buf, len, workFn, .upWrite, 0⟩
  | .accept fd workFn => ⟨fd, result, buf, len, workFn, .upAccept, 0⟩
  | .vec _ => ⟨0, result, buf, len, none, .upVec, 0⟩
  | .close fd workFn => ⟨fd, result, buf, len, workFn, .upClose, 0⟩

namespace Server

variable {n : ℕ}

/-- `upcall_submit` hands over the batch and starts to wait. -/
def submit (w : Fin n) (s : Server n) : Option (Server n) :=
  let me := s.worker w
  match me.inKernel, me.queue.undispatched with
  | false, [] => some (s.set w { me with
      queue := ⟨[], 0, []⟩
      inKernel := true
      outstanding := me.outstanding ++ me.queue.batch })
  | _, _ => none

/-- A successful accept opens a descriptor that was not open. -/
def openFor (e : UpEvent Handler) (sh : Shared) : Option Shared :=
  if e.type = .upAccept ∧ 0 ≤ e.result then
    if sh.opened e.result then none
    else some { sh with opened := Function.update sh.opened e.result true }
  else some sh

/-- The kernel answers the `i`-th of a waiting worker's outstanding requests. -/
def complete (w : Fin n) (i : ℕ) (result : ℤ) (buf : Ptr) (len : ℕ) (s : Server n) :
    Option (Server n) :=
  let me := s.worker w
  if me.inKernel = true ∧ me.queue.undispatched.length < BUF_COUNT then do
    let r ← me.outstanding[i]?
    let e := completion r result buf len
    let sh ← openFor e s.shared
    return (s.set w { me with
      queue := { me.queue with
        undispatched := me.queue.undispatched ++ if e.workFn.isSome then [e] else [] }
      outstanding := me.outstanding.eraseIdx i }).share sh
  else none

/-- `upcall_submit` returns. -/
def receive (w : Fin n) (s : Server n) : Option (Server n) :=
  let me := s.worker w
  if me.inKernel then some (s.set w { me with inKernel := false }) else none

/-- Run the handler of the next completion: `none` when it follows a `NULL` entry of
`conns[]`. -/
def handle (msgSize : ℕ) (e : UpEvent Handler) (me : Worker) (sh : Shared) :
    Option ((Worker × Shared) × List Effect) :=
  match e.workFn with
  | none => none
  | some .myAccept => some (myAccept e me sh, [])
  | some .myRead => do
      let p ← sh.conns e.fd
      let (conn, effects) := myRead msgSize (sh.conn p) e
      return (perform p effects me { sh with conn := Function.update sh.conn p conn }, effects)
  | some .myWrite => do
      let p ← sh.conns e.fd
      let (conn, effects) := myWrite msgSize (sh.conn p) e
      return (perform p effects me { sh with conn := Function.update sh.conn p conn }, effects)

def dispatch (msgSize : ℕ) (w : Fin n) (s : Server n) : Option (Server n × Output) :=
  let me := s.worker w
  match me.inKernel, me.queue.undispatched with
  | false, e :: rest => do
      let me := { me with queue := { me.queue with undispatched := rest } }
      let ((me, sh), effects) ← handle msgSize e me s.shared
      return ((s.set w me).share sh, .dispatched e effects)
  | _, _ => none

def step (msgSize : ℕ) (s : Server n) : Input n → Option (Server n × Output)
  | .submit w => (s.submit w).map (·, .silent)
  | .complete w i result buf len => (s.complete w i result buf len).map (·, .silent)
  | .receive w => (s.receive w).map (·, .silent)
  | .dispatch w => s.dispatch msgSize w

/-- How often block `b` is on a free list of some worker. -/
def free (s : Server n) (b : ℕ) : ℕ :=
  s.tally fun me => me.msgCache.count b + me.connCache.count b

end Server

/-- The queue that `upcall_worker_setup` and `upcall_echo_setup` leave. -/
def setupQueue (listenSock : ℤ) : ListQueue Handler :=
  ⟨[.vec BUF_COUNT, .accept listenSock (some .myAccept)], 0, []⟩

/-- At first there are no connections, and `init_cache` has filled the caches with
different blocks. -/
structure Server.Start {n : ℕ} (s : Server n) : Prop where
  queue : ∀ w, (s.worker w).queue = setupQueue (s.worker w).listenSock
  inKernel : ∀ w, (s.worker w).inKernel = false
  outstanding : ∀ w, (s.worker w).outstanding = []
  acceptCount : ∀ w, (s.worker w).acceptCount = 0
  connCount : ∀ w, (s.worker w).connCount = 0
  conns : ∀ fd, s.shared.conns fd = none
  cached : ∀ b, s.free b ≤ 1
  fresh : ∀ b, s.shared.next ≤ b → s.free b = 0

def echoServer (n msgSize : ℕ) : Machine (Server n) (Input n) Output where
  Init := Server.Start
  step := Server.step msgSize

end Upcalls.UpcallEcho
