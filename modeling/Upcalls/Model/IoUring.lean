import Upcalls.Library.Machine
import Upcalls.Library.Memory
import Upcalls.Library.Team
import Upcalls.Library.Words
import Upcalls.Model.TcpEcho

/-! # The io_uring echo server

The workers of `event-tester/iouring.c`. Requests are queued on the submission ring, handed
to the kernel by `io_uring_submit_and_wait`, and come back as completions. `exit(1)` and a
pointer that is `NULL` have no next state.
-/

namespace Upcalls.IoUring

open Library TcpEcho

def QUEUE_DEPTH : ℕ := 256

/-! ## `SOCK_READ` and `SOCK_WRITE` -/

/-- The request that follows, at an offset into the message buffer. -/
inductive Next
  | read (off len : ℕ)
  | write (off len : ℕ)
  | close
  deriving DecidableEq, Repr

def sockRead (msgSize : ℕ) (conn : Connection) (ret : ℤ) : Connection × Next :=
  if ret ≤ 0 then (conn, .close)
  else if conn.cursor + ret.toNat = msgSize then
    ({ conn with cursor := 0 }, .write 0 msgSize)
  else
    let conn := { conn with cursor := conn.cursor + ret.toNat }
    (conn, .read conn.cursor (msgSize - conn.cursor))

def sockWrite (msgSize : ℕ) (conn : Connection) (ret : ℤ) : Connection × Next :=
  if ret ≤ 0 then (conn, .close)
  else if conn.cursor + ret.toNat = msgSize then
    ({ conn with cursor := 0 }, .read 0 msgSize)
  else
    let conn := { conn with cursor := conn.cursor + ret.toNat }
    (conn, .write conn.cursor (msgSize - conn.cursor))

/-! ## Workers -/

/-- `struct req_info` with the prepared operation. `EV_READ` is for the eventfd of the
worker itself, and `EV_WRITE` for the one of `owner`. -/
inductive Req (n : ℕ)
  | accept
  | sockRead (fd : ℤ) (buf : Ptr) (len : ℕ)
  | evRead
  | sockWrite (fd : ℤ) (buf : Ptr) (len : ℕ)
  | evWrite (owner : Fin n)
  deriving DecidableEq, Repr

structure Cqe (n : ℕ) where
  info : Req n
  res : ℤ
  deriving DecidableEq, Repr

/-- What a worker does next: `wait` is inside `io_uring_submit_and_wait`, `loop` is the head
of `io_uring_for_each_cqe`, and the others are inside the handling of a completion. -/
inductive Pc (n : ℕ)
  | wait
  | loop
  | adopt (fd : ℤ)
  | push (fd : ℤ) (owner : Fin n)
  | notify (owner : Fin n)
  | drain
  | install (fd : ℤ)
  deriving DecidableEq, Repr

/-- A worker thread: `sq` are the requests queued since the last submission, `kernel` those
submitted and not completed, and `cq` the completions not handled. -/
structure Worker (n : ℕ) where
  sq : List (Req n)
  kernel : List (Req n)
  cq : List (Cqe n)
  incoming : List ℤ
  counter : ℕ
  pc : Pc n
  msgCache : List ℕ
  connCache : List ℕ
  acceptCount : ℕ
  connCount : ℕ

abbrev Server (n : ℕ) := Team n (Worker n) Table

/-- `complete` is the kernel's answer to the `i`-th request that it has, and `accept` says
which CPU owns the connection of the next completion. -/
inductive Input (n : ℕ)
  | complete (w : Fin n) (i : ℕ) (res : ℤ)
  | accept (w : Fin n) (cpu : Fin n)
  | run (w : Fin n)

/-- The worker that takes the step, or whose request is completed. -/
def Input.worker {n : ℕ} : Input n → Fin n
  | .complete w _ _ | .accept w _ | .run w => w

inductive Output (n : ℕ)
  | silent
  | accepted (fd : ℤ)
  | assigned (fd : ℤ) (owner : Fin n)
  | installed (fd : ℤ) (owner : Fin n)
  deriving DecidableEq, Repr

/-- `io_uring_get_sqe` and the preparation of the requests: there is no room for more than
`QUEUE_DEPTH`. -/
def Worker.addRequests {n : ℕ} (reqs : List (Req n)) (me : Worker n) : Option (Worker n) :=
  if me.sq.length + reqs.length ≤ QUEUE_DEPTH then some { me with sq := me.sq ++ reqs }
  else none

/-! ## Steps -/

namespace Server

variable {n : ℕ}

/-- The kernel carries out the `i`-th request that it has. -/
def complete (w : Fin n) (i : ℕ) (res : ℤ) (s : Server n) : Option (Server n × Output n) := do
  let info ← (s.worker w).kernel[i]?
  let me := { s.worker w with
    kernel := (s.worker w).kernel.eraseIdx i
    cq := (s.worker w).cq ++ [⟨info, res⟩] }
  match info with
  | .accept => do
      let table ← s.shared.accept res
      return ((s.set w me).share table, .accepted res)
  | .evRead =>
      if 0 < me.counter then some (s.set w { me with counter := 0 }, .silent) else none
  | .evWrite owner =>
      if (s.worker owner).counter < eventfdMax then
        some ((s.set w me).modify owner fun me => { me with counter := me.counter + 1 }, .silent)
      else none
  | .sockRead _ _ len | .sockWrite _ _ len =>
      if res ≤ len then some (s.set w me, .silent) else none

/-- An `ACCEPT` completion, up to the choice of the owner. -/
def accept (w cpu : Fin n) (s : Server n) : Option (Server n × Output n) :=
  let me := s.worker w
  match me.pc, me.cq with
  | .loop, ⟨.accept, fd⟩ :: cq =>
      if fd < 0 then none
      else some (s.set w { me with
        cq := cq
        acceptCount := me.acceptCount + 1
        pc := if cpu = w then .adopt fd else .push fd cpu }, .assigned fd cpu)
  | _, _ => none

/-- `conns[fd] = new_conn(fd)` with a message buffer and its first read; the request `after`
is queued behind it. -/
def install (msgSize : ℕ) (w : Fin n) (fd : ℤ) (after : Req n) (pc : Pc n) (s : Server n) :
    Option (Server n) := do
  let new := cacheAlloc (s.worker w).connCache s.shared.next
  let buf := cacheAlloc (s.worker w).msgCache new.next
  let me ← (s.worker w).addRequests [.sockRead fd ⟨buf.entry, 0⟩ msgSize, after]
  return (s.set w { me with connCache := new.cache, msgCache := buf.cache, pc := pc }).share
    (s.shared.install fd new.entry { newConn fd with buffer := buf.entry } buf.next)

def push (w : Fin n) (fd : ℤ) (owner : Fin n) (s : Server n) : Server n :=
  (s.set w { s.worker w with pc := .notify owner }).modify owner fun me =>
    { me with incoming := fd :: me.incoming }

/-- `add_write_request` for the owner's eventfd, and the next accept. -/
def notify (w owner : Fin n) (s : Server n) : Option (Server n) := do
  let me ← (s.worker w).addRequests [.evWrite owner, .accept]
  return s.set w { me with pc := .loop }

/-- The drain loop, from one emptiness check to the removal of an entry. -/
def drain (w : Fin n) (s : Server n) : Server n :=
  let me := s.worker w
  match me.incoming with
  | [] => s.set w { me with pc := .loop }
  | fd :: rest => s.set w { me with incoming := rest, pc := .install fd }

/-- What a `SOCK_READ` or `SOCK_WRITE` completion on connection `p` leads to; `count` is
what it adds to `conn_count`. -/
def resume (w : Fin n) (p : ℕ) (cq : List (Cqe n)) (count : ℕ) (after : Connection × Next)
    (s : Server n) : Option (Server n) :=
  let me := { s.worker w with cq := cq }
  let conn := after.1
  match after.2 with
  | .close => some ((s.set w { me with
      connCount := me.connCount + 1
      msgCache := cacheFree me.msgCache conn.buffer
      connCache := cacheFree me.connCache p }).share (s.shared.close conn.fd))
  | .read off len => do
      let me ← me.addRequests [.sockRead conn.fd ⟨conn.buffer, off⟩ len]
      return (s.set w { me with connCount := me.connCount + count }).share
        (s.shared.setConn p conn)
  | .write off len => do
      let me ← me.addRequests [.sockWrite conn.fd ⟨conn.buffer, off⟩ len]
      return (s.set w me).share (s.shared.setConn p conn)

/-- The head of `io_uring_for_each_cqe`: handle the next completion, or submit and wait. -/
def loop (msgSize : ℕ) (w : Fin n) (s : Server n) : Option (Server n) :=
  let me := s.worker w
  match me.cq with
  | [] => some (s.set w { me with sq := [], kernel := me.kernel ++ me.sq, pc := .wait })
  | ⟨.accept, _⟩ :: _ => none
  | ⟨.sockRead fd _ _, res⟩ :: cq => do
      let p ← s.shared.conns fd
      s.resume w p cq 0 (sockRead msgSize (s.shared.conn p) res)
  | ⟨.evRead, _⟩ :: cq => some (s.set w { me with cq := cq, pc := .drain })
  | ⟨.sockWrite fd _ _, res⟩ :: cq => do
      let p ← s.shared.conns fd
      s.resume w p cq 1 (sockWrite msgSize (s.shared.conn p) res)
  | ⟨.evWrite _, _⟩ :: cq => some (s.set w { me with cq := cq })

/-- The steps of the worker itself, but for the choice of an owner. -/
def run (msgSize : ℕ) (w : Fin n) (s : Server n) : Option (Server n × Output n) :=
  match (s.worker w).pc with
  | .wait =>
      if (s.worker w).cq = [] then none
      else some (s.set w { s.worker w with pc := .loop }, .silent)
  | .loop => (s.loop msgSize w).map (·, .silent)
  | .adopt fd => (s.install msgSize w fd .accept .loop).map (·, .installed fd w)
  | .push fd owner => some (s.push w fd owner, .silent)
  | .notify owner => (s.notify w owner).map (·, .silent)
  | .drain => some (s.drain w, .silent)
  | .install fd => (s.install msgSize w fd .evRead .drain).map (·, .installed fd w)

def step (msgSize : ℕ) (s : Server n) : Input n → Option (Server n × Output n)
  | .complete w i res => s.complete w i res
  | .accept w cpu => s.accept w cpu
  | .run w => s.run msgSize w

/-- How often block `b` is in a connection cache. -/
def free (s : Server n) (b : ℕ) : ℕ := s.tally fun me => me.connCache.count b

end Server

/-- The state behind the setup of `worker_func`. -/
structure Server.Start {n : ℕ} (s : Server n) : Prop where
  sq : ∀ w, (s.worker w).sq = [.accept, .evRead]
  kernel : ∀ w, (s.worker w).kernel = []
  cq : ∀ w, (s.worker w).cq = []
  incoming : ∀ w, (s.worker w).incoming = []
  counter : ∀ w, (s.worker w).counter = 0
  pc : ∀ w, (s.worker w).pc = .loop
  conns : ∀ fd, s.shared.conns fd = none
  cached : ∀ b, s.free b ≤ 1
  fresh : ∀ b, s.shared.next ≤ b → s.free b = 0

/-- `calloc` clears the worker's counters. -/
structure Server.Cleared {n : ℕ} (s : Server n) : Prop where
  acceptCount : ∀ w, (s.worker w).acceptCount = 0
  connCount : ∀ w, (s.worker w).connCount = 0

def echoServer (n msgSize : ℕ) : Machine (Server n) (Input n) (Output n) where
  Init := Server.Start
  step := Server.step msgSize

/-! ## Room on the submission ring -/

/-- What a worker queues requests for: a `SOCK_READ` or `SOCK_WRITE` completion with a positive
result, an `ACCEPT` completion, or a connection off its `incoming` list. `submit` is
`io_uring_submit_and_wait`. -/
inductive Handled (n : ℕ)
  | transfer (w : Fin n)
  | accept (w : Fin n)
  | handedOver (w : Fin n)
  | submit (w : Fin n)
  deriving DecidableEq, Repr

namespace Server

variable {n : ℕ}

def handles (s : Server n) : Input n → List (Handled n)
  | .run w =>
      let me := s.worker w
      match me.pc, me.cq with
      | .loop, [] => [.submit w]
      | .loop, ⟨.sockRead fd _ _, res⟩ :: _ | .loop, ⟨.sockWrite fd _ _, res⟩ :: _ =>
          if 0 < res ∧ (s.shared.conns fd).isSome then [.transfer w] else []
      | .adopt _, _ | .notify _, _ => [.accept w]
      | .install _, _ => [.handedOver w]
      | _, _ => []
  | _ => []

/-- How often a step calls `io_uring_get_sqe`. -/
def getSqes (s : Server n) : Input n → ℕ
  | .run w =>
      let me := s.worker w
      match me.pc, me.cq with
      | .loop, ⟨.sockRead fd _ _, res⟩ :: _ | .loop, ⟨.sockWrite fd _ _, res⟩ :: _ =>
          if 0 < res ∧ (s.shared.conns fd).isSome then 1 else 0
      | .adopt _, _ | .notify _, _ | .install _, _ => 2
      | _, _ => 0
  | _ => 0

end Server

/-- `null` says that `io_uring_get_sqe` has returned `NULL`, which the process writes to. -/
structure Ring (n : ℕ) where
  server : Server n
  null : Bool

def Ring.step {n : ℕ} (msgSize : ℕ) (r : Ring n) (a : Input n) : Option (Ring n × Output n) :=
  if r.null then none
  else if QUEUE_DEPTH < (r.server.worker a.worker).sq.length + r.server.getSqes a then
    some ({ r with null := true }, .silent)
  else (r.server.step msgSize a).map fun x => (⟨x.1, false⟩, x.2)

def ringServer (n msgSize : ℕ) : Machine (Ring n) (Input n) (Output n) where
  Init r := r.server.Start ∧ r.null = false
  step := Ring.step msgSize

end Upcalls.IoUring
