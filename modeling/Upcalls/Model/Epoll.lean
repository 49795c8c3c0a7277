import Upcalls.Library.Machine
import Upcalls.Library.Team
import Upcalls.Library.Words
import Upcalls.Model.TcpEcho

/-! # The epoll echo server

The workers of `event-tester/epoll.c`. A worker takes small steps, so that what other
workers do may come between any two system calls; what it does while it holds the lock of
an `incoming` list is one step. `exit(1)` and a call through `NULL` have no next state.
-/

namespace Upcalls.Epoll

open Library TcpEcho

/-! ## `on_read`

What `on_read` does after each answer of `read` and `write`, with `cursor` its local
variable.
-/

/-- The return value of `read` or `write`: a count, or `-1` with an `errno`. -/
inductive Ret
  | count (k : ℕ)
  | error (again : Bool)
  deriving DecidableEq, Repr

/-- A call with `len` bytes of buffer returns at most `len`. -/
def Ret.fits (len : ℕ) : Ret → Bool
  | .count k => k ≤ len
  | .error _ => true

inductive Next
  | read (cursor : ℕ)
  | write (cursor : ℕ)
  | close
  | done
  deriving DecidableEq, Repr

def afterRead (msgSize : ℕ) (conn : Connection) (cursor : ℕ) (ret : Ret) :
    Connection × Next :=
  match ret with
  | .error _ =>
      if conn.cursor < cursor then ({ conn with cursor := cursor }, .done) else (conn, .done)
  | .count k =>
      if k = 0 then (conn, .close)
      else if cursor + k < msgSize then (conn, .read (cursor + k))
      else ({ conn with cursor := 0, state := .writing }, .write 0)

/-- `continue` in a `do` loop goes to its condition. -/
def afterWrite (msgSize : ℕ) (conn : Connection) (cursor : ℕ) (ret : Ret) :
    Connection × Next :=
  let again (cursor : ℕ) : Connection × Next :=
    if cursor < msgSize then (conn, .write cursor)
    else ({ conn with state := .reading }, .done)
  match ret with
  | .error _ => again cursor
  | .count k => if k = 0 then (conn, .close) else again (cursor + k)

/-- Whether `on_read` goes on or returns. -/
def goOn (s : Connection × Next) : (Connection × Next) ⊕ (Connection × Next) :=
  match s.2 with
  | .read _ | .write _ => .inl s
  | .close | .done => .inr s

/-- One turn of the two loops of `on_read`, with what a `read` and what a `write` would
return at that time. -/
def onReadTurn (msgSize : ℕ) (s : Connection × Next) (ret : Ret × Ret) :
    (Connection × Next) ⊕ (Connection × Next) :=
  match s.2 with
  | .read cursor => goOn (afterRead msgSize s.1 cursor ret.1)
  | .write cursor => goOn (afterWrite msgSize s.1 cursor ret.2)
  | .close | .done => .inr s

/-! ## Workers -/

/-- `struct epoll_event`, with the bits that `worker_func` looks at. -/
structure Event where
  fd : ℤ
  epollIn : Bool
  epollErr : Bool
  epollHup : Bool
  deriving DecidableEq, Repr

/-- What a worker does next. `onRead` and `onClose` are at the call, before its argument
is followed; after an `onClose` of `worker_func` the event goes on. -/
inductive Pc (n : ℕ)
  | epollWait
  | loop
  | event (e : Event)
  | accept
  | push (fd : ℤ) (owner : Fin n)
  | notify (owner : Fin n)
  | onEvent
  | drain
  | install (fd : ℤ)
  | onRead (conn : Option ℕ)
  | read (conn cursor : ℕ)
  | write (conn cursor : ℕ)
  | onClose (conn : Option ℕ) (rest : Option Event)
  deriving DecidableEq, Repr

/-- Where `on_read` goes on with the connection at block `p`. -/
def Next.pc {n : ℕ} (p : ℕ) : Next → Pc n
  | .read cursor => .read p cursor
  | .write cursor => .write p cursor
  | .close => .onClose (some p) none
  | .done => .loop

/-- A worker thread. `interest` are the descriptors registered with `epoll_fd`, `counter`
is the one of the eventfd, and `events` are those of the batch not looked at yet. -/
structure Worker (n : ℕ) where
  listenSock : ℤ
  eventFd : ℤ
  interest : List ℤ
  incoming : List ℤ
  counter : ℕ
  pc : Pc n
  events : List Event
  msgCache : List ℕ
  connCache : List ℕ
  acceptCount : ℕ
  connCount : ℕ

abbrev Server (n : ℕ) := Team n (Worker n) Table

inductive Input (n : ℕ)
  | epollWait (w : Fin n) (events : List Event)
  | accept (w : Fin n) (fd : ℤ) (cpu : Fin n)
  | acceptAgain (w : Fin n)
  | io (w : Fin n) (ret : Ret)
  | run (w : Fin n)

/-- The worker that takes the step. -/
def Input.worker {n : ℕ} : Input n → Fin n
  | .epollWait w _ | .accept w _ _ | .acceptAgain w | .io w _ | .run w => w

inductive Output (n : ℕ)
  | silent
  | accepted (fd : ℤ) (owner : Fin n)
  | installed (fd : ℤ) (owner : Fin n)
  deriving DecidableEq, Repr

/-! ## Steps -/

namespace Server

variable {n : ℕ}

/-- A batch names registered descriptors, each once. -/
def epollWait (w : Fin n) (events : List Event) (s : Server n) : Option (Server n) :=
  let me := s.worker w
  if me.pc = .epollWait ∧ events ≠ [] ∧ events.length ≤ BACKLOG ∧
      (events.map (·.fd)).Nodup ∧ ∀ e ∈ events, e.fd ∈ me.interest then
    some (s.set w { me with pc := .loop, events := events })
  else none

/-- The head of the `for` loop and the check for `EPOLLERR` and `EPOLLHUP`. -/
def loop (w : Fin n) (s : Server n) : Option (Server n) :=
  let me := s.worker w
  match me.events with
  | [] => some (s.set w { me with pc := .epollWait })
  | e :: events =>
      if e.epollErr ∨ e.epollHup then
        if e.fd = me.listenSock ∨ e.fd = me.eventFd then none
        else some (s.set w { me with
          pc := .onClose (s.shared.conns e.fd) (some e)
          events := events })
      else some (s.set w { me with pc := .event e, events := events })

def event (w : Fin n) (e : Event) (s : Server n) : Server n :=
  let me := s.worker w
  s.set w { me with
    pc :=
      if e.fd = me.listenSock then .accept
      else if e.fd = me.eventFd then .onEvent
      else .onRead (s.shared.conns e.fd) }

/-- `accept4` succeeds and `getsockopt` names the CPU that owns the connection. -/
def accept (w : Fin n) (fd : ℤ) (cpu : Fin n) (s : Server n) : Option (Server n) := do
  let me := s.worker w
  if me.pc = .accept then
    let table ← s.shared.accept fd
    return (s.set w { me with
      acceptCount := me.acceptCount + 1
      pc := .push fd cpu }).share table
  else none

def acceptAgain (w : Fin n) (s : Server n) : Option (Server n) :=
  let me := s.worker w
  if me.pc = .accept then some (s.set w { me with pc := .loop }) else none

def push (w : Fin n) (fd : ℤ) (owner : Fin n) (s : Server n) : Server n :=
  (s.set w { s.worker w with pc := .notify owner }).modify owner fun me =>
    { me with incoming := fd :: me.incoming }

/-- `write(owner->event_fd)`, which does not block. -/
def notify (w : Fin n) (owner : Fin n) (s : Server n) : Option (Server n) :=
  if (s.worker owner).counter < eventfdMax then
    some ((s.set w { s.worker w with pc := .accept }).modify owner fun me =>
      { me with counter := me.counter + 1 })
  else none

def onEvent (w : Fin n) (s : Server n) : Server n :=
  let me := s.worker w
  if me.counter = 0 then s.set w { me with pc := .loop }
  else s.set w { me with counter := 0, pc := .drain }

/-- `handle_new_conns`, from one emptiness check to the removal of an entry. -/
def drain (w : Fin n) (s : Server n) : Server n :=
  let me := s.worker w
  match me.incoming with
  | [] => s.set w { me with pc := .loop }
  | fd :: rest => s.set w { me with incoming := rest, pc := .install fd }

/-- `new_conn` and `epoll_ctl(EPOLL_CTL_ADD)`. -/
def install (w : Fin n) (fd : ℤ) (s : Server n) : Option (Server n) :=
  let me := s.worker w
  if fd ∈ me.interest then none
  else
    let new := cacheAlloc me.connCache s.shared.next
    some ((s.set w { me with
      connCache := new.cache
      interest := fd :: me.interest
      pc := .drain }).share
        (s.shared.install fd new.entry { newConn fd with state := .reading } new.next))

/-- `on_read` up to the first `read`. -/
def onRead (w : Fin n) (p : ℕ) (s : Server n) : Server n :=
  let me := s.worker w
  let conn := s.shared.conn p
  if conn.fd < 0 then s.set w { me with pc := .loop }
  else if conn.buffer = 0 then
    let buf := cacheAlloc me.msgCache s.shared.next
    (s.set w { me with msgCache := buf.cache, pc := .read p conn.cursor }).share
      { s.shared.setConn p { conn with
          buffer := buf.entry
          eventCount := conn.eventCount + 1 } with next := buf.next }
  else
    (s.set w { me with pc := .read p conn.cursor }).share
      (s.shared.setConn p { conn with eventCount := conn.eventCount + 1 })

def io (msgSize : ℕ) (w : Fin n) (ret : Ret) (s : Server n) : Option (Server n) :=
  let me := s.worker w
  let answer (p cursor : ℕ) (after : Connection × Next) : Option (Server n) :=
    if ret.fits (msgSize - cursor) then
      some ((s.set w { me with pc := after.2.pc p }).share (s.shared.setConn p after.1))
    else none
  match me.pc with
  | .read p cursor => answer p cursor (afterRead msgSize (s.shared.conn p) cursor ret)
  | .write p cursor => answer p cursor (afterWrite msgSize (s.shared.conn p) cursor ret)
  | _ => none

/-- `epoll_ctl(EPOLL_CTL_DEL)` fails for a descriptor that is not registered, and
`cache_free` follows the buffer pointer. -/
def onClose (w : Fin n) (p : ℕ) (rest : Option Event) (s : Server n) : Option (Server n) :=
  let me := s.worker w
  let conn := s.shared.conn p
  if conn.fd ∈ me.interest ∧ conn.buffer ≠ 0 then
    some ((s.set w { me with
      interest := me.interest.erase conn.fd
      connCount := me.connCount + 1
      msgCache := cacheFree me.msgCache conn.buffer
      connCache := cacheFree me.connCache p
      pc := rest.elim .loop .event }).share (s.shared.close conn.fd))
  else none

/-- The steps that need no answer of the kernel. -/
def run (w : Fin n) (s : Server n) : Option (Server n × Output n) :=
  match (s.worker w).pc with
  | .loop => (s.loop w).map (·, .silent)
  | .event e => some (s.event w e, .silent)
  | .push fd owner => some (s.push w fd owner, .silent)
  | .notify owner => (s.notify w owner).map (·, .silent)
  | .onEvent => some (s.onEvent w, .silent)
  | .drain => some (s.drain w, .silent)
  | .install fd => (s.install w fd).map (·, .installed fd w)
  | .onRead (some p) => some (s.onRead w p, .silent)
  | .onClose (some p) rest => (s.onClose w p rest).map (·, .silent)
  | _ => none

def step (msgSize : ℕ) (s : Server n) : Input n → Option (Server n × Output n)
  | .epollWait w events => (s.epollWait w events).map (·, .silent)
  | .accept w fd cpu => (s.accept w fd cpu).map (·, .accepted fd cpu)
  | .acceptAgain w => (s.acceptAgain w).map (·, .silent)
  | .io w ret => (s.io msgSize w ret).map (·, .silent)
  | .run w => s.run w

/-- How often block `b` is in a connection cache. -/
def free (s : Server n) (b : ℕ) : ℕ := s.tally fun me => me.connCache.count b

end Server

/-- The state behind the setup of `worker_func`: each worker has registered its eventfd
and its listening socket, and these are different open descriptors. -/
structure Server.Start {n : ℕ} (s : Server n) : Prop where
  pc : ∀ w, (s.worker w).pc = .epollWait
  events : ∀ w, (s.worker w).events = []
  interest : ∀ w, (s.worker w).interest = [(s.worker w).listenSock, (s.worker w).eventFd]
  incoming : ∀ w, (s.worker w).incoming = []
  counter : ∀ w, (s.worker w).counter = 0
  opened : ∀ fd, (s.tally fun me => me.interest.count fd) ≤
    if s.shared.opened fd then 1 else 0
  conns : ∀ fd, s.shared.conns fd = none
  cached : ∀ b, s.free b ≤ 1
  fresh : ∀ b, s.shared.next ≤ b → s.free b = 0
  next : 0 < s.shared.next

/-- `calloc` clears the worker's counters. -/
structure Server.Cleared {n : ℕ} (s : Server n) : Prop where
  acceptCount : ∀ w, (s.worker w).acceptCount = 0
  connCount : ∀ w, (s.worker w).connCount = 0

def echoServer (n msgSize : ℕ) : Machine (Server n) (Input n) (Output n) where
  Init := Server.Start
  step := Server.step msgSize

end Upcalls.Epoll
