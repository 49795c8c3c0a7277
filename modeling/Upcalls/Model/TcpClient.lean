import Mathlib.Algebra.Ring.Nat
import Mathlib.Data.Fintype.Basic
import Mathlib.Data.Int.Notation
import Mathlib.Data.List.FinRange
import Mathlib.Logic.Function.Basic
import Upcalls.Library.Machine
import Upcalls.Library.Words

/-! # The load generator

A worker thread of `event-tester/tcp_client.c` with its clients. `do_state_transition` takes
a step for each state it passes, and one for each `send` and `recv`: what else happens may
come between any two of them.
-/

namespace Upcalls.TcpClient

open Library

def EVENT_BACKLOG : ℕ := 20

inductive State
  | init
  | connecting
  | new
  | ready
  | sent
  | done
  deriving DecidableEq, Repr

/-- The options that a worker reads, with the bounds of their type. -/
structure Options where
  msgSize : ℕ
  batchSize : ℕ
  transactionCount : ℕ
  batchSize_lt : batchSize < 2 ^ 64
  transactionCount_lt : transactionCount < 2 ^ 64

structure Client where
  sock : ℤ
  buf : List UInt8
  cursor : ℕ
  state : State
  bufSize : ℕ
  txnRemaining : ℕ
  batchRemaining : ℕ
  deriving DecidableEq, Repr

/-! ## The log -/

inductive LogEvent
  | connectStart
  | connectDone
  | sendStart
  | sendDone
  | recvStart
  | recvDone
  deriving DecidableEq, Repr

/-- The values of an entry. -/
structure Entry where
  index : ℕ
  client : ℕ
  txn : ℕ
  event : LogEvent
  deriving DecidableEq, Repr

/-- `room` is how many entries fit behind the last one. -/
structure TscLog where
  entries : List Entry
  room : ℕ
  overflow : Bool
  deriving DecidableEq, Repr

def TscLog.tsclog4 (e : Entry) (log : TscLog) : TscLog :=
  if log.room = 0 then { log with overflow := true }
  else { log with entries := log.entries ++ [e], room := log.room - 1 }

/-! ## Workers -/

/-- `EPOLLOUT | EPOLLONESHOT` or `EPOLLIN`. -/
inductive Events
  | epollOut
  | epollIn
  deriving DecidableEq, Repr

/-- A descriptor registered with `epoll_fd`. A one-shot event disarms it. -/
structure Interest (n : ℕ) where
  events : Events
  data : Fin n
  armed : Bool
  deriving DecidableEq, Repr

/-- `call j count cursor` is inside of `do_state_transition` of client `j`, in the state
that the client is in: `count` is what is added to its return value, and `cursor` is the
local variable of `client_send` and `client_recv`. -/
inductive Pc (n : ℕ)
  | loop
  | call (j : Fin n) (count cursor : ℕ)
  | exited
  deriving DecidableEq, Repr

/-- `todo` are the clients that the loop under way goes on to. -/
structure Worker (n : ℕ) where
  index : ℕ
  clients : Fin n → Client
  interest : ℤ → Option (Interest n)
  opened : ℤ → Bool
  log : TscLog
  dying : Bool
  complete : ℕ
  todo : List (Fin n)
  pc : Pc n

/-- How the calls of `INIT` answer; `added` is whether `epoll_ctl` succeeds. -/
inductive Opened
  | noSocket
  | noOption (fd : ℤ)
  | ready (fd : ℤ)
  | inProgress (fd : ℤ) (added : Bool)
  | failed (fd : ℤ) (added : Bool)

/-- How the calls of `CONNECTING` answer. -/
inductive Connected
  | noDel
  | noOption
  | soError
  | ok

inductive Received
  | data (bytes : List UInt8)
  | again
  | error

inductive Input
  | wait (fds : List ℤ)
  | timeout
  | waitFailed
  | run
  | connect (a : Opened)
  | connected (a : Connected)
  | add (ok : Bool)
  | send (ret : Option ℕ)
  | recv (ret : Received)
  | setDying

/-- `opened` is a connection that is begun, and `completed` a transaction; `closed` says
whether its connection is closed with it. -/
inductive Output (n : ℕ)
  | silent
  | opened (j : Fin n)
  | completed (j : Fin n) (closed : Bool)
  deriving DecidableEq, Repr

/-- One turn of `client_recv`, which returns how much it has received. -/
def clientRecv (len cursor : ℕ) : Received → ℕ ⊕ ℕ
  | .again => .inr cursor
  | .error => .inr 0
  | .data bytes =>
      if cursor + bytes.length < len then .inl (cursor + bytes.length)
      else .inr (cursor + bytes.length)

namespace Worker

variable {n : ℕ}

/-! ## Calls of the states -/

def setClient (j : Fin n) (c : Client) (s : Worker n) : Worker n :=
  { s with clients := Function.update s.clients j c }

def setDying (s : Worker n) : Worker n := { s with dying := true }

def goTo (pc : Pc n) (s : Worker n) : Worker n := { s with pc := pc }

def tsclog (o : Options) (j : Fin n) (event : LogEvent) (s : Worker n) : Worker n :=
  let txn := sub64 o.transactionCount (s.clients j).txnRemaining
  { s with log := s.log.tsclog4 ⟨s.index, j, txn, event⟩ }

/-- `socket`. -/
def openSock (fd : ℤ) (s : Worker n) : Worker n :=
  { s with opened := Function.update s.opened fd true }

def close (fd : ℤ) (s : Worker n) : Worker n :=
  { s with opened := Function.update s.opened fd false }

/-- `EPOLL_CTL_ADD`. -/
def add (fd : ℤ) (events : Events) (j : Fin n) (s : Worker n) : Worker n :=
  { s with interest := Function.update s.interest fd (some ⟨events, j, true⟩) }

/-- `EPOLL_CTL_DEL`, which may fail. -/
def del (fd : ℤ) (s : Worker n) : Worker n :=
  { s with interest := Function.update s.interest fd none }

/-- `do_state_transition` returns to the loop. -/
def ret (count : ℕ) (s : Worker n) : Worker n :=
  { s with complete := (s.complete + count) % 2 ^ 64, pc := .loop }

def done (j : Fin n) (count : ℕ) (s : Worker n) : Worker n :=
  let c := s.clients j
  (((s.del c.sock).close c.sock).setClient j { c with sock := -1 }).ret count

/-- `do_state_transition` up to the first call whose answer it looks at. -/
def enter (o : Options) (j : Fin n) (count : ℕ) (s : Worker n) : Worker n :=
  let c := s.clients j
  let pc := .call j count 0
  match c.state with
  | .init => (s.setClient j { c with batchRemaining := o.batchSize }).goTo pc
  | .connecting => (s.tsclog o j .connectDone).goTo pc
  | .new => s.goTo pc
  | .ready => (s.tsclog o j .sendStart).goTo pc
  | .sent => (s.tsclog o j .recvStart).goTo pc
  | .done => s.done j count

/-- `do_connect` with what comes of `connect`, and the rest of `INIT`. -/
def init (o : Options) (j : Fin n) (count : ℕ) (a : Opened) (s : Worker n) :
    Option (Worker n × Output n) :=
  let c := s.clients j
  let isFresh (fd : ℤ) : Bool := 0 ≤ fd ∧ s.opened fd = false
  let start (fd : ℤ) (state : State) : Worker n :=
    ((s.openSock fd).tsclog o j .connectStart).setClient j { c with sock := fd, state := state }
  let wait (fd : ℤ) (added : Bool) (s : Worker n) : Worker n :=
    (if added then s.add fd .epollOut j else s.setDying).ret count
  match a with
  | .noSocket => some ((s.setClient j { c with sock := -1 }).setDying.ret count, .silent)
  | .noOption fd =>
      if isFresh fd then
        some (((s.openSock fd).setClient j { c with sock := fd }).setDying.ret count, .silent)
      else none
  | .ready fd =>
      if isFresh fd then
        some (((start fd .ready).tsclog o j .connectDone).enter o j count, .opened j)
      else none
  | .inProgress fd added =>
      if isFresh fd then some (wait fd added (start fd .connecting), .opened j) else none
  | .failed fd added =>
      if isFresh fd then some (wait fd added (start fd .done).setDying, .opened j) else none

def connecting (o : Options) (j : Fin n) (count : ℕ) (a : Connected) (s : Worker n) :
    Worker n :=
  let c := s.clients j
  match a with
  | .noDel => s.setDying.ret count
  | .noOption | .soError => (s.del c.sock).setDying.ret count
  | .ok => ((s.del c.sock).setClient j { c with state := .new }).enter o j count

def new (o : Options) (j : Fin n) (count : ℕ) (added : Bool) (s : Worker n) : Worker n :=
  let c := s.clients j
  if added then ((s.add c.sock .epollIn j).setClient j { c with state := .ready }).enter o j count
  else s.setDying.ret count

/-- `READY` with an answer of `send`. -/
def ready (o : Options) (j : Fin n) (count cursor : ℕ) (ret : Option ℕ) (s : Worker n) :
    Option (Worker n) :=
  let c := s.clients j
  let sent (s : Worker n) : Worker n :=
    ((s.tsclog o j .sendDone).setClient j { c with state := .sent }).ret count
  match ret with
  | none => some (sent s.setDying)
  | some k =>
      if cursor + k < c.bufSize then some (s.goTo (.call j count (cursor + k)))
      else if cursor + k = c.bufSize then some (sent s)
      else none

/-- `SENT` when the whole response is there. -/
def completeTxn (o : Options) (j : Fin n) (count : ℕ) (s : Worker n) : Worker n × Output n :=
  let c := s.clients j
  let c := { c with cursor := 0, txnRemaining := sub64 c.txnRemaining 1 }
  if c.txnRemaining = 0 then
    ((s.setClient j { c with state := .done }).enter o j (count + 1), .completed j true)
  else
    let c := { c with batchRemaining := sub64 c.batchRemaining 1 }
    if c.batchRemaining = 0 then
      ((((s.del c.sock).close c.sock).setClient j { c with state := .init }).enter o j (count + 1),
        .completed j true)
    else ((s.setClient j { c with state := .ready }).enter o j (count + 1), .completed j false)

/-- `SENT` when `client_recv` has returned `cursor`. -/
def received (o : Options) (j : Fin n) (count cursor : ℕ) (s : Worker n) :
    Worker n × Output n :=
  let c := s.clients j
  let c := { c with cursor := c.cursor + cursor }
  let s := (s.setClient j c).tsclog o j .recvDone
  if c.cursor < c.bufSize then (s.ret count, .silent) else s.completeTxn o j count

/-- `SENT` with an answer of `recv`. -/
def sent (o : Options) (j : Fin n) (count cursor : ℕ) (ret : Received) (s : Worker n) :
    Option (Worker n × Output n) :=
  let c := s.clients j
  match ret with
  | .again => some (s.received o j count cursor)
  | .error => some (s.setDying.received o j count 0)
  | .data bytes =>
      let off := c.cursor + cursor
      let next := off + bytes.length
      let s := s.setClient j { c with buf := c.buf.take off ++ bytes ++ c.buf.drop next }
      if next < c.bufSize then some (s.goTo (.call j count (cursor + bytes.length)), .silent)
      else if next = c.bufSize then some (s.received o j count (cursor + bytes.length))
      else none

/-! ## `worker_func` -/

/-- The client of a registered descriptor that can be reported. -/
def ready? (s : Worker n) (fd : ℤ) : Option (Fin n) :=
  match s.interest fd with
  | some ⟨_, j, true⟩ => some j
  | _ => none

/-- `epoll_wait` reports a descriptor: a one-shot registration is disarmed. -/
def disarm (fds : List ℤ) (s : Worker n) : Worker n :=
  { s with interest := fun fd => (s.interest fd).map fun x =>
      if fd ∈ fds ∧ x.events = .epollOut then { x with armed := false } else x }

def total (n : ℕ) (o : Options) : ℕ := o.transactionCount * n % 2 ^ 64

/-- The condition of the loop. -/
def goesOn (o : Options) (s : Worker n) : Bool := !s.dying && s.complete < total n o

def run (o : Options) (s : Worker n) : Option (Worker n) :=
  match s.pc, s.todo with
  | .loop, j :: todo => some ({ s with todo := todo }.enter o j 0)
  | .loop, [] => if s.goesOn o then none else some (s.goTo .exited)
  | _, _ => none

def epollWait (o : Options) (fds : List ℤ) (s : Worker n) : Option (Worker n) :=
  match s.pc, s.todo, fds.mapM s.ready? with
  | .loop, [], some todo =>
      if s.goesOn o ∧ fds.Nodup ∧ 1 ≤ fds.length ∧ fds.length ≤ EVENT_BACKLOG then
        some { s.disarm fds with todo := todo }
      else none
  | _, _, _ => none

/-- `epoll_wait` times out or fails. -/
def epollWaitEnds (o : Options) (failed : Bool) (s : Worker n) : Option (Worker n) :=
  match s.pc, s.todo with
  | .loop, [] =>
      if s.goesOn o then some ((if failed then s.setDying else s).goTo .exited) else none
  | _, _ => none

/-- `do_state_transition` goes on with an answer. -/
def doStateTransition (o : Options) (a : Input) (s : Worker n) : Option (Worker n × Output n) :=
  match s.pc with
  | .call j count cursor =>
      match (s.clients j).state, a with
      | .init, .connect a => s.init o j count a
      | .connecting, .connected a => some (s.connecting o j count a, .silent)
      | .new, .add ok => some (s.new o j count ok, .silent)
      | .ready, .send ret => (s.ready o j count cursor ret).map (·, .silent)
      | .sent, .recv ret => s.sent o j count cursor ret
      | _, _ => none
  | _ => none

/-- What `do_state_transition` does after an answer to its call, up to its next call or its
return. What is no answer to that call has no effect. -/
def turn (o : Options) (s : Worker n) (a : Input) : Worker n ⊕ Worker n :=
  match s.doStateTransition o a with
  | some (t, _) => if t.pc = .loop then .inr t else .inl t
  | none => .inl s

def step (o : Options) (s : Worker n) : Input → Option (Worker n × Output n)
  | .run => (s.run o).map (·, .silent)
  | .wait fds => (s.epollWait o fds).map (·, .silent)
  | .timeout => (s.epollWaitEnds o false).map (·, .silent)
  | .waitFailed => (s.epollWaitEnds o true).map (·, .silent)
  | .setDying => some (s.setDying, .silent)
  | a => s.doStateTransition o a

end Worker

/-- A worker ahead of its first loop: the clients come cleared out of `calloc`, and their
buffers are filled. -/
structure Worker.Start {n : ℕ} (o : Options) (s : Worker n) : Prop where
  clients : ∀ j, ∃ buf, buf.length = o.msgSize ∧ s.clients j =
    ⟨0, buf, 0, .init, o.msgSize, o.transactionCount, o.batchSize⟩
  interest : ∀ fd, s.interest fd = none
  log : s.log.entries = [] ∧ s.log.overflow = false
  dying : s.dying = false
  complete : s.complete = 0
  todo : s.todo = List.finRange n
  pc : s.pc = .loop

def worker (n : ℕ) (o : Options) : Machine (Worker n) Input (Output n) where
  Init := Worker.Start o
  step := Worker.step o

/-! ## All workers -/

/-- A step of worker `a.1`. `set_dying` is for every worker. -/
def processStep {m n : ℕ} (o : Options) (s : Fin m → Worker n) (a : Fin m × Input) :
    Option ((Fin m → Worker n) × Output n) :=
  match a.2 with
  | .setDying => none
  | input => ((s a.1).step o input).map fun x =>
      let s := Function.update s a.1 x.1
      (if x.1.dying then fun w => (s w).setDying else s, x.2)

def process (m n : ℕ) (o : Options) : Machine (Fin m → Worker n) (Fin m × Input) (Output n) where
  Init s := ∀ w, (s w).index = w.val ∧ (s w).Start o
  step := processStep o

end Upcalls.TcpClient
