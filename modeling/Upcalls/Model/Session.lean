import Upcalls.Library.BlockEcho
import Upcalls.Library.Machine
import Upcalls.Model.Epoll
import Upcalls.Model.IoUring

/-! # One connection of an echo server

What the epoll, threads and io_uring servers do with one connection and its bytes:
`on_read` of `epoll.c`, `conn_handler` of `threads.c`, and the `SOCK_READ` and
`SOCK_WRITE` completions of `iouring.c`.
-/

namespace Upcalls

open Library TcpEcho

/-! ## `conn_handler` -/

namespace Threads

inductive Next
  | read (cursor : ℕ)
  | write (cursor : ℕ)
  | done
  | exit
  deriving DecidableEq, Repr

/-- `int ret`, which takes the low 32 bits of what `read` or `write` returns. -/
def toInt (ret : ℤ) : ℤ := ret.bmod (2 ^ 32)

def afterRead (msgSize cursor : ℕ) (ret : ℤ) : Next :=
  if toInt ret = 0 then .done
  else if toInt ret < 0 then .exit
  else
    let cursor := cursor + (toInt ret).toNat
    if cursor < msgSize then .read cursor else .write 0

def afterWrite (msgSize cursor : ℕ) (ret : ℤ) : Next :=
  if toInt ret = 0 then .done
  else if toInt ret < 0 then .exit
  else
    let cursor := cursor + (toInt ret).toNat
    if cursor < msgSize then .write cursor else .read 0

end Threads

namespace Session

def EAGAIN : ℕ := 11

/-- The most that one `read` or `write` transfers. -/
def MAX_RW_COUNT : ℕ := 0x7ffff000

/-! ## Memory -/

/-- The bytes of each block; nothing is at block 0. -/
abbrev Memory := ℕ → List UInt8

namespace Memory

/-- `cache_alloc` and `calloc`: `n` bytes that are 0. -/
def alloc (block n : ℕ) (mem : Memory) : Memory :=
  Function.update mem block (List.replicate n 0)

/-- The kernel stores `data` from `buf` on. -/
def store (buf : Ptr) (data : List UInt8) (mem : Memory) : Memory :=
  let bytes := mem buf.block
  Function.update mem buf.block
    (bytes.take buf.off ++ data ++ bytes.drop (buf.off + data.length))

/-- The first `k` bytes at `buf`. -/
def load (buf : Ptr) (k : ℕ) (mem : Memory) : List UInt8 :=
  ((mem buf.block).drop buf.off).take k

end Memory

/-- `if (!conn->buffer) conn->buffer = cache_alloc(msg_cache, me->index);`, where the block
that the cache gives is `block`. Without memory the process is over. -/
def openBuffer (msgSize block : ℕ) (conn : Connection) (mem : Memory) :
    Option (Connection × Memory) :=
  if conn.buffer ≠ 0 then some (conn, mem)
  else if block = 0 then none
  else some ({ conn with buffer := block }, mem.alloc block msgSize)

/-! ## Backends -/

/-- The system call or the request that a connection has under way. -/
inductive Call
  | none
  | read (buf : Ptr) (len : ℕ)
  | write (buf : Ptr) (len : ℕ)
  deriving DecidableEq, Repr

inductive Ret
  | count (k : ℕ)
  | error (errno : ℕ)

/-- What `epoll_wait` reports of a connection; `block` is free, should it need a buffer. -/
inductive Wake
  | event (block : ℕ)
  | hangUp

/-- The control of a backend over one connection; `ν` says what comes next in its code.
`waiting` is the saved cursor of a connection that waits for input. -/
structure Backend (ν : Type) where
  Init : Connection × ν → Memory → Prop
  call : Connection × ν → Call
  wake : Connection × ν → Wake → Memory → Option ((Connection × ν) × Memory)
  answer : Connection × ν → Ret → Connection × ν
  waiting : Connection × ν → Option ℕ

/-- `done` is outside of `on_read`, until the next event. -/
def epoll (msgSize : ℕ) : Backend Epoll.Next where
  Init s _ := ∃ fd, 0 ≤ fd ∧ s = ({ newConn fd with state := .reading }, .done)
  call s :=
    match s.2 with
    | .read cursor => .read ⟨s.1.buffer, cursor⟩ (msgSize - cursor)
    | .write cursor => .write ⟨s.1.buffer, cursor⟩ (msgSize - cursor)
    | _ => .none
  wake s e mem :=
    match s.2, e with
    | .done, .event block =>
        if s.1.fd < 0 then some (s, mem)
        else do
          let (conn, mem) ← openBuffer msgSize block s.1 mem
          return (({ conn with eventCount := conn.eventCount + 1 }, .read conn.cursor), mem)
    | .done, .hangUp => some ((s.1, .close), mem)
    | _, _ => none
  answer s ret :=
    let ret : Epoll.Ret :=
      match ret with
      | .count k => .count k
      | .error errno => .error (errno = EAGAIN)
    match s.2 with
    | .read cursor => Epoll.afterRead msgSize s.1 cursor ret
    | .write cursor => Epoll.afterWrite msgSize s.1 cursor ret
    | _ => s
  waiting s := if s.2 = .done then some s.1.cursor else none

/-- `conn_handler` starts with a `calloc` of its own, and `cursor` is a local variable. -/
def threads (msgSize : ℕ) : Backend Threads.Next where
  Init s mem := ∃ fd block before, block ≠ 0 ∧
    s = ({ newConn fd with buffer := block }, .read 0) ∧ mem = Memory.alloc block msgSize before
  call s :=
    match s.2 with
    | .read cursor => .read ⟨s.1.buffer, cursor⟩ (msgSize - cursor)
    | .write cursor => .write ⟨s.1.buffer, cursor⟩ (msgSize - cursor)
    | _ => .none
  wake _ _ _ := none
  answer s ret :=
    let ret : ℤ :=
      match ret with
      | .count k => k
      | .error _ => -1
    match s.2 with
    | .read cursor => (s.1, Threads.afterRead msgSize cursor ret)
    | .write cursor => (s.1, Threads.afterWrite msgSize cursor ret)
    | _ => s
  waiting s :=
    match s.2 with
    | .read cursor => some cursor
    | _ => none

/-- The request that is queued or submitted; `worker_func` gives the connection its buffer
and queues the first one. -/
def ioUring (msgSize : ℕ) : Backend IoUring.Next where
  Init s mem := ∃ fd block before,
    openBuffer msgSize block (newConn fd) before = some (s.1, mem) ∧ s.2 = .read 0 msgSize
  call s :=
    match s.2 with
    | .read off len => .read ⟨s.1.buffer, off⟩ len
    | .write off len => .write ⟨s.1.buffer, off⟩ len
    | .close => .none
  wake _ _ _ := none
  answer s ret :=
    let res : ℤ :=
      match ret with
      | .count k => k
      | .error errno => -errno
    match s.2 with
    | .read _ _ => IoUring.sockRead msgSize s.1 res
    | .write _ _ => IoUring.sockWrite msgSize s.1 res
    | .close => s
  waiting s :=
    match s.2 with
    | .read _ _ => some s.1.cursor
    | _ => none

/-! ## Runs -/

/-- The memory, and all that was read from the connection and written to it. -/
structure Store where
  memory : Memory
  rx : List UInt8
  tx : List UInt8

namespace Store

def receive (buf : Ptr) (data : List UInt8) (x : Store) : Store :=
  { x with memory := x.memory.store buf data, rx := x.rx ++ data }

def send (buf : Ptr) (k : ℕ) (x : Store) : Store := { x with tx := x.tx ++ x.memory.load buf k }

end Store

/-- `receive` and `send` are the answers to a call that transferred bytes, or none.
`other` is what the rest of the program does to a block. -/
inductive Input
  | wake (e : Wake)
  | receive (data : List UInt8)
  | send (k : ℕ)
  | fail (errno : ℕ)
  | other (block : ℕ) (bytes : List UInt8)

variable {ν : Type}

/-- Nobody else has the buffer of the connection. -/
def step (B : Backend ν) (s : (Connection × ν) × Store) :
    Input → Option ((Connection × ν) × Store)
  | .wake e => (B.wake s.1 e s.2.memory).map fun r => (r.1, { s.2 with memory := r.2 })
  | .receive data =>
      match B.call s.1 with
      | .read buf len =>
          if data.length ≤ len ∧ data.length ≤ MAX_RW_COUNT then
            some (B.answer s.1 (.count data.length), s.2.receive buf data)
          else none
      | _ => none
  | .send k =>
      match B.call s.1 with
      | .write buf len =>
          if k ≤ len ∧ k ≤ MAX_RW_COUNT then
            some (B.answer s.1 (.count k), s.2.send buf k)
          else none
      | _ => none
  | .fail errno =>
      match B.call s.1 with
      | .none => none
      | _ => some (B.answer s.1 (.error errno), s.2)
  | .other block bytes =>
      if block = s.1.1.buffer then none
      else some (s.1, { s.2 with memory := Function.update s.2.memory block bytes })

/-- A connection from its installation on. -/
def session (B : Backend ν) : Machine ((Connection × ν) × Store) Input Unit where
  Init s := B.Init s.1 s.2.memory ∧ s.2.rx = [] ∧ s.2.tx = []
  step s a := (step B s a).map (·, ())

end Session

end Upcalls
