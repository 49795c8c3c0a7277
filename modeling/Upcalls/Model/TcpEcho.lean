import Mathlib.Data.Int.Notation
import Mathlib.Data.Nat.Notation
import Mathlib.Logic.Function.Basic

/-! # What the echo servers share

The connection record and the object caches of `tcp_echo.c`. A block is named by a
number; 0 is `NULL`.
-/

namespace Upcalls.TcpEcho

def BUF_COUNT : ℕ := 32

def BACKLOG : ℕ := BUF_COUNT

/-- The values of `state`. -/
inductive ConnState
  | connect
  | waiting
  | reading
  | writing
  | closing
  deriving DecidableEq, Repr

/-- `struct connection`; `buffer` is the block of the message buffer. -/
structure Connection where
  cursor : ℕ
  buffer : ℕ
  eventCount : ℕ
  state : ConnState
  fd : ℤ
  deriving DecidableEq, Repr

/-- A connection fresh out of `cache_alloc`, which clears it. -/
def Connection.zero : Connection := ⟨0, 0, 0, .connect, 0⟩

/-! ## Object caches

The free entries in order: `cache_alloc` takes the first one, or the allocator's next
block when there is none, and `cache_free` adds behind the last one.
-/

structure Alloc where
  entry : ℕ
  cache : List ℕ
  next : ℕ

def cacheAlloc (cache : List ℕ) (next : ℕ) : Alloc :=
  match cache with
  | [] => ⟨next, [], next + 1⟩
  | entry :: rest => ⟨entry, rest, next⟩

def cacheFree (cache : List ℕ) (entry : ℕ) : List ℕ := cache ++ [entry]

def newConn (fd : ℤ) : Connection := { Connection.zero with fd := fd }

/-! ## The connection table -/

/-- `conns[]`, the connection records by block, the open descriptors and the allocator. -/
structure Table where
  conns : ℤ → Option ℕ
  conn : ℕ → Connection
  opened : ℤ → Bool
  next : ℕ

namespace Table

/-- The kernel opens a descriptor that was not open. -/
def accept (fd : ℤ) (t : Table) : Option Table :=
  if 0 ≤ fd ∧ t.opened fd = false then
    some { t with opened := Function.update t.opened fd true }
  else none

def setConn (p : ℕ) (c : Connection) (t : Table) : Table :=
  { t with conn := Function.update t.conn p c }

/-- `conns[fd] = new_conn(fd)` with the record at block `p`. -/
def install (fd : ℤ) (p : ℕ) (c : Connection) (next : ℕ) (t : Table) : Table :=
  { t with
    conns := Function.update t.conns fd (some p)
    conn := Function.update t.conn p c
    next := next }

/-- `conns[fd] = NULL` and `close(fd)`. -/
def close (fd : ℤ) (t : Table) : Table :=
  { t with
    conns := Function.update t.conns fd none
    opened := Function.update t.opened fd false }

end Table

end Upcalls.TcpEcho
