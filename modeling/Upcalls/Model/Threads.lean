import Upcalls.Library.Team
import Upcalls.Model.Session

/-! # The threads echo server

The workers of `event-tester/threads.c`, and the detached threads that they create, one for
each connection. `exit(1)` has no next state.
-/

namespace Upcalls.Threads

open Library

/-- What a worker does next. -/
inductive Pc
  | accept
  | pthreadCreate (fd : ℤ)
  deriving DecidableEq, Repr

structure Worker where
  pc : Pc
  acceptCount : ℕ
  connCount : ℕ

/-- A thread that runs `conn_handler`. -/
structure Handler where
  fd : ℤ
  next : Next
  deriving DecidableEq, Repr

structure Shared where
  conns : ℤ → Option ℕ
  opened : ℤ → Bool
  handlers : List Handler

abbrev Server (n : ℕ) := Team n Worker Shared

/-- `io` is the answer to the call of the `i`-th handler, and `done` the end of that
thread. -/
inductive Input (n : ℕ)
  | accept (w : Fin n) (fd : ℤ)
  | pthreadCreate (w : Fin n)
  | io (i : ℕ) (ret : ℤ)
  | done (i : ℕ)

namespace Server

variable {n : ℕ}

/-- `accept` returns a descriptor that was not open, and `accept_count` goes up. -/
def accept (w : Fin n) (fd : ℤ) (s : Server n) : Option (Server n) :=
  let me := s.worker w
  if me.pc = .accept ∧ 0 ≤ fd ∧ s.shared.opened fd = false then
    some ((s.set w { me with
      pc := .pthreadCreate fd
      acceptCount := me.acceptCount + 1 }).share
        { s.shared with opened := Function.update s.shared.opened fd true })
  else none

def pthreadCreate (w : Fin n) (s : Server n) : Option (Server n) :=
  let me := s.worker w
  match me.pc with
  | .pthreadCreate fd => some ((s.set w { me with pc := .accept }).share
      { s.shared with handlers := s.shared.handlers ++ [⟨fd, .read 0⟩] })
  | .accept => none

def io (msgSize i : ℕ) (ret : ℤ) (s : Server n) : Option (Server n) := do
  let handler ← s.shared.handlers[i]?
  let answer (cursor : ℕ) (next : Next) : Option (Server n) :=
    if ret ≤ ↑(msgSize - cursor) ∧ next ≠ .exit then
      some (s.share { s.shared with
        handlers := s.shared.handlers.set i { handler with next := next } })
    else none
  match handler.next with
  | .read cursor => answer cursor (afterRead msgSize cursor ret)
  | .write cursor => answer cursor (afterWrite msgSize cursor ret)
  | _ => none

/-- `shutdown`, `close` and `conns[conn->fd] = NULL`. -/
def done (i : ℕ) (s : Server n) : Option (Server n) := do
  let handler ← s.shared.handlers[i]?
  match handler.next with
  | .done => some (s.share {
      conns := Function.update s.shared.conns handler.fd none
      opened := Function.update s.shared.opened handler.fd false
      handlers := s.shared.handlers.eraseIdx i })
  | _ => none

def step (msgSize : ℕ) (s : Server n) : Input n → Option (Server n × Unit)
  | .accept w fd => (s.accept w fd).map (·, ())
  | .pthreadCreate w => (s.pthreadCreate w).map (·, ())
  | .io i ret => (s.io msgSize i ret).map (·, ())
  | .done i => (s.done i).map (·, ())

end Server

/-- The state behind the setup of `worker_func`. -/
structure Server.Start {n : ℕ} (s : Server n) : Prop where
  pc : ∀ w, (s.worker w).pc = .accept
  acceptCount : ∀ w, (s.worker w).acceptCount = 0
  connCount : ∀ w, (s.worker w).connCount = 0
  conns : ∀ fd, s.shared.conns fd = none
  handlers : s.shared.handlers = []

def echoServer (n msgSize : ℕ) : Machine (Server n) (Input n) Unit where
  Init := Server.Start
  step := Server.step msgSize

end Upcalls.Threads
