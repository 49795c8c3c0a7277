import Mathlib.Data.Int.Notation
import Upcalls.Library.Machine

/-! # Starting the workers of libupcall

`upcall_init`, `upcall_worker_fn` up to its first `run_event_loop`, and `upcall_workers_go`.
The main thread may call `upcall_init` again after a call that failed: the workers of that
call are still there. `main` and each worker take small steps, and `g_init_lock` is explicit.
-/

namespace Upcalls.Startup

open Library

/-- Where the main thread is. It is `idle` outside of `upcall_init` as long as no call has
succeeded, and `inited` between that call and `upcall_workers_go`. `check` is the condition
of the loop around `pthread_cond_wait`, and `sleep` the call of it. -/
inductive MainPc
  | idle
  | create
  | attrInit
  | setAffinity (i : ℕ)
  | createThread (i : ℕ)
  | lock
  | check
  | sleep
  | waiting
  | woken
  | unlock
  | inited
  | goLock
  | setGo
  | broadcast
  | goUnlock
  | done
  deriving DecidableEq, Repr

inductive WorkerPc
  | setup
  | lock
  | count
  | signal
  | check
  | sleep
  | waiting
  | woken
  | unlock
  | running
  deriving DecidableEq, Repr

/-- `call` numbers the calls of `upcall_init`: it says which one made the worker. -/
structure Worker where
  call : ℕ
  id : ℕ
  pc : WorkerPc
  deriving DecidableEq, Repr

/-- What a signal for `g_go_cond` does to a worker. -/
def Worker.notified (w : Worker) : Worker :=
  if w.pc = .waiting then { w with pc := .woken } else w

/-- A thread that holds `g_init_lock`; a worker by its place in `workers`. -/
inductive Holder
  | main
  | worker (k : ℕ)
  deriving DecidableEq, Repr

structure Process where
  upfd : ℤ
  initCount : ℕ
  go : Bool
  lock : Option Holder
  main : MainPc
  workers : List Worker
  calls : ℕ
  deriving DecidableEq, Repr

/-- `fail` is for the call that the main thread is at. The last two are spurious wake-ups. -/
inductive Input
  | call
  | created (fd : ℤ)
  | fail
  | main
  | worker (k : ℕ)
  | wakeMain
  | wakeWorker (k : ℕ)
  deriving DecidableEq, Repr

/-- `returned` is of `upcall_init`, with 0 or a negative value. -/
inductive Output
  | silent
  | returned (zero : Bool)
  | entered (k : ℕ)
  deriving DecidableEq, Repr

namespace Process

def setMain (pc : MainPc) (s : Process) : Process := { s with main := pc }

/-- Worker `w` at place `k` goes to `pc`. -/
def setWorker (k : ℕ) (w : Worker) (pc : WorkerPc) (s : Process) : Process :=
  { s with workers := s.workers.set k { w with pc := pc } }

/-- `pthread_mutex_lock`, which waits until nobody holds the lock. -/
def acquire (h : Holder) (s : Process) : Option Process :=
  if s.lock = none then some { s with lock := some h } else none

def release (s : Process) : Process := { s with lock := none }

/-- The head of the loop that makes the workers. -/
def loop (nr i : ℕ) : MainPc := if i < nr then .setAffinity i else .lock

def call (s : Process) : Option Process :=
  if s.main = .idle then some { s with main := .create, calls := s.calls + 1 } else none

def created (fd : ℤ) (s : Process) : Option Process :=
  if s.main = .create ∧ 0 ≤ fd then some { s with upfd := fd, main := .attrInit } else none

/-- `upcall_init` returns a negative value. -/
def fail (s : Process) : Option Process :=
  match s.main with
  | .create => some { s with upfd := -1, main := .idle }
  | .attrInit | .setAffinity _ | .createThread _ => some (s.setMain .idle)
  | _ => none

/-- `pthread_cond_broadcast(&g_go_cond)`. -/
def broadcast (s : Process) : Process :=
  { s with workers := s.workers.map Worker.notified }

/-- `pthread_cond_signal(&g_init_cond)`: nobody else waits for it. -/
def signal (s : Process) : Process :=
  if s.main = .waiting then s.setMain .woken else s

def mainStep (nr : ℕ) (s : Process) : Option (Process × Output) :=
  match s.main with
  | .attrInit => some (s.setMain (loop nr 0), .silent)
  | .setAffinity i => some (s.setMain (.createThread i), .silent)
  | .createThread i =>
      some ({ s with workers := s.workers ++ [⟨s.calls, i, .setup⟩], main := loop nr (i + 1) },
        .silent)
  | .lock | .woken => (s.acquire .main).map (·.setMain .check, .silent)
  | .check => some (s.setMain (if s.initCount < nr then .sleep else .unlock), .silent)
  | .sleep => some (s.release.setMain .waiting, .silent)
  | .unlock => some (s.release.setMain .inited, .returned true)
  | .inited => some (s.setMain .goLock, .silent)
  | .goLock => (s.acquire .main).map (·.setMain .setGo, .silent)
  | .setGo => some ({ s with go := true, main := .broadcast }, .silent)
  | .broadcast => some (s.broadcast.setMain .goUnlock, .silent)
  | .goUnlock => some (s.release.setMain .done, .silent)
  | _ => none

def workerStep (k : ℕ) (s : Process) : Option (Process × Output) := do
  let w ← s.workers[k]?
  match w.pc with
  | .setup => return (s.setWorker k w .lock, .silent)
  | .lock => (s.acquire (.worker k)).map (·.setWorker k w .count, .silent)
  | .count => return ({ s with initCount := s.initCount + 1 }.setWorker k w .signal, .silent)
  | .signal => return (s.signal.setWorker k w .check, .silent)
  | .check => return (s.setWorker k w (if s.go then .unlock else .sleep), .silent)
  | .sleep => return (s.release.setWorker k w .waiting, .silent)
  | .woken => (s.acquire (.worker k)).map (·.setWorker k w .check, .silent)
  | .unlock => return (s.release.setWorker k w .running, .entered k)
  | .waiting | .running => none

def wakeMain (s : Process) : Option Process :=
  if s.main = .waiting then some (s.setMain .woken) else none

def wakeWorker (k : ℕ) (s : Process) : Option Process := do
  let w ← s.workers[k]?
  if w.pc = .waiting then return s.setWorker k w .woken else none

def step (nr : ℕ) (s : Process) : Input → Option (Process × Output)
  | .call => s.call.map (·, .silent)
  | .created fd => (s.created fd).map (·, .silent)
  | .fail => s.fail.map (·, .returned false)
  | .main => s.mainStep nr
  | .worker k => s.workerStep k
  | .wakeMain => s.wakeMain.map (·, .silent)
  | .wakeWorker k => (s.wakeWorker k).map (·, .silent)

end Process

/-- The initial values of the variables. -/
structure Process.Start (s : Process) : Prop where
  upfd : s.upfd = -1
  initCount : s.initCount = 0
  go : s.go = false
  lock : s.lock = none
  main : s.main = .idle
  workers : s.workers = []
  calls : s.calls = 0

def startup (nr : ℕ) : Machine Process Input Output where
  Init := Process.Start
  step := Process.step nr

end Upcalls.Startup
