import Upcalls.Library.Machine
import Upcalls.Library.Team

/-! # Starting the workers of the programs

`init_threads` of `event-tester/epoll.c`, `iouring.c` and `threads.c`, with `worker_func` up to
its loop. `main` of `tcp_client.c` starts its workers in the same way. The main thread holds
`worker_hang_lock` until all workers are set up. A call that fails ends the program.
-/

namespace Upcalls.HangLock

open Library

/-- Where the main thread is. `check` is the condition of the loop around
`pthread_cond_wait`, and `sleep` the call of it. -/
inductive MainPc
  | hangLock
  | pthreadCreate (i : ℕ)
  | initLock
  | check
  | sleep
  | waiting
  | woken
  | initUnlock
  | hangUnlock
  | done
  deriving DecidableEq, Repr

/-- A worker is `absent` until it is created. -/
inductive WorkerPc
  | absent
  | setup
  | initLock
  | count
  | signal
  | initUnlock
  | hangLock
  | hangUnlock
  | loop
  deriving DecidableEq, Repr

/-- The locks by whether somebody holds them. -/
structure Shared where
  initCount : ℕ
  initHeld : Bool
  hangHeld : Bool
  main : MainPc
  deriving DecidableEq, Repr

abbrev Process (n : ℕ) := Team n WorkerPc Shared

/-- `wakeMain` is a spurious wake-up, and `onStats` the store of `on_stats`, which the main
thread comes to when the workers are started. -/
inductive Input (n : ℕ)
  | main
  | worker (w : Fin n)
  | wakeMain
  | onStats
  deriving DecidableEq, Repr

namespace Process

variable {n : ℕ}

/-- The head of the loop that creates the workers. -/
def loop (n i : ℕ) : MainPc := if i < n then .pthreadCreate i else .initLock

def mainStep (s : Process n) : Option (Process n) :=
  let sh := s.shared
  match sh.main with
  | .hangLock =>
      if sh.hangHeld then none else some (s.share { sh with hangHeld := true, main := loop n 0 })
  | .pthreadCreate i =>
      if hi : i < n then some ((s.set ⟨i, hi⟩ .setup).share { sh with main := loop n (i + 1) })
      else none
  | .initLock | .woken =>
      if sh.initHeld then none else some (s.share { sh with initHeld := true, main := .check })
  | .check => some (s.share { sh with main := if sh.initCount < n then .sleep else .initUnlock })
  | .sleep => some (s.share { sh with initHeld := false, main := .waiting })
  | .initUnlock => some (s.share { sh with initHeld := false, main := .hangUnlock })
  | .hangUnlock => some (s.share { sh with hangHeld := false, main := .done })
  | .waiting | .done => none

/-- `pthread_cond_signal(&init_cond)`: nobody else waits for it. -/
def signal (sh : Shared) : Shared := if sh.main = .waiting then { sh with main := .woken } else sh

def workerStep (w : Fin n) (s : Process n) : Option (Process n) :=
  let sh := s.shared
  match s.worker w with
  | .setup => some (s.set w .initLock)
  | .initLock =>
      if sh.initHeld then none else some ((s.set w .count).share { sh with initHeld := true })
  | .count => some ((s.set w .signal).share { sh with initCount := sh.initCount + 1 })
  | .signal => some ((s.set w .initUnlock).share (signal sh))
  | .initUnlock => some ((s.set w .hangLock).share { sh with initHeld := false })
  | .hangLock =>
      if sh.hangHeld then none else some ((s.set w .hangUnlock).share { sh with hangHeld := true })
  | .hangUnlock => some ((s.set w .loop).share { sh with hangHeld := false })
  | .absent | .loop => none

def wakeMain (s : Process n) : Option (Process n) :=
  if s.shared.main = .waiting then some (s.share { s.shared with main := .woken }) else none

def onStats (s : Process n) : Option (Process n) :=
  if s.shared.main = .done then some (s.share { s.shared with initCount := 0 }) else none

def step (s : Process n) : Input n → Option (Process n)
  | .main => s.mainStep
  | .worker w => s.workerStep w
  | .wakeMain => s.wakeMain
  | .onStats => s.onStats

end Process

/-- At first there are no workers, and nobody holds a lock. -/
def hangLock (n : ℕ) : Machine (Process n) (Input n) Unit where
  Init s := (∀ w, s.worker w = .absent) ∧ s.shared = ⟨0, false, false, .hangLock⟩
  step s a := (s.step a).map (·, ())

end Upcalls.HangLock
