import Mathlib.Algebra.Ring.Nat
import Mathlib.Logic.Function.Basic
import Upcalls.Library.Machine
import Upcalls.Library.Words

/-! # The scheduler latency test

The two threads of `scheduler_latency/tester.c`, which wake each other through two eventfds,
and the latencies that `write_times` computes from their logs. A thread takes a step for each
system call and one for each entry of its log: no other thread looks at that log before both
have returned.
-/

namespace Upcalls.SchedulerLatency

open Library

/-! ## Logs -/

/-- `READ` and `WRITE`. -/
inductive Value
  | read
  | write
  deriving DecidableEq, Repr

structure TscLogEntry where
  tsc : ℕ
  value : Value
  deriving DecidableEq, Repr

/-- `TscLogEntrySize(1)`. -/
def entrySize : ℕ := 24

/-- `base` is the address of the first entry, and `fin` is `end`. -/
structure TscLog where
  base : ℕ
  cur : ℕ
  fin : ℕ
  overflow : Bool
  entries : List TscLogEntry
  deriving DecidableEq, Repr

def initLogger (base count : ℕ) : TscLog where
  base := base
  cur := base
  fin := (base + 2 * count * entrySize % 2 ^ 64) % 2 ^ 64
  overflow := false
  entries := []

def TscLog.tsclog1 (e : TscLogEntry) (log : TscLog) : TscLog :=
  let fresh := (log.cur + entrySize) % 2 ^ 64
  if log.fin < fresh then { log with overflow := true }
  else { log with cur := fresh, entries := log.entries ++ [e] }

/-! ## Threads -/

/-- What a thread does next; it is at `start` before `init_logger`. -/
inductive Pc
  | start
  | read
  | addRead
  | addWrite
  | write
  | returned
  deriving DecidableEq, Repr

structure Thread where
  i : ℕ
  pc : Pc
  log : TscLog
  deriving DecidableEq, Repr

/-- The head of the `for` loop. -/
def Thread.loop (count : ℕ) (body : Pc) (t : Thread) : Thread :=
  { t with pc := if t.i < count then body else .returned }

def Thread.next (count : ℕ) (body : Pc) (t : Thread) : Thread :=
  { t with i := t.i + 1 }.loop count body

/-- `add_read` or `add_write`. -/
def Thread.add (tsc : ℕ) (value : Value) (t : Thread) : Thread :=
  { t with log := t.log.tsclog1 ⟨tsc, value⟩ }

/-- `clock` is the latest time stamp. -/
structure Tester where
  efd1 : ℕ
  efd2 : ℕ
  sleeper : Thread
  waker : Thread
  clock : ℕ
  deriving DecidableEq, Repr

inductive Side
  | sleeper
  | waker
  deriving DecidableEq, Repr

inductive Efd
  | efd1
  | efd2
  deriving DecidableEq, Repr

inductive Input
  | initLogger (t : Side) (base : ℕ)
  | stamp (t : Side) (tsc : ℕ)
  | run (t : Side)
  deriving DecidableEq, Repr

/-- `took` is a read with its value. -/
inductive Output
  | silent
  | stamped (t : Side) (value : Value)
  | wrote (efd : Efd)
  | took (efd : Efd) (val : ℕ)
  deriving DecidableEq, Repr

namespace Tester

/-- `init_logger`, with memory that does not wrap around. -/
def initLogger (count : ℕ) (t : Side) (base : ℕ) (s : Tester) : Option Tester :=
  if base + 2 * count * entrySize < 2 ^ 64 then
    let log := SchedulerLatency.initLogger base count
    match t, s.sleeper.pc, s.waker.pc with
    | .sleeper, .start, _ =>
        some { s with sleeper := { s.sleeper with i := 0, log := log }.loop count .read }
    | .waker, _, .start =>
        some { s with waker := { s.waker with i := 0, log := log }.loop count .addWrite }
    | _, _, _ => none
  else none

/-- An entry of the log, with a time stamp of the clock that all threads read. -/
def stamp (count : ℕ) (t : Side) (tsc : ℕ) (s : Tester) : Option (Tester × Output) :=
  if s.clock ≤ tsc ∧ tsc < 2 ^ 64 then
    let s := { s with clock := tsc }
    match t, s.sleeper.pc, s.waker.pc with
    | .sleeper, .addRead, _ =>
        some ({ s with sleeper := { s.sleeper.add tsc .read with pc := .addWrite } },
          .stamped .sleeper .read)
    | .sleeper, .addWrite, _ =>
        some ({ s with sleeper := { s.sleeper.add tsc .write with pc := .write } },
          .stamped .sleeper .write)
    | .waker, _, .addWrite =>
        some ({ s with waker := { s.waker.add tsc .write with pc := .write } },
          .stamped .waker .write)
    | .waker, _, .addRead =>
        some ({ s with waker := (s.waker.add tsc .read).next count .addWrite },
          .stamped .waker .read)
    | _, _, _ => none
  else none

/-- The system calls of `sleeper`: a read waits for a positive counter and clears it. -/
def sleep (count : ℕ) (s : Tester) : Option (Tester × Output) :=
  match s.sleeper.pc with
  | .read =>
      if s.efd1 = 0 then none
      else some ({ s with efd1 := 0, sleeper := { s.sleeper with pc := .addRead } },
        .took .efd1 s.efd1)
  | .write =>
      if s.efd2 < eventfdMax then
        some ({ s with efd2 := s.efd2 + 1, sleeper := s.sleeper.next count .read },
          .wrote .efd2)
      else none
  | _ => none

/-- The system calls of `waker`. -/
def wake (s : Tester) : Option (Tester × Output) :=
  match s.waker.pc with
  | .write =>
      if s.efd1 < eventfdMax then
        some ({ s with efd1 := s.efd1 + 1, waker := { s.waker with pc := .read } }, .wrote .efd1)
      else none
  | .read =>
      if s.efd2 = 0 then none
      else some ({ s with efd2 := 0, waker := { s.waker with pc := .addRead } },
        .took .efd2 s.efd2)
  | _ => none

def step (count : ℕ) (s : Tester) : Input → Option (Tester × Output)
  | .initLogger t base => (s.initLogger count t base).map (·, .silent)
  | .stamp t tsc => s.stamp count t tsc
  | .run .sleeper => s.sleep count
  | .run .waker => s.wake

end Tester

/-- `run_one` has made the eventfds and the threads. -/
structure Tester.Start (s : Tester) : Prop where
  efd1 : s.efd1 = 0
  efd2 : s.efd2 = 0
  sleeper : s.sleeper.pc = .start ∧ s.sleeper.i = 0 ∧ s.sleeper.log.entries = []
  waker : s.waker.pc = .start ∧ s.waker.i = 0 ∧ s.waker.log.entries = []
  overflow : s.sleeper.log.overflow = false ∧ s.waker.log.overflow = false
  clock : s.clock < 2 ^ 64

def tester (count : ℕ) : Machine Tester Input Output where
  Init := Tester.Start
  step := Tester.step count

/-! ## `write_times` -/

/-- The latencies, in ticks of the clock. -/
def writeTimes : List TscLogEntry → List TscLogEntry → List ℕ
  | sc :: slp, wc :: wkr =>
      (if sc.value = .read then sub64 sc.tsc wc.tsc else sub64 wc.tsc sc.tsc) ::
        writeTimes slp wkr
  | _, _ => []

end Upcalls.SchedulerLatency
