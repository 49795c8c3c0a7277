import Upcalls.Model.TcpClient

/-! # The client program behind the start of its workers

`worker_func` of `event-tester/tcp_client.c` with what follows its loop, and `main` from
`pthread_join` up to where it collects the results or reports an error.
-/

namespace Upcalls.ClientMain

open Library TcpClient

/-- A worker that has `left` its loop looks at `dying`. -/
inductive Stage
  | looping
  | left
  | cleaning
  | returned
  deriving DecidableEq, Repr

/-- `join i` and `check i` are turns of the two loops over the threads. Some `exit(1)` of a
worker ends in `killed`. -/
inductive MainPc
  | join (i : ℕ)
  | check (i : ℕ)
  | report
  | results
  | killed
  deriving DecidableEq, Repr

/-- `freed` says that `clients` is `NULL`. -/
structure Program (m n : ℕ) where
  workers : Fin m → Worker n
  stage : Fin m → Stage
  freed : Fin m → Bool
  main : MainPc

inductive Input (m : ℕ)
  | worker (w : Fin m) (a : TcpClient.Input)
  | leave (w : Fin m)
  | cleanup (w : Fin m)
  | main

inductive Output (n : ℕ)
  | silent
  | worker (out : TcpClient.Output n)

/-! ## `cleanup` -/

def closeClient {n : ℕ} (s : Worker n) (j : Fin n) : Worker n :=
  let c := s.clients j
  if 0 ≤ c.sock then (s.close c.sock).setClient j { c with sock := -1 } else s

/-- What is registered goes with `epoll_fd`. -/
def cleanup {n : ℕ} (s : Worker n) : Worker n :=
  { (List.finRange n).foldl closeClient s with interest := fun _ => none }

/-! ## Steps -/

/-- The worker that `epoll_wait` fails for returns at once. -/
def leftBy : TcpClient.Input → Stage
  | .waitFailed => .returned
  | _ => .left

/-- `exit(1)` when nothing has happened for too long. -/
def mainBy (pc : MainPc) : TcpClient.Input → MainPc
  | .timeout => .killed
  | _ => pc

namespace Program

variable {m n : ℕ}

/-- A step of the loop of `w`. -/
def loop (o : Options) (w : Fin m) (a : TcpClient.Input) (s : Program m n) :
    Option (Program m n × Output n) :=
  if s.main ≠ .killed ∧ s.stage w = .looping then
    (processStep o s.workers (w, a)).map fun (workers, out) =>
      ({ s with
          workers := workers
          stage :=
            if (workers w).pc = .exited then Function.update s.stage w (leftBy a) else s.stage
          main := mainBy s.main a }, .worker out)
  else none

def leave (w : Fin m) (s : Program m n) : Option (Program m n) :=
  if s.main ≠ .killed ∧ s.stage w = .left then
    let stage := if (s.workers w).dying then .returned else .cleaning
    some { s with stage := Function.update s.stage w stage }
  else none

def clean (w : Fin m) (s : Program m n) : Option (Program m n) :=
  if s.main ≠ .killed ∧ s.stage w = .cleaning then
    some { s with
      workers := Function.update s.workers w (ClientMain.cleanup (s.workers w))
      stage := Function.update s.stage w .returned
      freed := Function.update s.freed w true }
  else none

def goTo (pc : MainPc) (s : Program m n) : Program m n := { s with main := pc }

def mainStep (s : Program m n) : Option (Program m n) :=
  match s.main with
  | .join i =>
      if h : i < m then
        if s.stage ⟨i, h⟩ = .returned then some (s.goTo (.join (i + 1))) else none
      else some (s.goTo (.check 0))
  | .check i =>
      if h : i < m then
        if (s.workers ⟨i, h⟩).dying then some (s.goTo .report)
        else some (s.goTo (.check (i + 1)))
      else some (s.goTo .results)
  | .report | .results | .killed => none

def step (o : Options) (s : Program m n) : Input m → Option (Program m n × Output n)
  | .worker w a => s.loop o w a
  | .leave w => (s.leave w).map (·, .silent)
  | .cleanup w => (s.clean w).map (·, .silent)
  | .main => s.mainStep.map (·, .silent)

/-- All workers are ahead of their loops, and `main` waits for the first one. -/
structure Start (o : Options) (s : Program m n) : Prop where
  workers : (process m n o).Init s.workers
  stage : ∀ w, s.stage w = .looping
  freed : ∀ w, s.freed w = false
  main : s.main = .join 0

end Program

def program (m n : ℕ) (o : Options) : Machine (Program m n) (Input m) (Output n) where
  Init := Program.Start o
  step := Program.step o

/-- The steps of the workers in their loops. -/
def observe {m n : ℕ} : Input m × Output n → Option ((Fin m × TcpClient.Input) × TcpClient.Output n)
  | (.worker w a, .worker out) => some ((w, a), out)
  | _ => none

end Upcalls.ClientMain
