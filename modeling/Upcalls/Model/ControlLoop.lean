import Mathlib.Data.List.Basic
import Mathlib.Logic.Function.Basic
import Upcalls.Library.Machine

/-! # The control loop

The loop of `main` of `tcp_echo.c` behind `workers_go`, with `on_stats` and `on_error` by the
calls that touch a descriptor. The workers open and close descriptors of the same table at
any time, each only such as a worker has opened. Calls may fail.
-/

namespace Upcalls.ControlLoop

open Library

/-- An entry of the table of descriptors. What was there ahead of the loop is `fixed`. Of a
connection that `main` has accepted it is known which directions are shut down. -/
inductive Slot
  | closed
  | fixed
  | worker
  | accepted (rd wr : Bool)
  deriving DecidableEq, Repr

inductive Handler
  | onStats
  | onError
  deriving DecidableEq, Repr

/-- `del` and `close` are the calls of the loop, and `close` is also that of `on_error` when
there is nothing to report. -/
inductive Pc
  | epollWait
  | accept (h : Handler)
  | print (out : ℕ)
  | add (h : Handler) (out : ℕ)
  | write (h : Handler) (out : ℕ)
  | del (fd : ℕ)
  | close (fd : ℕ)
  | exited
  deriving DecidableEq, Repr

structure Listeners where
  statsFd : ℕ
  errorFd : ℕ

/-- `registered` is the set behind `epoll_fd`. -/
structure Control where
  pc : Pc
  table : ℕ → Slot
  registered : List ℕ

/-- `wait fd err` reports `fd`, and `err` is whether `EPOLLERR` or `EPOLLHUP` is set. `write`
stands for all the calls of it, and `dangling` is what the loop of `on_error` leaves. -/
inductive Input
  | wait (fd : ℕ) (err : Bool)
  | waitFails
  | accept (ret : Option ℕ)
  | print (dangling : Bool)
  | add (ok : Bool)
  | write (ok : Bool)
  | del
  | close
  | workerOpens (fd : ℕ)
  | workerCloses (fd : ℕ)
  deriving DecidableEq, Repr

/-- `refused` tells of a failed `EPOLL_CTL_ADD`, and `closed` what the descriptor was. -/
inductive Output
  | silent
  | accepted (fd : ℕ)
  | refused (fd : ℕ)
  | closed (fd : ℕ) (was : Slot)
  deriving DecidableEq, Repr

namespace Control

/-- Behind `epoll_wait`. -/
def dispatch (l : Listeners) (fd : ℕ) (err : Bool) : Pc :=
  if err then if fd = l.statsFd ∨ fd = l.errorFd then .exited else .del fd
  else if fd = l.statsFd then .accept .onStats
  else if fd = l.errorFd then .accept .onError
  else .epollWait

/-- Only the listening sockets are registered for `EPOLLIN`. -/
def wait (l : Listeners) (fd : ℕ) (err : Bool) (s : Control) : Option (Control × Output) :=
  if s.pc = .epollWait ∧ fd ∈ s.registered ∧ (err = false → fd = l.statsFd ∨ fd = l.errorFd)
  then some ({ s with pc := dispatch l fd err }, .silent)
  else none

def waitFails (s : Control) : Option (Control × Output) :=
  if s.pc = .epollWait then some ({ s with pc := .exited }, .silent) else none

/-- `on_error` shuts the reading direction down at once. -/
def accept (ret : Option ℕ) (s : Control) : Option (Control × Output) :=
  match s.pc, ret with
  | .accept h, some out =>
      if s.table out = .closed then
        some ({ s with
          pc := if h = .onStats then .add h out else .print out
          table := Function.update s.table out (.accepted (h = .onError) false) }, .accepted out)
      else none
  | .accept .onStats, none => some ({ s with pc := .exited }, .silent)
  | .accept .onError, none => some ({ s with pc := .epollWait }, .silent)
  | _, _ => none

def print (dangling : Bool) (s : Control) : Option (Control × Output) :=
  match s.pc with
  | .print out =>
      some ({ s with pc := if dangling then .add .onError out else .close out }, .silent)
  | _ => none

/-- With the `SHUT_RD` that `on_stats` has behind it. -/
def add (ok : Bool) (s : Control) : Option (Control × Output) :=
  match s.pc with
  | .add h out =>
      some ({ pc := .write h out
              table := Function.update s.table out (.accepted true false)
              registered := if ok then out :: s.registered else s.registered },
        if ok then .silent else .refused out)
  | _ => none

/-- With the `SHUT_WR` behind it. A call that fails ends the program, and `on_stats` closes the
connection ahead of that, which takes it out of the set behind `epoll_fd` as well. -/
def write (ok : Bool) (s : Control) : Option (Control × Output) :=
  match s.pc, ok with
  | .write _ out, true =>
      some ({ s with
        pc := .epollWait
        table := Function.update s.table out (.accepted true true) }, .silent)
  | .write .onStats out, false =>
      some ({ pc := .exited
              table := Function.update s.table out .closed
              registered := s.registered.erase out },
        .closed out (s.table out))
  | .write .onError _, false => some ({ s with pc := .exited }, .silent)
  | _, _ => none

def del (s : Control) : Option (Control × Output) :=
  match s.pc with
  | .del fd => some ({ s with pc := .close fd, registered := s.registered.erase fd }, .silent)
  | _ => none

def close (s : Control) : Option (Control × Output) :=
  match s.pc with
  | .close fd =>
      some ({ s with pc := .epollWait, table := Function.update s.table fd .closed },
        .closed fd (s.table fd))
  | _ => none

def workerOpens (fd : ℕ) (s : Control) : Option (Control × Output) :=
  if s.pc ≠ .exited ∧ s.table fd = .closed then
    some ({ s with table := Function.update s.table fd .worker }, .silent)
  else none

def workerCloses (fd : ℕ) (s : Control) : Option (Control × Output) :=
  if s.pc ≠ .exited ∧ s.table fd = .worker then
    some ({ s with table := Function.update s.table fd .closed }, .silent)
  else none

def step (l : Listeners) (s : Control) : Input → Option (Control × Output)
  | .wait fd err => s.wait l fd err
  | .waitFails => s.waitFails
  | .accept ret => s.accept ret
  | .print dangling => s.print dangling
  | .add ok => s.add ok
  | .write ok => s.write ok
  | .del => s.del
  | .close => s.close
  | .workerOpens fd => s.workerOpens fd
  | .workerCloses fd => s.workerCloses fd

/-- Ahead of the loop. -/
structure Start (l : Listeners) (s : Control) : Prop where
  pc : s.pc = .epollWait
  apart : l.statsFd ≠ l.errorFd
  registered : s.registered = [l.errorFd, l.statsFd]
  stats : s.table l.statsFd = .fixed
  error : s.table l.errorFd = .fixed
  none : ∀ fd rd wr, s.table fd ≠ .accepted rd wr
  finite : ∃ k, ∀ fd, k ≤ fd → s.table fd = .closed

end Control

def controlLoop (l : Listeners) : Machine Control Input Output where
  Init := Control.Start l
  step := Control.step l

end Upcalls.ControlLoop
