import Upcalls.Model.LibUpcall

/-! # The purpose of the worker queues

What libupcall promises its users, with no arrays and no capacities: requests wait in
an unbounded list, the returned buffers are counted, and a submit hands over the list,
starts a new one and leaves the completions to be dispatched one by one.
-/

namespace Upcalls.LibUpcall

open Library

/-! ## Requests -/

/-- What a record of the batch asks the kernel for. -/
inductive Request (φ : Type)
  | read (fd : ℤ) (workFn : Option φ)
  | write (fd : ℤ) (buf : Ptr) (len : ℕ) (workFn : Option φ)
  | accept (fd : ℤ) (workFn : Option φ)
  | vec (len : ℕ)
  | close (fd : ℤ) (workFn : Option φ)
  deriving DecidableEq, Repr

variable {φ : Type}

def UpEvent.request (e : UpEvent φ) : Request φ :=
  match e.type with
  | .upRead => .read e.fd e.workFn
  | .upWrite => .write e.fd e.buf e.len e.workFn
  | .upAccept => .accept e.fd e.workFn
  | .upVec => .vec e.len
  | .upClose => .close e.fd e.workFn

/-- The request of an `add_*` call; `return_buffer` makes none. -/
def Call.request : Call φ → Option (Request φ)
  | .addRead fd workFn => some (.read fd workFn)
  | .addWrite fd buf len workFn => some (.write fd buf len workFn)
  | .addAccept fd workFn => some (.accept fd workFn)
  | .addClose fd => some (.close fd none)
  | .returnBuffer _ _ => none

/-! ## The list queue -/

structure ListQueue (φ : Type) where
  pending : List (Request φ)
  returned : ℕ
  undispatched : List (UpEvent φ)

namespace ListQueue

inductive Input (φ : Type)
  | request (r : Request φ)
  | returnBuffer
  | submit (completions : List (UpEvent φ))
  | dispatch

inductive Output (φ : Type)
  | silent
  | submitted (batch : List (Request φ))
  | dispatched (event : UpEvent φ)

/-- The requests in call order, and one `UP_VEC` behind them when buffers came back. -/
def batch (q : ListQueue φ) : List (Request φ) :=
  q.pending ++ if 0 < q.returned then [.vec q.returned] else []

/-- Only completions with a handler are dispatched. -/
def submitted (completions : List (UpEvent φ)) : ListQueue φ :=
  ⟨[], 0, completions.filter (·.workFn.isSome)⟩

/-- A submit waits until every completion of the previous one was dispatched. -/
def step (q : ListQueue φ) : Input φ → Option (ListQueue φ × Output φ)
  | .request r => some ({ q with pending := q.pending ++ [r] }, .silent)
  | .returnBuffer => some ({ q with returned := q.returned + 1 }, .silent)
  | .submit completions =>
      match q.undispatched with
      | [] => some (submitted completions, .submitted q.batch)
      | _ :: _ => none
  | .dispatch =>
      match q.undispatched with
      | [] => none
      | event :: rest => some ({ q with undispatched := rest }, .dispatched event)

end ListQueue

/-- The first batch begins with the `UP_VEC` of the initial pool. -/
def listQueue (φ : Type) (batchSz : ℕ) :
    Machine (ListQueue φ) (ListQueue.Input φ) (ListQueue.Output φ) where
  Init q := q = ⟨[.vec batchSz], 0, []⟩
  step := ListQueue.step

/-! ## The view of the array queue -/

/-- What the users and the kernel see of a step of the thread. -/
def observe : Input φ × Output φ → Option (ListQueue.Input φ × ListQueue.Output φ)
  | (.call _ c, _) =>
      match c.request with
      | some r => some (.request r, .silent)
      | none => some (.returnBuffer, .silent)
  | (.submit _ completions, .submitted batch) =>
      some (.submit completions, .submitted (batch.map UpEvent.request))
  | (.dispatch, .dispatched event) => some (.dispatch, .dispatched event)
  | _ => none

end Upcalls.LibUpcall
