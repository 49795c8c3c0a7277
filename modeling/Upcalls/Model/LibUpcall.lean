import Mathlib.Data.Int.Notation
import Upcalls.Library.Machine
import Upcalls.Library.Memory

/-! # The worker queues of libupcall

The thread-local state of one libupcall worker and the functions of `upcall.c` that
read and write it. `φ` stands for the event handlers that may be stored in `work_fn`.
A function answers `none` when it would touch memory outside the block it works on.
-/

namespace Upcalls.LibUpcall

open Library

/-! ## Requests and completions -/

/-- `up_action_t`. -/
inductive UpAction
  | upRead
  | upWrite
  | upAccept
  | upVec
  | upClose
  deriving DecidableEq, Repr

/-- `struct up_event`. `pad` is the upper half of the `type`/`pad` union, which an
assignment to `type` leaves alone. -/
structure UpEvent (φ : Type) where
  fd : ℤ
  result : ℤ
  buf : Ptr
  len : ℕ
  workFn : Option φ
  type : UpAction
  pad : ℕ
  deriving DecidableEq, Repr

/-- `struct iovec`. -/
structure IoVec where
  base : Ptr
  len : ℕ
  deriving DecidableEq, Repr

variable {φ : Type}

/-- The record `memset` leaves behind. -/
def UpEvent.zero : UpEvent φ := ⟨0, 0, .null, 0, none, .upRead, 0⟩

def EVTS : ℕ := 4

/-! ## The state of a worker -/

/-- `work` and `receive` are the allocated arrays; `iovs` is the content of the array
that `buffers` points at, the only live `iovec` array of the worker. -/
structure Worker (φ : Type) where
  work : List (UpEvent φ)
  workCnt : ℕ
  workMax : ℕ
  receive : List (UpEvent φ)
  recvCnt : ℕ
  buffers : Ptr
  iovs : List IoVec
  bufCnt : ℕ
  bufMax : ℕ

/-- What `realloc` answers: where the `iovec` array ends up, and the indeterminate
contents of the elements it adds. -/
structure Realloc (φ : Type) where
  addr : Ptr
  slot : ℕ → UpEvent φ
  iov : ℕ → IoVec

namespace Worker

/-! ## Queueing requests -/

def expandQueue (r : Realloc φ) (w : Worker φ) : Worker φ :=
  { w with
    workMax := w.workMax + EVTS
    work := realloc w.work (w.workMax + EVTS) r.slot }

/-- The common part of `add_read`, `add_write`, `add_accept`, `add_close` and
`add_buffers`: grow a full queue, then fill the next slot and count it. -/
def enqueue (r : Realloc φ) (fill : UpEvent φ → UpEvent φ) (w : Worker φ) :
    Option (Worker φ) :=
  let w := if w.workCnt = w.workMax then w.expandQueue r else w
  w.work[w.workCnt]?.map fun slot =>
    { w with work := w.work.set w.workCnt (fill slot), workCnt := w.workCnt + 1 }

def addBuffers (r : Realloc φ) (bufs : Ptr) (cnt : ℕ) : Worker φ → Option (Worker φ) :=
  enqueue r fun _ => { (UpEvent.zero : UpEvent φ) with type := .upVec, buf := bufs, len := cnt }

def addRead (r : Realloc φ) (fd : ℤ) (workFn : Option φ) : Worker φ → Option (Worker φ) :=
  enqueue r fun _ => { (UpEvent.zero : UpEvent φ) with fd := fd, type := .upRead, workFn := workFn }

def addWrite (r : Realloc φ) (fd : ℤ) (buf : Ptr) (len : ℕ) (workFn : Option φ) :
    Worker φ → Option (Worker φ) :=
  enqueue r fun _ =>
    { (UpEvent.zero : UpEvent φ) with fd := fd, buf := buf, len := len, type := .upWrite, workFn := workFn }

/-- Unlike `addRead` and `addWrite`, no `memset`: the other fields of the slot stay. -/
def addAccept (r : Realloc φ) (fd : ℤ) (workFn : Option φ) : Worker φ → Option (Worker φ) :=
  enqueue r fun slot => { slot with fd := fd, type := .upAccept, workFn := workFn }

def addClose (r : Realloc φ) (fd : ℤ) : Worker φ → Option (Worker φ) :=
  enqueue r fun slot => { slot with fd := fd, type := .upClose, workFn := none }

/-! ## Returning buffers -/

def growBuffers (r : Realloc φ) (w : Worker φ) : Worker φ :=
  { w with
    bufMax := w.bufMax * 2
    buffers := r.addr
    iovs := realloc w.iovs (w.bufMax * 2) r.iov }

def returnBuffer (r : Realloc φ) (buf : Ptr) (len : ℕ) (w : Worker φ) : Option (Worker φ) :=
  let w := if w.bufCnt = w.bufMax then w.growBuffers r else w
  w.iovs[w.bufCnt]?.map fun _ =>
    { w with iovs := w.iovs.set w.bufCnt ⟨buf, len⟩, bufCnt := w.bufCnt + 1 }

/-! ## Setup -/

/-- `upcall_worker_setup`. `array` is the address of the `iovec` array and `pool` the
addresses of the buffers allocated for it. The `UP_VEC` is queued with `buf_cnt` back
at 0, so the array it points at counts as empty from here on. -/
def upcallWorkerSetup (r : Realloc φ) (array : Ptr) (pool : Blocks) (batchSz bufSz : ℕ) :
    Option (Worker φ) :=
  addBuffers r array batchSz
    { work := List.replicate batchSz UpEvent.zero
      workCnt := 0
      workMax := batchSz
      receive := List.replicate batchSz UpEvent.zero
      recvCnt := batchSz
      buffers := array
      iovs := (pool.firsts batchSz).map fun base => ⟨base, bufSz⟩
      bufCnt := 0
      bufMax := batchSz }

/-! ## One turn of `run_event_loop` -/

/-- The batch of the coming submit also gets the returned buffers. -/
def gatherBuffers (r : Realloc φ) (w : Worker φ) : Option (Worker φ) :=
  if 0 < w.bufCnt then w.addBuffers r w.buffers w.bufCnt else some w

/-- What `upcall_submit` reads: the first `work_cnt` records at `work`. -/
def batch (w : Worker φ) : Option (List (UpEvent φ)) :=
  if w.workCnt ≤ w.work.length then some (w.work.take w.workCnt) else none

/-- The kernel fills `receive` from the front; both queues start over. -/
def submitted (completions : List (UpEvent φ)) (w : Worker φ) : Worker φ :=
  { w with
    receive := completions ++ w.receive.drop completions.length
    bufCnt := 0
    workCnt := 0 }

def clearReceive (w : Worker φ) : Worker φ :=
  { w with receive := List.replicate w.recvCnt UpEvent.zero }

end Worker

/-! ## What user code may call -/

inductive Call (φ : Type)
  | addRead (fd : ℤ) (workFn : Option φ)
  | addWrite (fd : ℤ) (buf : Ptr) (len : ℕ) (workFn : Option φ)
  | addAccept (fd : ℤ) (workFn : Option φ)
  | addClose (fd : ℤ)
  | returnBuffer (buf : Ptr) (len : ℕ)
  deriving DecidableEq, Repr

def Worker.call (r : Realloc φ) : Call φ → Worker φ → Option (Worker φ)
  | .addRead fd workFn => Worker.addRead r fd workFn
  | .addWrite fd buf len workFn => Worker.addWrite r fd buf len workFn
  | .addAccept fd workFn => Worker.addAccept r fd workFn
  | .addClose fd => Worker.addClose r fd
  | .returnBuffer buf len => Worker.returnBuffer r buf len

/-! ## The worker thread

`upcall_worker_fn` as a machine: setup, then forever one turn of the event loop and
one call of `loop_fn`. User code runs in `setup_fn`, in the event handlers and in
`loop_fn`; each of its calls into the library is a step.
-/

inductive Phase
  | setup
  | top
  | dispatch (i ret : ℕ)
  | handler (i ret : ℕ)
  | loop
  deriving DecidableEq, Repr

/-- Is user code running? -/
def Phase.user : Phase → Bool
  | .setup | .handler _ _ | .loop => true
  | .top | .dispatch _ _ => false

structure Thread (φ : Type) where
  worker : Worker φ
  phase : Phase

inductive Input (φ : Type)
  | call (r : Realloc φ) (c : Call φ)
  | setupDone
  | submit (r : Realloc φ) (completions : List (UpEvent φ))
  | dispatch
  | handlerDone
  | loopDone

inductive Output (φ : Type)
  | silent
  | submitted (batch : List (UpEvent φ))
  | dispatched (event : UpEvent φ)

namespace Thread

/-- `upcall_submit` returns at most `recv_cnt` completions. -/
def submit (r : Realloc φ) (completions : List (UpEvent φ)) (t : Thread φ) :
    Option (Thread φ × Output φ) :=
  if t.phase = .top ∧ completions.length ≤ t.worker.recvCnt then do
    let w ← t.worker.gatherBuffers r
    let batch ← w.batch
    return (⟨w.submitted completions, .dispatch 0 completions.length⟩, .submitted batch)
  else none

/-- One turn of the `for` loop over the completions; `work_fn` is never called blindly. -/
def dispatch (t : Thread φ) : Option (Thread φ × Output φ) :=
  match t.phase with
  | .dispatch i ret =>
      if i < ret then
        t.worker.receive[i]?.map fun event =>
          match event.workFn with
          | none => ({ t with phase := .dispatch (i + 1) ret }, .silent)
          | some _ => ({ t with phase := .handler i ret }, .dispatched event)
      else some (⟨t.worker.clearReceive, .loop⟩, .silent)
  | _ => none

def step (t : Thread φ) : Input φ → Option (Thread φ × Output φ)
  | .call r c =>
      if t.phase.user then
        (t.worker.call r c).map fun w => ({ t with worker := w }, .silent)
      else none
  | .setupDone => if t.phase = .setup then some ({ t with phase := .top }, .silent) else none
  | .submit r completions => t.submit r completions
  | .dispatch => t.dispatch
  | .handlerDone =>
      match t.phase with
      | .handler i ret => some ({ t with phase := .dispatch (i + 1) ret }, .silent)
      | _ => none
  | .loopDone => if t.phase = .loop then some ({ t with phase := .top }, .silent) else none

end Thread

/-- The thread of one worker, from the call of `setup_fn` on. -/
def thread (φ : Type) (batchSz bufSz : ℕ) : Machine (Thread φ) (Input φ) (Output φ) where
  Init t := ∃ r array pool,
    Worker.upcallWorkerSetup r array pool batchSz bufSz = some t.worker ∧ t.phase = .setup
  step := Thread.step

end Upcalls.LibUpcall
