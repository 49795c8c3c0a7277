import Mathlib.Data.Multiset.AddSub
import Upcalls.Model.UpcallEcho

/-! # The echo server and its pool buffers

The upcall echo server together with the buffers that `upcall_worker_setup` allocates. The
kernel keeps the buffers of a worker's `UP_VEC` records in a pool for that worker, and it
attaches one to a read completion as it likes.
-/

namespace Upcalls.UpcallEcho

open Library LibUpcall TcpEcho

/-- `array` are the entries of a worker's `buffers` that the next submit hands over, and
`kernel` is the kernel's pool for that worker. -/
structure Pooled (n : ℕ) where
  server : Server n
  array : Fin n → List IoVec
  kernel : Fin n → Multiset IoVec

namespace Pooled

variable {n : ℕ}

/-- `attached` is the buffer that the kernel takes out of its pool for the completion;
without one `buf` is `NULL`. -/
inductive Input (n : ℕ)
  | submit (w : Fin n)
  | complete (w : Fin n) (i : ℕ) (result : ℤ) (attached : Option IoVec)
  | receive (w : Fin n)
  | dispatch (w : Fin n)

/-! ## Buffers on their way -/

/-- The entries that the `UP_VEC` records of a batch point at. -/
def handed (array : List IoVec) (batch : List (Request Handler)) : List IoVec :=
  batch.flatMap fun
    | .vec len => array.take len
    | _ => []

def isRead : Request Handler → Bool
  | .read _ _ => true
  | _ => false

/-- The buffer that a completion carries. -/
def attached (e : UpEvent Handler) : Option IoVec :=
  if e.buf = .null then none else some ⟨e.buf, e.len⟩

/-- The `return_buffer` calls of a handler. -/
def returned (effects : List Effect) : List IoVec :=
  effects.filterMap fun
    | .returnBuffer buf len => some ⟨buf, len⟩
    | _ => none

/-- `memcpy` of anything from `NULL` ends the program. -/
def faults (effects : List Effect) : Bool :=
  effects.any fun
    | .memcpy _ src len => src = .null ∧ 0 < len
    | _ => false

/-! ## Steps -/

/-- The batch has the `UP_VEC` records, and `buf_cnt` is back at 0 behind it. -/
def submit (w : Fin n) (s : Pooled n) : Option (Pooled n) :=
  (s.server.submit w).map fun server =>
    { server
      array := Function.update s.array w []
      kernel := Function.update s.kernel w
        (s.kernel w + handed (s.array w) (s.server.worker w).queue.batch) }

def complete (w : Fin n) (i : ℕ) (result : ℤ) (attached : Option IoVec) (s : Pooled n) :
    Option (Pooled n) :=
  match attached with
  | none => (s.server.complete w i result .null 0).map fun server => { s with server }
  | some v =>
      if v ∈ s.kernel w ∧ (s.server.worker w).outstanding[i]?.any isRead = true then
        (s.server.complete w i result v.base v.len).map fun server =>
          { s with server, kernel := Function.update s.kernel w ((s.kernel w).erase v) }
      else none

def receive (w : Fin n) (s : Pooled n) : Option (Pooled n) :=
  (s.server.receive w).map fun server => { s with server }

def dispatch (msgSize : ℕ) (w : Fin n) (s : Pooled n) : Option (Pooled n × Output) :=
  match s.server.dispatch msgSize w with
  | some (server, .dispatched e effects) =>
      if faults effects then none
      else
        some ({ s with
          server
          array := Function.update s.array w (s.array w ++ returned effects) },
          .dispatched e effects)
  | _ => none

def step (msgSize : ℕ) (s : Pooled n) : Input n → Option (Pooled n × Output)
  | .submit w => (s.submit w).map (·, .silent)
  | .complete w i result attached => (s.complete w i result attached).map (·, .silent)
  | .receive w => (s.receive w).map (·, .silent)
  | .dispatch w => s.dispatch msgSize w

/-! ## Who has the buffers -/

/-- The buffers of completions that worker `w` has not handled yet. -/
def waiting (s : Pooled n) (w : Fin n) : List IoVec :=
  (s.server.worker w).queue.undispatched.filterMap attached

/-- The buffers of worker `w`: in the pool, in its array or in its completions. -/
def owned (s : Pooled n) (w : Fin n) : Multiset IoVec :=
  s.kernel w + (s.array w ++ s.waiting w : List IoVec)

end Pooled

/-- `upcall_init(BUF_COUNT, msg_size, …)`: every worker begins with an array of `BUF_COUNT`
allocated buffers of `msg_size` bytes. -/
def echoPool (n msgSize : ℕ) : Machine (Pooled n) (Pooled.Input n) Output where
  Init s := s.server.Start ∧ ∀ w, s.kernel w = 0 ∧ (s.array w).length = BUF_COUNT ∧
    ∀ v ∈ s.array w, v.base ≠ .null ∧ v.len = msgSize
  step := Pooled.step msgSize

end Upcalls.UpcallEcho
